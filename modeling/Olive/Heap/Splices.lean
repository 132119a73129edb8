import Olive.Heap.Layout

/-!
# Changing the list of minor blocks in memory

Linking a minor block in and taking one out change the same places: the links of its two
neighbours and the pointer to the first block. `Splices` says so of two memories. From it
follow, for every block that stays in the list, what it keeps, and the new links of the
whole list.
-/

namespace Olive

open Library Memory

namespace MajorBlock

variable {B : MajorBlock} {a b : MinorBlock}

theorem minors_apart (ha : a ∈ B.minors) (hb : b ∈ B.minors) (hne : a ≠ b) :
    a.stop ≤ b.start ∨ b.stop ≤ a.start := by
  have hall : B.minors.Pairwise fun a b => a.stop ≤ b.start ∨ b.stop ≤ a.start :=
    B.packed.pairwise.imp Or.inl
  have hsymm : Std.Symm fun a b : MinorBlock => a.stop ≤ b.start ∨ b.stop ≤ a.start :=
    ⟨fun _ _ => Or.symm⟩
  exact hall.forall ha hb hne

theorem nodup_minors (B : MajorBlock) : B.minors.Nodup := by
  apply B.packed.pairwise.imp
  rintro a b hab rfl
  have := a.start_lt_stop
  omega

theorem nodup_addrs (B : MajorBlock) : (B.minors.map MinorBlock.addr).Nodup := by
  apply List.pairwise_map.mpr
  apply B.packed.pairwise.imp
  intro a b hab heq
  have := a.start_lt_stop
  unfold MinorBlock.start at this hab
  rw [heq] at this
  omega

theorem clear_minors (ha : a ∈ B.minors) (hb : b ∈ B.minors) (hne : a ≠ b) :
    Clear a.addr b.addr := by
  have hasize := a.start_lt_stop
  have hbsize := b.start_lt_stop
  rcases minors_apart ha hb hne with h | h
  · left
    unfold MinorBlock.start at hasize h
    omega
  · right
    unfold MinorBlock.start at hbsize h
    omega

theorem clear_header (hb : b ∈ B.minors) : Clear B.addr b.addr := Or.inl (minor_bounds hb).1

end MajorBlock

/-- The header of the major block, that of `b`, and those of its neighbours. -/
def splicedSpan (maj : Word) (xs ys : List MinorBlock) (b : MinorBlock) : Set ℕ :=
  {x | x ∈ headerSpan maj ∨ x ∈ headerSpan b.addr ∨
    ∃ a, (xs.getLast? = some a ∨ ys.head? = some a) ∧ x ∈ headerSpan a.addr}

/-- The list `xs ++ ys` is cut where `b` is or will be: behind `xs` the links go on to
`after`, and in front of `ys` they go back to `before`. -/
structure Splices (m m' : Memory 64) (maj : Word) (xs ys : List MinorBlock) (b : MinorBlock)
    (before after : Word) : Prop where
  last : ∀ a, xs.getLast? = some a → minorAt m' a.addr = { minorAt m a.addr with next := after }
  head : ∀ a, ys.head? = some a → minorAt m' a.addr = { minorAt m a.addr with prev := before }
  major : majorAt m' maj =
    { majorAt m maj with first := if xs = [] then after else (majorAt m maj).first }
  same : SameOn (splicedSpan maj xs ys b)ᶜ m m'

section Splices

variable {m m' : Memory 64} {B : MajorBlock} {xs ys : List MinorBlock} {b c : MinorBlock}
  {before after : Word}

theorem mem_of_rest (hB : B.minors = xs ++ b :: ys) (hc : c ∈ xs ++ ys) : c ∈ B.minors ∧ c ≠ b :=
  mem_of_split B.nodup_minors hB hc

theorem mem_of_neighbour (hB : B.minors = xs ++ b :: ys)
    (h : xs.getLast? = some c ∨ ys.head? = some c) : c ∈ B.minors ∧ c ≠ b := by
  rcases h with h | h
  · exact mem_of_rest hB (List.mem_append_left _ (List.mem_of_mem_getLast? h))
  · exact mem_of_rest hB (List.mem_append_right _ (List.mem_of_mem_head? h))

theorem splicedSpan_subset (hB : B.minors = xs ++ b :: ys) : splicedSpan B.addr xs ys b ⊆ B.span := by
  have hmem : ∀ c ∈ B.minors, headerSpan c.addr ⊆ B.span := fun c hc =>
    c.header_subset.trans ((MajorBlock.minor_subset hc).trans B.behind_subset)
  rintro x (hx | hx | ⟨c, hc, hx⟩)
  · exact B.header_subset hx
  · exact hmem b (by rw [hB]; simp) hx
  · exact hmem c (mem_of_neighbour hB hc).1 hx

theorem Splices.keeps_payload (hs : Splices m m' B.addr xs ys b before after)
    (hB : B.minors = xs ++ b :: ys) (hc : c ∈ B.minors) :
    SameOn (Set.Ico (c.start + 40) c.stop) m m' := by
  apply hs.same.mono
  have hbounds := MajorBlock.minor_bounds hc
  have hother : ∀ x a, a ∈ B.minors → x ∈ Set.Ico (c.start + 40) c.stop → x ∉ headerSpan a.addr := by
    rintro x a ha ⟨hlo, hhi⟩ hx
    unfold headerSpan at hx
    rw [Set.mem_Ico] at hx
    by_cases hac : a = c
    · subst hac
      unfold MinorBlock.start at hlo
      omega
    · have hapart := MajorBlock.minors_apart hc ha (Ne.symm hac)
      have hasize := a.start_lt_stop
      unfold MinorBlock.start at hapart hasize hlo
      omega
  rintro x hx (hm | hm | ⟨a, ha, hm⟩)
  · unfold headerSpan at hm
    rw [Set.mem_Ico] at hm hx
    unfold MajorBlock.start at hbounds
    omega
  · exact hother x b (by rw [hB]; simp) hx hm
  · exact hother x a (mem_of_neighbour hB ha).1 hx hm

theorem Splices.keeps_header (hs : Splices m m' B.addr xs ys b before after)
    (hB : B.minors = xs ++ b :: ys) (hc : c ∈ xs ++ ys) (hlast : xs.getLast? ≠ some c)
    (hhead : ys.head? ≠ some c) : minorAt m' c.addr = minorAt m c.addr := by
  obtain ⟨hcB, hcb⟩ := mem_of_rest hB hc
  have hbB : b ∈ B.minors := by rw [hB]; simp
  apply minorAt_congr (c.inSpace (MajorBlock.minor_stop_le hcB))
  apply hs.same.mono
  rintro x hxc (hx | hx | ⟨a, ha, hx⟩)
  · exact headerSpan_subset (MajorBlock.clear_header hcB) hxc hx
  · exact headerSpan_subset (MajorBlock.clear_minors hbB hcB hcb.symm) hxc hx
  · have hac : a ≠ c := by
      rintro rfl
      exact ha.elim hlast hhead
    exact headerSpan_subset (MajorBlock.clear_minors (mem_of_neighbour hB ha).1 hcB hac) hxc hx

/-- Every block that stays in the list is stored as before. -/
theorem Splices.keeps_stored (hs : Splices m m' B.addr xs ys b before after)
    (hB : B.minors = xs ++ b :: ys) (hc : c ∈ xs ++ ys) {maj : Word} (hstored : c.Stored maj m) :
    c.Stored maj m' := by
  obtain ⟨hcB, -⟩ := mem_of_rest hB hc
  have hfields : (minorAt m' c.addr).block = (minorAt m c.addr).block ∧
      (minorAt m' c.addr).magic = (minorAt m c.addr).magic ∧
      (minorAt m' c.addr).size = (minorAt m c.addr).size ∧
      (minorAt m' c.addr).reqSize = (minorAt m c.addr).reqSize := by
    by_cases hlast : xs.getLast? = some c
    · rw [hs.last c hlast]
      exact ⟨rfl, rfl, rfl, rfl⟩
    · by_cases hhead : ys.head? = some c
      · rw [hs.head c hhead]
        exact ⟨rfl, rfl, rfl, rfl⟩
      · rw [hs.keeps_header hB hc hlast hhead]
        exact ⟨rfl, rfl, rfl, rfl⟩
  have hbyte : m' (c.payload - 16) = m (c.payload - 16) := by
    obtain ⟨-, hlo, hhi, -⟩ := MinorBlock.payload_bounds (MajorBlock.minor_stop_le hcB)
    have hsize := c.start_lt_stop
    apply hs.keeps_payload hB hcB
    rw [Set.mem_Ico]
    bv_omega
  obtain ⟨hblock, hmagic, hsize, hreq⟩ := hfields
  constructor
  · rw [hblock, hstored.block]
  · rw [hmagic, hstored.magic]
  · rw [hsize, hstored.size]
  · rw [hreq, hstored.reqSize]
  · rw [hbyte, hstored.distance]

theorem Splices.relinked (hs : Splices m m' B.addr xs ys b before after)
    (hB : B.minors = xs ++ b :: ys) :
    Relinked (fun a => (minorAt m a).prev) (fun a => (minorAt m a).next)
      (fun a => (minorAt m' a).prev) (fun a => (minorAt m' a).next)
      (xs.map MinorBlock.addr) (ys.map MinorBlock.addr) before after := by
  constructor
  · intro x hx
    rw [List.getLast?_map, Option.map_eq_some_iff] at hx
    obtain ⟨a, ha, rfl⟩ := hx
    simp only [hs.last a ha]
  · intro y hy
    rw [List.head?_map, Option.map_eq_some_iff] at hy
    obtain ⟨a, ha, rfl⟩ := hy
    simp only [hs.head a ha]
  · intro x hx hne
    rw [← List.map_append] at hx
    obtain ⟨c, hc, rfl⟩ := List.mem_map.mp hx
    by_cases hlast : xs.getLast? = some c
    · simp only [hs.last c hlast]
    · have hhead : ys.head? ≠ some c := by
        intro hy
        apply hne
        rw [List.head?_map, hy]
        rfl
      simp only [hs.keeps_header hB hc hlast hhead]
  · intro x hx hne
    rw [← List.map_append] at hx
    obtain ⟨c, hc, rfl⟩ := List.mem_map.mp hx
    by_cases hhead : ys.head? = some c
    · simp only [hs.head c hhead]
    · have hlast : xs.getLast? ≠ some c := by
        intro hy
        apply hne
        rw [List.getLast?_map, hy]
        rfl
      simp only [hs.keeps_header hB hc hlast hhead]

end Splices

end Olive
