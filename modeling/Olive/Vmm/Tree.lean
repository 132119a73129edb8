import Olive.Vmm.Tables

/-!
# The tree of page tables

The tables of all page maps form a forest: no table is shared between two slots,
two levels or two page maps, and every present entry above the last level is a
table entry with all permissions. The two changes `vmm.c` makes to the tables are
linking a cleared frame into an empty slot and writing an entry of a page table.
Both keep the forest, and each translation is affected by the second one only, and
only for the page it is made for.
-/

namespace Olive

open Library

/-- The entry `get_below_pml` links a new table with. -/
def tableEntry (f : Frame) : Word :=
  frameAddr f ||| pteBitPresent ||| pteBitReadWrite ||| pteBitAccessAll

def child (T : Tables) (f : Frame) (i : Index) : Option Frame :=
  if Present (T f i) then some (frameOf (T f i)) else none

/-- The leaf entry the walk of a page ends with. -/
def walk (T : Tables) (root : Frame) (page : Page) : Option Word :=
  (follow (child T) root (pathOf page)).bind fun pt =>
    if Present (T pt (ptIndex page)) then some (T pt (ptIndex page)) else none

theorem present_tableEntry (f : Frame) : Present (tableEntry f) := by
  have hbit : (tableEntry f &&& pteBitPresent).getLsbD 0 = true := by
    simp [tableEntry, pteBitPresent]
  intro h
  rw [h] at hbit
  simp at hbit

theorem frameOf_tableEntry (f : Frame) : frameOf (tableEntry f) = f := by
  rw [tableEntry, BitVec.or_assoc, BitVec.or_assoc]
  exact frameOf_frameAddr_or f (by decide)

theorem not_present_zero : ¬ Present 0 := by decide

/-- What holds of the tables of all page maps, whose PML4 frames are `roots`. -/
structure TreeInv (hhdmOffset : Word) (roots : Set Frame) (T : Tables) : Prop where
  separated : Separated (child T) roots 3
  nonleaf : ∀ r ∈ roots, ∀ p f, p.length < 3 → follow (child T) r p = some f →
    ∀ i, Present (T f i) → T f i = tableEntry (frameOf (T f i))
  -- the code takes a table at address 0 for a missing one and puts nothing into it
  null_empty : ∀ r ∈ roots, ∀ p f, p ≠ [] → p.length ≤ 3 → follow (child T) r p = some f →
    tableAddr hhdmOffset f = 0 → ∀ i, ¬ Present (T f i)

section Start

variable {hhdmOffset : Word} {roots : Set Frame} {T : Tables}

theorem follow_cleared (h : ∀ r ∈ roots, ∀ i, T r i = 0) {r f : Frame} (hr : r ∈ roots)
    {p : List Index} (hf : follow (child T) r p = some f) : p = [] ∧ r = f := by
  cases p with
  | nil => exact ⟨rfl, Option.some.inj hf⟩
  | cons i p =>
    have hnone : child T r i = none := by
      rw [child, h r hr i]
      exact if_neg not_present_zero
    simp [hnone] at hf

theorem TreeInv.of_cleared (h : ∀ r ∈ roots, ∀ i, T r i = 0) : TreeInv hhdmOffset roots T where
  separated := by
    intro r hr r' hr' p q f _ _ hp hq
    obtain ⟨rfl, rfl⟩ := follow_cleared h hr hp
    obtain ⟨rfl, rfl⟩ := follow_cleared h hr' hq
    exact ⟨rfl, rfl⟩
  nonleaf := by
    intro r hr p f _ hp i hpresent
    obtain ⟨rfl, rfl⟩ := follow_cleared h hr hp
    rw [h r hr i] at hpresent
    exact absurd hpresent not_present_zero
  null_empty := by
    intro r hr p f hne _ hp
    exact absurd (follow_cleared h hr hp).1 hne

theorem walk_cleared (h : ∀ r ∈ roots, ∀ i, T r i = 0) {r : Frame} (hr : r ∈ roots) (page : Page) :
    walk T r page = none := by
  cases hf : follow (child T) r (pathOf page) with
  | none => rw [walk, hf]; rfl
  | some pt => simpa [pathOf] using (follow_cleared h hr hf).1

end Start

/-! ## Linking a new table -/

/-- `T'` is `T` after the cleared frame `n` was linked into the empty slot `i` of the
table at the path `p` of the page map `r`. -/
structure Linked (hhdmOffset : Word) (roots : Set Frame) (T T' : Tables) (r : Frame)
    (p : List Index) (i : Index) (n : Frame) : Prop where
  root : r ∈ roots
  depth : p.length < 3
  parent : ∃ f, follow (child T) r p = some f ∧ (p = [] ∨ tableAddr hhdmOffset f ≠ 0) ∧
    ¬ Present (T f i) ∧ T' = (T.clear n).set f i (tableEntry n)
  fresh : ¬ Reached (child T) roots 3 n

section Link

variable {hhdmOffset : Word} {roots : Set Frame} {T T' : Tables} {r n : Frame} {p : List Index}
  {i : Index}

theorem Reached.of_follow {d : ℕ} {f : Frame} (hr : r ∈ roots) (hd : p.length ≤ d)
    (hf : follow (child T) r p = some f) : Reached (child T) roots d f := ⟨r, hr, p, hd, hf⟩

theorem child_eq_none {T : Tables} {f : Frame} {i : Index} (h : ¬ Present (T f i)) :
    child T f i = none := if_neg h

/-! The entries after the link: the new one, the cleared table, and all others. -/

section Entries

variable {f g : Frame} {j : Index}

theorem linked_here : ((T.clear n).set f i (tableEntry n)) f i = tableEntry n := if_pos ⟨rfl, rfl⟩

theorem linked_cleared (hne : f ≠ n) : ((T.clear n).set f i (tableEntry n)) n j = 0 :=
  (if_neg fun h => hne h.1.symm).trans (if_pos rfl)

theorem linked_elsewhere (hg : g ≠ n) (hj : g = f → j ≠ i) :
    ((T.clear n).set f i (tableEntry n)) g j = T g j :=
  (if_neg fun h => hj h.1 h.2).trans (if_neg hg)

theorem linkedAt (hne : f ≠ n) :
    LinkedAt (child T) (child ((T.clear n).set f i (tableEntry n))) f i n where
  here := by
    rw [child, linked_here, if_pos (present_tableEntry n), frameOf_tableEntry]
  empty := by
    intro j
    rw [child, linked_cleared hne]
    exact if_neg not_present_zero
  elsewhere := by
    intro g j hg hj
    rw [child, linked_elsewhere hg hj, child]

end Entries

theorem Linked.follow_none (h : Linked hhdmOffset roots T T' r p i n) :
    follow (child T) r (p ++ [i]) = none := by
  obtain ⟨f, hf, -, hfree, -⟩ := h.parent
  rw [follow_concat, hf]
  exact child_eq_none hfree

theorem Linked.cleared (h : Linked hhdmOffset roots T T' r p i n) (j : Index) : T' n j = 0 := by
  obtain ⟨f, hf, -, -, rfl⟩ := h.parent
  exact linked_cleared fun he => h.fresh (he ▸ Reached.of_follow h.root h.depth.le hf)

theorem Linked.entry_new (h : Linked hhdmOffset roots T T' r p i n) {f : Frame}
    (hf : follow (child T) r p = some f) : T' f i = tableEntry n := by
  obtain ⟨f', hf', -, -, rfl⟩ := h.parent
  obtain rfl : f' = f := Option.some.inj (hf'.symm.trans hf)
  exact linked_here

variable (hinv : TreeInv hhdmOffset roots T) (h : Linked hhdmOffset roots T T' r p i n)
include hinv h

theorem Linked.follow_eq {r' : Frame} (hr' : r' ∈ roots) {q : List Index} (hq : q.length ≤ 3) :
    follow (child T') r' q =
      if r' = r ∧ q = p ++ [i] then some n else follow (child T) r' q := by
  obtain ⟨f, hf, -, hfree, rfl⟩ := h.parent
  have hne : f ≠ n := fun he => h.fresh (he ▸ Reached.of_follow h.root h.depth.le hf)
  exact (linkedAt hne).follow_eq hinv.separated h.root hf h.depth (child_eq_none hfree) h.fresh hr' hq

theorem Linked.reached_iff (m : Frame) :
    Reached (child T') roots 3 m ↔ m = n ∨ Reached (child T) roots 3 m := by
  obtain ⟨f, hf, -, hfree, rfl⟩ := h.parent
  have hne : f ≠ n := fun he => h.fresh (he ▸ Reached.of_follow h.root h.depth.le hf)
  exact (linkedAt hne).reached_iff hinv.separated h.root hf h.depth (child_eq_none hfree) h.fresh m

theorem Linked.follow_mono {r' f : Frame} (hr' : r' ∈ roots) {q : List Index} (hq : q.length ≤ 3)
    (hf : follow (child T) r' q = some f) : follow (child T') r' q = some f := by
  rw [h.follow_eq hinv hr' hq, if_neg, hf]
  rintro ⟨rfl, rfl⟩
  rw [h.follow_none] at hf
  cases hf

theorem Linked.entry_eq {r' g : Frame} (hr' : r' ∈ roots) {q : List Index} (hq : q.length ≤ 3)
    (hg : follow (child T) r' q = some g) (j : Index) (hj : r' = r → q ++ [j] ≠ p ++ [i]) :
    T' g j = T g j := by
  obtain ⟨f, hf, -, hfree, rfl⟩ := h.parent
  have hne : f ≠ n := fun he => h.fresh (he ▸ Reached.of_follow h.root h.depth.le hf)
  have hgn : g ≠ n := fun he => h.fresh (he ▸ Reached.of_follow hr' hq hg)
  refine linked_elsewhere hgn ?_
  rintro rfl rfl
  obtain ⟨rfl, rfl⟩ := hinv.separated r' hr' r h.root q p g hq h.depth.le hg hf
  exact hj rfl rfl

/-- A present entry above the last level never changes. -/
theorem Linked.nonleaf_kept {r' g : Frame} (hr' : r' ∈ roots) {q : List Index} (hq : q.length ≤ 3)
    (hg : follow (child T) r' q = some g) {j : Index} (hpresent : Present (T g j)) :
    T' g j = T g j := by
  apply h.entry_eq hinv hr' hq hg
  rintro rfl heq
  obtain ⟨rfl, hj⟩ := List.append_inj' heq rfl
  obtain ⟨f, hf, -, hfree, -⟩ := h.parent
  obtain rfl : f = g := Option.some.inj (hf.symm.trans hg)
  simp only [List.cons.injEq, and_true] at hj
  exact hfree (hj ▸ hpresent)

theorem Linked.treeInv : TreeInv hhdmOffset roots T' where
  separated := by
    obtain ⟨f, hf, -, hfree, rfl⟩ := h.parent
    have hne : f ≠ n := fun he => h.fresh (he ▸ Reached.of_follow h.root h.depth.le hf)
    exact (linkedAt hne).separated hinv.separated h.root hf h.depth (child_eq_none hfree) h.fresh
  nonleaf := by
    intro r' hr' q g hq hg j hpresent
    rw [h.follow_eq hinv hr' hq.le] at hg
    split_ifs at hg with hnew
    · cases hg
      rw [h.cleared] at hpresent
      exact absurd hpresent not_present_zero
    · by_cases hslot : r' = r ∧ q ++ [j] = p ++ [i]
      · obtain ⟨rfl, heq⟩ := hslot
        obtain ⟨rfl, hj⟩ := List.append_inj' heq rfl
        simp only [List.cons.injEq, and_true] at hj
        subst hj
        rw [h.entry_new hg, frameOf_tableEntry]
      · have heq := h.entry_eq hinv hr' hq.le hg j fun hr he => hslot ⟨hr, he⟩
        rw [heq] at hpresent ⊢
        exact hinv.nonleaf r' hr' q g hq hg j hpresent
  null_empty := by
    intro r' hr' q g hne hq hg hnull j
    rw [h.follow_eq hinv hr' hq] at hg
    split_ifs at hg with hnew
    · cases hg
      rw [h.cleared]
      exact not_present_zero
    · rw [h.entry_eq hinv hr' hq hg j]
      · exact hinv.null_empty r' hr' q g hne hq hg hnull j
      · -- the parent of the new table was reached through a pointer that is not null
        rintro rfl heq
        obtain ⟨rfl, -⟩ := List.append_inj' heq rfl
        obtain ⟨f, hf, hptr, -, -⟩ := h.parent
        obtain rfl : f = g := Option.some.inj (hf.symm.trans hg)
        exact hptr.elim hne fun hptr => hptr hnull

theorem Linked.walk_eq {r' : Frame} (hr' : r' ∈ roots) (page : Page) :
    walk T' r' page = walk T r' page := by
  unfold walk
  rw [h.follow_eq hinv hr' le_rfl]
  split_ifs with hnew
  · obtain ⟨rfl, hpath⟩ := hnew
    rw [hpath, h.follow_none]
    change (if Present (T' n _) then _ else _) = none
    rw [h.cleared, if_neg not_present_zero]
  · cases hpt : follow (child T) r' (pathOf page) with
    | none => rfl
    | some pt =>
      have hentry : T' pt (ptIndex page) = T pt (ptIndex page) := by
        apply h.entry_eq hinv hr' le_rfl hpt
        intro _ heq
        have hlen := congrArg List.length heq
        have hdepth := h.depth
        simp only [List.length_append, length_pathOf, List.length_singleton] at hlen
        omega
      change (if Present (T' pt _) then _ else _) = if Present (T pt _) then _ else _
      rw [hentry]

end Link

/-! ## Writing a leaf entry -/

section Write

variable {hhdmOffset : Word} {roots : Set Frame} {T : Tables} {r pt : Frame} {page : Page} {e : Word}
  (hinv : TreeInv hhdmOffset roots T) (hr : r ∈ roots)
  (hpt : follow (child T) r (pathOf page) = some pt)
include hinv hr hpt

theorem set_entry_eq {r' g : Frame} (hr' : r' ∈ roots) {q : List Index} (hq : q.length < 3)
    (hg : follow (child T) r' q = some g) (j : Index) :
    (T.set pt (ptIndex page) e) g j = T g j := by
  refine if_neg ?_
  rintro ⟨rfl, -⟩
  obtain ⟨-, rfl⟩ := hinv.separated r' hr' r hr q (pathOf page) g hq.le le_rfl hg hpt
  exact absurd hq (by simp)

theorem follow_set {r' : Frame} (hr' : r' ∈ roots) {q : List Index} (hq : q.length ≤ 3) :
    follow (child (T.set pt (ptIndex page) e)) r' q = follow (child T) r' q := by
  refine follow_eq_of_bottom hinv.separated hr hpt rfl ?_ hr' hq
  intro g j hg
  have hentry : (T.set pt (ptIndex page) e) g j = T g j := if_neg fun h => hg h.1
  rw [child, child, hentry]

theorem TreeInv.set (hptr : tableAddr hhdmOffset pt ≠ 0) :
    TreeInv hhdmOffset roots (T.set pt (ptIndex page) e) where
  separated := hinv.separated.of_follow_eq fun r' hr' q hq => follow_set hinv hr hpt hr' hq
  nonleaf := by
    intro r' hr' q g hq hg j
    rw [follow_set hinv hr hpt hr' hq.le] at hg
    rw [set_entry_eq hinv hr hpt hr' hq hg j]
    exact hinv.nonleaf r' hr' q g hq hg j
  null_empty := by
    intro r' hr' q g hne hq hg hnull j
    rw [follow_set hinv hr hpt hr' hq] at hg
    have hentry : (T.set pt (ptIndex page) e) g j = T g j := by
      refine if_neg ?_
      rintro ⟨rfl, -⟩
      exact hptr hnull
    rw [hentry]
    exact hinv.null_empty r' hr' q g hne hq hg hnull j

/-- A leaf write is a point update of the translations. -/
theorem walk_set {r' : Frame} (hr' : r' ∈ roots) (page' : Page) :
    walk (T.set pt (ptIndex page) e) r' page' =
      if r' = r ∧ page' = page then if Present e then some e else none else walk T r' page' := by
  unfold walk
  rw [follow_set hinv hr hpt hr' le_rfl]
  split_ifs with hsame hpresent
  · obtain ⟨rfl, rfl⟩ := hsame
    rw [hpt]
    simp [Tables.set, hpresent]
  · obtain ⟨rfl, rfl⟩ := hsame
    rw [hpt]
    simp [Tables.set, hpresent]
  · cases hpt' : follow (child T) r' (pathOf page') with
    | none => rfl
    | some pt' =>
      have hentry : (T.set pt (ptIndex page) e) pt' (ptIndex page') = T pt' (ptIndex page') := by
        refine if_neg ?_
        rintro ⟨rfl, hidx⟩
        obtain ⟨rfl, hpath⟩ := hinv.separated r' hr' r hr _ _ pt' le_rfl le_rfl hpt' hpt
        exact hsame ⟨rfl, page_ext hpath hidx⟩
      change (if Present _ then _ else _) = if Present _ then _ else _
      rw [hentry]

end Write

end Olive
