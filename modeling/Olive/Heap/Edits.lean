import Olive.Heap.Splices

/-!
# Changing the list of major blocks

The three edits of a layout: one major block changes inside its pages, a new one is put
behind the last one, and one is taken out. Each comes with what the memory must satisfy for
the heap to represent the new layout.
-/

namespace Olive

open Library Memory

namespace Layout

variable {L : Layout} {B C : MajorBlock} {a b : MinorBlock}

theorem majors_apart (hB : B ∈ L.majors) (hC : C ∈ L.majors) (hne : B ≠ C) :
    B.stop ≤ C.start ∨ C.stop ≤ B.start := by
  have hsymm : Std.Symm fun B C : MajorBlock => B.stop ≤ C.start ∨ C.stop ≤ B.start :=
    ⟨fun _ _ => Or.symm⟩
  exact L.apart.forall hB hC hne

theorem nodup_addrs (L : Layout) : L.addrs.Nodup := by
  apply List.pairwise_map.mpr
  apply L.apart.imp
  intro B C hapart heq
  have hB := B.header_le
  have hC := C.header_le
  unfold MajorBlock.start at hapart hB hC
  rw [heq] at hapart hB
  omega

theorem nodup_runs (L : Layout) : L.runs.Nodup := by
  apply List.Nodup.of_map Prod.fst
  unfold runs
  rw [List.map_map]
  exact L.nodup_addrs

theorem nodup_majors (L : Layout) : L.majors.Nodup := L.nodup_addrs.of_map _

theorem mem_rest {Bs Cs : List MajorBlock} {D : MajorBlock} (hL : L.majors = Bs ++ B :: Cs)
    (hD : D ∈ Bs ++ Cs) : D ∈ L.majors ∧ D ≠ B :=
  mem_of_split L.nodup_majors hL hD

theorem disjoint_spans (hB : B ∈ L.majors) (hC : C ∈ L.majors) (hne : B ≠ C) :
    C.span ⊆ B.spanᶜ := by
  rintro x ⟨hlo, hhi⟩ ⟨hlo', hhi'⟩
  have := majors_apart hB hC hne
  omega

theorem clear_majors (hB : B ∈ L.majors) (hC : C ∈ L.majors) (hne : B ≠ C) :
    Clear B.addr C.addr := by
  have hBle := B.header_le
  have hCle := C.header_le
  rcases majors_apart hB hC hne with h | h
  · exact Or.inl (hBle.trans h)
  · exact Or.inr (hCle.trans h)

theorem span_subset_compl_header (hC : C ∈ L.majors) (hB : B ∈ L.majors) (hne : B ≠ C) :
    C.span ⊆ (headerSpan B.addr)ᶜ := by
  apply (disjoint_spans hB hC hne).trans
  exact Set.compl_subset_compl.mpr B.header_subset

/-- What lies behind the header of a major block is no part of any header. -/
theorem behind_subset_compl_header (hC : C ∈ L.majors) (hB : B ∈ L.majors) :
    Set.Ico (C.start + 40) C.stop ⊆ (headerSpan B.addr)ᶜ := by
  by_cases hBC : B = C
  · rw [hBC]
    exact C.behind_subset_compl
  · exact C.behind_subset.trans (span_subset_compl_header hC hB hBC)

theorem blocks_apart (L : Layout) :
    L.blocks.Pairwise fun a b => a.stop ≤ b.start ∨ b.stop ≤ a.start := by
  unfold blocks
  rw [List.flatMap_def, List.pairwise_flatten]
  constructor
  · intro bs hbs
    obtain ⟨B, -, rfl⟩ := List.mem_map.mp hbs
    exact B.packed.pairwise.imp Or.inl
  · apply List.pairwise_map.mpr
    apply L.apart.imp
    intro B C hapart a ha b hb
    have hab := MajorBlock.minor_bounds ha
    have hbb := MajorBlock.minor_bounds hb
    omega

theorem block_stop_le (hb : b ∈ L.blocks) : b.stop ≤ 2 ^ 64 := by
  obtain ⟨B, -, hbB⟩ := List.mem_flatMap.mp hb
  exact MajorBlock.minor_stop_le hbB

theorem headD_addrs_eq_zero_iff (L : Layout) : L.addrs.headD 0 = 0 ↔ L.majors = [] := by
  unfold addrs
  cases L.majors with
  | nil => simp
  | cons B Bs => simpa using B.addr_ne

end Layout

namespace Heap

variable {h h' : Heap} {L L' : Layout} {Bs Cs : List MajorBlock} {B B' : MajorBlock}

theorem Represents.next (hrep : h.Represents L) (hL : L.majors = Bs ++ B :: Cs) :
    h.mem.load64 (majNext B.addr) = (Cs.map MajorBlock.addr).headD 0 ∧
      (h.mem.load64 (majNext B.addr) = 0 ↔ Cs = []) := by
  have hlinked := hrep.linked
  unfold Layout.addrs at hlinked
  rw [hL, List.map_append, List.map_cons] at hlinked
  have hnext : h.mem.load64 (majNext B.addr) = (Cs.map MajorBlock.addr).headD 0 :=
    hlinked.neighbours.2
  refine ⟨hnext, ?_⟩
  rw [hnext]
  cases Cs with
  | nil => simp
  | cons C Cs => simpa using C.addr_ne

theorem Represents.set (hrep : h.Represents L) (hL : L.majors = Bs ++ B :: Cs)
    (hL' : L'.majors = Bs ++ B' :: Cs) (haddr : B'.addr = B.addr) (hpages : B'.pages = B.pages)
    (hstored : B'.Stored h'.mem) (hlinks : (majorAt h'.mem B.addr).prev = (majorAt h.mem B.addr).prev ∧
      (majorAt h'.mem B.addr).next = (majorAt h.mem B.addr).next)
    (hsame : SameOn B.spanᶜ h.mem h'.mem) (hroot : h'.memRoot = h.memRoot)
    (hbest : h'.bestBet = 0 ∨ h'.bestBet ∈ L.addrs) (hinuse : h'.inuse = BitVec.ofNat 64 L'.taken)
    (halloc : h'.allocated = h.allocated) : h'.Represents L' := by
  have haddrs : L'.addrs = L.addrs := by
    unfold Layout.addrs
    rw [hL, hL', List.map_append, List.map_append, List.map_cons, List.map_cons, haddr]
  have hbytes : L'.bytes = L.bytes := by
    unfold Layout.bytes
    rw [hL, hL', List.map_append, List.map_append, List.map_cons, List.map_cons, hpages]
  have hBmem : B ∈ L.majors := by rw [hL]; simp
  have hother : ∀ C ∈ L.majors, C ≠ B → SameOn C.span h.mem h'.mem := by
    intro C hC hne
    exact hsame.mono (Layout.disjoint_spans hBmem hC hne.symm)
  have hlink : ∀ a ∈ L.addrs, (majorAt h'.mem a).prev = (majorAt h.mem a).prev ∧
      (majorAt h'.mem a).next = (majorAt h.mem a).next := by
    intro a ha
    obtain ⟨C, hC, rfl⟩ := List.mem_map.mp ha
    by_cases hne : C = B
    · subst hne
      exact hlinks
    · rw [majorAt_congr C.inSpace ((hother C hC hne).mono C.header_subset)]
      exact ⟨rfl, rfl⟩
  constructor
  · rw [hroot, haddrs, hrep.root]
  · rw [haddrs]
    apply hrep.linked.congr
    · exact fun a ha => (hlink a ha).1
    · exact fun a ha => (hlink a ha).2
  · rw [haddrs]
    exact hbest
  · have hrest : ∀ C ∈ Bs ++ Cs, C.Stored h'.mem := by
      intro C hC
      obtain ⟨hCL, hne⟩ := Layout.mem_rest hL hC
      exact (hrep.stored C hCL).congr (hother C hCL hne)
    intro C hC
    rw [hL', List.mem_append, List.mem_cons] at hC
    rcases hC with hC | rfl | hC
    · exact hrest C (List.mem_append_left _ hC)
    · exact hstored
    · exact hrest C (List.mem_append_right _ hC)
  · exact hinuse
  · rw [halloc, hbytes, hrep.allocated]

end Heap

/-! ## New and removed major blocks -/

theorem MajorBlock.Stored.relink {B : MajorBlock} {m m' : Memory 64} {p n : Word}
    (h : B.Stored m) (hheader : majorAt m' B.addr = { majorAt m B.addr with prev := p, next := n })
    (hsame : SameOn (Set.Ico (B.start + 40) B.stop) m m') : B.Stored m' := by
  apply h.of_fronts hheader
  exact fun b hb => hsame.mono (b.front_subset.trans (minor_subset hb))

/-- The list `Bs ++ Cs` of major blocks is cut: behind `Bs` the links go on to `after`, and
in front of `Cs` they go back to `before`. -/
structure Relinks (m m' : Memory 64) (Bs Cs : List MajorBlock) (before after : Word) : Prop where
  last : ∀ B, Bs.getLast? = some B → majorAt m' B.addr = { majorAt m B.addr with next := after }
  head : ∀ C, Cs.head? = some C → majorAt m' C.addr = { majorAt m C.addr with prev := before }
  keep : ∀ B ∈ Bs ++ Cs, Bs.getLast? ≠ some B → Cs.head? ≠ some B →
    majorAt m' B.addr = majorAt m B.addr
  same : ∀ B ∈ Bs ++ Cs, SameOn (Set.Ico (B.start + 40) B.stop) m m'

section Relinks

variable {m m' : Memory 64} {Bs Cs : List MajorBlock} {B : MajorBlock} {before after : Word}

theorem Relinks.stored (hr : Relinks m m' Bs Cs before after) (hB : B ∈ Bs ++ Cs)
    (h : B.Stored m) : B.Stored m' := by
  by_cases hlast : Bs.getLast? = some B
  · exact h.relink (hr.last B hlast) (hr.same B hB)
  · by_cases hhead : Cs.head? = some B
    · exact h.relink (hr.head B hhead) (hr.same B hB)
    · exact h.relink (hr.keep B hB hlast hhead) (hr.same B hB)

theorem Relinks.relinked (hr : Relinks m m' Bs Cs before after) :
    Relinked (fun a => (majorAt m a).prev) (fun a => (majorAt m a).next)
      (fun a => (majorAt m' a).prev) (fun a => (majorAt m' a).next)
      (Bs.map MajorBlock.addr) (Cs.map MajorBlock.addr) before after := by
  constructor
  · intro x hx
    rw [List.getLast?_map, Option.map_eq_some_iff] at hx
    obtain ⟨B, hB, rfl⟩ := hx
    simp only [hr.last B hB]
  · intro y hy
    rw [List.head?_map, Option.map_eq_some_iff] at hy
    obtain ⟨C, hC, rfl⟩ := hy
    simp only [hr.head C hC]
  · intro x hx hne
    rw [← List.map_append] at hx
    obtain ⟨C, hC, rfl⟩ := List.mem_map.mp hx
    by_cases hlast : Bs.getLast? = some C
    · simp only [hr.last C hlast]
    · have hhead : Cs.head? ≠ some C := by
        intro hy
        apply hne
        rw [List.head?_map, hy]
        rfl
      simp only [hr.keep C hC hlast hhead]
  · intro x hx hne
    rw [← List.map_append] at hx
    obtain ⟨C, hC, rfl⟩ := List.mem_map.mp hx
    by_cases hhead : Cs.head? = some C
    · simp only [hr.head C hhead]
    · have hlast : Bs.getLast? ≠ some C := by
        intro hy
        apply hne
        rw [List.getLast?_map, hy]
        rfl
      simp only [hr.keep C hC hlast hhead]

end Relinks

namespace Heap

variable {h h' : Heap} {L L' : Layout} {Bs Cs : List MajorBlock} {B C : MajorBlock}

theorem Represents.append (hrep : h.Represents L) (hL' : L'.majors = L.majors ++ [C])
    (hr : Relinks h.mem h'.mem L.majors [] C.addr C.addr) (hstored : C.Stored h'.mem)
    (hprev : (majorAt h'.mem C.addr).prev = L.addrs.getLastD 0)
    (hnext : (majorAt h'.mem C.addr).next = 0) (hroot : h'.memRoot = L'.addrs.headD 0)
    (hbest : h'.bestBet = h.bestBet) (hinuse : h'.inuse = BitVec.ofNat 64 L'.taken)
    (halloc : h'.allocated = BitVec.ofNat 64 L'.bytes) : h'.Represents L' := by
  have haddrs : L'.addrs = L.addrs ++ C.addr :: [] := by
    unfold Layout.addrs
    rw [hL', List.map_append]
    rfl
  have hlinked := hrep.linked
  have hnodup := L.nodup_addrs
  rw [← List.append_nil L.addrs] at hlinked hnodup
  constructor
  · exact hroot
  · rw [haddrs]
    exact hlinked.insert hnodup hprev hnext hr.relinked
  · rw [hbest, haddrs]
    exact hrep.best.imp id (List.mem_append_left _)
  · intro B hB
    rw [hL', List.mem_append, List.mem_singleton] at hB
    rcases hB with hB | rfl
    · exact hr.stored (by rwa [List.append_nil]) (hrep.stored B hB)
    · exact hstored
  · exact hinuse
  · exact halloc

theorem Represents.remove (hrep : h.Represents L) (hL : L.majors = Bs ++ B :: Cs)
    (hL' : L'.majors = Bs ++ Cs)
    (hr : Relinks h.mem h'.mem Bs Cs ((Bs.map MajorBlock.addr).getLastD 0)
      ((Cs.map MajorBlock.addr).headD 0))
    (hroot : h'.memRoot = L'.addrs.headD 0) (hbest : h'.bestBet = 0 ∨ h'.bestBet ∈ L'.addrs)
    (hinuse : h'.inuse = BitVec.ofNat 64 L'.taken)
    (halloc : h'.allocated = BitVec.ofNat 64 L'.bytes) : h'.Represents L' := by
  have haddrs : L'.addrs = Bs.map MajorBlock.addr ++ Cs.map MajorBlock.addr := by
    unfold Layout.addrs
    rw [hL', List.map_append]
  have hlinked := hrep.linked
  have hnodup := L'.nodup_addrs
  unfold Layout.addrs at hlinked
  rw [hL, List.map_append, List.map_cons] at hlinked
  rw [haddrs] at hnodup
  constructor
  · exact hroot
  · rw [haddrs]
    exact hlinked.remove hnodup hr.relinked
  · exact hbest
  · intro D hD
    rw [hL'] at hD
    apply hr.stored hD
    apply hrep.stored
    rw [hL]
    rcases List.mem_append.mp hD with hD | hD
    · exact List.mem_append_left _ hD
    · exact List.mem_append_right _ (List.mem_cons_of_mem _ hD)
  · exact hinuse
  · exact halloc

end Heap

end Olive
