import Olive.Heap.Model
import Olive.Pmm.Ownership

/-!
# What `kmalloc` does when physical memory runs out

A call arrives at `allocate_new_page` either because there is no major block yet or
because the loop has found no room in any of them. When the PMM then refuses, the
failure should reach the caller as `NULL` through four functions. It gets no
further than the first: `liballoc_alloc` adds the HHDM offset to the `NULL` of the
PMM, so the failure is reported if and only if the offset is zero, which `pmm_init`
never stores.
-/

namespace Olive

open Library Pmm

/-! ## Enough fuel -/

section Fuel

variable {size reqSize : Word} {fuel fuel' : ℕ}

theorem findMinor_mono {maj min : Word} {m : Memory 64} {r : Option Place}
    (h : findMinor size maj m fuel min = .ok r) (hle : fuel ≤ fuel') :
    findMinor size maj m fuel' min = .ok r := by
  induction fuel generalizing fuel' min with
  | zero => cases h
  | succ fuel ih =>
    obtain ⟨fuel', rfl⟩ : ∃ k, fuel' = k + 1 := ⟨fuel' - 1, by omega⟩
    simp only [findMinor] at h ⊢
    split_ifs at h ⊢
    all_goals first | exact h | exact ih h (by omega)

theorem kmallocStep_mono {c : Cursor} {n : Next} (h : kmallocStep size reqSize fuel c = .ok n)
    (hle : fuel ≤ fuel') : kmallocStep size reqSize fuel' c = .ok n := by
  cases hpc : c.pc with
  | head => simpa only [kmallocStep, hpc] using h
  | place =>
    simp only [kmallocStep, hpc, placeStep] at h ⊢
    cases hfind : findPlace size c.maj c.heap.mem fuel with
    | error e =>
      rw [hfind] at h
      cases h
    | ok r =>
      have hfind' : findPlace size c.maj c.heap.mem fuel' = .ok r := by
        simp only [findPlace] at hfind ⊢
        split_ifs at hfind ⊢
        · exact hfind
        · exact hfind
        · exact findMinor_mono hfind hle
      rw [hfind] at h
      rw [hfind']
      exact h

end Fuel

/-! ## The way to a request -/

/-- `Reaches size reqSize c k c'`: the loop gets from `c` to `c'` and obtains `k`
major blocks on the way. -/
inductive Reaches (size reqSize : Word) : Cursor → ℕ → Cursor → Prop
  | refl (c : Cursor) : Reaches size reqSize c 0 c
  | continues {c c' c'' : Cursor} {k fuel : ℕ}
      (h : kmallocStep size reqSize fuel c = .ok (.continues c'))
      (hrest : Reaches size reqSize c' k c'') : Reaches size reqSize c k c''
  | attaches {c c₁ c' c'' : Cursor} {k fuel : ℕ} {pc : Pc}
      (h : kmallocStep size reqSize fuel c = .ok (.needsBlock c₁ pc))
      (hattach : attach size c₁ pc = .ok c')
      (hrest : Reaches size reqSize c' k c'') : Reaches size reqSize c (k + 1) c''

/-- From `h` on, `kmalloc` arrives at `allocate_new_page` with the heap `g`, after
it has obtained `k` other blocks. -/
inductive SizedRequests (size reqSize : Word) (h : Heap) : ℕ → Heap → Prop
  | root (hroot : h.memRoot = 0) : SizedRequests size reqSize h 0 h
  | grow {k fuel : ℕ} {c c' : Cursor} {pc : Pc} (hroot : h.memRoot ≠ 0)
      (hreach : Reaches size reqSize (startCursor size h) k c)
      (hstep : kmallocStep size reqSize fuel c = .ok (.needsBlock c' pc)) :
      SizedRequests size reqSize h k c'.heap
  | rootGrow {k fuel : ℕ} {c c' : Cursor} {pc : Pc} {root : Word} {h' : Heap}
      (hroot : h.memRoot = 0) (hnew : allocateNewPage (size.setWidth 32) h = (root, h'))
      (hserved : root ≠ 0)
      (hreach : Reaches size reqSize (startCursor size { h' with memRoot := root }) k c)
      (hstep : kmallocStep size reqSize fuel c = .ok (.needsBlock c' pc)) :
      SizedRequests size reqSize h (k + 1) c'.heap

/-- The request `kmalloc` works on: `kmalloc(1)` if the padded size wraps to 0. -/
def effectiveRequest (reqSize : Word) : Word := if paddedSize reqSize = 0 then 1 else reqSize

def entryHeap (reqSize : Word) (h : Heap) : Heap :=
  if paddedSize reqSize = 0 then h.warn allocZeroReport else h

theorem kmalloc_eq (fuel : ℕ) (reqSize : Word) (h : Heap) :
    kmalloc fuel reqSize h = kmallocSized fuel (paddedSize (effectiveRequest reqSize))
      (effectiveRequest reqSize) (entryHeap reqSize h) := by
  unfold kmalloc effectiveRequest entryHeap
  split <;> rfl

/-- The call `kmalloc(reqSize)` has to obtain a new major block in the heap `g`. -/
def Requests (reqSize : Word) (h : Heap) (k : ℕ) (g : Heap) : Prop :=
  SizedRequests (paddedSize (effectiveRequest reqSize)) (effectiveRequest reqSize)
    (entryHeap reqSize h) k g

def requestedPages (reqSize : Word) : BitVec 32 :=
  newPageCount ((paddedSize (effectiveRequest reqSize)).setWidth 32)

/-- The two heaps agree in everything but what was printed, the warning count and
the hint where to search first. -/
structure SameHeap (g h : Heap) : Prop where
  mem : h.mem = g.mem
  pmm : h.pmm = g.pmm
  memRoot : h.memRoot = g.memRoot
  allocated : h.allocated = g.allocated
  inuse : h.inuse = g.inuse

theorem SameHeap.refl (h : Heap) : SameHeap h h := ⟨rfl, rfl, rfl, rfl, rfl⟩

theorem SameHeap.trans {g h i : Heap} (hgh : SameHeap g h) (hhi : SameHeap h i) : SameHeap g i :=
  ⟨hhi.mem.trans hgh.mem, hhi.pmm.trans hgh.pmm, hhi.memRoot.trans hgh.memRoot,
    hhi.allocated.trans hgh.allocated, hhi.inuse.trans hgh.inuse⟩

/-! ## What the loop changes on its way -/

section Steps

variable {size reqSize : Word} {fuel k : ℕ} {c c' : Cursor} {pc : Pc}

theorem noteBest_sameHeap (diff : Word) (c : Cursor) : SameHeap c.heap (noteBest diff c).heap := by
  unfold noteBest
  split <;> exact ⟨rfl, rfl, rfl, rfl, rfl⟩

theorem leaveMajor_continues (h : leaveMajor c pc = .continues c') : c'.heap = c.heap := by
  simp only [leaveMajor] at h
  split_ifs at h <;> cases h <;> rfl

theorem leaveMajor_needsBlock {pc' : Pc} (h : leaveMajor c pc = .needsBlock c' pc') :
    c'.heap = c.heap ∧ c'.heap.mem.load64 (majNext c'.maj) = 0 := by
  simp only [leaveMajor] at h
  split_ifs at h with hnext
  cases h
  exact ⟨rfl, not_not.mp hnext⟩

theorem placeStep_leaveMajor {n : Next} (h : placeStep size reqSize fuel c = .ok n)
    (hn : ∀ p h, n ≠ .returns p h) : n = leaveMajor c .head := by
  unfold placeStep at h
  cases hfind : findPlace size c.maj c.heap.mem fuel with
  | error e =>
    rw [hfind] at h
    cases h
  | ok r =>
    rw [hfind] at h
    cases r with
    | none => cases h; rfl
    | some place =>
      cases h
      exact absurd rfl (hn _ _)

theorem kmallocStep_continues (h : kmallocStep size reqSize fuel c = .ok (.continues c')) :
    SameHeap c.heap c'.heap := by
  unfold kmallocStep at h
  split at h
  · simp only [Except.ok.injEq, headStep] at h
    split_ifs at h
    · rw [leaveMajor_continues h]
      exact noteBest_sameHeap _ c
    · cases h
      exact noteBest_sameHeap _ c
  · have hleave := placeStep_leaveMajor h (by simp)
    rw [leaveMajor_continues hleave.symm]
    exact SameHeap.refl _

/-- A block is requested only behind the last major block. -/
theorem kmallocStep_needsBlock (h : kmallocStep size reqSize fuel c = .ok (.needsBlock c' pc)) :
    SameHeap c.heap c'.heap ∧ c'.heap.mem.load64 (majNext c'.maj) = 0 := by
  unfold kmallocStep at h
  split at h
  · simp only [Except.ok.injEq, headStep] at h
    split_ifs at h
    obtain ⟨hheap, hnext⟩ := leaveMajor_needsBlock h
    refine ⟨?_, hnext⟩
    rw [hheap]
    exact noteBest_sameHeap _ c
  · obtain ⟨hheap, hnext⟩ := leaveMajor_needsBlock (placeStep_leaveMajor h (by simp)).symm
    rw [hheap] at hnext ⊢
    exact ⟨SameHeap.refl _, hnext⟩

theorem startCursor_heap (size : Word) (h : Heap) : (startCursor size h).heap = h := by
  simp only [startCursor]
  split_ifs <;> rfl

theorem liballocAlloc_hhdm (s : Pmm) (pages : BitVec 32) :
    (liballocAlloc s pages).2.hhdmOffset = s.hhdmOffset :=
  (pmmRequestPages_frame s (pages.signExtend 64)).2

theorem allocateNewPage_hhdm (size : BitVec 32) (h : Heap) :
    (allocateNewPage size h).2.pmm.hhdmOffset = h.pmm.hhdmOffset := by
  have hframe := liballocAlloc_hhdm h.pmm (newPageCount size)
  simp only [allocateNewPage]
  split_ifs
  · rw [← hframe, Heap.warn, Heap.report]
  · rw [hframe]

theorem attach_hhdm (h : attach size c pc = .ok c') :
    c'.heap.pmm.hhdmOffset = c.heap.pmm.hhdmOffset := by
  have hframe := allocateNewPage_hhdm (size.setWidth 32) c.heap
  simp only [attach] at h
  split_ifs at h
  rw [Except.ok.injEq] at h
  simp only [← h, hframe]

theorem Reaches.hhdm (h : Reaches size reqSize c k c') :
    c'.heap.pmm.hhdmOffset = c.heap.pmm.hhdmOffset := by
  induction h with
  | refl => rfl
  | continues h _ ih => rw [ih, (kmallocStep_continues h).pmm]
  | attaches h hattach _ ih => rw [ih, attach_hhdm hattach, (kmallocStep_needsBlock h).1.pmm]

theorem Reaches.sameHeap (h : Reaches size reqSize c k c') (hk : k = 0) :
    SameHeap c.heap c'.heap := by
  induction h with
  | refl => exact SameHeap.refl _
  | continues h _ ih => exact (kmallocStep_continues h).trans (ih hk)
  | attaches => cases hk

theorem Reaches.loop (h : Reaches size reqSize c k c') : ∃ a b, ∀ n ≥ b,
    kmallocLoop size reqSize (n + a) c = kmallocLoop size reqSize n c' := by
  induction h with
  | refl => exact ⟨0, 0, fun _ _ => rfl⟩
  | @continues _ _ _ _ fuel h _ ih =>
    obtain ⟨a, b, hloop⟩ := ih
    refine ⟨a + 1, max b fuel, fun n hn => ?_⟩
    rw [← hloop n (le_trans (le_max_left _ _) hn), ← Nat.add_assoc, kmallocLoop,
      kmallocStep_mono h (le_trans (le_trans (le_max_right _ _) hn) (Nat.le_add_right _ _))]
    rfl
  | @attaches _ _ _ _ _ fuel _ h hattach _ ih =>
    obtain ⟨a, b, hloop⟩ := ih
    refine ⟨a + 1, max b fuel, fun n hn => ?_⟩
    rw [← hloop n (le_trans (le_max_left _ _) hn), ← Nat.add_assoc, kmallocLoop,
      kmallocStep_mono h (le_trans (le_trans (le_max_right _ _) hn) (Nat.le_add_right _ _))]
    simp only [bind, Except.bind, hattach]

end Steps

/-! ## The refused request -/

/-- The failure of the PMM arrives at the caller of `kmalloc`, and nothing but the
warnings shows it: `h` is the heap at the call, `g` the heap at the request. -/
structure ExhaustionReported (reqSize : Word) (h : Heap) (k : ℕ) (g : Heap) : Prop where
  alloc_null : (liballocAlloc g.pmm (requestedPages reqSize)).1 = 0
  page_null :
    (allocateNewPage ((paddedSize (effectiveRequest reqSize)).setWidth 32) g).1 = 0
  returns_null : ∃ n₀, ∀ n ≥ n₀, ∃ h', kmalloc n reqSize h = .ok (0, h') ∧
    h'.pmm = g.pmm.report (outOfMemoryReport ((requestedPages reqSize).signExtend 64)) ∧
    h'.mem = g.mem ∧ h'.memRoot = g.memRoot ∧ h'.allocated = g.allocated ∧ h'.inuse = g.inuse
  first_request : k = 0 → SameHeap h g

section Refused

variable {reqSize : Word} {h g : Heap} {k : ℕ}

theorem Requests.hhdm (hreq : Requests reqSize h k g) : g.pmm.hhdmOffset = h.pmm.hhdmOffset := by
  have hentry : (entryHeap reqSize h).pmm = h.pmm := by
    unfold entryHeap
    split <;> rfl
  rw [← hentry]
  cases hreq with
  | root => rfl
  | grow _ hreach hstep =>
    rw [(kmallocStep_needsBlock hstep).1.pmm, hreach.hhdm, startCursor_heap]
  | rootGrow _ hnew _ hreach hstep =>
    have hframe := allocateNewPage_hhdm
      ((paddedSize (effectiveRequest reqSize)).setWidth 32) (entryHeap reqSize h)
    rw [(kmallocStep_needsBlock hstep).1.pmm, hreach.hhdm, startCursor_heap, ← hframe, hnew]

/-- A refused request comes out of `liballoc_alloc` as the bare HHDM offset. -/
theorem liballocAlloc_refused {s : Pmm} {pages : BitVec 32}
    (h : ¬ s.Supplies (pages.signExtend 64)) :
    liballocAlloc s pages =
      (s.hhdmOffset, s.report (outOfMemoryReport (pages.signExtend 64))) := by
  simp only [liballocAlloc, pmmRequestPages_not_supplies h, hhdmOffset_report,
    BitVec.ofNat_eq_ofNat, BitVec.zero_add]

theorem allocateNewPage_refused {size : BitVec 32} (hhhdm : g.pmm.hhdmOffset = 0)
    (h : ¬ g.pmm.Supplies ((newPageCount size).signExtend 64)) :
    allocateNewPage size g = (0, { g with
      pmm := g.pmm.report (outOfMemoryReport ((newPageCount size).signExtend 64)) }.warn
        (liballocAllocNullReport (newPageCount size))) := by
  simp only [allocateNewPage, liballocAlloc_refused h, hhhdm, if_true]

/-- Behind the last major block a failed `allocate_new_page` changes no byte: the
`NULL` it answers is what the link already holds. -/
theorem attach_refused {size : Word} {c : Cursor} {pc : Pc} (hhhdm : c.heap.pmm.hhdmOffset = 0)
    (h : ¬ c.heap.pmm.Supplies ((newPageCount (size.setWidth 32)).signExtend 64))
    (hnext : c.heap.mem.load64 (majNext c.maj) = 0) :
    attach size c pc = .error (allocateNewPage (size.setWidth 32) c.heap).2 := by
  have hself : c.heap.mem.store64 (majNext c.maj) 0 = c.heap.mem := by
    rw [← hnext, Memory.store64_load64_self]
  simp only [attach, allocateNewPage_refused hhhdm h, Heap.warn, Heap.report, hself, hnext, if_true]


theorem kmallocFails_sameHeap (size : Word) (h : Heap) : SameHeap h (kmallocFails size h).2 :=
  ⟨rfl, rfl, rfl, rfl, rfl⟩

/-- What the caller of `kmalloc` sees after the refusal, wherever the request was. -/
theorem SizedRequests.kmallocSized {size : Word} (hreq : SizedRequests size reqSize h k g)
    (hhhdm : g.pmm.hhdmOffset = 0)
    (hrefused : ¬ g.pmm.Supplies ((newPageCount (size.setWidth 32)).signExtend 64)) :
    ∃ n₀, ∀ n ≥ n₀, ∃ h', kmallocSized n size reqSize h = .ok (0, h') ∧
      SameHeap (allocateNewPage (size.setWidth 32) g).2 h' := by
  have hloop : ∀ {start c c' : Cursor} {j fuel : ℕ} {pc : Pc},
      Reaches size reqSize start j c →
      kmallocStep size reqSize fuel c = .ok (.needsBlock c' pc) → c'.heap = g →
      ∃ n₀, ∀ n ≥ n₀, kmallocLoop size reqSize n start =
        .ok (kmallocFails size (allocateNewPage (size.setWidth 32) g).2) := by
    rintro start c c' j fuel pc hreach hstep rfl
    obtain ⟨a, b, hloop⟩ := hreach.loop
    refine ⟨max b fuel + 1 + a, fun n hn => ?_⟩
    obtain ⟨n, rfl⟩ : ∃ i, n = i + 1 + a := ⟨n - 1 - a, by omega⟩
    have hstep' : kmallocStep size reqSize n c = .ok (.needsBlock c' pc) :=
      kmallocStep_mono hstep (by omega)
    have hattach : attach size c' pc = .error (allocateNewPage (size.setWidth 32) c'.heap).2 :=
      attach_refused hhhdm hrefused (kmallocStep_needsBlock hstep).2
    rw [hloop (n + 1) (by omega), kmallocLoop, hstep']
    simp only [bind, Except.bind, hattach]
  have hfails := kmallocFails_sameHeap size (allocateNewPage (size.setWidth 32) g).2
  cases hreq with
  | root hroot =>
    refine ⟨0, fun n _ =>
      ⟨{ (allocateNewPage (size.setWidth 32) h).2 with memRoot := 0 }.report memRootReport, ?_, ?_⟩⟩
    · simp only [Olive.kmallocSized, hroot, allocateNewPage_refused hhhdm hrefused, if_true]
    · simp only [allocateNewPage_refused hhhdm hrefused, Heap.warn, Heap.report]
      exact ⟨rfl, rfl, hroot.symm, rfl, rfl⟩
  | grow hroot hreach hstep =>
    obtain ⟨n₀, hn₀⟩ := hloop hreach hstep rfl
    refine ⟨n₀, fun n hn => ⟨_, ?_, hfails⟩⟩
    rw [Olive.kmallocSized, if_neg hroot, hn₀ n hn]
    rfl
  | rootGrow hroot hnew hserved hreach hstep =>
    obtain ⟨n₀, hn₀⟩ := hloop hreach hstep rfl
    refine ⟨n₀, fun n hn => ⟨_, ?_, hfails⟩⟩
    rw [Olive.kmallocSized, if_pos hroot, hnew, if_neg hserved, hn₀ n hn]
    rfl

theorem Requests.first (hreq : Requests reqSize h 0 g) : SameHeap h g := by
  have hentry : SameHeap h (entryHeap reqSize h) := by
    unfold entryHeap
    split <;> exact ⟨rfl, rfl, rfl, rfl, rfl⟩
  cases hreq with
  | root => exact hentry
  | grow _ hreach hstep =>
    have hstart := hreach.sameHeap rfl
    rw [startCursor_heap] at hstart
    exact (hentry.trans hstart).trans (kmallocStep_needsBlock hstep).1

/-- When `kmalloc` needs a new major block and the PMM cannot supply its pages, the
failure is reported as it should be exactly when the HHDM offset is zero. -/
theorem kmalloc_exhaustionReported_iff (hreq : Requests reqSize h k g)
    (hrefused : ¬ g.pmm.Supplies ((requestedPages reqSize).signExtend 64)) :
    ExhaustionReported reqSize h k g ↔ h.pmm.hhdmOffset = 0 := by
  rw [← hreq.hhdm]
  constructor
  · intro hrep
    have hnull := hrep.alloc_null
    rwa [liballocAlloc_refused hrefused] at hnull
  · intro hhhdm
    have hpage := allocateNewPage_refused hhhdm hrefused
    refine ⟨by rw [liballocAlloc_refused hrefused, hhhdm], by rw [hpage], ?_, ?_⟩
    · obtain ⟨n₀, hn₀⟩ := SizedRequests.kmallocSized hreq hhhdm hrefused
      refine ⟨n₀, fun n hn => ?_⟩
      obtain ⟨h', hret, hsame⟩ := hn₀ n hn
      rw [hpage] at hsame
      refine ⟨h', by rw [kmalloc_eq, hret], hsame.pmm, hsame.mem, hsame.memRoot,
        hsame.allocated, hsame.inuse⟩
    · rintro rfl
      exact hreq.first

end Refused

/-- `kmalloc(64)` on a fresh heap asks for 16 pages; after `pmm_init` on the small
map only three are free. -/
theorem requests_gapMemmap : ∃ s h, pmmInit (some gapMemmap) 0xffff800000000000 boot = (0, s) ∧
    h = Heap.boot s (fun _ => 0) ∧ Requests 64 h 0 h ∧
    ¬ h.pmm.Supplies ((requestedPages 64).signExtend 64) ∧
    h.pmm.hhdmOffset = 0xffff800000000000 := by
  obtain ⟨s, hinit, -, hidx, hhhdm⟩ := pmmInit_gapMemmap
  refine ⟨s, _, hinit, rfl, ?_, ?_, hhhdm⟩
  · have hentry : entryHeap 64 (Heap.boot s fun _ => 0) = Heap.boot s fun _ => 0 :=
      if_neg (by decide)
    rw [Requests, hentry]
    exact .root rfl
  · have hpages : (requestedPages 64).signExtend 64 = (16 : Word) := by decide
    rw [hpages]
    rintro ⟨-, hle⟩
    change 16 ≤ s.pmStackIdx at hle
    rw [hidx] at hle
    revert hle
    decide

/-- There `liballoc_alloc` answers the HHDM address of physical page 0 instead of
`NULL`. -/
theorem kmalloc_gapMemmap : ∃ s h, pmmInit (some gapMemmap) 0xffff800000000000 boot = (0, s) ∧
    h = Heap.boot s (fun _ => 0) ∧ Requests 64 h 0 h ∧
    ¬ h.pmm.Supplies ((requestedPages 64).signExtend 64) ∧ ¬ ExhaustionReported 64 h 0 h := by
  obtain ⟨s, h, hinit, hboot, hreq, hrefused, hhhdm⟩ := requests_gapMemmap
  refine ⟨s, h, hinit, hboot, hreq, hrefused, fun hrep => ?_⟩
  have hnull := hrep.alloc_null
  rw [liballocAlloc_refused hrefused, hhhdm] at hnull
  exact absurd hnull (show (0xffff800000000000 : Word) ≠ 0 by decide)

theorem kmalloc_exhaustionReported_iff_gapMemmap : ∃ h, Requests 64 h 0 h ∧
    (ExhaustionReported 64 h 0 h ↔ h.pmm.hhdmOffset = 0) := by
  obtain ⟨s, h, -, -, hreq, hrefused, -⟩ := requests_gapMemmap
  exact ⟨h, hreq, kmalloc_exhaustionReported_iff hreq hrefused⟩

end Olive
