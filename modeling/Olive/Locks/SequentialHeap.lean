import Olive.Locks.Sequential

/-!
# The locked heap and the heap without locks

Run alone, the program of `kmalloc` answers the pointer that the function without locks
answers, and leaves the same heap. Both use the same rounds of the search; what differs is
how new blocks, the lock and the printed lines come in between.
-/

namespace Olive

open Library

/-- The heap with other lists of reports. -/
def Heap.relabel (h : Heap) (pmmReports reports : List Report) : Heap :=
  { h with pmm := { h.pmm with reports := pmmReports }, reports := reports }

def Cursor.relabel (c : Cursor) (pmmReports reports : List Report) : Cursor :=
  { c with heap := c.heap.relabel pmmReports reports }

@[simp] theorem Cursor.maj_relabel (c : Cursor) (rs rs' : List Report) :
    (c.relabel rs rs').maj = c.maj := rfl

@[simp] theorem Cursor.search_relabel (c : Cursor) (rs rs' : List Report) :
    (c.relabel rs rs').search = c.search := rfl

def Next.relabel (pmmReports reports : List Report) : Next → Next
  | .breaks h => .breaks (h.relabel pmmReports reports)
  | .returns p h => .returns p (h.relabel pmmReports reports)
  | .continues c => .continues (c.relabel pmmReports reports)
  | .needsBlock c pc => .needsBlock (c.relabel pmmReports reports) pc

/-! A round of the search does not look at the reports. -/

section Relabel

variable (size reqSize : Word) (fuel : ℕ) (c : Cursor) (rs rs' : List Report)

theorem noteBest_relabel (diff : Word) :
    noteBest diff (c.relabel rs rs') = (noteBest diff c).relabel rs rs' := by
  unfold noteBest
  rw [apply_ite (Cursor.relabel · rs rs')]
  rfl

theorem leaveMajor_relabel (pc : Pc) :
    leaveMajor (c.relabel rs rs') pc = (leaveMajor c pc).relabel rs rs' := by
  unfold leaveMajor
  dsimp only
  rw [apply_ite (Next.relabel rs rs'), apply_ite (Next.relabel rs rs')]
  rfl

theorem headStep_relabel : headStep size (c.relabel rs rs') = (headStep size c).relabel rs rs' := by
  have hfree : majFree (c.relabel rs rs').heap.mem (c.relabel rs rs').maj =
      majFree c.heap.mem c.maj := rfl
  unfold headStep
  simp only [hfree, noteBest_relabel, leaveMajor_relabel]
  rw [apply_ite (Next.relabel rs rs'), apply_ite (Next.relabel rs rs')]
  rfl

theorem kmallocStep_relabel : kmallocStep size reqSize fuel (c.relabel rs rs') =
    (kmallocStep size reqSize fuel c).map (Next.relabel rs rs') := by
  cases hpc : c.pc with
  | head =>
    have hpc' : (c.relabel rs rs').pc = .head := hpc
    simp only [kmallocStep, hpc, hpc', headStep_relabel]
    rfl
  | place =>
    have hpc' : (c.relabel rs rs').pc = .place := hpc
    simp only [kmallocStep, hpc, hpc', placeStep, leaveMajor_relabel]
    have hfind : findPlace size (c.relabel rs rs').maj (c.relabel rs rs').heap.mem fuel =
        findPlace size c.maj c.heap.mem fuel := rfl
    rw [hfind]
    cases findPlace size c.maj c.heap.mem fuel with
    | error e => rfl
    | ok place =>
      cases place with
      | none => rfl
      | some place => rfl

theorem kmallocRound_relabel {v : Search} {h : Heap} {next : Next}
    (hstep : kmallocStep size reqSize fuel (v.cursor h) = .ok next) :
    kmallocRound size reqSize fuel v (h.relabel rs rs') =
      (.ok (next.relabel rs rs'), next.heap.relabel rs rs') := by
  have hstep' := kmallocStep_relabel size reqSize fuel (v.cursor h) rs rs'
  rw [hstep] at hstep'
  have hheap : (next.relabel rs rs').heap = next.heap.relabel rs rs' := by
    cases next with
    | _ => rfl
  unfold kmallocRound
  rw [show v.cursor (h.relabel rs rs') = (v.cursor h).relabel rs rs' from rfl, hstep']
  exact Prod.ext rfl hheap

theorem kmallocRound_relabel_error {v : Search} {h : Heap} {e : Stop}
    (hstep : kmallocStep size reqSize fuel (v.cursor h) = .error e) :
    kmallocRound size reqSize fuel v (h.relabel rs rs') = (.error e, h.relabel rs rs') := by
  have hstep' := kmallocStep_relabel size reqSize fuel (v.cursor h) rs rs'
  rw [hstep] at hstep'
  unfold kmallocRound
  rw [show v.cursor (h.relabel rs rs') = (v.cursor h).relabel rs rs' from rfl, hstep']
  rfl

theorem startCursor_relabel (h : Heap) :
    startCursor size (h.relabel rs rs') = (startCursor size h).relabel rs rs' := by
  unfold startCursor
  dsimp only
  rw [apply_ite (Cursor.relabel · rs rs')]
  rfl

end Relabel

/-- The heap in the kernel is `h` up to the lists of reports. -/
def ShowsHeap (k : Kernel) (h : Heap) : Prop := ∃ rs rs', k.toHeap = h.relabel rs rs'

section Shows

variable {k : Kernel} {h : Heap}

theorem ShowsHeap.showsPmm (hk : ShowsHeap k h) : ShowsPmm k.toHeap k h.pmm := by
  obtain ⟨rs, rs', hk⟩ := hk
  exact ⟨rs, by rw [hk]; rfl⟩

theorem ShowsHeap.hhdm_eq (hk : ShowsHeap k h) : k.pmm.hhdmOffset = h.pmm.hhdmOffset := by
  obtain ⟨rs, rs', hk⟩ := hk
  exact congrArg (fun h => h.pmm.hhdmOffset) hk

theorem ShowsHeap.mem_eq (hk : ShowsHeap k h) : k.mem = h.mem := by
  obtain ⟨rs, rs', hk⟩ := hk
  exact congrArg (fun h => h.mem) hk

theorem ShowsHeap.memRoot_eq (hk : ShowsHeap k h) : k.memRoot = h.memRoot := by
  obtain ⟨rs, rs', hk⟩ := hk
  exact congrArg (fun h => h.memRoot) hk

theorem ShowsHeap.setMem (hk : ShowsHeap k h) (m : Memory 64) :
    ShowsHeap { k with mem := m } { h with mem := m } := by
  obtain ⟨rs, rs', hk⟩ := hk
  exact ⟨rs, rs', congrArg (fun h : Heap => { h with mem := m }) hk⟩

theorem ShowsHeap.setPmm {k' : Kernel} {p : Pmm} (hk : ShowsHeap k h)
    (hk' : ShowsPmm k.toHeap k' p) : ShowsHeap k' { h with pmm := p } := by
  obtain ⟨rs, rs', hk⟩ := hk
  obtain ⟨rs₁, hk'⟩ := hk'
  refine ⟨rs₁, rs', ?_⟩
  rw [hk', hk]
  rfl

end Shows

namespace Locked

variable (npf : Formatter)

theorem pmmRequestPages_refinesHeap (pages : Word) :
    (pmmRequestPages npf pages).Refines ShowsHeap fun h =>
      some ((Olive.pmmRequestPages h.pmm pages).1,
        { h with pmm := (Olive.pmmRequestPages h.pmm pages).2 }) := by
  refine Code.refines_focus (f := fun s => some (Olive.pmmRequestPages s pages)) Heap.pmm
    (fun h p => { h with pmm := p }) fun k h hk => ?_
  refine ⟨_, pmmRequestPages_refines npf k.toHeap pages, hk.showsPmm, ?_⟩
  intro r hr k' hk'
  cases hr
  exact hk.setPmm hk'

theorem liballocAlloc_refines (pages : BitVec 32) :
    (liballocAlloc npf pages).Refines ShowsHeap fun h =>
      some ((Olive.liballocAlloc h.pmm pages).1,
        { h with pmm := (Olive.liballocAlloc h.pmm pages).2 }) := by
  intro k h hk
  unfold liballocAlloc Olive.liballocAlloc
  refine (pmmRequestPages_refinesHeap npf _).bind_total hk fun k₁ hk₁ => ?_
  rw [Code.eval_get, hk₁.hhdm_eq]
  exact sameResult_some _ hk₁

theorem allocateNewPage_refines (size : BitVec 32) :
    (allocateNewPage npf size).Refines ShowsHeap fun h => some (Olive.allocateNewPage size h) := by
  intro k h hk
  unfold allocateNewPage Olive.allocateNewPage
  dsimp only
  refine (liballocAlloc_refines npf _).bind_total hk fun k₁ hk₁ => ?_
  generalize Olive.liballocAlloc h.pmm (newPageCount size) = maj at hk₁ ⊢
  obtain ⟨heap, errors, overruns, ft, console, flag⟩ := k₁
  obtain ⟨rs, rs', hheap⟩ := hk₁
  cases hheap
  by_cases hmaj : maj.1 = 0
  · simp only [if_pos hmaj, modifyHeap, Code.eval_bind, Code.eval_modify, Option.bind_some]
    exact report_bind npf _ _ fun console => sameResult_some _ ⟨rs, rs', rfl⟩
  · simp only [if_neg hmaj, modifyHeap, modifyMem, Code.eval_bind, Code.eval_modify,
      Option.bind_some]
    exact sameResult_some _ ⟨rs, rs', rfl⟩

theorem kmallocFails_refines (size : Word) :
    (kmallocFails npf size).Refines ShowsHeap fun h => some (Olive.kmallocFails size h) := by
  rintro k h ⟨rs, rs', hk⟩
  simp only [kmallocFails, liballocUnlock, spinlockRelease, Code.eval_bind, Code.eval_unlock,
    Option.bind_some]
  refine report_bind npf k _ fun console => ?_
  exact report_bind npf _ _ fun console => sameResult_some _ ⟨rs, rs', hk⟩

theorem kmallocLoop_refines (size reqSize : Word) (fuel : ℕ) (v : Search) :
    (kmallocLoop npf size reqSize fuel v).Refines ShowsHeap fun h =>
      (Olive.kmallocLoop size reqSize fuel (v.cursor h)).toOption := by
  induction fuel generalizing v with
  | zero =>
    intro k h _
    exact .none
  | succ fuel ih =>
    rintro ⟨heap, errors, overruns, ft, console, flag⟩ h ⟨rs, rs', hk⟩
    obtain rfl : heap = h.relabel rs rs' := hk
    unfold kmallocLoop Olive.kmallocLoop
    rw [Code.eval_bind, Code.eval_access]
    dsimp only
    cases hstep : kmallocStep size reqSize fuel (v.cursor h) with
    | error e =>
      rw [kmallocRound_relabel_error _ _ _ _ _ hstep]
      exact .none
    | ok next =>
      have hbind : ∀ f : Next → Except Stop (Word × Heap), (Except.ok next >>= f) = f next :=
        fun _ => rfl
      rw [kmallocRound_relabel _ _ _ _ _ hstep, hbind]
      cases next with
      | breaks g => exact kmallocFails_refines npf size _ _ ⟨rs, rs', rfl⟩
      | returns p g => exact sameResult_some _ ⟨rs, rs', rfl⟩
      | continues c => exact ih c.search _ _ ⟨rs, rs', rfl⟩
      | needsBlock c pc =>
        dsimp only [Next.relabel, Option.bind_some, Cursor.maj_relabel, Cursor.search_relabel,
          Next.heap, attach]
        have hshows :
            ShowsHeap ⟨c.heap.relabel rs rs', errors, overruns, ft, console, flag⟩ c.heap :=
          ⟨rs, rs', rfl⟩
        refine (allocateNewPage_refines npf _).bind_total hshows fun k₁ hk₁ => ?_
        generalize Olive.allocateNewPage (size.setWidth 32) c.heap = new at hk₁ ⊢
        simp only [modifyMem, Code.eval_bind, Code.eval_modify, Code.eval_get, Code.eval_ite,
          Option.bind_some, hk₁.mem_eq]
        split_ifs with hnext
        · exact kmallocFails_refines npf size _ _ (hk₁.setMem _)
        · exact ih ⟨pc, _, c.bestSize, c.startedBet⟩ _ _ (hk₁.setMem _)

theorem kmallocSearch_refines (fuel : ℕ) (size reqSize : Word) :
    (kmallocSearch npf fuel size reqSize).Refines ShowsHeap fun h =>
      (Olive.kmallocLoop size reqSize fuel (startCursor size h)).toOption := by
  intro k h hk
  have hstart : (startCursor size k.toHeap).search = (startCursor size h).search := by
    obtain ⟨rs, rs', hk⟩ := hk
    rw [hk, startCursor_relabel]
    rfl
  unfold kmallocSearch
  rw [Code.eval_bind_of_eq (Code.eval_get k _), hstart]
  have hcursor : (startCursor size h).search.cursor h = startCursor size h := by
    unfold startCursor
    dsimp only
    split_ifs <;> rfl
  have hloop := kmallocLoop_refines npf size reqSize fuel (startCursor size h).search k h hk
  dsimp only at hloop
  rwa [hcursor] at hloop

theorem kmallocSized_refines (caller : Word) (fuel : ℕ) {reqSize : Word}
    (hsize : paddedSize reqSize ≠ 0) :
    (kmalloc npf caller (fuel + 1) reqSize).Refines ShowsHeap fun h =>
      (Olive.kmallocSized fuel (paddedSize reqSize) reqSize h).toOption := by
  intro k h hk
  unfold kmalloc Olive.kmallocSized liballocLock spinlockAcquire
  dsimp only
  rw [Code.eval_bind_of_eq (Code.eval_lock k _), if_neg hsize,
    Code.eval_bind_of_eq (Code.eval_get k _), hk.memRoot_eq]
  by_cases hroot : h.memRoot = 0
  · rw [if_pos hroot, if_pos hroot]
    refine (allocateNewPage_refines npf _).bind_total hk fun k₁ hk₁ => ?_
    generalize Olive.allocateNewPage _ h = new at hk₁ ⊢
    have hroot₁ : ShowsHeap { k₁ with memRoot := new.1 } { new.2 with memRoot := new.1 } := by
      obtain ⟨rs, rs', hk₁⟩ := hk₁
      exact ⟨rs, rs', congrArg (fun h : Heap => { h with memRoot := new.1 }) hk₁⟩
    rw [modifyHeap, Code.eval_bind_of_eq (Code.eval_modify k₁ _)]
    by_cases hnew : new.1 = 0
    · rw [if_pos hnew, if_pos hnew, liballocUnlock, spinlockRelease,
        Code.eval_bind_of_eq (Code.eval_unlock _ _), Code.eval_bind]
      obtain ⟨rs, rs', hroot₁⟩ := hroot₁
      exact report_bind npf _ _ fun console => sameResult_some _ ⟨rs, rs', hroot₁⟩
    · rw [if_neg hnew, if_neg hnew]
      exact kmallocSearch_refines npf fuel _ _ _ _ hroot₁
  · rw [if_neg hroot, if_neg hroot]
    exact kmallocSearch_refines npf fuel _ _ k h hk

/-- Run alone, `kmalloc` answers the pointer the function without locks does and leaves the
same heap; a padded size of 0 takes one more call. -/
theorem kmalloc_refines (caller : Word) (fuel : ℕ) (reqSize : Word) :
    (kmalloc npf caller (fuel + if paddedSize reqSize = 0 then 2 else 1) reqSize).Refines ShowsHeap
      fun h => (Olive.kmalloc fuel reqSize h).toOption := by
  intro k h hk
  by_cases hsize : paddedSize reqSize = 0
  · have hone := kmallocSized_refines npf caller fuel (show paddedSize 1 ≠ 0 by decide)
    have hwarned : ShowsHeap { k with warningCount := k.warningCount + 1 }
        (h.warn allocZeroReport) := by
      obtain ⟨heap, errors, overruns, ft, console, flag⟩ := k
      obtain ⟨rs, rs', hk⟩ := hk
      obtain rfl : heap = h.relabel rs rs' := hk
      exact ⟨rs, rs', rfl⟩
    simp only [Olive.kmalloc, if_pos hsize]
    rw [kmalloc, liballocLock, spinlockAcquire, Code.eval_bind_of_eq (Code.eval_lock k _),
      if_pos hsize, modifyHeap, Code.eval_bind_of_eq (Code.eval_modify k _), Code.eval_bind]
    refine log_bind npf _ _ _ _ fun console => ?_
    rw [liballocUnlock, spinlockRelease, Code.eval_bind_of_eq (Code.eval_unlock _ _)]
    obtain ⟨rs, rs', hwarned⟩ := hwarned
    exact hone _ _ ⟨rs, rs', hwarned⟩
  · simp only [Olive.kmalloc, if_neg hsize]
    exact kmallocSized_refines npf caller fuel hsize k h hk

end Locked

theorem kmalloc_returnsAlone {ι : Type} [DecidableEq ι] (npf : Formatter)
    {s : System ι Lock Section Kernel} {i : ι} {h h' : Heap} {fuel : ℕ} {caller reqSize p : Word}
    (hleft : LeftAlone kernelDiscipline s i ((Call.kmalloc
      (fuel + if paddedSize reqSize = 0 then 2 else 1) caller reqSize).program npf))
    (hh : ShowsHeap s.world.shared h) (hresult : kmalloc fuel reqSize h = .ok (p, h')) :
    ∃ k, s.ReturnsAlone (Call.program npf) i k ∧ ShowsHeap k h' :=
  hleft.returnsAlone_of_refines (Call.program_leads npf)
    (Locked.kmalloc_refines npf caller fuel reqSize).discard hh (by simp only [hresult]; rfl)

end Olive
