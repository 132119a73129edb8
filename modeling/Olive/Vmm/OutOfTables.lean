import Olive.Vmm.Coverage

/-!
# When `vmm_init` runs out of page tables

`vmm_map` returns nothing, so a call that gets no page table is noticed by nobody and
`vmm_init` goes on to the next one. Which calls it sets out to make depends on its
arguments alone, and how many tables they need is the number of different paths to
tables among their pages. The page allocator is asked for exactly so many pages.
-/

namespace Olive

open Library

/-! ## The calls for any memory map -/

/-- The values the counter of a mapping loop takes. -/
def loopWords (start bound : Word) : Except Stop (List Word) :=
  loopTicks pageSize bound .diverges (2 ^ 52 + 1) start

/-- The calls the loop for an entry sets out to make, if it ends. -/
def MemmapEntry.setOut (hhdmOffset : Word) (e : MemmapEntry) : Except Stop (List MapCall) :=
  match e.type with
  | .usable =>
    (loopWords e.base (e.base + e.length)).map fun offs => offs.map fun off =>
      ⟨off + hhdmOffset, off, loopFlags .usable⟩
  | .framebuffer =>
    (loopWords 0 (alignUp (e.base + e.length) pageSize)).map fun offs => offs.map fun off =>
      ⟨alignUp (e.base + off) pageSize + hhdmOffset, alignUp (e.base + off) pageSize,
        loopFlags .framebuffer⟩
  | .bootloaderReclaimable =>
    (loopWords 0 (alignUp (e.base + e.length) pageSize)).map fun offs => offs.map fun off =>
      ⟨e.base + off + hhdmOffset, e.base + off, loopFlags .bootloaderReclaimable⟩
  | _ => .ok []

def setOutEntries (hhdmOffset : Word) : List MemmapEntry → Except Stop (List MapCall)
  | [] => .ok []
  | e :: entries => do
    let calls ← e.setOut hhdmOffset
    let rest ← setOutEntries hhdmOffset entries
    .ok (calls ++ rest)

/-- The calls of `vmm_map` that `vmm_init` sets out to make, in their order. -/
def setOut (hhdmOffset : Word) (memmap : List MemmapEntry) (layout : KernelLayout)
    (kernelVirt kernelPhys : Word) : Except Stop (List MapCall) := do
  let calls ← setOutEntries hhdmOffset memmap
  .ok (calls ++ layout.calls kernelVirt kernelPhys)

theorem ok_bind {ε α β : Type} {x : Except ε α} {f : α → Except ε β} {b : β}
    (h : (x >>= f) = .ok b) : ∃ a, x = .ok a ∧ f a = .ok b := by
  cases x with
  | error e => cases h
  | ok a => exact ⟨a, rfl, h⟩

section SetOut

variable {σ : Type} [PageAllocator σ] {hhdmOffset : Word}

omit [PageAllocator σ] in
theorem mapLoop_loopWords (s : Vmm σ) (start bound : Word) (body : Word → Vmm σ → Vmm σ) :
    mapLoop s start bound body =
      (loopWords start bound).map fun xs => xs.foldl (fun s x => body x s) s :=
  forLoop_loopTicks pageSize bound (fun s x => body x s) Stop.diverges (2 ^ 52 + 1) start s

theorem mapEntry_setOut (s : Vmm σ) (e : MemmapEntry) :
    mapEntry hhdmOffset s e = (e.setOut hhdmOffset).map (runCalls hhdmOffset s) := by
  have hloop : ∀ (start bound : Word) (f : Word → MapCall),
      (mapLoop s start bound fun off s =>
        vmmMap hhdmOffset s s.kernelPm (f off).virt (f off).phys (f off).flags) =
      ((loopWords start bound).map fun offs => offs.map f).map (runCalls hhdmOffset s) := by
    intro start bound f
    rw [mapLoop_loopWords]
    cases loopWords start bound with
    | error stop => rfl
    | ok offs => exact congrArg Except.ok (runCalls_map hhdmOffset s f offs).symm
  unfold mapEntry MemmapEntry.setOut
  cases e.type with
  | usable => exact hloop _ _ fun off => ⟨off + hhdmOffset, off, loopFlags .usable⟩
  | framebuffer =>
    exact hloop _ _ fun off => ⟨alignUp (e.base + off) pageSize + hhdmOffset,
      alignUp (e.base + off) pageSize, loopFlags .framebuffer⟩
  | bootloaderReclaimable =>
    exact hloop _ _ fun off => ⟨e.base + off + hhdmOffset, e.base + off,
      loopFlags .bootloaderReclaimable⟩
  | _ => rfl

theorem mapEntries_setOut (s : Vmm σ) (memmap : List MemmapEntry) :
    memmap.foldlM (mapEntry hhdmOffset) s =
      (setOutEntries hhdmOffset memmap).map (runCalls hhdmOffset s) := by
  induction memmap generalizing s with
  | nil => rfl
  | cons e memmap ih =>
    rw [List.foldlM_cons, mapEntry_setOut, setOutEntries]
    cases e.setOut hhdmOffset with
    | error stop => rfl
    | ok calls =>
      refine (ih (runCalls hhdmOffset s calls)).trans ?_
      cases setOutEntries hhdmOffset memmap with
      | error stop => rfl
      | ok rest => exact congrArg Except.ok (runCalls_append hhdmOffset s calls rest).symm

variable {memmap : List MemmapEntry} {layout : KernelLayout} {eax : BitVec 32} {s : Vmm σ}
  {kernelVirt kernelPhys : Word}

theorem vmmInit_setOut (hkernel : ¬ (kernelVirt = 0 ∨ kernelPhys = 0)) (hpml4 : served s.pmm 0 ≠ 0) :
    vmmInit hhdmOffset memmap layout eax s kernelVirt kernelPhys =
      (setOut hhdmOffset memmap layout kernelVirt kernelPhys).map fun calls =>
        let t := runCalls hhdmOffset (withPml4 hhdmOffset eax s) calls
        (0, vmmSetPm hhdmOffset t t.kernelPm) := by
  simp only [vmmInit, if_neg hkernel, if_neg (show (PageAllocator.requestPages s.pmm 1).1 ≠ 0
    from hpml4)]
  rw [mapEntries_setOut, setOut]
  cases setOutEntries hhdmOffset memmap with
  | error stop => rfl
  | ok calls =>
    simp only [bind, Except.bind, Except.map, mapSegment_eq]
    simp only [KernelLayout.calls, runCalls_append, ← List.append_assoc]
    rfl

omit [PageAllocator σ] in
theorem loopWords_eq {start bound : Word} (hstart : PageAligned start) (hbound : PageAligned bound) :
    loopWords start bound =
      .ok (ticks pageSize start ((bound.toNat - start.toNat) / 4096)) := by
  have hs := start.isLt
  have hb := bound.isLt
  simp only [PageAligned] at hstart hbound
  unfold loopWords
  apply loopTicks_eq
  · intro k hk
    rw [toNat_pageSize]
    omega
  · rw [toNat_pageSize]
    omega
  · rw [toNat_pageSize]
    omega
  · omega

theorem setOut_eq_initCalls
    (halign : ∀ e ∈ memmap, e.type = .usable → PageAligned e.base ∧ PageAligned e.length) :
    setOut hhdmOffset memmap layout kernelVirt kernelPhys =
      .ok (initCalls hhdmOffset memmap layout kernelVirt kernelPhys) := by
  have hentry : ∀ e ∈ memmap, e.setOut hhdmOffset = .ok (e.calls hhdmOffset) := by
    intro e he
    unfold MemmapEntry.setOut MemmapEntry.calls MemmapEntry.loopPages
    cases htype : e.type with
    | usable =>
      obtain ⟨hbase, hlength⟩ := halign e he htype
      have hend : PageAligned (e.base + e.length) := hbase.add hlength
      dsimp only
      rw [loopWords_eq hbase hend]
      rfl
    | framebuffer =>
      dsimp only
      rw [loopWords_eq (by decide : PageAligned 0) (pageAligned_alignUp _), List.map_map]
      rfl
    | bootloaderReclaimable =>
      dsimp only
      rw [loopWords_eq (by decide : PageAligned 0) (pageAligned_alignUp _), List.map_map]
      rfl
    | _ => rfl
  have hentries : setOutEntries hhdmOffset memmap =
      .ok (memmap.flatMap (MemmapEntry.calls hhdmOffset)) := by
    clear halign
    induction memmap with
    | nil => rfl
    | cons e memmap ih =>
      rw [setOutEntries, hentry e List.mem_cons_self,
        ih fun a ha => hentry a (List.mem_cons_of_mem _ ha)]
      rfl
  rw [setOut, hentries]
  rfl

theorem present_of_mem_loop {start bound : Word} {f : Word → MapCall} {cs : List MapCall}
    (hf : ∀ off, Present (f off).flags)
    (hcs : (loopWords start bound).map (fun offs => offs.map f) = .ok cs) :
    ∀ c ∈ cs, Present c.flags := by
  intro c hc
  cases hwords : loopWords start bound with
  | error stop =>
    rw [hwords] at hcs
    cases hcs
  | ok offs =>
    rw [hwords] at hcs
    cases hcs
    obtain ⟨off, -, rfl⟩ := List.mem_map.mp hc
    exact hf off

theorem MemmapEntry.present_of_mem_setOut {e : MemmapEntry} {cs : List MapCall}
    (hcs : e.setOut hhdmOffset = .ok cs) : ∀ c ∈ cs, Present c.flags := by
  unfold MemmapEntry.setOut at hcs
  cases htype : e.type with
  | usable =>
    rw [htype] at hcs
    exact present_of_mem_loop (f := fun off => ⟨off + hhdmOffset, off, loopFlags .usable⟩)
      (fun _ => present_loopFlags _) hcs
  | framebuffer =>
    rw [htype] at hcs
    exact present_of_mem_loop (f := fun off => ⟨alignUp (e.base + off) pageSize + hhdmOffset,
      alignUp (e.base + off) pageSize, loopFlags .framebuffer⟩) (fun _ => present_loopFlags _) hcs
  | bootloaderReclaimable =>
    rw [htype] at hcs
    exact present_of_mem_loop (f := fun off => ⟨e.base + off + hhdmOffset, e.base + off,
      loopFlags .bootloaderReclaimable⟩) (fun _ => present_loopFlags _) hcs
  | _ =>
    rw [htype] at hcs
    cases hcs
    simp

theorem present_of_mem_setOutEntries {cs : List MapCall}
    (hcs : setOutEntries hhdmOffset memmap = .ok cs) : ∀ c ∈ cs, Present c.flags := by
  induction memmap generalizing cs with
  | nil =>
    cases hcs
    simp
  | cons e memmap ih =>
    intro c hc
    obtain ⟨xs, hxs, hcs⟩ := ok_bind hcs
    obtain ⟨ys, hys, hcs⟩ := ok_bind hcs
    cases hcs
    rcases List.mem_append.mp hc with hc | hc
    · exact e.present_of_mem_setOut hxs c hc
    · exact ih hys c hc

theorem present_of_mem_setOut {calls : List MapCall}
    (h : setOut hhdmOffset memmap layout kernelVirt kernelPhys = .ok calls) :
    ∀ c ∈ calls, Present c.flags := by
  obtain ⟨cs, hcs, h⟩ := ok_bind h
  cases h
  intro c hc
  rcases List.mem_append.mp hc with hc | hc
  · exact present_of_mem_setOutEntries hcs c hc
  · exact @present_of_mem_initCalls hhdmOffset kernelVirt kernelPhys [] layout c
      (List.mem_append_right _ hc)

end SetOut

/-! ## The answer of `vmm_init` -/

section Answer

variable {σ : Type} [PageAllocator σ]

/-- `vmm_init` notices failed allocations: if one fails it does not answer 0 and leaves
CR3 alone, and if it answers 0 every page it set out to map is present. -/
structure ReportsFailure (hhdmOffset : Word) (memmap : List MemmapEntry) (layout : KernelLayout)
    (eax : BitVec 32) (s : Vmm σ) (kernelVirt kernelPhys : Word) : Prop where
  failure : ∀ calls r s', setOut hhdmOffset memmap layout kernelVirt kernelPhys = .ok calls →
    vmmInit hhdmOffset memmap layout eax s kernelVirt kernelPhys = .ok (r, s') →
    served s.pmm 0 = 0 ∨ MapFails hhdmOffset (withPml4 hhdmOffset eax s) calls →
    r ≠ 0 ∧ s'.cr3 = s.cr3
  success : ∀ calls s', setOut hhdmOffset memmap layout kernelVirt kernelPhys = .ok calls →
    vmmInit hhdmOffset memmap layout eax s kernelVirt kernelPhys = .ok (0, s') →
    ∀ c ∈ calls, hardwareWalk hhdmOffset s'.mem s'.kernelPm c.virt ≠ none

variable {hhdmOffset kernelVirt kernelPhys : Word} {memmap : List MemmapEntry}
  {layout : KernelLayout} {eax : BitVec 32} {s : Vmm σ}

theorem ReportsFailure.of_refused {t : Vmm σ} (hcr3 : t.cr3 = s.cr3)
    (hinit : vmmInit hhdmOffset memmap layout eax s kernelVirt kernelPhys = .ok (1, t)) :
    ReportsFailure hhdmOffset memmap layout eax s kernelVirt kernelPhys := by
  constructor
  · intro calls r s' _ h _
    rw [hinit] at h
    cases h
    exact ⟨by decide, hcr3⟩
  · intro calls s' _ h
    rw [hinit] at h
    cases h

theorem hardwareWalk_of_not_mapFails {calls : List MapCall} (hserves : ServesFrames s.pmm ∅)
    (hpml4 : served s.pmm 0 ≠ 0) (hflags : ∀ c ∈ calls, Present c.flags)
    (hok : ¬ MapFails hhdmOffset (withPml4 hhdmOffset eax s) calls) {c : MapCall} (hc : c ∈ calls) :
    hardwareWalk hhdmOffset (runCalls hhdmOffset (withPml4 hhdmOffset eax s) calls).mem
      (runCalls hhdmOffset (withPml4 hhdmOffset eax s) calls).kernelPm c.virt ≠ none := by
  obtain ⟨root, -, -, hrep⟩ := @represents_withPml4 _ _ hhdmOffset s eax hserves hpml4
  have hmapped := runCalls_mapped hrep.inv hrep.kernelPm hflags hok c.page (.inr ⟨c, hc, rfl⟩)
  obtain ⟨hinv', hpm', -⟩ := runCalls_spec hrep.inv hrep.kernelPm hflags
  rw [hpm', hrep.kernelPm, hardwareWalk_eq hinv'.tree rfl]
  intro hnone
  exact hmapped (Option.map_eq_none_iff.mp hnone)

/-- `vmm_init` notices failed allocations if and only if none can happen behind its two
checks: the addresses of the kernel are zero, or there is no page for the PML4, or there
is one for each of the tables its calls need. -/
theorem vmmInit_reportsFailure_iff (hserves : ServesFrames s.pmm ∅) :
    ReportsFailure hhdmOffset memmap layout eax s kernelVirt kernelPhys ↔
      (kernelVirt = 0 ∨ kernelPhys = 0) ∨ served s.pmm 0 = 0 ∨
        ∀ calls, setOut hhdmOffset memmap layout kernelVirt kernelPhys = .ok calls →
          ∀ k < tablesNeeded calls, ServesTable hhdmOffset s.pmm (k + 1) := by
  by_cases hkernel : kernelVirt = 0 ∨ kernelPhys = 0
  · exact iff_of_true (.of_refused (t := s.report (zeroKernelAddressReport kernelVirt kernelPhys)) rfl
      (if_pos hkernel)) (.inl hkernel)
  by_cases hpml4 : served s.pmm 0 = 0
  · refine iff_of_true ?_ (.inr (.inl hpml4))
    have hinit : ∃ t, vmmInit hhdmOffset memmap layout eax s kernelVirt kernelPhys = .ok (1, t) ∧
        t.cr3 = s.cr3 := by
      simp only [vmmInit, if_neg hkernel,
        if_pos (show (PageAllocator.requestPages s.pmm 1).1 = 0 from hpml4)]
      exact ⟨_, rfl, rfl⟩
    obtain ⟨t, hinit, hcr3⟩ := hinit
    exact .of_refused hcr3 hinit
  · have hfails := fun calls => @mapFails_withPml4_iff _ _ hhdmOffset s eax hserves hpml4 calls
    have hinit := @vmmInit_setOut _ _ hhdmOffset memmap layout eax s kernelVirt kernelPhys hkernel hpml4
    constructor
    · intro hP
      refine .inr (.inr fun calls hcalls => ?_)
      by_contra hshort
      rw [hcalls] at hinit
      exact (hP.failure calls 0 _ hcalls hinit (.inr ((hfails calls).mpr hshort))).1 rfl
    · intro hcond
      have henough := (hcond.resolve_left hkernel).resolve_left hpml4
      have hok : ∀ calls, setOut hhdmOffset memmap layout kernelVirt kernelPhys = .ok calls →
          ¬ MapFails hhdmOffset (withPml4 hhdmOffset eax s) calls :=
        fun calls hcalls hfail => (hfails calls).mp hfail (henough calls hcalls)
      constructor
      · rintro calls r s' hcalls - (hzero | hfail)
        · exact absurd hzero hpml4
        · exact absurd hfail (hok calls hcalls)
      · intro calls s' hcalls h c hc
        rw [hinit, hcalls] at h
        cases h
        exact hardwareWalk_of_not_mapFails hserves hpml4 (present_of_mem_setOut hcalls)
          (hok calls hcalls) hc

end Answer

/-- A machine on which the stack of the PMM leaves a single free page. -/
def scarceMemmap : List MemmapEntry :=
  [⟨0x1000, 0x2000, .usable⟩, ⟨0x4000, 0x4000, .kernelAndModules⟩]

theorem pmmInit_scarceMemmap : ∃ pmm, pmmInit (some scarceMemmap) 0xffff800000000000 Pmm.boot =
      (0, pmm) ∧ pmm.memmap = [⟨0x1000, 0x1000, .usable⟩, ⟨0x4000, 0x4000, .kernelAndModules⟩] ∧
    served pmm 0 = 0x1000 ∧ (∀ k, served pmm (k + 1) = 0) ∧ ServesFrames pmm ∅ := by
  have hv : UsableMemmap scarceMemmap :=
    ⟨by decide, by decide, by simp [scarceMemmap]⟩
  obtain ⟨pmm, hinit, hpost⟩ := @pmmInit_spec _ 0xffff800000000000 hv (by decide)
  have hmemmap : pmm.memmap = [⟨0x1000, 0x1000, .usable⟩, ⟨0x4000, 0x4000, .kernelAndModules⟩] := by
    rw [hpost.memmap]
    decide
  have hlive : pmm.live = [0x1000] := by
    rw [hpost.live, hmemmap]
    decide +kernel
  have hserved : ∀ k, served pmm k = ([0x1000] : List Word)[k]?.getD 0 := by
    intro k
    rw [served_pmm, hlive]
    rfl
  refine ⟨pmm, hinit, hmemmap, hserved 0, fun k => ?_, servesFrames_pmm ?_ ?_⟩
  · rw [hserved]
    rfl
  · rw [hlive]
    decide
  · rw [hlive]
    intro q hq
    obtain rfl := List.mem_singleton.mp hq
    exact ⟨0x1, by simp, by decide⟩

/-- `vmm_init` answers 0 and loads CR3 with the free page, a PML4 without a single entry:
a call fails, and no page it set out to map is present. -/
theorem vmmInit_scarceMemmap : ∃ s s' : Vmm Pmm,
    pmmInit (some scarceMemmap) 0xffff800000000000 Pmm.boot = (0, s.pmm) ∧ s.cr3 = 0 ∧
    vmmInit 0xffff800000000000 s.pmm.memmap bootLayout 0x3027 s 0xffffffff80000000 0x4000 =
      .ok (0, s') ∧
    s'.cr3 = 0x1000 ∧
    MapFails 0xffff800000000000 (withPml4 0xffff800000000000 0x3027 s)
      (initCalls 0xffff800000000000 s.pmm.memmap bootLayout 0xffffffff80000000 0x4000) ∧
    ∀ virt, hardwareWalk 0xffff800000000000 s'.mem s'.kernelPm virt = none := by
  obtain ⟨pmm, hinit, hmemmap, hfirst, hstarved, hserves⟩ := pmmInit_scarceMemmap
  have halign : ∀ e ∈ pmm.memmap, e.type = .usable → PageAligned e.base ∧ PageAligned e.length := by
    rw [hmemmap]
    decide
  have hpml4 : served pmm 0 ≠ 0 := by
    rw [hfirst]
    decide
  let s : Vmm Pmm := { clearedVmm with pmm := pmm }
  let calls := initCalls 0xffff800000000000 pmm.memmap bootLayout 0xffffffff80000000 0x4000
  have hflags : ∀ c ∈ calls, Present c.flags := fun c hc => present_of_mem_initCalls hc
  obtain ⟨root, hroot, hcleared, hrep⟩ :=
    @represents_withPml4 _ _ 0xffff800000000000 s 0x3027 hserves hpml4
  have hmem := runCalls_starved hrep.inv hrep.kernelPm hstarved hcleared calls
  obtain ⟨hinv, hpm, -⟩ := runCalls_spec hrep.inv hrep.kernelPm hflags
  have hneeded : 0 < tablesNeeded calls := by
    simp only [calls, hmemmap]
    decide +kernel
  refine ⟨s, _, hinit, rfl, vmmInit_eq halign (by decide) hpml4, ?_, ?_, fun virt => ?_⟩
  · change (runCalls _ _ calls).kernelPm.pml4 - 0xffff800000000000 = 0x1000
    rw [hpm, hrep.kernelPm, tableAddr, ← hroot, hfirst]
    decide
  · rw [mapFails_withPml4_iff 0x3027 hserves hpml4]
    exact fun hall => (hall 0 hneeded).1 (hstarved 0)
  · change hardwareWalk _ (runCalls _ _ calls).mem (runCalls _ _ calls).kernelPm virt = none
    rw [hpm, hrep.kernelPm, hardwareWalk_eq hinv.tree rfl, hmem, walk_cleared ?_ rfl]
    · rfl
    · rintro r rfl i
      exact hcleared i

/-- As the usable entry is aligned, the calls are the ones made page by page, and there is no page
for the first table they need. -/
theorem vmmInit_reportsFailure_iff_scarceMemmap : ∃ s : Vmm Pmm,
    pmmInit (some scarceMemmap) 0xffff800000000000 Pmm.boot = (0, s.pmm) ∧
    0 < tablesNeeded (initCalls 0xffff800000000000 s.pmm.memmap bootLayout 0xffffffff80000000 0x4000) ∧
    ¬ ServesTable 0xffff800000000000 s.pmm 1 ∧
    (ReportsFailure 0xffff800000000000 s.pmm.memmap bootLayout 0x3027 s 0xffffffff80000000 0x4000 ↔
      ((0xffffffff80000000 : Word) = 0 ∨ (0x4000 : Word) = 0) ∨ served s.pmm 0 = 0 ∨
        ∀ k < tablesNeeded (initCalls 0xffff800000000000 s.pmm.memmap bootLayout 0xffffffff80000000
          0x4000), ServesTable 0xffff800000000000 s.pmm (k + 1)) := by
  obtain ⟨pmm, hinit, hmemmap, -, hstarved, hserves⟩ := pmmInit_scarceMemmap
  have halign : ∀ e ∈ pmm.memmap, e.type = .usable → PageAligned e.base ∧ PageAligned e.length := by
    rw [hmemmap]
    decide
  have hneeded : 0 < tablesNeeded
      (initCalls 0xffff800000000000 pmm.memmap bootLayout 0xffffffff80000000 0x4000) := by
    rw [hmemmap]
    decide +kernel
  have hiff := @vmmInit_reportsFailure_iff _ _ 0xffff800000000000 0xffffffff80000000 0x4000
    pmm.memmap bootLayout 0x3027 { clearedVmm with pmm := pmm } hserves
  rw [setOut_eq_initCalls halign] at hiff
  simp only [Except.ok.injEq, forall_eq'] at hiff
  exact ⟨{ clearedVmm with pmm := pmm }, hinit, hneeded, fun h => h.1 (hstarved 0), hiff⟩

end Olive
