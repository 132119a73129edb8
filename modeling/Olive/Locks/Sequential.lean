import Olive.Library.Alone
import Olive.Locks.Discipline

/-!
# The locked programs and the functions without locks

`Olive.pmmRequestPages`, `vmmMap` and `vmmUnmap` model one context that runs at a time; the
programs of `Olive.Locked` model the same functions step by step. Run alone, a program
answers what the function answers and leaves the same globals and memory. The lines printed
are kept as reports by the functions and go to the console in the programs.
-/

namespace Olive

open Library

/-- The PMM in the kernel is `s` up to reports; all else in the heap is as in `g`. -/
def ShowsPmm (g : Heap) (k : Kernel) (s : Pmm) : Prop :=
  ∃ rs, k.toHeap = { g with pmm := { s with reports := rs } }

/-- The PMM and the memory of the kernel are those of `s`, with the HHDM at `off`. -/
structure ShowsVmm (g : Heap) (off : Word) (k : Kernel) (s : Vmm Pmm) : Prop where
  hhdm : s.pmm.hhdmOffset = off
  heap : ∃ rs, k.toHeap = { g with pmm := { s.pmm with reports := rs }, mem := s.mem }

section Shows

variable {g : Heap} {off : Word} {k : Kernel} {s : Vmm Pmm}

theorem ShowsVmm.mem_eq (h : ShowsVmm g off k s) : k.mem = s.mem := by
  obtain ⟨-, rs, hk⟩ := h
  exact congrArg Heap.mem hk

theorem ShowsVmm.hhdm_eq (h : ShowsVmm g off k s) : k.pmm.hhdmOffset = off := by
  obtain ⟨hoff, rs, hk⟩ := h
  exact (congrArg (fun h => h.pmm.hhdmOffset) hk).trans hoff

theorem ShowsVmm.print (h : ShowsVmm g off k s) (console : List Char) :
    ShowsVmm g off { k with console := console } s := ⟨h.hhdm, h.heap⟩

theorem ShowsVmm.report (h : ShowsVmm g off k s) (r : Report) : ShowsVmm g off k (s.report r) :=
  ⟨h.hhdm, h.heap⟩

theorem ShowsVmm.setMem (h : ShowsVmm g off k s) (m : Memory 64) :
    ShowsVmm g off { k with mem := m } { s with mem := m } := by
  obtain ⟨hoff, rs, hk⟩ := h
  exact ⟨hoff, rs, congrArg (fun h : Heap => { h with mem := m }) hk⟩

theorem ShowsVmm.showsPmm (h : ShowsVmm g off k s) : ShowsPmm k.toHeap k s.pmm := by
  obtain ⟨-, rs, hk⟩ := h
  exact ⟨rs, by rw [hk]⟩

theorem ShowsVmm.setPmm {k' : Kernel} {p : Pmm} (h : ShowsVmm g off k s)
    (hk' : ShowsPmm k.toHeap k' p) (hoff : p.hhdmOffset = s.pmm.hhdmOffset) :
    ShowsVmm g off k' { s with pmm := p } := by
  obtain ⟨hs, rs, hk⟩ := h
  obtain ⟨rs', hk'⟩ := hk'
  refine ⟨hoff.trans hs, rs', ?_⟩
  rw [hk', hk]

end Shows

namespace Locked

variable (npf : Formatter) (k : Kernel)

/-! ## `printf.c` -/

theorem putchar_eval (ch : Char) :
    ∃ console, (putchar ch).eval k = some (ch, { k with console := console }) := by
  have heval : (putchar ch).eval k =
      some (ch, if k.ftCtx then { k with console := k.console ++ [ch] } else k) := rfl
  split_ifs at heval
  · exact ⟨k.console ++ [ch], heval⟩
  · exact ⟨k.console, heval⟩

theorem putchars_eval (chs : List Char) :
    ∃ console, (putchars chs).eval k = some ((), { k with console := console }) := by
  induction chs generalizing k with
  | nil => exact ⟨k.console, rfl⟩
  | cons ch chs ih =>
    obtain ⟨c, hc⟩ := putchar_eval k ch
    obtain ⟨c', hc'⟩ := ih { k with console := c }
    exact ⟨c', (Code.eval_bind_of_eq hc _).trans hc'⟩

theorem printf_eval (fmt : String) (args : List Arg) :
    ∃ n console, (printf npf fmt args).eval k = some (n, { k with console := console }) := by
  obtain ⟨c, hc⟩ := putchars_eval k (npf fmt args)
  by_cases hlen : (npf fmt args).length < 1024
  · refine ⟨(npf fmt args).length, c, ?_⟩
    simp only [printf, vfprintf, if_pos hlen]
    rw [Code.eval_bind_of_eq hc]
    rfl
  · exact ⟨(npf fmt args).length, k.console, by simp [printf, vfprintf, hlen]⟩

theorem log_eval (level fmt : String) (args : List Arg) :
    ∃ console, (log npf level fmt args).eval k = some ((), { k with console := console }) := by
  obtain ⟨n, c, hc⟩ := printf_eval npf k "[%s]: " [.str level]
  obtain ⟨n', c', hc'⟩ := printf_eval npf { k with console := c } fmt args
  refine ⟨c', ?_⟩
  rw [log, Code.eval_bind_of_eq hc, Code.eval_bind_of_eq hc']
  rfl

theorem report_eval (r : Report) :
    ∃ console, (report npf r).eval k = some ((), { k with console := console }) := by
  unfold report
  cases r.level with
  | warn => exact log_eval npf k _ _ _
  | error => exact log_eval npf k _ _ _

/-! What follows a line that is printed sees another console only. -/

section Printed

variable {T α : Type} {R : Kernel → T → Prop} {f : Unit × Kernel → Option (α × Kernel)}
  {y : Option (α × T)}

theorem log_bind (level fmt : String) (args : List Arg)
    (h : ∀ console, SameResult R (f ((), { k with console := console })) y) :
    SameResult R (((log npf level fmt args).eval k).bind f) y := by
  obtain ⟨c, hc⟩ := log_eval npf k level fmt args
  rw [hc]
  exact h c

theorem report_bind (r : Report)
    (h : ∀ console, SameResult R (f ((), { k with console := console })) y) :
    SameResult R (((report npf r).eval k).bind f) y := by
  obtain ⟨c, hc⟩ := report_eval npf k r
  rw [hc]
  exact h c

end Printed

theorem assert_bind {T α β : Type} {R : Kernel → T → Prop} {x : Bool} {text : String}
    {f : Unit → Program α} {f' : Unit → Except Stop β} {r : β → α × T}
    (h : x = true → SameResult R ((f ()).eval k) ((f' ()).toOption.map r)) :
    SameResult R ((assert npf x text >>= f).eval k)
      ((Olive.assert x text >>= f').toOption.map r) := by
  cases x with
  | true => exact h rfl
  | false =>
    obtain ⟨c, hc⟩ := log_eval npf k "ERROR" "Assertion failed: %s" [.str text]
    have hstop : (assert npf false text).eval k = none := Code.eval_bind_of_eq hc _
    rw [Code.eval_bind, hstop]
    exact .none

/-! ## `pmm.c` -/

section Pmm

theorem pmmRequestPages_refines (g : Heap) (pages : Word) :
    (pmmRequestPages npf pages).Refines (ShowsPmm g) fun s =>
      some (Olive.pmmRequestPages s pages) := by
  rintro ⟨heap, errors, overruns, ft, console, flag⟩ s ⟨rs, hk⟩
  cases hk
  by_cases hshort : pages = 0 ∨ s.pmStackIdx < pages
  · simp only [pmmRequestPages, Code.eval_bind, Code.eval_entry, Code.eval_get, Option.bind_some,
      Code.eval_ite, hshort, decide_true, if_true, Code.eval_exit, Code.eval_pure,
      Olive.pmmRequestPages]
    exact report_bind npf _ _ fun console => sameResult_some _ ⟨rs, rfl⟩
  · simp only [pmmRequestPages, Code.eval_bind, Code.eval_entry, Code.eval_get, Option.bind_some,
      Code.eval_ite, hshort, decide_false, if_false, Code.eval_modify, Code.eval_exit,
      Code.eval_pure, Olive.pmmRequestPages]
    exact sameResult_some _ ⟨rs, rfl⟩

theorem pushFreed_refines (g : Heap) (pageAddr : Word) (n : ℕ) (i : Word) :
    (pushFreed npf pageAddr n i).Refines (ShowsPmm g) fun s =>
      some (Olive.pushFreed pageAddr n i s) := by
  induction n generalizing i with
  | zero =>
    rintro k s hk
    exact sameResult_some _ hk
  | succ n ih =>
    rintro ⟨heap, errors, overruns, ft, console, flag⟩ s ⟨rs, hk⟩
    cases hk
    by_cases hfull : s.pmTotalPages ≤ s.pmStackIdx
    · simp only [pushFreed, Code.eval_bind, Code.eval_get, Option.bind_some, Code.eval_ite, hfull,
        decide_true, if_true, Code.eval_pure, Olive.pushFreed]
      exact report_bind npf _ _ fun console => sameResult_some _ ⟨rs, rfl⟩
    · simp only [pushFreed, Code.eval_bind, Code.eval_get, Option.bind_some, Code.eval_ite, hfull,
        decide_false, if_false, Code.eval_modify, Olive.pushFreed]
      exact ih (i + 1) _ _ ⟨rs, rfl⟩

theorem pmmFreePages_refines (g : Heap) (ptr pages : Word) :
    (pmmFreePages npf ptr pages).Refines (ShowsPmm g) fun s =>
      (Olive.pmmFreePages s ptr pages).toOption.map ((), ·) := by
  rintro k s hk
  rw [pmmFreePages, Code.eval_bind_of_eq (Code.eval_entry k _)]
  refine assert_bind npf k fun _ => ?_
  refine assert_bind npf k fun _ => ?_
  refine assert_bind npf k fun _ => ?_
  rcases hpush : Olive.pushFreed ptr pages.toNat 0 s with ⟨full, s'⟩
  refine (pushFreed_refines npf g ptr pages.toNat 0).bind_some hk (congrArg some hpush)
    fun k' hk' => ?_
  cases full with
  | true => exact sameResult_some _ hk'
  | false =>
    obtain ⟨rs, hk'⟩ := hk'
    obtain ⟨heap, errors, overruns, ft, console, flag⟩ := k'
    cases hk'
    exact sameResult_some _ ⟨rs, rfl⟩

end Pmm

/-! ## `vmm.c` -/

section Vmm

variable (g : Heap) (off : Word)

theorem pmmRequestPages_refinesVmm (pages : Word) :
    (pmmRequestPages npf pages).Refines (ShowsVmm g off) fun s =>
      some ((Olive.pmmRequestPages s.pmm pages).1,
        { s with pmm := (Olive.pmmRequestPages s.pmm pages).2 }) := by
  refine Code.refines_focus (f := fun s => some (Olive.pmmRequestPages s pages)) Vmm.pmm
    (fun s p => { s with pmm := p }) fun k s hk => ?_
  refine ⟨_, pmmRequestPages_refines npf k.toHeap pages, hk.showsPmm, ?_⟩
  rintro r hr k' hk'
  cases hr
  exact hk.setPmm hk' (pmmRequestPages_frame s.pmm pages).2

theorem getBelowPml_refines (pmlPointer index : Word) (force : Bool) :
    (getBelowPml npf pmlPointer index force).Refines (ShowsVmm g off) fun s =>
      some (Olive.getBelowPml off s pmlPointer index force) := by
  rintro k s hk
  unfold getBelowPml Olive.getBelowPml
  rw [Code.eval_bind_of_eq (Code.eval_get k _), hk.mem_eq]
  dsimp only
  by_cases hpresent : s.mem.load64 (pmlPointer + index * 8) &&& pteBitPresent ≠ 0
  · rw [if_pos (decide_eq_true hpresent), if_pos hpresent, Code.eval_get, hk.mem_eq, hk.hhdm_eq]
    exact sameResult_some _ hk
  · rw [if_neg (by simpa using hpresent), if_neg hpresent]
    cases force with
    | false => exact sameResult_some _ hk
    | true =>
      refine (pmmRequestPages_refinesVmm npf g off 1).bind_total hk fun k₁ hk₁ => ?_
      have hrequest : PageAllocator.requestPages s.pmm 1 = Olive.pmmRequestPages s.pmm 1 := rfl
      simp only [Bool.not_true, Bool.false_eq_true, if_false, hrequest]
      generalize Olive.pmmRequestPages s.pmm 1 = belowPml at hk₁ ⊢
      by_cases hzero : belowPml.1 = 0
      · rw [if_pos hzero, if_pos hzero, Code.eval_bind]
        exact report_bind npf k₁ _ fun console => sameResult_some _ ((hk₁.print console).report _)
      · rw [if_neg hzero, if_neg hzero, Code.eval_bind_of_eq (Code.eval_modify k₁ _), hk₁.mem_eq,
          hk₁.hhdm_eq]
        -- With its size known, `memset` would be run.
        generalize pageSize.toNat = size
        have hk₂ := hk₁.setMem (memset s.mem (belowPml.1 + off) 0 size)
        generalize { k₁ with mem := memset s.mem (belowPml.1 + off) 0 size } = k₂ at hk₂ ⊢
        rw [Code.eval_bind_of_eq (Code.eval_modify k₂ _), Code.eval_get, hk₂.mem_eq]
        have hoff := hk₂.hhdm_eq
        rw [hoff]
        exact sameResult_some _ (hk₂.setMem _)

theorem pml4ToPt_refines (pml4 virt : Word) (force : Bool) :
    (pml4ToPt npf pml4 virt force).Refines (ShowsVmm g off) fun s =>
      some (Olive.pml4ToPt off s pml4 virt force) := by
  rintro k s hk
  unfold pml4ToPt Olive.pml4ToPt
  dsimp only
  refine (getBelowPml_refines npf g off _ _ force).bind_total hk fun k₁ hk₁ => ?_
  generalize Olive.getBelowPml off s pml4 (tableIndex virt 39) force = pdpt at hk₁ ⊢
  by_cases hpdpt : pdpt.1 = 0
  · simp only [if_pos hpdpt]
    exact sameResult_some _ hk₁
  · simp only [if_neg hpdpt]
    refine (getBelowPml_refines npf g off _ _ force).bind_total hk₁ fun k₂ hk₂ => ?_
    generalize Olive.getBelowPml off pdpt.2 pdpt.1 (tableIndex virt 30) force = pd at hk₂ ⊢
    by_cases hpd : pd.1 = 0
    · simp only [if_pos hpd]
      exact sameResult_some _ hk₂
    · simp only [if_neg hpd]
      refine (getBelowPml_refines npf g off _ _ force).bind_total hk₂ fun k₃ hk₃ => ?_
      generalize Olive.getBelowPml off pd.2 pd.1 (tableIndex virt 21) force = pt at hk₃ ⊢
      obtain ⟨pt, s₃⟩ := pt
      by_cases hpt : pt = 0
      · simp only [hpt]
        exact sameResult_some _ hk₃
      · simp only [if_neg hpt]
        exact sameResult_some _ hk₃

/-- Run alone, `vmm_map` leaves the PMM and the memory as the function without locks does. -/
theorem vmmMap_refines (pm : Pagemap) (virt phys flags : Word) :
    (vmmMap npf pm virt phys flags).Refines (ShowsVmm g off) fun s =>
      some ((), Olive.vmmMap off s pm virt phys flags) := by
  rintro k s hk
  unfold vmmMap Olive.vmmMap spinlockAcquire spinlockRelease
  dsimp only
  rw [Code.eval_bind_of_eq (Code.eval_lock k _)]
  refine (pml4ToPt_refines npf g off _ _ true).bind_total hk fun k₁ hk₁ => ?_
  generalize Olive.pml4ToPt off s pm.pml4 virt true = pt at hk₁ ⊢
  by_cases hpt : pt.1 = 0
  · simp only [if_pos hpt, Code.eval_bind]
    exact report_bind npf k₁ _ fun console => sameResult_some _ ((hk₁.print console).report _)
  · simp only [if_neg hpt, Code.eval_bind, Code.eval_modify, Code.eval_unlock, Option.bind_some,
      hk₁.mem_eq]
    exact sameResult_some _ (hk₁.setMem _)

theorem pmmFreePages_refinesVmm (ptr pages : Word) :
    (pmmFreePages npf ptr pages).Refines (ShowsVmm g off) fun s =>
      ((Olive.pmmFreePages s.pmm ptr pages).toOption.map ((), ·)).map fun r =>
        (r.1, { s with pmm := r.2 }) := by
  refine Code.refines_focus (f := fun s => (Olive.pmmFreePages s ptr pages).toOption.map ((), ·))
    Vmm.pmm (fun s p => { s with pmm := p }) fun k s hk => ?_
  refine ⟨_, pmmFreePages_refines npf k.toHeap ptr pages, hk.showsPmm, ?_⟩
  intro r hr k' hk'
  cases hfree : Olive.pmmFreePages s.pmm ptr pages with
  | error e =>
    rw [hfree] at hr
    cases hr
  | ok p =>
    rw [hfree] at hr
    cases hr
    exact hk.setPmm hk' (pmmFreePages_frame hfree).2

theorem vmmUnmap_refines (pm : Pagemap) (virt : Word) (freePhys : Bool) :
    (vmmUnmap npf pm virt freePhys).Refines (ShowsVmm g off) fun s =>
      (Olive.vmmUnmap off s pm virt freePhys).toOption := by
  rintro k s hk
  unfold vmmUnmap Olive.vmmUnmap spinlockAcquire spinlockRelease
  dsimp only
  rw [Code.eval_bind_of_eq (Code.eval_lock k _)]
  refine (pml4ToPt_refines npf g off _ _ false).bind_total hk fun k₁ hk₁ => ?_
  generalize Olive.pml4ToPt off s pm.pml4 virt false = pt at hk₁ ⊢
  by_cases hpt : pt.1 = 0
  · simp only [if_pos hpt, Code.eval_bind, Code.eval_unlock, Option.bind_some]
    exact sameResult_some _ hk₁
  · simp only [if_neg hpt]
    have hclear : ∀ {k₂ s₂}, ShowsVmm g off k₂ s₂ → SameResult (ShowsVmm g off)
        ((do
          Code.modify fun k => { k with mem := k.mem.store64 (pt.1 + tableIndex virt 12 * 8) 0 }
          Code.unlock .mapLock
          return true : Program Bool).eval k₂)
        (some (true, { s₂ with mem := s₂.mem.store64 (pt.1 + tableIndex virt 12 * 8) 0 })) := by
      intro k₂ s₂ hk₂
      simp only [Code.eval_bind, Code.eval_modify, Code.eval_unlock, Code.eval_pure,
        Option.bind_some, hk₂.mem_eq]
      exact sameResult_some _ (hk₂.setMem _)
    cases freePhys with
    | false => exact hclear hk₁
    | true =>
      rw [if_pos rfl, if_pos rfl, Code.eval_bind_of_eq (Code.eval_get k₁ _), hk₁.mem_eq]
      have hrefines := pmmFreePages_refinesVmm npf g off
        (pt.2.mem.load64 (pt.1 + tableIndex virt 12 * 8) &&& frameMask) 1
      cases hfree : Olive.pmmFreePages pt.2.pmm
          (pt.2.mem.load64 (pt.1 + tableIndex virt 12 * 8) &&& frameMask) 1 with
      | error e =>
        have hseq : PageAllocator.freePages pt.2.pmm
            (pt.2.mem.load64 (pt.1 + tableIndex virt 12 * 8) &&& frameMask) 1 = .error e := hfree
        rw [hseq]
        exact hrefines.bind_none hk₁ (by simp only [hfree]; rfl)
      | ok p =>
        have hseq : PageAllocator.freePages pt.2.pmm
            (pt.2.mem.load64 (pt.1 + tableIndex virt 12 * 8) &&& frameMask) 1 = .ok p := hfree
        rw [hseq]
        refine hrefines.bind_some hk₁ (by simp only [hfree]; rfl) fun k₂ hk₂ => ?_
        exact hclear hk₂

end Vmm

end Locked

/-! ## Calls of a context that is left alone -/

section Alone

variable {ι : Type} [DecidableEq ι] (npf : Formatter) {s : System ι Lock Section Kernel} {i : ι}

/-- However the other contexts came to where they are, as long as they hold no lock, a call of
`vmm_map` returns and leaves what the function without locks leaves. -/
theorem vmmMap_returnsAlone {g : Heap} {off : Word} {v : Vmm Pmm} {pm : Pagemap}
    {virt phys flags : Word}
    (hleft : LeftAlone kernelDiscipline s i ((Call.vmmMap pm virt phys flags).program npf))
    (hv : ShowsVmm g off s.world.shared v) :
    ∃ k, s.ReturnsAlone (Call.program npf) i k ∧
      ShowsVmm g off k (vmmMap off v pm virt phys flags) :=
  hleft.returnsAlone_of_refines (Call.program_leads npf)
    (Locked.vmmMap_refines npf g off pm virt phys flags) hv rfl

theorem vmmUnmap_returnsAlone {g : Heap} {off : Word} {v v' : Vmm Pmm} {pm : Pagemap} {virt : Word}
    {freePhys mapped : Bool}
    (hleft : LeftAlone kernelDiscipline s i ((Call.vmmUnmap pm virt freePhys).program npf))
    (hv : ShowsVmm g off s.world.shared v)
    (h : vmmUnmap off v pm virt freePhys = .ok (mapped, v')) :
    ∃ k, s.ReturnsAlone (Call.program npf) i k ∧ ShowsVmm g off k v' :=
  hleft.returnsAlone_of_refines (Call.program_leads npf)
    (Locked.vmmUnmap_refines npf g off pm virt freePhys).discard hv (by simp only [h]; rfl)

end Alone

end Olive
