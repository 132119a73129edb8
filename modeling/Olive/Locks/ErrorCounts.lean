import Olive.Locks.SequentialHeap

/-!
# What does not touch the error counts of the heap

`l_errorCount` and `l_possibleOverruns` count the pointers to no minor block that `kfree` and
`krealloc` were given. Nothing else writes to them: not what prints, not the PMM and not
`kmalloc`.
-/

namespace Olive

open Library

def Kernel.errorCounts (k : Kernel) : Word × Word := (k.errorCount, k.possibleOverruns)

namespace Locked

variable (npf : Formatter)

section Printf

theorem putchar_fixes (ch : Char) : (putchar ch).Fixes Kernel.errorCounts := by
  apply (Code.fixes_lock _).bind
  intro _
  apply Code.fixes_modify_bind
  · intro k
    split_ifs
    · rfl
    · rfl
  · apply (Code.fixes_unlock _).bind
    exact fun _ => Code.fixes_pure _

theorem putchars_fixes (chs : List Char) : (putchars chs).Fixes Kernel.errorCounts := by
  induction chs with
  | nil => exact Code.fixes_pure _
  | cons ch chs ih => exact (putchar_fixes ch).bind fun _ => ih

theorem printf_fixes (fmt : String) (args : List Arg) :
    (printf npf fmt args).Fixes Kernel.errorCounts := by
  apply Code.Fixes.ite
  · exact (putchars_fixes _).bind fun _ => Code.fixes_pure _
  · exact Code.fixes_pure _

theorem log_fixes (level fmt : String) (args : List Arg) :
    (log npf level fmt args).Fixes Kernel.errorCounts := by
  apply (printf_fixes npf _ _).bind
  intro _
  apply (printf_fixes npf _ _).bind
  exact fun _ => Code.fixes_pure _

theorem report_fixes (r : Report) : (report npf r).Fixes Kernel.errorCounts := by
  unfold report
  cases r.level with
  | warn => exact log_fixes npf _ _ _
  | error => exact log_fixes npf _ _ _

theorem assert_fixes (x : Bool) (text : String) :
    (assert npf x text).Fixes Kernel.errorCounts := by
  apply Code.Fixes.ite
  · exact Code.fixes_pure _
  · apply (log_fixes npf _ _ _).bind
    intro _
    exact Code.fixes_modify_bind (fun _ => rfl) Code.fixes_stop

end Printf

section Pmm

theorem pmmRequestPages_fixes (pages : Word) :
    (pmmRequestPages npf pages).Fixes Kernel.errorCounts := by
  apply (Code.fixes_entry _).bind
  intro _
  apply (Code.fixes_get _).bind
  intro short
  apply Code.Fixes.ite
  · apply (report_fixes npf _).bind
    intro _
    apply (Code.fixes_exit _).bind
    exact fun _ => Code.fixes_pure _
  · refine Code.fixes_modify_bind (fun _ => rfl) ?_
    apply (Code.fixes_get _).bind
    intro ptr
    refine Code.fixes_modify_bind (fun _ => rfl) ?_
    refine Code.fixes_modify_bind (fun _ => rfl) ?_
    apply (Code.fixes_exit _).bind
    exact fun _ => Code.fixes_pure _

theorem pushFreed_fixes (pageAddr : Word) (n : ℕ) (i : Word) :
    (pushFreed npf pageAddr n i).Fixes Kernel.errorCounts := by
  induction n generalizing i with
  | zero => exact Code.fixes_pure _
  | succ n ih =>
    apply (Code.fixes_get _).bind
    intro full
    apply Code.Fixes.ite
    · apply (report_fixes npf _).bind
      exact fun _ => Code.fixes_pure _
    · refine Code.fixes_modify_bind (fun _ => rfl) ?_
      exact ih (i + 1)

theorem pmmFreePages_fixes (ptr pages : Word) :
    (pmmFreePages npf ptr pages).Fixes Kernel.errorCounts := by
  apply (Code.fixes_entry _).bind
  intro _
  apply (assert_fixes npf _ _).bind
  intro _
  apply (assert_fixes npf _ _).bind
  intro _
  apply (assert_fixes npf _ _).bind
  intro _
  apply (pushFreed_fixes npf _ _ _).bind
  intro full
  apply Code.Fixes.ite
  · exact Code.fixes_exit _
  · refine Code.fixes_modify_bind (fun _ => rfl) ?_
    refine Code.fixes_modify_bind (fun _ => rfl) ?_
    exact Code.fixes_exit _

end Pmm

section Liballoc

theorem allocateNewPage_fixes (size : BitVec 32) :
    (allocateNewPage npf size).Fixes Kernel.errorCounts := by
  apply Code.Fixes.bind ((pmmRequestPages_fixes npf _).bind fun _ => Code.fixes_get _)
  intro maj
  apply Code.Fixes.ite
  · refine Code.fixes_modify_bind (fun _ => rfl) ?_
    apply (report_fixes npf _).bind
    exact fun _ => Code.fixes_pure _
  · refine Code.fixes_modify_bind (fun _ => rfl) ?_
    refine Code.fixes_modify_bind (fun _ => rfl) ?_
    exact Code.fixes_pure _

theorem kmallocFails_fixes (size : Word) : (kmallocFails npf size).Fixes Kernel.errorCounts := by
  apply (Code.fixes_unlock _).bind
  intro _
  apply (report_fixes npf _).bind
  intro _
  apply (report_fixes npf _).bind
  exact fun _ => Code.fixes_pure _

theorem kmallocLoop_fixes (size reqSize : Word) (fuel : ℕ) (v : Search) :
    (kmallocLoop npf size reqSize fuel v).Fixes Kernel.errorCounts := by
  induction fuel generalizing v with
  | zero => exact Code.fixes_stop
  | succ fuel ih =>
    refine Code.fixes_access_bind (fun _ => rfl) ?_
    intro next
    cases next with
    | error e => exact Code.fixes_stop
    | ok next =>
      cases next with
      | breaks h => exact kmallocFails_fixes npf size
      | returns p h => exact (Code.fixes_unlock _).bind fun _ => Code.fixes_pure _
      | continues c => exact ih c.search
      | needsBlock c pc =>
        apply (allocateNewPage_fixes npf _).bind
        intro new
        refine Code.fixes_modify_bind (fun _ => rfl) ?_
        apply (Code.fixes_get _).bind
        intro next
        apply Code.Fixes.ite
        · exact kmallocFails_fixes npf size
        · refine Code.fixes_modify_bind (fun _ => rfl) ?_
          apply (Code.fixes_get _).bind
          exact fun _ => ih _

theorem kmallocSearch_fixes (fuel : ℕ) (size reqSize : Word) :
    (kmallocSearch npf fuel size reqSize).Fixes Kernel.errorCounts :=
  (Code.fixes_get _).bind fun _ => kmallocLoop_fixes npf _ _ _ _

/-- `kmalloc` counts no errors; the induction is on its calls of itself. -/
theorem kmalloc_fixes (caller : Word) (fuel : ℕ) (reqSize : Word) :
    (kmalloc npf caller fuel reqSize).Fixes Kernel.errorCounts := by
  induction fuel generalizing reqSize with
  | zero => exact Code.fixes_stop
  | succ fuel ih =>
    apply (Code.fixes_lock _).bind
    intro _
    apply Code.Fixes.ite
    · refine Code.fixes_modify_bind (fun _ => rfl) ?_
      apply (log_fixes npf _ _ _).bind
      intro _
      apply (Code.fixes_unlock _).bind
      exact fun _ => ih 1
    · apply (Code.fixes_get _).bind
      intro root
      apply Code.Fixes.ite
      · apply (allocateNewPage_fixes npf _).bind
        intro root
        refine Code.fixes_modify_bind (fun _ => rfl) ?_
        apply Code.Fixes.ite
        · apply (Code.fixes_unlock _).bind
          intro _
          apply (report_fixes npf _).bind
          exact fun _ => Code.fixes_pure _
        · exact kmallocSearch_fixes npf _ _ _
      · exact kmallocSearch_fixes npf _ _ _

end Liballoc

end Locked

end Olive
