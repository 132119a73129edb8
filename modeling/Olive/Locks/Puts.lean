import Olive.Locks.Sequential

/-!
# `puts` and its lock

`puts` takes `printf_lock` and then prints with `putchar`, which takes it again. Without
locks it would do what it is for: the bytes of the string and a newline go to the console.
With the lock it never returns, for any string: its first `putchar`, which is that of the
newline if the string is empty, waits for the lock that `puts` itself holds.
-/

namespace Olive

open Library

namespace Locked

theorem putchar_eval_of_ftCtx {k : Kernel} (hft : k.ftCtx = true) (ch : Char) :
    (putchar ch).eval k = some (ch, { k with console := k.console ++ [ch] }) := by
  have heval : (putchar ch).eval k =
      some (ch, if k.ftCtx then { k with console := k.console ++ [ch] } else k) := rfl
  rw [heval, if_pos hft]

theorem putsLoop_eval {k : Kernel} (hft : k.ftCtx = true) (str : List Char) (length : ℤ) :
    (putsLoop str length).eval k =
      some (length + str.length, { k with console := k.console ++ str }) := by
  induction str generalizing k length with
  | nil => simp [putsLoop]
  | cons ch str ih =>
    rw [putsLoop, Code.eval_bind_of_eq (putchar_eval_of_ftCtx hft ch),
      ih (k := { k with console := k.console ++ [ch] }) hft]
    simp [add_assoc, add_comm (1 : ℤ)]

/-- What `puts` would do if there were no locks. -/
theorem puts_eval {k : Kernel} (hft : k.ftCtx = true) (str : List Char) :
    (puts str).eval k =
      some ((str.length + 1 : ℤ), { k with console := k.console ++ str ++ ['\n'] }) := by
  have hloop := putsLoop_eval hft str 0
  have hnewline := putchar_eval_of_ftCtx (k := { k with console := k.console ++ str }) hft '\n'
  rw [puts, spinlockAcquire, spinlockRelease, Code.eval_bind_of_eq (Code.eval_lock k _),
    Code.eval_bind_of_eq hloop, Code.eval_bind_of_eq hnewline,
    Code.eval_bind_of_eq (Code.eval_unlock _ _), Code.eval_pure]
  simp

/-- Behind its lock `puts` takes the lock once more: to print the first character, or the
newline if there is none. -/
theorem puts_eq_acquire (str : List Char) :
    ∃ k, puts str = .acquire .printfLock (.acquire .printfLock k) := by
  cases str with
  | nil => exact ⟨_, rfl⟩
  | cons ch str => exact ⟨_, rfl⟩

/-- By its own steps a thread that runs `puts` comes to its end, having printed the string
and a newline, with their number as the answer, and `printf_lock` is free. -/
def PutsDone (w : World Lock Kernel) (c : Holding Lock Section) (str : List Char) : Prop :=
  ∃ w' c', (puts str).Steps w c w' c' (.ret (str.length + 1)) ∧
    w'.shared.console = w.shared.console ++ str ++ ['\n'] ∧ w'.locked .printfLock = false

section Hang

variable {w w' : World Lock Kernel} {c c' : Holding Lock Section} {str : List Char}
  {m : Program ℤ}

theorem puts_steps (hfree : w.locked .printfLock = false) (h : (puts str).Steps w c w' c' m) :
    w'.shared = w.shared ∧ ∃ k, m = .acquire .printfLock k := by
  obtain ⟨k, hputs⟩ := puts_eq_acquire str
  rw [hputs] at h
  cases h with
  | refl => exact ⟨rfl, _, rfl⟩
  | @more _ w₁ _ _ c₁ _ _ m₁ _ hstep hrest =>
    have hfirst : (Code.acquire Lock.printfLock (.acquire .printfLock k)).step w c =
        some ({ w with locked := Function.update w.locked .printfLock true },
          c.acquire .printfLock, .acquire .printfLock k) := by
      simp [Code.step, hfree]
    rw [hfirst] at hstep
    cases hstep
    have hwaits : (Code.acquire Lock.printfLock k).step
        { w with locked := Function.update w.locked .printfLock true } (c.acquire .printfLock) =
          none := by
      simp [Code.step]
    obtain ⟨rfl, -, rfl⟩ := hrest.stuck hwaits
    exact ⟨rfl, k, rfl⟩

/-- `puts` never returns. -/
theorem not_putsDone (hfree : w.locked .printfLock = false) : ¬ PutsDone w c str := by
  rintro ⟨w', c', hsteps, -⟩
  obtain ⟨-, k, hk⟩ := puts_steps hfree hsteps
  cases hk

end Hang

def consoleReady : World Lock Kernel := ⟨bootKernel, fun _ => false⟩

/-- `puts("olive")` comes to no end. -/
theorem puts_olive : ¬ PutsDone consoleReady .none ['o', 'l', 'i', 'v', 'e'] := by
  rintro ⟨w', c', hsteps, -⟩
  obtain ⟨-, k, hk⟩ := puts_steps rfl hsteps
  cases hk

theorem not_putsDone_kernel :
    consoleReady.shared.ftCtx = true ∧ consoleReady.locked .printfLock = false ∧
      ¬ PutsDone consoleReady .none "kernel".toList :=
  ⟨rfl, rfl, not_putsDone rfl⟩

end Locked

end Olive
