import Olive.Idt.Handler
import Olive.Library.Interrupts
import Olive.Locks.Discipline
import Olive.Printf.Refinement

/-!
# Interrupts and the lock of `printf`

`idt_load` enables interrupts, and `putchar` leaves them enabled while it holds
`printf_lock`. Every interrupt that is handled by a line of text takes that lock, so its
handler returns if the interrupted code does not hold it, and waits for ever if it does.
-/

namespace Olive

open Library

/-- The IRQs, and the exceptions after which the interrupted code goes on. -/
def Nonfatal (vector : Word) : Prop :=
  (vector < 32 ∧ (exceptionInfoAt vector).fatal = false) ∨ (0x20 ≤ vector ∧ vector < 0x30)

instance (vector : Word) : Decidable (Nonfatal vector) := inferInstanceAs (Decidable (_ ∨ _))

/-- The frame of an interrupt that is not fatal. -/
abbrev NonfatalFrame := {frame : IntFrame // Nonfatal frame.vector}

/-- `irq_handlers` as `idt_init` leaves it: no code of the kernel registers a handler. -/
def irqHandlers : Word → Option (IntFrame → Program Unit) := fun _ => none

/-- What an interrupt runs; the frame pointer of `_backtrace` is only used for fatal ones. -/
def handle (npf : Formatter) (frame : NonfatalFrame) : Program Unit :=
  Locked.idtHandler npf irqHandlers 0 0 frame

def InterruptsEnabled (k : Kernel) : Prop := k.interruptFlag = true

instance : DecidablePred InterruptsEnabled := fun _ => inferInstanceAs (Decidable (_ = _))

def logLevels : List String :=
  ["INFO", "WARN", "ERROR", "DEBUG", "TRACE", "FATAL", "CRITICAL", "ALERT", "NOTICE", "TODO"]

/-- The discipline of handlers: they only print, and they return. -/
abbrev handlerDiscipline : Discipline Lock Section := lockDiscipline (· = .printfLock) False

section Handle

variable (npf : Formatter) {mayTake : Lock → Prop} {mayStop : Prop}

theorem handle_leads (htake : mayTake .printfLock) (frame : NonfatalFrame) :
    (handle npf frame).Leads (lockDiscipline mayTake mayStop) .none .none := by
  have hframe := frame.property
  have hlog : ∀ level fmt args,
      (Locked.log npf level fmt args).Leads (lockDiscipline mayTake mayStop) .none .none :=
    fun level fmt args => Locked.log_leads npf htake mayPrint_none level fmt args
  refine Code.Leads.ite (fun hlt => ?_) fun hge => ?_
  · have hfatal : ¬ (exceptionInfoAt frame.val.vector).fatal = true := by
      rcases hframe with ⟨-, hfatal⟩ | ⟨hge, -⟩
      · simp [hfatal]
      · exact absurd hlt (BitVec.not_lt.mpr hge)
    refine (hlog _ _ _).bind fun _ => ?_
    refine Code.Leads.ite (fun hf => absurd hf hfatal) fun _ => ?_
    exact Code.Leads.ite (fun _ => hlog _ _ _) fun _ => hlog _ _ _
  · refine Code.Leads.ite (fun _ => hlog _ _ _) fun hirq => ?_
    rcases hframe with ⟨hlt, -⟩ | hin
    · exact absurd hlt hge
    · exact absurd hin hirq

theorem bind_eq_acquire {α β : Type} {m : Program α} {l : Lock} (f : α → Program β)
    (h : ∃ k, m = .acquire l k) : ∃ k, m >>= f = .acquire l k := by
  obtain ⟨k, rfl⟩ := h
  exact ⟨_, rfl⟩

variable {npf} (hnpf : ∀ level ∈ logLevels,
  npf "[%s]: " [.str level] = ("[" ++ level ++ "]: ").toList)

include hnpf

/-- The first thing a line of the log does is to take `printf_lock`. -/
theorem log_eq_acquire {level : String} (hlevel : level ∈ logLevels) (fmt : String)
    (args : List Arg) : ∃ k, Locked.log npf level fmt args = .acquire .printfLock k := by
  have hshort : ∀ level ∈ logLevels, ("[" ++ level ++ "]: ").toList.length < 1024 := by
    decide
  have hlen : (npf "[%s]: " [.str level]).length < 1024 := by
    rw [hnpf level hlevel]
    exact hshort level hlevel
  obtain ⟨ch, chs, hcons⟩ : ∃ ch chs, npf "[%s]: " [.str level] = ch :: chs :=
    ⟨'[', level.toList ++ [']', ':', ' '], by simp [hnpf level hlevel]⟩
  rw [hcons] at hlen
  unfold Locked.log Locked.printf Locked.vfprintf
  simp only [hcons, if_pos hlen]
  exact ⟨_, rfl⟩

theorem handle_eq_acquire (frame : NonfatalFrame) :
    ∃ k, handle npf frame = .acquire .printfLock k := by
  have hframe := frame.property
  unfold handle Locked.idtHandler
  by_cases hlt : frame.val.vector < 32
  · rw [if_pos hlt]
    exact bind_eq_acquire _ (log_eq_acquire hnpf (by decide) _ _)
  · have hirq : 0x20 ≤ frame.val.vector ∧ frame.val.vector < 0x30 := by
      rcases hframe with ⟨h, -⟩ | h
      · exact absurd h hlt
      · exact h
    rw [if_neg hlt, if_pos hirq]
    exact log_eq_acquire hnpf (by decide) _ _

end Handle

/-- The CPU with the calls it runs and the interrupts that are not fatal. -/
abbrev KernelStep (npf : Formatter) := CpuStep (Call.program npf) (handle npf) InterruptsEnabled

/-- The handler, if one is running, does not wait for a lock of the interrupted code, and
returns whatever the CPU does next. -/
def HandlerReturns (npf : Formatter) (s : System CpuLevel Lock Section Kernel) : Prop :=
  Unblocked s ∧ Finishes (Call.program npf) (handle npf) InterruptsEnabled s

/-- The step is no interrupt, or the interrupted code does not hold `printf_lock`. -/
def FreeOfPrintfLock (s : System CpuLevel Lock Section Kernel)
    (act : Action CpuLevel (Call ⊕ NonfatalFrame)) : Prop :=
  (∃ frame, act = .call .handler (.inr frame)) →
    .printfLock ∉ (s.threads .interrupted).holding.locks

theorem undisturbed_iff (s : System CpuLevel Lock Section Kernel)
    (act : Action CpuLevel (Call ⊕ NonfatalFrame)) :
    Undisturbed handlerDiscipline s act ↔ FreeOfPrintfLock s act := by
  constructor
  · rintro h ⟨frame, hact⟩
    exact h frame hact .printfLock rfl
  · rintro h frame hact l rfl
    exact h ⟨frame, hact⟩

/-- Whatever calls the CPU runs and whenever interrupts arrive, all handlers return if and
only if none arrives while the interrupted code holds `printf_lock`. -/
theorem interruptRun_returns_iff {npf : Formatter}
    (hnpf : ∀ level ∈ logLevels, npf "[%s]: " [.str level] = ("[" ++ level ++ "]: ").toList)
    {k : Kernel}
    {ts : List (Transition (System CpuLevel Lock Section Kernel)
      (Action CpuLevel (Call ⊕ NonfatalFrame)))}
    {u : System CpuLevel Lock Section Kernel} (hrun : Run (KernelStep npf) (System.start k) ts u) :
    (∀ t ∈ ts, HandlerReturns npf t.post) ↔ ∀ t ∈ ts, FreeOfPrintfLock t.pre t.act := by
  simp only [← undisturbed_iff]
  refine Run.finishes_iff (D := kernelDiscipline) (H := handlerDiscipline) (Call.program_leads npf)
    (handle_leads npf trivial) (handle_leads npf rfl) id ?_ hrun
  rintro frame l rfl
  exact handle_eq_acquire hnpf frame

/-- `[%s]: ` -/
def levelPieces : List Piece :=
  [.plain '[', .directive { conv := .s }, .plain ']', .plain ':', .plain ' ']

theorem nanoprintf_level : ∀ level ∈ logLevels,
    nanoprintf "[%s]: " [.str level] = ("[" ++ level ++ "]: ").toList := by
  have hmeaning : ∀ level ∈ logLevels, FormatSupports levelPieces [.str level] ∧
      formatMeaning levelPieces [.str level] = some ("[" ++ level ++ "]: ").toList ∧
        ("[" ++ level ++ "]: ").toList.length < 2 ^ 31 := by
    decide
  have hfmt : formatChars levelPieces = "[%s]: ".toList := rfl
  intro level hlevel
  obtain ⟨hsupports, htext, hlen⟩ := hmeaning level hlevel
  exact nanoprintf_meaning hfmt (by decide) hsupports htext hlen

def irqFrame : NonfatalFrame := ⟨{ IntFrame.ofFields fun _ => 0 with vector := 0x20 }, by decide⟩

/-- An IRQ arrives after `putchar` has taken `printf_lock`. -/
def irqInPutchar : List (Action CpuLevel (Call ⊕ NonfatalFrame)) :=
  [.call .interrupted (.inl .idtLoad), .run .interrupted, .returns .interrupted,
    .call .interrupted (.inl (.putchar 'A')), .run .interrupted, .call .handler (.inr irqFrame)]

theorem irqInPutchar_state (npf : Formatter) : ∃ u,
    cpuPerform (Call.program npf) (handle npf) InterruptsEnabled (System.start bootKernel)
        irqInPutchar = some u ∧ .printfLock ∈ (u.threads .interrupted).holding.locks ∧
      (u.threads .handler).code = some (handle npf irqFrame) :=
  ⟨_, rfl, List.mem_cons_self, rfl⟩

/-- The handler waits for `printf_lock`, which the interrupted `putchar` holds. -/
theorem interruptRun_hangs : ∃ ts u,
    Run (KernelStep nanoprintf) (System.start bootKernel) ts u ∧ ¬ HandlerReturns nanoprintf u := by
  obtain ⟨u, hu, hheld, hcode⟩ := irqInPutchar_state nanoprintf
  obtain ⟨ts, hrun⟩ := run_of_cpuPerform _ _ _ hu
  obtain ⟨k, hacquire⟩ := handle_eq_acquire nanoprintf_level irqFrame
  refine ⟨ts, u, hrun, ?_⟩
  rintro ⟨hunblocked, -⟩
  exact hunblocked _ k (hcode.trans (congrArg some hacquire)) hheld

theorem interruptRun_returns_iff_irqInPutchar : ∃ ts u,
    Run (KernelStep nanoprintf) (System.start bootKernel) ts u ∧
      ((∀ t ∈ ts, HandlerReturns nanoprintf t.post) ↔ ∀ t ∈ ts, FreeOfPrintfLock t.pre t.act) := by
  obtain ⟨u, hu, -⟩ := irqInPutchar_state nanoprintf
  obtain ⟨ts, hrun⟩ := run_of_cpuPerform _ _ _ hu
  exact ⟨ts, u, hrun, interruptRun_returns_iff nanoprintf_level hrun⟩

end Olive
