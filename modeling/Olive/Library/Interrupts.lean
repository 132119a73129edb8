import Olive.Library.Threads

/-!
# Interrupts on one CPU

A CPU runs the calls of one thread. Between any two steps an interrupt may arrive, and its
handler runs until it returns. So the CPU is a system of two threads, of which the
interrupted one takes no step while the handler runs; nobody releases a lock the handler
waits for if the interrupted thread holds it. The handler of an interrupt returns, however
it goes on, if the interrupted thread holds none of the locks the handler may take.
-/

namespace Olive.Library

variable {A V L X S : Type}

inductive CpuLevel where
  | interrupted
  | handler
  deriving DecidableEq, Repr

/-- The steps of the CPU: the handler runs first, and interrupts arrive while they are
enabled. -/
def CpuMay (enabled : S → Prop) (s : System CpuLevel L X S) : Action CpuLevel (A ⊕ V) → Prop
  | .call .interrupted (.inl _) => (s.threads .handler).code = none
  | .run .interrupted => (s.threads .handler).code = none
  | .returns .interrupted => (s.threads .handler).code = none
  | .call .handler (.inr _) => enabled s.world.shared
  | .run .handler => True
  | .returns .handler => True
  | _ => False

instance {enabled : S → Prop} [DecidablePred enabled] (s : System CpuLevel L X S)
    (act : Action CpuLevel (A ⊕ V)) : Decidable (CpuMay enabled s act) :=
  match act with
  | .call .interrupted (.inl _) => inferInstanceAs (Decidable (_ = none))
  | .run .interrupted => inferInstanceAs (Decidable (_ = none))
  | .returns .interrupted => inferInstanceAs (Decidable (_ = none))
  | .call .handler (.inr _) => inferInstanceAs (Decidable (enabled _))
  | .run .handler => isTrue trivial
  | .returns .handler => isTrue trivial
  | .call .interrupted (.inr _) => isFalse id
  | .call .handler (.inl _) => isFalse id
  | .other => isFalse id

section Cpu

variable [DecidableEq L] [DecidableEq X] (program : A → Code L X S Unit)
  (handle : V → Code L X S Unit) (enabled : S → Prop)

structure CpuStep (s : System CpuLevel L X S) (act : Action CpuLevel (A ⊕ V))
    (t : System CpuLevel L X S) : Prop where
  may : CpuMay enabled s act
  step : SystemStep (Sum.elim program handle) s act t

def cpuPerform [DecidablePred enabled] (s : System CpuLevel L X S) :
    List (Action CpuLevel (A ⊕ V)) → Option (System CpuLevel L X S)
  | [] => some s
  | act :: acts =>
    if CpuMay enabled s act then
      match s.perform (Sum.elim program handle) act with
      | some t => cpuPerform t acts
      | none => none
    else none

theorem run_of_cpuPerform [DecidablePred enabled] {s t : System CpuLevel L X S}
    {acts : List (Action CpuLevel (A ⊕ V))} (h : cpuPerform program handle enabled s acts = some t) :
    ∃ ts, Run (CpuStep program handle enabled) s ts t := by
  induction acts generalizing s with
  | nil =>
    cases h
    exact ⟨[], .nil _⟩
  | cons act acts ih =>
    by_cases hmay : CpuMay enabled s act
    · cases hu : s.perform (Sum.elim program handle) act with
      | none => simp [cpuPerform, hmay, hu] at h
      | some u =>
        simp only [cpuPerform, if_pos hmay, hu] at h
        obtain ⟨ts, hts⟩ := ih h
        exact ⟨_, .cons ⟨hmay, System.step_of_perform hu⟩ hts⟩
    · simp [cpuPerform, hmay] at h

/-- Whatever the CPU does next, the handler returns if one is running. -/
inductive Finishes : System CpuLevel L X S → Prop
  | returned {s : System CpuLevel L X S} (hnone : (s.threads .handler).code = none) : Finishes s
  | running {s : System CpuLevel L X S}
      (hprogress : ∃ (act : Action CpuLevel (A ⊕ V)) (t : System CpuLevel L X S),
        CpuStep program handle enabled s act t)
      (hnext : ∀ (act : Action CpuLevel (A ⊕ V)) (t : System CpuLevel L X S),
        CpuStep program handle enabled s act t → Finishes t) : Finishes s

end Cpu

/-- The handler does not try to take a lock the interrupted thread holds. -/
def Unblocked (s : System CpuLevel L X S) : Prop :=
  ∀ l k, (s.threads .handler).code = some (.acquire l k) → l ∉ (s.threads .interrupted).holding.locks

/-- If the step is an interrupt, the interrupted thread holds no lock its handler may take. -/
def Undisturbed (D : Discipline L X) (s : System CpuLevel L X S)
    (act : Action CpuLevel (A ⊕ V)) : Prop :=
  ∀ v, act = .call .handler (.inr v) → ∀ l, D.mayTake l → l ∉ (s.threads .interrupted).holding.locks

/-- The handler is to run `m`, and the locks it may take are free. -/
structure HandlerReady [DecidableEq L] [DecidableEq X] (D : Discipline L X)
    (s : System CpuLevel L X S) (m : Code L X S Unit) : Prop where
  code : (s.threads .handler).code = some m
  leads : m.Leads D (s.threads .handler).holding .none
  guarded : D.Guarded (s.threads .handler).holding
  consistent : Consistent s.world.locked fun i => (s.threads i).holding
  free : ∀ l, D.mayTake l → l ∉ (s.threads .interrupted).holding.locks

section Handler

variable [DecidableEq L] [DecidableEq X] {program : A → Code L X S Unit}
  {handle : V → Code L X S Unit} {enabled : S → Prop} {D : Discipline L X}
  {s t : System CpuLevel L X S} {act : Action CpuLevel (A ⊕ V)} {m m' : Code L X S Unit}
  {w : World L S} {c : Holding L X}

theorem HandlerReady.run (h : HandlerReady D s m)
    (hstep : m.step s.world (s.threads .handler).holding = some (w, c, m')) :
    HandlerReady D ⟨w, Function.update s.threads .handler ⟨some m', c⟩⟩ m' := by
  obtain ⟨hleads, hguarded, hlocks⟩ := h.leads.step h.guarded hstep
  refine ⟨by simp, by simpa using hleads, by simpa using hguarded, ?_, by simpa using h.free⟩
  rw [holding_update]
  exact h.consistent.step hlocks

theorem CpuStep.handler_cases (hcode : (s.threads .handler).code = some m)
    (hst : CpuStep program handle enabled s act t) :
    (∃ w c m', m.step s.world (s.threads .handler).holding = some (w, c, m') ∧
      t = ⟨w, Function.update s.threads .handler ⟨some m', c⟩⟩) ∨
    (∃ l k, m = .acquire l k ∧ s.world.locked l = true ∧ t = s) ∨
    (m = .ret () ∧ (t.threads .handler).code = none) := by
  obtain ⟨hmay, hst⟩ := hst
  cases hst with
  | @call i a hidle =>
    cases i with
    | interrupted =>
      cases a with
      | inl a => simp [CpuMay, hcode] at hmay
      | inr v => exact hmay.elim
    | handler => simp [hcode] at hidle
  | @run i n n' w c hn hstep =>
    cases i with
    | interrupted => simp [CpuMay, hcode] at hmay
    | handler =>
      rw [hcode] at hn
      cases hn
      exact .inl ⟨w, c, n', hstep, rfl⟩
  | @spin i l hwaits =>
    cases i with
    | interrupted => simp [CpuMay, hcode] at hmay
    | handler =>
      obtain ⟨⟨k, hk⟩, hlocked⟩ := hwaits
      rw [hcode] at hk
      cases hk
      exact .inr (.inl ⟨l, k, rfl, hlocked, rfl⟩)
  | @returns i hret =>
    cases i with
    | interrupted => simp [CpuMay, hcode] at hmay
    | handler =>
      rw [hcode] at hret
      cases hret
      exact .inr (.inr ⟨rfl, by simp⟩)
  | other shared => exact hmay.elim

theorem HandlerReady.finishes_of_step (h : HandlerReady D s m)
    (hstep : m.step s.world (s.threads .handler).holding = some (w, c, m'))
    (hrest : Finishes program handle enabled ⟨w, Function.update s.threads .handler ⟨some m', c⟩⟩) :
    Finishes program handle enabled s := by
  refine .running ⟨.run .handler, _, trivial, .run h.code hstep⟩ fun act t hst => ?_
  rcases hst.handler_cases h.code with ⟨w', c', n, hstep', rfl⟩ | ⟨l, k, rfl, hlocked, -⟩ | ⟨rfl, -⟩
  · rw [hstep] at hstep'
    cases hstep'
    exact hrest
  · simp [Code.step, hlocked] at hstep
  · cases hstep

/-- The induction is on the handler's program: each of its steps leaves a smaller one. -/
theorem HandlerReady.finishes (hstop : ¬ D.mayStop) (h : HandlerReady D s m) :
    Finishes program handle enabled s := by
  induction m generalizing s with
  | ret a =>
    refine .running ⟨.returns .handler, _, trivial, .returns h.code⟩ fun act t hst => ?_
    rcases hst.handler_cases h.code with ⟨w, c, n, hstep, -⟩ | ⟨l, k, hm, -⟩ | ⟨-, hnone⟩
    · cases hstep
    · cases hm
    · exact .returned hnone
  | acquire l k ih =>
    have hfree : s.world.locked l = false := by
      by_contra hlocked
      obtain ⟨i, hi⟩ := (h.consistent.locked_iff l).mp (by simpa using hlocked)
      cases i with
      | interrupted => exact h.free l h.leads.1.mayTake hi
      | handler => exact h.leads.1.notMem hi
    have hstep : (Code.acquire l k).step s.world (s.threads .handler).holding =
        some ({ s.world with locked := Function.update s.world.locked l true },
          (s.threads .handler).holding.acquire l, k) := by
      simp [Code.step, hfree]
    exact h.finishes_of_step hstep (ih (h.run hstep))
  | release l k ih => exact h.finishes_of_step rfl (ih (h.run rfl))
  | enter x k ih => exact h.finishes_of_step rfl (ih (h.run rfl))
  | leave x k ih => exact h.finishes_of_step rfl (ih (h.run rfl))
  | atomic f k ih => exact h.finishes_of_step rfl (ih _ (h.run rfl))
  | stop => exact absurd h.leads hstop

/-- A handler that waits for a lock waits for ever. -/
theorem Finishes.not_waits (h : Finishes program handle enabled s) (l : L) :
    ¬ s.Waits .handler l := by
  induction h with
  | returned hnone =>
    rintro ⟨⟨k, hk⟩, -⟩
    rw [hnone] at hk
    cases hk
  | running _ _ ih =>
    intro hwaits
    exact ih (.run .handler) _ ⟨trivial, .spin hwaits⟩ hwaits

theorem Finishes.unblocked (h : Finishes program handle enabled s)
    (hconsistent : Consistent s.world.locked fun i => (s.threads i).holding) : Unblocked s := by
  intro l k hcode hl
  exact h.not_waits l ⟨⟨k, hcode⟩, (hconsistent.locked_iff l).mpr ⟨.interrupted, hl⟩⟩

theorem Finishes.step (h : Finishes program handle enabled s)
    (hst : CpuStep program handle enabled s act t) (hact : ∀ v, act ≠ .call .handler (.inr v)) :
    Finishes program handle enabled t := by
  cases h with
  | running _ hnext => exact hnext act t hst
  | returned hnone =>
    obtain ⟨hmay, hst⟩ := hst
    refine .returned ?_
    cases hst with
    | @call i a hidle =>
      cases i with
      | interrupted => simpa using hnone
      | handler =>
        cases a with
        | inl a => exact hmay.elim
        | inr v => exact absurd rfl (hact v)
    | @run i n n' w c hn hstep =>
      cases i with
      | interrupted => simpa using hnone
      | handler => simp [hnone] at hn
    | spin hwaits => exact hnone
    | @returns i hret =>
      cases i with
      | interrupted => simpa using hnone
      | handler => simp [hnone] at hret
    | other shared => exact hnone

end Handler

section Run

variable [DecidableEq L] [DecidableEq X] {program : A → Code L X S Unit}
  {handle : V → Code L X S Unit} {enabled : S → Prop} {D H : Discipline L X}
  {s t u : System CpuLevel L X S} {act : Action CpuLevel (A ⊕ V)}

/-- When an interrupt arrives, its handler returns if and only if the interrupted thread
holds none of the locks it takes. -/
theorem CpuStep.finishes_iff {v : V} (hI : Disciplined D s)
    (hhandler : ∀ v, (handle v).Leads H .none .none) (hstop : ¬ H.mayStop)
    (hfirst : ∀ v l, H.mayTake l → ∃ k, handle v = .acquire l k)
    (hst : CpuStep program handle enabled s (.call .handler (.inr v)) t) :
    (Unblocked t ∧ Finishes program handle enabled t) ↔
      ∀ l, H.mayTake l → l ∉ (s.threads .interrupted).holding.locks := by
  obtain ⟨-, hst⟩ := hst
  cases hst with
  | call hidle =>
    have hholding := hI.idle .handler hidle
    constructor
    · rintro ⟨hunblocked, -⟩ l hl
      obtain ⟨k, hk⟩ := hfirst v l hl
      have hnot := hunblocked l k (by simp [hk])
      simpa using hnot
    · intro hfree
      have hready : HandlerReady H ⟨s.world, Function.update s.threads .handler
          ⟨some (handle v), (s.threads .handler).holding⟩⟩ (handle v) := by
        refine ⟨by simp, ?_, ?_, ?_, by simpa using hfree⟩
        · simpa [hholding] using hhandler v
        · simpa [hholding] using Discipline.guarded_none
        · rw [holding_update, Function.update_eq_self]
          exact hI.consistent
      have hfinishes : Finishes program handle enabled ⟨s.world, Function.update s.threads .handler
          ⟨some (handle v), (s.threads .handler).holding⟩⟩ := hready.finishes hstop
      exact ⟨hfinishes.unblocked hready.consistent, hfinishes⟩

/-- In a run of disciplined calls and handlers, all handlers return if and only if no
interrupt arrives while the interrupted thread holds a lock that handlers take. -/
theorem Run.finishes_iff {shared : S}
    {ts : List (Transition (System CpuLevel L X S) (Action CpuLevel (A ⊕ V)))}
    (hprogram : ∀ a, (program a).Leads D .none .none) (hhandle : ∀ v, (handle v).Leads D .none .none)
    (hhandler : ∀ v, (handle v).Leads H .none .none) (hstop : ¬ H.mayStop)
    (hfirst : ∀ v l, H.mayTake l → ∃ k, handle v = .acquire l k)
    (hrun : Run (CpuStep program handle enabled) (System.start shared) ts u) :
    (∀ x ∈ ts, Unblocked x.post ∧ Finishes program handle enabled x.post) ↔
      ∀ x ∈ ts, Undisturbed H x.pre x.act := by
  have hall : ∀ a, (Sum.elim program handle a).Leads D .none .none := by
    intro a
    cases a with
    | inl a => exact hprogram a
    | inr v => exact hhandle v
  have hI : ∀ s act t, Disciplined D s → Unblocked s ∧ Finishes program handle enabled s →
      CpuStep program handle enabled s act t → Disciplined D t :=
    fun s act t hs _ hst => hs.step hall hst.step
  refine hrun.forall_post_iff (I := Disciplined D)
    (P := fun s => Unblocked s ∧ Finishes program handle enabled s) (C := Undisturbed H) ?_ hI
    (disciplined_start shared) ⟨nofun, .returned rfl⟩
  intro s act t hs hP hst
  by_cases hinterrupt : ∃ v, act = .call .handler (.inr v)
  · obtain ⟨v, rfl⟩ := hinterrupt
    rw [hst.finishes_iff hs hhandler hstop hfirst]
    constructor
    · rintro hfree v' - l hl
      exact hfree l hl
    · intro h
      exact h v rfl
  · have hact : ∀ v, act ≠ .call .handler (.inr v) := fun v hv => hinterrupt ⟨v, hv⟩
    have hfinishes := hP.2.step hst hact
    refine iff_of_true ⟨hfinishes.unblocked (hI s act t hs hP hst).consistent, hfinishes⟩ ?_
    intro v hv
    exact absurd hv (hact v)

end Run

end Olive.Library
