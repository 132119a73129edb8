import Olive.Library.Threads

/-!
# Programs that run alone

While no other thread takes a step, a program computes a partial function of the shared
state; locks and sections do not show in it. A disciplined program that is left alone
reaches the result of this function, as the locks it takes are free. `Refines` compares the
function with one that was written down without locks, over states related by `R`.
-/

namespace Olive.Library

variable {A ι L X S T α β : Type}

namespace Code

/-- The answer of a program that runs alone and the state it leaves; nothing if it stops. -/
def eval : Code L X S α → S → Option (α × S)
  | ret a, s => some (a, s)
  | acquire _ k, s => k.eval s
  | release _ k, s => k.eval s
  | enter _ k, s => k.eval s
  | leave _ k, s => k.eval s
  | atomic f k, s => (k (f s).1).eval (f s).2
  | stop, _ => none

theorem eval_bind (m : Code L X S α) (f : α → Code L X S β) (s : S) :
    (m >>= f).eval s = (m.eval s).bind fun r => (f r.1).eval r.2 := by
  change (m.bind f).eval s = _
  induction m generalizing s with
  | ret a => rfl
  | acquire l k ih => exact ih s
  | release l k ih => exact ih s
  | enter x k ih => exact ih s
  | leave x k ih => exact ih s
  | atomic g k ih => exact ih _ _
  | stop => rfl

/-! The single steps in front of a program. -/

section Steps

variable (s : S)

@[simp] theorem eval_pure (a : α) : (pure a : Code L X S α).eval s = some (a, s) := rfl

@[simp] theorem eval_stop : (stop : Code L X S α).eval s = none := rfl

@[simp] theorem eval_access (f : S → α × S) : (access f : Code L X S α).eval s = some (f s) := rfl

@[simp] theorem eval_get (f : S → α) : (get f : Code L X S α).eval s = some (f s, s) := rfl

@[simp] theorem eval_modify (f : S → S) : (modify f : Code L X S Unit).eval s = some ((), f s) := rfl

@[simp] theorem eval_lock (l : L) : (lock l : Code L X S Unit).eval s = some ((), s) := rfl

@[simp] theorem eval_unlock (l : L) : (unlock l : Code L X S Unit).eval s = some ((), s) := rfl

@[simp] theorem eval_entry (x : X) : (entry x : Code L X S Unit).eval s = some ((), s) := rfl

@[simp] theorem eval_exit (x : X) : (exit x : Code L X S Unit).eval s = some ((), s) := rfl

@[simp] theorem eval_ite {p : Prop} [Decidable p] (m n : Code L X S α) :
    (if p then m else n).eval s = if p then m.eval s else n.eval s := by
  split_ifs
  · rfl
  · rfl

theorem eval_bind_of_eq {m : Code L X S α} {a : α} {s t : S} (h : m.eval s = some (a, t))
    (f : α → Code L X S β) : (m >>= f).eval s = (f a).eval t := by
  rw [eval_bind, h]
  rfl

end Steps

/-- The answer of a program that runs alone, if it returns, and the state it ends in. -/
def outcome : Code L X S α → S → Option α × S
  | ret a, s => (some a, s)
  | acquire _ k, s => k.outcome s
  | release _ k, s => k.outcome s
  | enter _ k, s => k.outcome s
  | leave _ k, s => k.outcome s
  | atomic f k, s => (k (f s).1).outcome (f s).2
  | stop, s => (none, s)

theorem eval_eq_outcome (m : Code L X S α) (s : S) :
    m.eval s = (m.outcome s).1.map fun a => (a, (m.outcome s).2) := by
  induction m generalizing s with
  | ret a => rfl
  | acquire l k ih => exact ih s
  | release l k ih => exact ih s
  | enter x k ih => exact ih s
  | leave x k ih => exact ih s
  | atomic f k ih => exact ih _ _
  | stop => rfl

theorem outcome_of_eval {m : Code L X S α} {a : α} {s t : S} (h : m.eval s = some (a, t)) :
    m.outcome s = (some a, t) := by
  rw [eval_eq_outcome, Option.map_eq_some_iff] at h
  obtain ⟨b, hb, hresult⟩ := h
  cases hresult
  exact Prod.ext hb rfl

/-- A program goes on from where its first part returns, and ends where that stops. -/
theorem outcome_bind (m : Code L X S α) (f : α → Code L X S β) (s : S) :
    (m >>= f).outcome s = (m.outcome s).1.elim (none, (m.outcome s).2)
      fun a => (f a).outcome (m.outcome s).2 := by
  change (m.bind f).outcome s = _
  induction m generalizing s with
  | ret a => rfl
  | acquire l k ih => exact ih s
  | release l k ih => exact ih s
  | enter x k ih => exact ih s
  | leave x k ih => exact ih s
  | atomic g k ih => exact ih _ _
  | stop => rfl

theorem outcome_bind_of_eq {m : Code L X S α} {a : α} {s t : S} (h : m.eval s = some (a, t))
    (f : α → Code L X S β) : (m >>= f).outcome s = (f a).outcome t := by
  rw [outcome_bind, outcome_of_eval h]
  rfl

/-- The program leaves `g` of the state as it is whenever it returns. -/
def Fixes (g : S → T) (m : Code L X S α) : Prop :=
  ∀ ⦃s a t⦄, m.eval s = some (a, t) → g t = g s

section Fixes

variable {g : S → T}

theorem Fixes.bind {m : Code L X S α} {f : α → Code L X S β} (hm : m.Fixes g)
    (hf : ∀ a, (f a).Fixes g) : (m >>= f).Fixes g := by
  intro s b u h
  rw [eval_bind, Option.bind_eq_some_iff] at h
  obtain ⟨⟨a, t⟩, hmt, hft⟩ := h
  exact (hf a hft).trans (hm hmt)

theorem Fixes.ite {p : Prop} [Decidable p] {m n : Code L X S α} (hm : m.Fixes g) (hn : n.Fixes g) :
    (if p then m else n).Fixes g := by
  split_ifs
  · exact hm
  · exact hn

theorem fixes_pure (a : α) : (pure a : Code L X S α).Fixes g := by
  intro s b t h
  cases h
  rfl

theorem fixes_stop : (stop : Code L X S α).Fixes g := by
  intro s b t h
  cases h

theorem fixes_access {f : S → α × S} (hf : ∀ s, g (f s).2 = g s) :
    (access f : Code L X S α).Fixes g := by
  intro s b t h
  rw [eval_access, Option.some.injEq] at h
  have ht := hf s
  rwa [h] at ht

theorem fixes_get (f : S → α) : (get f : Code L X S α).Fixes g := fixes_access fun _ => rfl

theorem fixes_modify {f : S → S} (hf : ∀ s, g (f s) = g s) :
    (modify f : Code L X S Unit).Fixes g := fixes_access hf

theorem fixes_lock (l : L) : (lock l : Code L X S Unit).Fixes g := by
  intro s b t h
  cases h
  rfl

theorem fixes_unlock (l : L) : (unlock l : Code L X S Unit).Fixes g := by
  intro s b t h
  cases h
  rfl

theorem fixes_entry (x : X) : (entry x : Code L X S Unit).Fixes g := by
  intro s b t h
  cases h
  rfl

theorem fixes_exit (x : X) : (exit x : Code L X S Unit).Fixes g := by
  intro s b t h
  cases h
  rfl

theorem fixes_modify_bind {f : S → S} {m : Unit → Code L X S α} (hf : ∀ s, g (f s) = g s)
    (hm : (m ()).Fixes g) : (modify f >>= m).Fixes g :=
  (fixes_modify hf).bind fun _ => hm

theorem fixes_access_bind {f : S → α × S} {m : α → Code L X S β} (hf : ∀ s, g (f s).2 = g s)
    (hm : ∀ a, (m a).Fixes g) : (access f >>= m).Fixes g :=
  (fixes_access hf).bind hm

end Fixes

end Code

/-! ## The steps of a thread that runs alone -/

/-- Steps of one thread from a world, what it holds and what it has to run, to others. -/
inductive Code.Steps [DecidableEq L] [DecidableEq X] :
    World L S → Holding L X → Code L X S α → World L S → Holding L X → Code L X S α → Prop
  | refl (w : World L S) (c : Holding L X) (m : Code L X S α) : Steps w c m w c m
  | more {w w₁ w₂ : World L S} {c c₁ c₂ : Holding L X} {m m₁ m₂ : Code L X S α}
      (hstep : m.step w c = some (w₁, c₁, m₁)) (hrest : Steps w₁ c₁ m₁ w₂ c₂ m₂) :
      Steps w c m w₂ c₂ m₂

section Steps

variable [DecidableEq L] [DecidableEq X] {w w' : World L S} {c c' : Holding L X}
  {m m' : Code L X S α} {l : L}

theorem Code.Steps.stuck (h : m.Steps w c w' c' m') (hstuck : m.step w c = none) :
    w' = w ∧ c' = c ∧ m' = m := by
  cases h with
  | refl => exact ⟨rfl, rfl, rfl⟩
  | more hstep _ =>
    rw [hstuck] at hstep
    cases hstep

theorem Code.eval_step {w₁ : World L S} {c₁ : Holding L X} {m₁ : Code L X S α}
    (h : m.step w c = some (w₁, c₁, m₁)) : m.eval w.shared = m₁.eval w₁.shared := by
  cases m with
  | ret a => cases h
  | acquire l k =>
    by_cases hl : w.locked l
    · simp [Code.step, hl] at h
    · simp only [Code.step, hl] at h
      cases h
      rfl
  | release l k =>
    cases h
    rfl
  | enter x k =>
    cases h
    rfl
  | leave x k =>
    cases h
    rfl
  | atomic f k =>
    cases h
    rfl
  | stop => cases h

/-- A thread that comes to its end has computed the result of its program. -/
theorem Code.Steps.eval_eq (h : m.Steps w c w' c' m') : m.eval w.shared = m'.eval w'.shared := by
  induction h with
  | refl => rfl
  | more hstep _ ih => exact (Code.eval_step hstep).trans ih

/-- The flags of the locks that a program may take are set for those the thread holds. -/
structure Code.OwnFlags (D : Discipline L X) (w : World L S) (c : Holding L X) : Prop where
  locked_iff : ∀ l, D.mayTake l → (w.locked l = true ↔ l ∈ c.locks)
  nodup : c.locks.Nodup

omit [DecidableEq X] in
theorem Code.OwnFlags.acquire {D : Discipline L X} (h : Code.OwnFlags D w c) (hl : D.Next c l) :
    Code.OwnFlags D { w with locked := Function.update w.locked l true } (c.acquire l) := by
  refine ⟨fun l' hl' => ?_, List.nodup_cons.mpr ⟨hl.notMem, h.nodup⟩⟩
  by_cases heq : l' = l
  · subst heq
    simp
  · simp [heq, h.locked_iff l' hl']

omit [DecidableEq X] in
theorem Code.OwnFlags.release {D : Discipline L X} (h : Code.OwnFlags D w c) (l : L) :
    Code.OwnFlags D { w with locked := Function.update w.locked l false } (c.release l) := by
  refine ⟨fun l' hl' => ?_, h.nodup.erase l⟩
  change _ ↔ l' ∈ c.locks.erase l
  rw [h.nodup.mem_erase_iff]
  by_cases heq : l' = l
  · subst heq
    simp
  · simp [heq, h.locked_iff l' hl']

/-- A disciplined thread that runs alone comes to the end of a program that has a result,
and goes on from there. The induction is on the program. -/
theorem Code.Leads.steps {D : Discipline L X} {d : Holding L X} {a : α} {s : S}
    (hm : m.Leads D c d) (hflags : Code.OwnFlags D w c) (heval : m.eval w.shared = some (a, s)) :
    ∃ w', w'.shared = s ∧ Code.OwnFlags D w' d ∧
      ∀ {β : Type} (f : α → Code L X S β), (m >>= f).Steps w c w' d (f a) := by
  induction m generalizing w c with
  | ret b =>
    cases hm
    cases heval
    exact ⟨w, rfl, hflags, fun f => .refl w _ (f a)⟩
  | acquire l k ih =>
    have hfree : w.locked l = false := by
      rw [← Bool.not_eq_true, hflags.locked_iff l hm.1.mayTake]
      exact hm.1.notMem
    obtain ⟨w', hs, hflags', hsteps⟩ :=
      @ih { w with locked := Function.update w.locked l true } _ hm.2 (hflags.acquire hm.1) heval
    refine ⟨w', hs, hflags', fun f => .more ?_ (hsteps f)⟩
    change Code.step w c (.acquire l (k >>= f)) = _
    simp [Code.step, hfree]
  | release l k ih =>
    obtain ⟨w', hs, hflags', hsteps⟩ :=
      @ih { w with locked := Function.update w.locked l false } _ hm.2.2 (hflags.release l) heval
    exact ⟨w', hs, hflags', fun f => .more rfl (hsteps f)⟩
  | enter x k ih =>
    obtain ⟨w', hs, hflags', hsteps⟩ := ih hm.2 ⟨hflags.locked_iff, hflags.nodup⟩ heval
    exact ⟨w', hs, hflags', fun f => .more rfl (hsteps f)⟩
  | leave x k ih =>
    obtain ⟨w', hs, hflags', hsteps⟩ := ih hm ⟨hflags.locked_iff, hflags.nodup⟩ heval
    exact ⟨w', hs, hflags', fun f => .more rfl (hsteps f)⟩
  | atomic g k ih =>
    obtain ⟨w', hs, hflags', hsteps⟩ := @ih (g w.shared).1 { w with shared := (g w.shared).2 } _
      (hm w.shared) ⟨hflags.locked_iff, hflags.nodup⟩ heval
    exact ⟨w', hs, hflags', fun f => .more rfl (hsteps f)⟩
  | stop => cases heval

theorem Code.Leads.steps_stop {D : Discipline L X} {d : Holding L X} (hm : m.Leads D c d)
    (hflags : Code.OwnFlags D w c) (hnone : (m.outcome w.shared).1 = none) :
    ∃ w' c', w'.shared = (m.outcome w.shared).2 ∧
      ∀ {β : Type} (f : α → Code L X S β), (m >>= f).Steps w c w' c' .stop := by
  induction m generalizing w c with
  | ret b => cases hnone
  | acquire l k ih =>
    have hfree : w.locked l = false := by
      rw [← Bool.not_eq_true, hflags.locked_iff l hm.1.mayTake]
      exact hm.1.notMem
    obtain ⟨w', c', hs, hsteps⟩ :=
      @ih { w with locked := Function.update w.locked l true } _ hm.2 (hflags.acquire hm.1) hnone
    refine ⟨w', c', hs, fun f => .more ?_ (hsteps f)⟩
    change Code.step w c (.acquire l (k >>= f)) = _
    simp [Code.step, hfree]
  | release l k ih =>
    obtain ⟨w', c', hs, hsteps⟩ :=
      @ih { w with locked := Function.update w.locked l false } _ hm.2.2 (hflags.release l) hnone
    exact ⟨w', c', hs, fun f => .more rfl (hsteps f)⟩
  | enter x k ih =>
    obtain ⟨w', c', hs, hsteps⟩ := ih hm.2 ⟨hflags.locked_iff, hflags.nodup⟩ hnone
    exact ⟨w', c', hs, fun f => .more rfl (hsteps f)⟩
  | leave x k ih =>
    obtain ⟨w', c', hs, hsteps⟩ := ih hm ⟨hflags.locked_iff, hflags.nodup⟩ hnone
    exact ⟨w', c', hs, fun f => .more rfl (hsteps f)⟩
  | atomic g k ih =>
    obtain ⟨w', c', hs, hsteps⟩ := @ih (g w.shared).1 { w with shared := (g w.shared).2 } _
      (hm w.shared) ⟨hflags.locked_iff, hflags.nodup⟩ hnone
    exact ⟨w', c', hs, fun f => .more rfl (hsteps f)⟩
  | stop => exact ⟨w, c, rfl, fun _ => .refl w c .stop⟩

end Steps

/-- The same answer and related states, or nothing on both sides. -/
def SameResult (R : S → T → Prop) : Option (α × S) → Option (α × T) → Prop :=
  Option.Rel fun p q => p.1 = q.1 ∧ R p.2 q.2

/-- Alone and from related states, the program has the result of `f`. -/
def Code.Refines (R : S → T → Prop) (m : Code L X S α) (f : T → Option (α × T)) : Prop :=
  ∀ s t, R s t → SameResult R (m.eval s) (f t)

section Refines

variable {R : S → T → Prop} {m : Code L X S α} {f : T → Option (α × T)} {k : α → Code L X S β}
  {s : S} {t t' : T} {a : α} {y : Option (β × T)}

theorem sameResult_some (a : α) (hR : R s t) : SameResult R (some (a, s)) (some (a, t)) :=
  .some ⟨rfl, hR⟩

theorem SameResult.of_some {x : Option (α × S)} (h : SameResult R x (some (a, t))) :
    ∃ s, x = some (a, s) ∧ R s t := by
  cases h with
  | @some p _ hp =>
    obtain ⟨rfl, hR⟩ := hp
    exact ⟨p.2, rfl, hR⟩

theorem SameResult.of_none {x : Option (α × S)} (h : SameResult R x (none : Option (α × T))) :
    x = none := by
  cases h
  rfl

theorem Code.Refines.bind_some (hm : m.Refines R f) (hR : R s t) (hf : f t = some (a, t'))
    (hk : ∀ s', R s' t' → SameResult R ((k a).eval s') y) :
    SameResult R ((m >>= k).eval s) y := by
  obtain ⟨s', heval, hR'⟩ := (hf ▸ hm s t hR).of_some
  rw [Code.eval_bind_of_eq heval]
  exact hk s' hR'

theorem Code.Refines.bind_total {f : T → α × T} (hm : m.Refines R fun t => some (f t)) (hR : R s t)
    (hk : ∀ s', R s' (f t).2 → SameResult R ((k (f t).1).eval s') y) :
    SameResult R ((m >>= k).eval s) y :=
  hm.bind_some hR rfl hk

theorem Code.Refines.bind_none (hm : m.Refines R f) (hR : R s t) (hf : f t = none) :
    SameResult R ((m >>= k).eval s) (none : Option (β × T)) := by
  have heval := (hf ▸ hm s t hR).of_none
  rw [Code.eval_bind, heval]
  exact .none

theorem Code.Refines.discard (hm : m.Refines R f) :
    (m >>= fun _ => pure ()).Refines R fun t => (f t).map fun r => ((), r.2) := by
  intro s t hR
  have hsame := hm s t hR
  cases hf : f t with
  | none =>
    rw [hf] at hsame
    simp only [Code.eval_bind, hsame.of_none, hf]
    exact .none
  | some r =>
    rw [hf] at hsame
    obtain ⟨s', heval, hR'⟩ := hsame.of_some
    simp only [Code.eval_bind, heval, hf]
    exact sameResult_some () hR'

/-- A program that works on a part of the state only: each state has a relation between the
part and the shared state from which its own relation comes back. -/
theorem Code.refines_focus {U : Type} {R' : S → U → Prop} (part : U → T) (put : U → T → U)
    (h : ∀ s u, R' s u → ∃ R : S → T → Prop, m.Refines R f ∧ R s (part u) ∧
      ∀ r, f (part u) = some r → ∀ s', R s' r.2 → R' s' (put u r.2)) :
    m.Refines R' fun u => (f (part u)).map fun r => (r.1, put u r.2) := by
  intro s u hsu
  obtain ⟨R, hm, hR, hput⟩ := h s u hsu
  have hsame := hm s (part u) hR
  cases hf : f (part u) with
  | none =>
    rw [hf] at hsame
    simp only [hsame.of_none, hf]
    exact .none
  | some r =>
    rw [hf] at hsame
    obtain ⟨s', heval, hR'⟩ := hsame.of_some
    simp only [heval, hf]
    exact sameResult_some r.1 (hput r hf s' hR')

end Refines

/-! ## Reaching the result -/

section Alone

variable [DecidableEq ι] [DecidableEq L] [DecidableEq X]

/-- The thread is to run `m`, and no other thread holds a lock. -/
structure LeftAlone (D : Discipline L X) (s : System ι L X S) (i : ι) (m : Code L X S Unit) :
    Prop where
  disciplined : Disciplined D s
  code : (s.threads i).code = some m
  alone : ∀ j, j ≠ i → (s.threads j).holding.locks = []

/-- By its own steps the thread comes to the end of its call and leaves this state. -/
def System.ReturnsAlone (program : A → Code L X S Unit) (s : System ι L X S) (i : ι) (shared : S) :
    Prop :=
  ∃ ts u, Run (SystemStep program) s ts u ∧ (∀ t ∈ ts, t.act = .run i) ∧
    (u.threads i).code = some (.ret ()) ∧ u.world.shared = shared

variable {D : Discipline L X} {program : A → Code L X S Unit} {s : System ι L X S} {i : ι}
  {m m' : Code L X S Unit} {w : World L S} {c : Holding L X} {shared : S}

theorem LeftAlone.step (hprogram : ∀ a, (program a).Leads D .none .none) (h : LeftAlone D s i m)
    (hstep : m.step s.world (s.threads i).holding = some (w, c, m')) :
    LeftAlone D ⟨w, Function.update s.threads i ⟨some m', c⟩⟩ i m' := by
  refine ⟨h.disciplined.step hprogram (.run h.code hstep), by simp, fun j hj => ?_⟩
  simpa [hj] using h.alone j hj

theorem LeftAlone.returnsAlone_of_step (h : LeftAlone D s i m)
    (hstep : m.step s.world (s.threads i).holding = some (w, c, m'))
    (hrest : System.ReturnsAlone program ⟨w, Function.update s.threads i ⟨some m', c⟩⟩ i shared) :
    s.ReturnsAlone program i shared := by
  obtain ⟨ts, u, hrun, hacts, hret, hshared⟩ := hrest
  refine ⟨_, u, .cons (.run h.code hstep) hrun, ?_, hret, hshared⟩
  simpa using hacts

/-- The induction is on the program of the thread. A lock it takes is free, because neither
it nor any other thread holds it. -/
theorem LeftAlone.returnsAlone (hprogram : ∀ a, (program a).Leads D .none .none)
    (h : LeftAlone D s i m) (heval : m.eval s.world.shared = some ((), shared)) :
    s.ReturnsAlone program i shared := by
  induction m generalizing s with
  | ret a =>
    cases heval
    exact ⟨[], s, .nil s, by simp, h.code, rfl⟩
  | acquire l k ih =>
    have hfree : s.world.locked l = false := by
      by_contra hlocked
      obtain ⟨j, hj⟩ := (h.disciplined.consistent.locked_iff l).mp (by simpa using hlocked)
      by_cases hji : j = i
      · subst hji
        exact h.disciplined.notMem_of_acquire h.code hj
      · rw [h.alone j hji] at hj
        cases hj
    have hstep : (Code.acquire l k).step s.world (s.threads i).holding =
        some ({ s.world with locked := Function.update s.world.locked l true },
          (s.threads i).holding.acquire l, k) := by
      simp [Code.step, hfree]
    exact h.returnsAlone_of_step hstep (ih (h.step hprogram hstep) heval)
  | release l k ih => exact h.returnsAlone_of_step rfl (ih (h.step hprogram rfl) heval)
  | enter x k ih => exact h.returnsAlone_of_step rfl (ih (h.step hprogram rfl) heval)
  | leave x k ih => exact h.returnsAlone_of_step rfl (ih (h.step hprogram rfl) heval)
  | atomic f k ih => exact h.returnsAlone_of_step rfl (ih _ (h.step hprogram rfl) heval)
  | stop => cases heval

theorem LeftAlone.returnsAlone_of_refines {R : S → T → Prop} {f : T → Option (Unit × T)} {t t' : T}
    (hprogram : ∀ a, (program a).Leads D .none .none) (h : LeftAlone D s i m)
    (hrefines : m.Refines R f) (hR : R s.world.shared t) (hf : f t = some ((), t')) :
    ∃ shared, s.ReturnsAlone program i shared ∧ R shared t' := by
  have hsame := hrefines _ _ hR
  rw [hf] at hsame
  obtain ⟨shared, heval, hshared⟩ := hsame.of_some
  exact ⟨shared, h.returnsAlone hprogram heval, hshared⟩

end Alone

end Olive.Library
