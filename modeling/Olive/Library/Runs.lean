import Mathlib.Logic.Relation
import Mathlib.Tactic

/-!
# Labelled runs of a step relation

A run is kept as the list of its transitions, each with the state before, the
action and the state after, so that a statement can speak about every state the
run reaches and about the state in which each action was taken. The rules below
are the only inductions over runs: an invariant that every step keeps, one that
only steps meeting a side condition keep, and the exact form of the latter.
-/

namespace Olive.Library

variable {σ α : Type*}

/-- One executed step: the state before, the action and the state after. -/
structure Transition (σ α : Type*) where
  pre : σ
  act : α
  post : σ

/-- `Run step s ts u`: the transitions `ts` lead from `s` to `u`. -/
inductive Run (step : σ → α → σ → Prop) : σ → List (Transition σ α) → σ → Prop
  | nil (s : σ) : Run step s [] s
  | cons {s t u : σ} {a : α} {ts : List (Transition σ α)} :
      step s a t → Run step t ts u → Run step s (⟨s, a, t⟩ :: ts) u

namespace Run

variable {step : σ → α → σ → Prop} {s u : σ} {ts : List (Transition σ α)}

theorem concat {v : σ} {a : α} (h : Run step s ts u) (hstep : step u a v) :
    Run step s (ts ++ [⟨u, a, v⟩]) v := by
  induction h with
  | nil s => exact .cons hstep (.nil v)
  | cons hs _ ih => exact .cons hs (ih hstep)

theorem step_of_mem (h : Run step s ts u) : ∀ x ∈ ts, step x.pre x.act x.post := by
  induction h with
  | nil => simp
  | cons hs _ ih =>
    intro x hx
    rcases List.mem_cons.mp hx with rfl | hx
    · exact hs
    · exact ih x hx

/-- Steps that meet the side condition `C` keep the invariant, so a run whose
steps all meet it keeps the invariant in every state it reaches. -/
theorem invariant_of_forall {I : σ → Prop} {C : σ → α → Prop}
    (hstep : ∀ s a t, I s → C s a → step s a t → I t) (h : Run step s ts u) (hs : I s)
    (hC : ∀ x ∈ ts, C x.pre x.act) : I u ∧ ∀ x ∈ ts, I x.pre ∧ I x.post := by
  induction h with
  | nil => exact ⟨hs, by simp⟩
  | cons hst _ ih =>
    have ht := hstep _ _ _ hs (hC _ List.mem_cons_self) hst
    obtain ⟨hu, hts⟩ := ih ht (fun x hx => hC x (List.mem_cons_of_mem _ hx))
    refine ⟨hu, fun x hx => ?_⟩
    rcases List.mem_cons.mp hx with rfl | hx
    · exact ⟨hs, ht⟩
    · exact hts x hx

theorem invariant {I : σ → Prop} (hstep : ∀ s a t, I s → step s a t → I t)
    (h : Run step s ts u) (hs : I s) : I u ∧ ∀ x ∈ ts, I x.pre ∧ I x.post :=
  h.invariant_of_forall (C := fun _ _ => True) (fun s a t hs _ => hstep s a t hs) hs
    (fun _ _ => trivial)

/-- When, from a state with `P`, the condition `C` decides whether a step keeps
`P`, a run keeps `P` throughout exactly when every step of it meets `C`. The
invariant `I` is what holds as long as `P` has held. -/
theorem forall_post_iff {I P : σ → Prop} {C : σ → α → Prop}
    (hiff : ∀ s a t, I s → P s → step s a t → (P t ↔ C s a))
    (hI : ∀ s a t, I s → P s → step s a t → I t) (h : Run step s ts u) (hs : I s) (hP : P s) :
    (∀ x ∈ ts, P x.post) ↔ ∀ x ∈ ts, C x.pre x.act := by
  induction h with
  | nil => simp
  | cons hst _ ih =>
    have hc := hiff _ _ _ hs hP hst
    have ht := hI _ _ _ hs hP hst
    simp only [List.forall_mem_cons]
    constructor
    · rintro ⟨hpost, hrest⟩
      exact ⟨hc.mp hpost, (ih ht hpost).mp hrest⟩
    · rintro ⟨hcond, hrest⟩
      exact ⟨hc.mpr hcond, (ih ht (hc.mpr hcond)).mpr hrest⟩

end Run

end Olive.Library
