import Mathlib.Data.Fintype.Pigeonhole
import Mathlib.Logic.Function.Iterate

/-!
# Walks along a function

A walk goes from an element to the next one until it comes to an element at which it halts.
Among finitely many elements it comes to such an element if and only if it passes no
element twice.
-/

namespace Olive.Library

variable {α : Type*} (next : α → α) (halt : α → Prop)

/-- The walk from `a` comes to an element at which it halts. -/
def WalkEnds (a : α) : Prop := ∃ n, halt (next^[n] a)

/-- No two of the elements that the walk passes are the same. -/
def PassesOnce (a : α) : Prop :=
  ∀ i j, i < j → (∀ n ≤ j, ¬ halt (next^[n] a)) → next^[i] a ≠ next^[j] a

/-- The elements that the walk passes; nothing if it does not halt among the first `fuel`. -/
def walk [DecidablePred halt] : ℕ → α → Option (List α)
  | 0, _ => none
  | fuel + 1, a => if halt a then some [] else (walk fuel (next a)).map (a :: ·)

/-- The elements that the walk passes, as many as `fuel` at most. -/
def passed [DecidablePred halt] : ℕ → α → List α
  | 0, _ => []
  | fuel + 1, a => if halt a then [] else a :: passed fuel (next a)

variable {next halt} {a : α}

theorem iterate_revisits {i j : ℕ} (hij : i < j) (h : next^[i] a = next^[j] a) (n : ℕ) :
    ∃ m ≤ j, next^[n] a = next^[m] a := by
  induction n with
  | zero => exact ⟨0, Nat.zero_le j, rfl⟩
  | succ n ih =>
    obtain ⟨m, hm, heq⟩ := ih
    have hnext : next^[n + 1] a = next^[m + 1] a := by
      rw [Function.iterate_succ_apply', Function.iterate_succ_apply', heq]
    rcases Nat.lt_or_eq_of_le hm with hlt | rfl
    · exact ⟨m + 1, hlt, hnext⟩
    · refine ⟨i + 1, hij, hnext.trans ?_⟩
      rw [Function.iterate_succ_apply', Function.iterate_succ_apply', h]

theorem WalkEnds.passesOnce (h : WalkEnds next halt a) : PassesOnce next halt a := by
  obtain ⟨n, hn⟩ := h
  intro i j hij hpassed heq
  obtain ⟨m, hm, hnm⟩ := iterate_revisits hij heq n
  exact hpassed m hm (hnm ▸ hn)

/-- There are not enough elements for a walk that goes on for ever and passes none twice. -/
theorem PassesOnce.walkEnds [Finite α] (h : PassesOnce next halt a) : WalkEnds next halt a := by
  by_contra hnever
  have hpassed : ∀ n, ¬ halt (next^[n] a) := fun n hn => hnever ⟨n, hn⟩
  obtain ⟨i, j, hne, heq⟩ := Finite.exists_ne_map_eq_of_infinite fun n : ℕ => next^[n] a
  rcases Nat.lt_or_gt_of_ne hne with hij | hji
  · exact h i j hij (fun n _ => hpassed n) heq
  · exact h j i hji (fun n _ => hpassed n) heq.symm

theorem walkEnds_iff_passesOnce [Finite α] : WalkEnds next halt a ↔ PassesOnce next halt a :=
  ⟨WalkEnds.passesOnce, PassesOnce.walkEnds⟩

theorem walkEnds_next (ha : ¬ halt a) : WalkEnds next halt (next a) ↔ WalkEnds next halt a := by
  constructor
  · rintro ⟨n, hn⟩
    exact ⟨n + 1, hn⟩
  · rintro ⟨n, hn⟩
    cases n with
    | zero => exact absurd hn ha
    | succ n => exact ⟨n, hn⟩

/-- A walk that stays where it does not halt goes on for ever. -/
theorem not_walkEnds {P : α → Prop} (hhalt : ∀ x, P x → ¬ halt x) (hnext : ∀ x, P x → P (next x))
    (ha : P a) : ¬ WalkEnds next halt a := by
  have hstays : ∀ n, P (next^[n] a) := by
    intro n
    induction n with
    | zero => exact ha
    | succ n ih =>
      rw [Function.iterate_succ_apply']
      exact hnext _ ih
  rintro ⟨n, hn⟩
  exact hhalt _ (hstays n) hn

section Fuel

variable [DecidablePred halt]

theorem walk_of_halt (fuel : ℕ) (ha : halt a) : walk next halt (fuel + 1) a = some [] :=
  if_pos ha

theorem walk_of_not_halt (fuel : ℕ) (ha : ¬ halt a) :
    walk next halt (fuel + 1) a = (walk next halt fuel (next a)).map (a :: ·) :=
  if_neg ha

theorem passed_of_halt (fuel : ℕ) (ha : halt a) : passed next halt (fuel + 1) a = [] := if_pos ha

theorem passed_of_not_halt (fuel : ℕ) (ha : ¬ halt a) :
    passed next halt (fuel + 1) a = a :: passed next halt fuel (next a) := if_neg ha

theorem walk_mono {fuel fuel' : ℕ} {xs : List α} (h : walk next halt fuel a = some xs)
    (hle : fuel ≤ fuel') : walk next halt fuel' a = some xs := by
  induction fuel generalizing a xs fuel' with
  | zero => cases h
  | succ fuel ih =>
    obtain ⟨n, rfl⟩ := Nat.exists_eq_add_of_le hle
    rw [Nat.add_right_comm]
    by_cases ha : halt a
    · rw [walk_of_halt fuel ha] at h
      rw [walk_of_halt _ ha, h]
    · rw [walk_of_not_halt fuel ha] at h
      obtain ⟨ys, hys, rfl⟩ := Option.map_eq_some_iff.mp h
      rw [walk_of_not_halt _ ha, ih hys (Nat.le_add_right fuel n)]
      rfl

theorem walkEnds_of_walk {fuel : ℕ} {xs : List α} (h : walk next halt fuel a = some xs) :
    WalkEnds next halt a := by
  induction fuel generalizing a xs with
  | zero => cases h
  | succ fuel ih =>
    by_cases ha : halt a
    · exact ⟨0, ha⟩
    · rw [walk_of_not_halt fuel ha] at h
      obtain ⟨ys, hys, -⟩ := Option.map_eq_some_iff.mp h
      exact (walkEnds_next ha).mp (ih hys)

theorem walkEnds_iff_exists_walk :
    WalkEnds next halt a ↔ ∃ fuel xs, walk next halt fuel a = some xs := by
  constructor
  · rintro ⟨n, hn⟩
    induction n generalizing a with
    | zero => exact ⟨1, [], walk_of_halt 0 hn⟩
    | succ n ih =>
      by_cases ha : halt a
      · exact ⟨1, [], walk_of_halt 0 ha⟩
      · obtain ⟨fuel, xs, hxs⟩ := ih hn
        exact ⟨fuel + 1, a :: xs, by rw [walk_of_not_halt fuel ha, hxs]; rfl⟩
  · rintro ⟨fuel, xs, hxs⟩
    exact walkEnds_of_walk hxs

end Fuel

end Olive.Library
