import Mathlib.Logic.Function.Basic
import Mathlib.Tactic

/-!
# The last write decides

A partial map that is overwritten key by key. What a key holds at the end was there
before or is the value of one of the writes, and it is settled by any stretch of the
writes that agrees on the key and is not followed by another write to it.
-/

namespace Olive.Library

variable {κ ν : Type*} [DecidableEq κ]

/-- The map after the writes, in their order. -/
def replay (M : κ → Option ν) (ws : List (κ × ν)) : κ → Option ν :=
  ws.foldl (fun M w => Function.update M w.1 (some w.2)) M

@[simp] theorem replay_nil (M : κ → Option ν) : replay M [] = M := rfl

@[simp] theorem replay_cons (M : κ → Option ν) (w : κ × ν) (ws : List (κ × ν)) :
    replay M (w :: ws) = replay (Function.update M w.1 (some w.2)) ws := rfl

theorem replay_append (M : κ → Option ν) (xs ys : List (κ × ν)) :
    replay M (xs ++ ys) = replay (replay M xs) ys :=
  List.foldl_append

variable {M : κ → Option ν} {ws : List (κ × ν)} {k : κ} {v : ν}

theorem replay_of_unwritten (h : ∀ w ∈ ws, w.1 ≠ k) : replay M ws k = M k := by
  induction ws generalizing M with
  | nil => rfl
  | cons w ws ih =>
    have hw : k ≠ w.1 := fun he => h w List.mem_cons_self he.symm
    rw [replay_cons, ih fun w' hw' => h w' (List.mem_cons_of_mem _ hw'), Function.update_of_ne hw]

theorem replay_of_agree (hex : ∃ w ∈ ws, w.1 = k) (hall : ∀ w ∈ ws, w.1 = k → w.2 = v) :
    replay M ws k = some v := by
  induction ws generalizing M with
  | nil => simp at hex
  | cons w ws ih =>
    have htail : ∀ w' ∈ ws, w'.1 = k → w'.2 = v := fun w' hw' => hall w' (List.mem_cons_of_mem _ hw')
    by_cases hlater : ∃ w' ∈ ws, w'.1 = k
    · exact ih hlater htail
    · have hunwritten : ∀ w' ∈ ws, w'.1 ≠ k := fun w' hw' he => hlater ⟨w', hw', he⟩
      obtain ⟨w', hw', hk⟩ := hex
      rcases List.mem_cons.mp hw' with rfl | hw'
      · rw [replay_cons, replay_of_unwritten hunwritten, ← hk, Function.update_self,
          hall w' List.mem_cons_self hk]
      · exact absurd hk (hunwritten w' hw')

/-- A stretch of the writes that agrees on the key settles it, if no later write does. -/
theorem replay_settled {pre own post : List (κ × ν)} (hex : ∃ w ∈ own, w.1 = k)
    (hown : ∀ w ∈ own, w.1 = k → w.2 = v) (hpost : ∀ w ∈ post, w.1 ≠ k) :
    replay M (pre ++ (own ++ post)) k = some v := by
  rw [replay_append, replay_append, replay_of_unwritten hpost, replay_of_agree hex hown]

theorem exists_last {α : Type*} {P : α → Prop} {xs : List α} (h : ∃ x ∈ xs, P x) :
    ∃ pre x post, xs = pre ++ x :: post ∧ P x ∧ ∀ y ∈ post, ¬ P y := by
  induction xs with
  | nil => simp at h
  | cons x xs ih =>
    by_cases hlater : ∃ y ∈ xs, P y
    · obtain ⟨pre, y, post, rfl, hy, hpost⟩ := ih hlater
      exact ⟨x :: pre, y, post, rfl, hy, hpost⟩
    · have hnone : ∀ y ∈ xs, ¬ P y := fun y hy hP => hlater ⟨y, hy, hP⟩
      obtain ⟨y, hy, hP⟩ := h
      rcases List.mem_cons.mp hy with rfl | hy
      · exact ⟨[], y, xs, rfl, hP, hnone⟩
      · exact absurd hP (hnone y hy)

/-- A map that starts empty holds what the last write to a key says. -/
theorem replay_none_iff :
    replay (fun _ => none) ws k = some v ↔
      ∃ pre post, ws = pre ++ (k, v) :: post ∧ ∀ w ∈ post, w.1 ≠ k := by
  constructor
  · intro h
    have hwritten : ∃ w ∈ ws, w.1 = k := by
      by_contra hnone
      rw [replay_of_unwritten fun w hw hk => hnone ⟨w, hw, hk⟩] at h
      cases h
    obtain ⟨pre, w, post, rfl, rfl, hpost⟩ := exists_last hwritten
    have hown : ∀ w' ∈ [w], w'.1 = w.1 → w'.2 = w.2 :=
      fun w' hw' _ => by rw [List.mem_singleton.mp hw']
    have hlast : replay (fun _ => none) (pre ++ ([w] ++ post)) w.1 = some w.2 :=
      replay_settled ⟨w, List.mem_singleton_self w, rfl⟩ hown hpost
    obtain rfl := Option.some.inj (hlast.symm.trans h)
    exact ⟨pre, post, rfl, hpost⟩
  · rintro ⟨pre, post, rfl, hpost⟩
    have hown : ∀ w ∈ [(k, v)], w.1 = k → w.2 = v :=
      fun w hw _ => by rw [List.mem_singleton.mp hw]
    exact replay_settled ⟨_, List.mem_singleton_self (k, v), rfl⟩ hown hpost

end Olive.Library
