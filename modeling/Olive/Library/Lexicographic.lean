import Mathlib.Data.List.Lex
import Mathlib.Tactic

/-!
# Three-way comparison and lists

A three-way comparison answers a negative number, zero or a positive number. Over a linear
order its laws are those of the order; over lists, in lexicographic order, the first
difference decides, and a common split of two lists splits their comparison.
-/

namespace Olive.Library

variable {α : Type*} [LinearOrder α]

/-- -1 if `x` comes first, 1 if `y` does, and 0 if they are equal. -/
def threeWay (x y : α) : ℤ := if x = y then 0 else if x < y then -1 else 1

section Order

variable {x y z : α}

theorem threeWay_eq_zero_iff : threeWay x y = 0 ↔ x = y := by
  unfold threeWay
  split_ifs with heq hlt
  · simp [heq]
  · simp [heq]
  · simp [heq]

theorem threeWay_neg_iff : threeWay x y < 0 ↔ x < y := by
  unfold threeWay
  split_ifs with heq hlt
  · simp [heq]
  · simp [hlt]
  · simp [hlt]

theorem threeWay_nonpos_iff : threeWay x y ≤ 0 ↔ x ≤ y := by
  rw [le_iff_lt_or_eq, threeWay_neg_iff, threeWay_eq_zero_iff, ← le_iff_lt_or_eq]

theorem threeWay_of_lt (h : x < y) : threeWay x y = -1 := by simp [threeWay, h.ne, h]

theorem threeWay_of_gt (h : y < x) : threeWay x y = 1 := by simp [threeWay, h.ne', h.not_gt]

@[simp] theorem threeWay_self (x : α) : threeWay x x = 0 := threeWay_eq_zero_iff.mpr rfl

theorem threeWay_swap (x y : α) : threeWay y x = -threeWay x y := by
  rcases lt_trichotomy x y with h | rfl | h
  · rw [threeWay_of_lt h, threeWay_of_gt h]
    rfl
  · simp
  · rw [threeWay_of_lt h, threeWay_of_gt h]

theorem threeWay_trans (hxy : threeWay x y ≤ 0) (hyz : threeWay y z ≤ 0) : threeWay x z ≤ 0 := by
  rw [threeWay_nonpos_iff] at *
  exact hxy.trans hyz

end Order

/-! ## Lists -/

theorem threeWay_cons (x y : α) (xs ys : List α) :
    threeWay (x :: xs) (y :: ys) = if x = y then threeWay xs ys else threeWay x y := by
  rcases lt_trichotomy x y with h | rfl | h
  · rw [if_neg h.ne, threeWay_of_lt h]
    exact threeWay_of_lt (List.cons_lt_cons_iff.mpr (.inl h))
  · rw [if_pos rfl]
    rcases lt_trichotomy xs ys with h | rfl | h
    · rw [threeWay_of_lt h]
      exact threeWay_of_lt (List.cons_lt_cons_iff.mpr (.inr ⟨rfl, h⟩))
    · rw [threeWay_self, threeWay_self]
    · rw [threeWay_of_gt h]
      exact threeWay_of_gt (List.cons_lt_cons_iff.mpr (.inr ⟨rfl, h⟩))
  · rw [if_neg h.ne', threeWay_of_gt h]
    exact threeWay_of_gt (List.cons_lt_cons_iff.mpr (.inl h))

theorem threeWay_append {xs ys : List α} (xs' ys' : List α) (hlen : xs.length = ys.length) :
    threeWay (xs ++ xs') (ys ++ ys') =
      if threeWay xs ys ≠ 0 then threeWay xs ys else threeWay xs' ys' := by
  induction xs generalizing ys with
  | nil =>
    obtain rfl := List.length_eq_zero_iff.mp hlen.symm
    simp
  | cons x xs ih =>
    cases ys with
    | nil => simp at hlen
    | cons y ys =>
      rw [List.cons_append, List.cons_append, threeWay_cons, threeWay_cons]
      split_ifs with hxy hrest hrest
      · rw [ih (by simpa using hlen), if_pos hrest]
      · rw [ih (by simpa using hlen), if_neg hrest]
      · rfl
      · rw [not_not, threeWay_eq_zero_iff] at hrest
        exact absurd hrest hxy

/-- The first difference of two lists decides. -/
theorem threeWay_of_first_difference {xs ys : List α} {i : ℕ} (hx : i < xs.length)
    (hy : i < ys.length) (hbefore : ∀ j < i, xs[j]? = ys[j]?) (hne : xs[i] ≠ ys[i]) :
    threeWay xs ys = threeWay xs[i] ys[i] := by
  induction i generalizing xs ys with
  | zero =>
    cases xs with
    | nil => simp at hx
    | cons x xs =>
      cases ys with
      | nil => simp at hy
      | cons y ys => rw [threeWay_cons, if_neg (by simpa using hne)]; rfl
  | succ i ih =>
    cases xs with
    | nil => simp at hx
    | cons x xs =>
      cases ys with
      | nil => simp at hy
      | cons y ys =>
        have hhead : x = y := by simpa using hbefore 0 (Nat.succ_pos i)
        rw [threeWay_cons, if_pos hhead]
        apply ih
        · intro j hj
          simpa using hbefore (j + 1) (by omega)
        · simpa using hne

end Olive.Library
