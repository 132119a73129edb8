import Mathlib.Data.Nat.Init
import Mathlib.Logic.Function.Basic
import Mathlib.Order.Defs.LinearOrder

/-!
# Writers

A writer hands elements to a sink one after the other; a sink is a step of its state for each
element, in any monad. What is written to a window of an array changes the window only.
-/

namespace Olive
namespace Library

universe u v

section Puts

variable {α : Type u} {σ : Type v} {m : Type v → Type v} [Monad m] (put : α → σ → m σ)

def puts : List α → σ → m σ
  | [], s => pure s
  | a :: as, s => put a s >>= fun s => puts as s

@[simp] theorem puts_nil (s : σ) : puts put [] s = pure s := rfl

@[simp] theorem puts_cons (a : α) (as : List α) (s : σ) :
    puts put (a :: as) s = put a s >>= fun s => puts put as s := rfl

variable [LawfulMonad m]

theorem puts_singleton (a : α) (s : σ) : puts put [a] s = put a s := by
  simp

theorem puts_append (as bs : List α) (s : σ) :
    puts put (as ++ bs) s = puts put as s >>= fun s => puts put bs s := by
  induction as generalizing s with
  | nil => simp
  | cons a as ih => simp only [List.cons_append, puts_cons, bind_assoc, ih]

end Puts

section Windows

variable {α : Type u} {f : ℕ → α} {as : List α} {a : α} {p i : ℕ}

/-- The array `f` behind a write of the list to the positions from `p` on. -/
def writeAt (f : ℕ → α) (p : ℕ) (as : List α) : ℕ → α :=
  fun i => if p ≤ i then as[i - p]?.getD (f i) else f i

theorem writeAt_of_lt (h : i < p) : writeAt f p as i = f i := if_neg (by omega)

theorem writeAt_of_le (h : p + as.length ≤ i) : writeAt f p as i = f i := by
  unfold writeAt
  rw [if_pos (by omega), List.getElem?_eq_none (by omega)]
  rfl

theorem writeAt_add (h : i < as.length) : writeAt f p as (p + i) = as[i] := by
  unfold writeAt
  rw [if_pos (Nat.le_add_right p i), Nat.add_sub_cancel_left, List.getElem?_eq_getElem h]
  rfl

theorem writeAt_zero (f : ℕ → α) (as : List α) : writeAt f 0 as i = as[i]?.getD (f i) := rfl

@[simp] theorem writeAt_nil : writeAt f p [] = f := by
  funext i
  simp [writeAt]

theorem writeAt_cons : writeAt f p (a :: as) = writeAt (Function.update f p a) (p + 1) as := by
  funext i
  rcases Nat.lt_trichotomy i p with hi | rfl | hi
  · rw [writeAt_of_lt hi, writeAt_of_lt (by omega), Function.update_of_ne (by omega)]
  · rw [writeAt_of_lt (Nat.lt_succ_self i), Function.update_self]
    simp [writeAt]
  · obtain ⟨j, rfl⟩ := Nat.exists_eq_add_of_lt hi
    unfold writeAt
    rw [if_pos (by omega), if_pos (by omega), Function.update_of_ne (by omega),
      show p + j + 1 - p = j + 1 by omega, show p + j + 1 - (p + 1) = j by omega,
      List.getElem?_cons_succ]

theorem map_writeAt (f : ℕ → α) (p : ℕ) (as : List α) :
    (List.range as.length).map (fun i => writeAt f p as (p + i)) = as := by
  apply List.ext_getElem
  · simp
  · intro i h₁ h₂
    rw [List.getElem_map, List.getElem_range, writeAt_add h₂]

end Windows

end Library
end Olive
