import Mathlib.Data.List.Perm.Basic
import Mathlib.Data.List.Nodup
import Mathlib.Tactic

/-!
# Counting loops over machine words

`for (x = start; x < bound; x += stride) body` over words of any width, with a
body that may leave the loop early. The counter is a machine word and wraps, so
the loop carries a fuel argument; the rule `forLoop_eq` says which values the
counter takes whenever the last increment does not wrap, and turns the loop into
a fold over that list. `ticks` is the list of those values and serves for every
arithmetic progression of addresses.
-/

namespace Olive.Library

variable {w : ℕ} {S ε : Type*}

/-- The words `x`, `x + stride`, ..., `n` of them. -/
def ticks (stride x : BitVec w) : ℕ → List (BitVec w)
  | 0 => []
  | n + 1 => x :: ticks stride (x + stride) n

@[simp] theorem ticks_zero (stride x : BitVec w) : ticks stride x 0 = [] := rfl

@[simp] theorem ticks_succ (stride x : BitVec w) (n : ℕ) :
    ticks stride x (n + 1) = x :: ticks stride (x + stride) n := rfl

@[simp] theorem length_ticks (stride x : BitVec w) (n : ℕ) : (ticks stride x n).length = n := by
  induction n generalizing x with
  | zero => rfl
  | succ n ih => simp [ih]

theorem tick_succ (stride x : BitVec w) (k : ℕ) :
    x + BitVec.ofNat w (k + 1) * stride = x + stride + BitVec.ofNat w k * stride := by
  rw [BitVec.ofNat_add, BitVec.add_mul, BitVec.one_mul, BitVec.add_assoc,
    BitVec.add_comm stride]

theorem mem_ticks {stride x y : BitVec w} {n : ℕ} :
    y ∈ ticks stride x n ↔ ∃ k < n, y = x + BitVec.ofNat w k * stride := by
  induction n generalizing x with
  | zero => simp
  | succ n ih =>
    rw [ticks_succ, List.mem_cons, ih]
    constructor
    · rintro (rfl | ⟨k, hk, rfl⟩)
      · exact ⟨0, by omega, by simp⟩
      · exact ⟨k + 1, by omega, (tick_succ stride x k).symm⟩
    · rintro ⟨k, hk, rfl⟩
      cases k with
      | zero => left; simp
      | succ k => exact Or.inr ⟨k, by omega, tick_succ stride x k⟩

theorem ticks_add (stride x : BitVec w) (m n : ℕ) :
    ticks stride x (m + n) = ticks stride x m ++ ticks stride (x + BitVec.ofNat w m * stride) n := by
  induction m generalizing x with
  | zero => simp
  | succ m ih =>
    rw [Nat.add_right_comm, ticks_succ, ticks_succ, ih, List.cons_append, tick_succ]

theorem toNat_tick {stride x : BitVec w} {k : ℕ} (h : x.toNat + k * stride.toNat < 2 ^ w) :
    (x + BitVec.ofNat w k * stride).toNat = x.toNat + k * stride.toNat := by
  have hmul : (BitVec.ofNat w k * stride).toNat = k * stride.toNat % 2 ^ w := by
    simp [BitVec.toNat_mul, BitVec.toNat_ofNat, Nat.mod_mul_mod]
  rw [BitVec.toNat_add, hmul, Nat.add_mod_mod, Nat.mod_eq_of_lt h]

theorem nodup_ticks {stride x : BitVec w} {n : ℕ} (hstride : 0 < stride.toNat)
    (h : x.toNat + n * stride.toNat ≤ 2 ^ w) : (ticks stride x n).Nodup := by
  induction n generalizing x with
  | zero => simp
  | succ n ih =>
    rw [ticks_succ, List.nodup_cons]
    rw [Nat.succ_mul] at h
    have hx : ∀ k ≤ n, x.toNat + k * stride.toNat < 2 ^ w := fun k hk => by
      have := Nat.mul_le_mul_right stride.toNat hk
      omega
    constructor
    · rw [mem_ticks]
      rintro ⟨k, hk, he⟩
      have hne := congrArg BitVec.toNat he
      rw [← tick_succ, toNat_tick (hx _ hk)] at hne
      have := Nat.mul_pos (Nat.succ_pos k) hstride
      omega
    · rcases Nat.eq_zero_or_pos n with rfl | hn
      · simp
      · apply ih
        have h1 := toNat_tick (hx 1 hn)
        simp only [BitVec.one_mul, Nat.one_mul] at h1
        rw [h1]
        omega

/-- `for (x = start; x < bound; x += stride) body(x)`. A body that returns from
the enclosing function answers `.error`; a loop that outlives its fuel answers
`.error stuck`. -/
def forLoop (stride bound : BitVec w) (body : BitVec w → S → Except ε S) (stuck : ε) :
    ℕ → BitVec w → S → Except ε S
  | 0, _, _ => .error stuck
  | fuel + 1, x, s =>
      if x < bound then (body x s).bind (forLoop stride bound body stuck fuel (x + stride))
      else .ok s

/-- A loop whose counter steps from `x` past `bound` without wrapping runs its
body on exactly the ticks below `bound`. -/
theorem forLoop_eq {stride bound x : BitVec w} {n fuel : ℕ}
    (body : BitVec w → S → Except ε S) (stuck : ε) (s : S)
    (hlt : ∀ k < n, x.toNat + k * stride.toNat < bound.toNat)
    (hge : bound.toNat ≤ x.toNat + n * stride.toNat)
    (hw : x.toNat + n * stride.toNat < 2 ^ w) (hfuel : n < fuel) :
    forLoop stride bound body stuck fuel x s =
      (ticks stride x n).foldlM (fun s x => body x s) s := by
  induction n generalizing x s fuel with
  | zero =>
    obtain ⟨fuel, rfl⟩ := Nat.exists_eq_succ_of_ne_zero (by omega : fuel ≠ 0)
    have hx : ¬ x < bound := by rw [BitVec.lt_def]; omega
    rw [forLoop, if_neg hx]
    rfl
  | succ n ih =>
    obtain ⟨fuel, rfl⟩ := Nat.exists_eq_succ_of_ne_zero (by omega : fuel ≠ 0)
    have hx : x < bound := by
      have := hlt 0 (Nat.succ_pos n)
      rw [BitVec.lt_def]
      omega
    rw [forLoop, if_pos hx, ticks_succ, List.foldlM_cons]
    have hnext : (x + stride).toNat = x.toNat + stride.toNat := by
      rw [Nat.succ_mul] at hw
      rw [BitVec.toNat_add, Nat.mod_eq_of_lt (by omega)]
    change (body x s).bind _ = (body x s).bind _
    congr 1
    funext s'
    apply ih
    · intro k hk
      have := hlt (k + 1) (by omega)
      rw [Nat.succ_mul] at this
      omega
    · rw [Nat.succ_mul] at hge
      omega
    · rw [Nat.succ_mul] at hw
      omega
    · omega

/-- A loop that ends has run its body on some of the ticks, whatever the bound is. -/
theorem forLoop_ok {stride bound x : BitVec w} {fuel : ℕ} {body : BitVec w → S → Except ε S}
    {stuck : ε} {s s' : S} (h : forLoop stride bound body stuck fuel x s = .ok s') :
    ∃ n, (ticks stride x n).foldlM (fun s x => body x s) s = .ok s' := by
  induction fuel generalizing x s with
  | zero => cases h
  | succ fuel ih =>
    unfold forLoop at h
    by_cases hx : x < bound
    · rw [if_pos hx] at h
      cases hbody : body x s with
      | error e =>
        rw [hbody] at h
        cases h
      | ok t =>
        rw [hbody] at h
        obtain ⟨n, hn⟩ := ih h
        refine ⟨n + 1, ?_⟩
        rw [ticks_succ, List.foldlM_cons, hbody]
        exact hn
    · rw [if_neg hx] at h
      exact ⟨0, h⟩

def loopTicks (stride bound : BitVec w) (stuck : ε) : ℕ → BitVec w → Except ε (List (BitVec w))
  | 0, _ => .error stuck
  | fuel + 1, x =>
      if x < bound then (loopTicks stride bound stuck fuel (x + stride)).map (x :: ·) else .ok []

theorem forLoop_loopTicks (stride bound : BitVec w) (f : S → BitVec w → S) (stuck : ε) (fuel : ℕ)
    (x : BitVec w) (s : S) :
    forLoop stride bound (fun x s => .ok (f s x)) stuck fuel x s =
      (loopTicks stride bound stuck fuel x).map fun xs => xs.foldl f s := by
  induction fuel generalizing x s with
  | zero => rfl
  | succ fuel ih =>
    unfold forLoop loopTicks
    split_ifs with hx
    · refine (ih (x + stride) (f s x)).trans ?_
      cases loopTicks stride bound stuck fuel (x + stride) <;> rfl
    · rfl

theorem foldlM_ok {α : Type*} (f : S → α → S) (xs : List α) (s : S) :
    xs.foldlM (fun s x => (.ok (f s x) : Except ε S)) s = .ok (xs.foldl f s) := by
  induction xs generalizing s with
  | nil => rfl
  | cons x xs ih => exact ih (f s x)

theorem loopTicks_eq {stride bound x : BitVec w} {n fuel : ℕ} (stuck : ε)
    (hlt : ∀ k < n, x.toNat + k * stride.toNat < bound.toNat)
    (hge : bound.toNat ≤ x.toNat + n * stride.toNat)
    (hw : x.toNat + n * stride.toNat < 2 ^ w) (hfuel : n < fuel) :
    loopTicks stride bound stuck fuel x = .ok (ticks stride x n) := by
  -- collect the values of the counter
  have hcollect := forLoop_loopTicks stride bound (fun ys y => ys ++ [y]) stuck fuel x []
  rw [forLoop_eq _ stuck [] hlt hge hw hfuel, foldlM_ok] at hcollect
  cases hres : loopTicks stride bound stuck fuel x with
  | error e =>
    rw [hres] at hcollect
    cases hcollect
  | ok xs =>
    rw [hres] at hcollect
    have hxs := Except.ok.inj hcollect
    simp only [List.foldl_append_eq_append, List.nil_append, ← List.flatMap_def,
      List.flatMap_singleton'] at hxs
    rw [hxs]

end Olive.Library
