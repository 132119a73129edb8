import Olive.Library.ByteMemory

/-!
# A stack of 64-bit words in byte memory

The stack grows downwards: a push writes the word below the top. The words pushed lie
above the new top with the last one first, as long as they do not wrap around the
address space.
-/

namespace Olive.Library

/-- Push the words of a list, the first one first; memory and the top afterwards. -/
def pushWords (m : Memory 64) (top : BitVec 64) : List (BitVec 64) → Memory 64 × BitVec 64
  | [] => (m, top)
  | v :: vs => pushWords (m.store64 (top - 8) v) (top - 8) vs

@[simp] theorem pushWords_nil (m : Memory 64) (top : BitVec 64) : pushWords m top [] = (m, top) := rfl

@[simp] theorem pushWords_cons (m : Memory 64) (top v : BitVec 64) (vs : List (BitVec 64)) :
    pushWords m top (v :: vs) = pushWords (m.store64 (top - 8) v) (top - 8) vs := rfl

theorem pushWords_append (m : Memory 64) (top : BitVec 64) (us vs : List (BitVec 64)) :
    pushWords m top (us ++ vs) = pushWords (pushWords m top us).1 (pushWords m top us).2 vs := by
  induction us generalizing m top with
  | nil => rfl
  | cons u us ih => exact ih (m.store64 (top - 8) u) (top - 8)

variable {m : Memory 64} {top : BitVec 64}

theorem top_pushWords (vs : List (BitVec 64)) :
    (pushWords m top vs).2 = top - BitVec.ofNat 64 (8 * vs.length) := by
  induction vs generalizing m top with
  | nil => simp
  | cons v vs ih =>
    rw [pushWords_cons, ih, List.length_cons, Nat.mul_succ, BitVec.ofNat_add, BitVec.sub_sub,
      BitVec.add_comm]
    rfl

theorem load64_pushWords_above {vs : List (BitVec 64)} {j : ℕ}
    (h : 8 * vs.length + 8 * (j + 1) ≤ 2 ^ 64) :
    (pushWords m top vs).1.load64 (top + BitVec.ofNat 64 (8 * j)) =
      m.load64 (top + BitVec.ofNat 64 (8 * j)) := by
  induction vs generalizing m top j with
  | nil => rfl
  | cons v vs ih =>
    rw [List.length_cons] at h
    have hnext : top + BitVec.ofNat 64 (8 * j) = top - 8 + BitVec.ofNat 64 (8 * (j + 1)) := by
      apply BitVec.eq_of_toNat_eq
      have := top.isLt
      have height : (8 : BitVec 64).toNat = 8 := rfl
      simp only [BitVec.toNat_add, BitVec.toNat_sub, BitVec.toNat_ofNat, height]
      omega
    have hapart : Apart (top - 8) 8 (top - 8 + BitVec.ofNat 64 (8 * (j + 1))) 8 := by
      intro i hi
      have := top.isLt
      have height : (8 : BitVec 64).toNat = 8 := rfl
      simp only [BitVec.toNat_add, BitVec.toNat_sub, BitVec.toNat_ofNat, height]
      omega
    rw [pushWords_cons, hnext, ih (by omega), Memory.load64_store64_of_apart m _ _ hapart]

/-- The words pushed, read from the new top upwards. -/
theorem load64_pushWords {vs : List (BitVec 64)} (h : 8 * vs.length ≤ 2 ^ 64) {k : ℕ}
    (hk : k < vs.reverse.length) :
    (pushWords m top vs).1.load64 ((pushWords m top vs).2 + BitVec.ofNat 64 (8 * k)) =
      vs.reverse[k] := by
  induction vs generalizing m top with
  | nil => simp at hk
  | cons v vs ih =>
    rw [List.length_cons] at h
    simp only [List.reverse_cons, List.length_append, List.length_reverse,
      List.length_singleton] at hk
    simp only [pushWords_cons, List.reverse_cons]
    by_cases hlast : k = vs.length
    · -- the first word pushed is the uppermost one
      subst hlast
      have haddr : top - 8 - BitVec.ofNat 64 (8 * vs.length) + BitVec.ofNat 64 (8 * vs.length) =
          top - 8 + BitVec.ofNat 64 (8 * 0) := by
        rw [BitVec.sub_add_cancel]
        simp
      rw [top_pushWords, haddr, load64_pushWords_above (by omega), Nat.mul_zero,
        List.getElem_append_right (by simp)]
      simp
    · have hk' : k < vs.reverse.length := by
        rw [List.length_reverse]
        omega
      rw [ih (by omega) hk', List.getElem_append_left hk']

end Olive.Library
