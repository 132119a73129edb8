import Olive.Printf.Output
import Mathlib.Data.Nat.Digits.Lemmas

/-!
# The digits of a number

`npf_utoa_rev` and `npf_itoa_rev` write the digits of a number, the last one first. The
conversion buffer has room for all of them: 64 bits are at most 22 octal digits.
-/

namespace Olive

/-- The digits of a number, the last one first; 0 has one digit. -/
def revDigits (base i : ℕ) : List ℕ := if i = 0 then [0] else Nat.digits base i

def digitText (caseAdj d : ℕ) : Char :=
  Char.ofNat (if d < 10 then '0'.toNat + d else 'A'.toNat + caseAdj + (d - 10))

section Unsigned

variable {base caseAdj room i : ℕ}

theorem revDigits_eq (hbase : 1 < base) :
    revDigits base i = i % base :: if i / base = 0 then [] else revDigits base (i / base) := by
  unfold revDigits
  by_cases hi : i = 0
  · simp [hi]
  · rw [if_neg hi, Nat.digits_def' hbase (Nat.pos_of_ne_zero hi)]
    by_cases hnext : i / base = 0
    · rw [hnext, if_pos rfl, Nat.digits_zero]
    · rw [if_neg hnext, if_neg hnext]

theorem npfUtoaRev_eq (hbase : 1 < base) (hroom : 0 < room) (hi : i < base ^ room) :
    npfUtoaRev base caseAdj room i = .ok ((revDigits base i).map (digitText caseAdj)) := by
  induction room generalizing i with
  | zero => exact absurd hroom (Nat.lt_irrefl 0)
  | succ room ih =>
    rw [npfUtoaRev, revDigits_eq hbase]
    by_cases hnext : i / base = 0
    · rw [if_pos hnext, if_pos hnext]
      rfl
    · have hlt : i / base < base ^ room := by
        apply Nat.div_lt_of_lt_mul
        rwa [← pow_succ']
      have hroom' : 0 < room := by
        apply Nat.pos_of_ne_zero
        rintro rfl
        exact hnext (Nat.lt_one_iff.mp hlt)
      rw [if_neg hnext, if_neg hnext, ih hroom' hlt]
      rfl

theorem length_revDigits_le (hbase : 1 < base) {k : ℕ} (hk : 0 < k) (hi : i < base ^ k) :
    (revDigits base i).length ≤ k := by
  unfold revDigits
  split_ifs with hzero
  · exact hk
  · exact (Nat.digits_length_le_iff hbase i).mpr hi

/-- In the right order they are the digits of `Nat.toDigits`, in capitals for `%X`. -/
theorem map_revDigits {f : Char → Char} (hbase : 1 < base)
    (hf : ∀ d < base, digitText caseAdj d = f d.digitChar) :
    ((revDigits base i).map (digitText caseAdj)).reverse = (Nat.toDigits base i).map f := by
  induction i using Nat.strong_induction_on with
  | _ i ih =>
    rw [revDigits_eq hbase, Nat.toDigits_eq_if hbase]
    by_cases hlt : i < base
    · rw [if_pos (Nat.div_eq_of_lt hlt), if_pos hlt, Nat.mod_eq_of_lt hlt]
      simp [hf i hlt]
    · have hpos : i / base ≠ 0 := by
        have := Nat.div_pos (Nat.le_of_not_lt hlt) (Nat.lt_trans Nat.zero_lt_one hbase)
        omega
      have hmod : i % base < base := Nat.mod_lt i (Nat.lt_trans Nat.zero_lt_one hbase)
      rw [if_neg hpos, if_neg hlt, List.map_cons, List.reverse_cons,
        ih (i / base) (Nat.div_lt_self (by omega) hbase), List.map_append, hf _ hmod]
      rfl

theorem digitText_lower : ∀ d < 16, digitText ('a'.toNat - 'A'.toNat) d = d.digitChar := by
  decide

theorem digitText_upper : ∀ d < 16, digitText 0 d = d.digitChar.toUpper := by
  decide

theorem digitText_decimal (caseAdj : ℕ) : ∀ d < 10, digitText caseAdj d = d.digitChar := by
  intro d hd
  unfold digitText
  rw [if_pos hd]
  interval_cases d <;> rfl

end Unsigned

section Signed

variable {sign i : ℤ} {room : ℕ}

theorem itoaLoop_eq (caseAdj n : ℕ) (hone : sign = 1 ∨ sign = -1) :
    itoaLoop sign room (sign * n) = npfUtoaRev 10 caseAdj room n := by
  induction room generalizing n with
  | zero => rfl
  | succ room ih =>
    have hdigit : (sign * (sign * n).tmod 10).toNat = n % 10 := by
      rcases hone with rfl | rfl
      · rw [one_mul, one_mul]
        rfl
      · rw [neg_one_mul, neg_one_mul, Int.neg_tmod, neg_neg]
        rfl
    have hnext : (sign * n).tdiv 10 = sign * (n / 10 : ℕ) := by
      rcases hone with rfl | rfl
      · rw [one_mul, one_mul]
        rfl
      · rw [neg_one_mul, neg_one_mul, Int.neg_tdiv]
        rfl
    have hzero : sign * (n / 10 : ℕ) = 0 ↔ n / 10 = 0 := by
      rcases hone with rfl | rfl
      · omega
      · omega
    have hlt : n % 10 < 10 := Nat.mod_lt n (by decide)
    rw [itoaLoop, npfUtoaRev, hdigit, hnext, ih]
    simp only [hzero, if_pos hlt]

theorem npfItoaRev_eq (caseAdj : ℕ) (hroom : 0 < room) (hi : i.natAbs < 10 ^ room) :
    npfItoaRev room i = .ok ((revDigits 10 i.natAbs).map (digitText caseAdj)) := by
  have hsign : i = (if 0 ≤ i then 1 else -1) * (i.natAbs : ℤ) := by
    split_ifs
    · omega
    · omega
  have hone : (if 0 ≤ i then 1 else -1 : ℤ) = 1 ∨ (if 0 ≤ i then 1 else -1 : ℤ) = -1 := by
    split_ifs
    · exact Or.inl rfl
    · exact Or.inr rfl
  have hloop : itoaLoop _ room _ = _ := itoaLoop_eq caseAdj i.natAbs hone
  rw [← hsign] at hloop
  rw [npfItoaRev, hloop, npfUtoaRev_eq (by decide) hroom hi]

end Signed

end Olive
