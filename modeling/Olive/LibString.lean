import Olive.Library.ByteMemory
import Olive.Library.Lexicographic
import Olive.Machine

/-!
# Memory functions (`string.c`)

`memset` writes its bytes one by one, upwards. The other modules use it through
`memset_eq_fill`. `memcpy` copies upwards, and `memmove` in the direction in which no byte
is overwritten before it was read, so it is right for every overlap. `memcmp` is the
lexicographic comparison of unsigned bytes.
-/

namespace Olive

open Library

/-- `memset(s, c, n)`: the byte written is the low one of the `int` argument. -/
def memset (m : Memory 64) (s : Word) (c : BitVec 32) : ℕ → Memory 64
  | 0 => m
  | n + 1 => memset (m.store s 1 (c.setWidth 8).toNat) (s + 1) c n

theorem memset_eq_fill (m : Memory 64) (s : Word) (c : BitVec 32) {n : ℕ} (hn : n ≤ 2 ^ 64) :
    memset m s c n = m.fill s n (c.setWidth 8) := by
  induction n generalizing m s with
  | zero =>
    funext b
    simp [memset, Memory.fill]
  | succ n ih =>
    funext b
    rw [memset, ih _ _ (by omega)]
    have hb := (b - s).isLt
    have hoff : (b - (s + 1)).toNat = ((b - s).toNat + (2 ^ 64 - 1)) % 2 ^ 64 := by
      rw [show b - (s + 1) = b - s - 1 by rw [BitVec.sub_sub], BitVec.toNat_sub,
        show (1 : Word).toNat = 1 from rfl, Nat.add_comm]
    simp only [Memory.fill, Memory.store, hoff]
    by_cases h0 : (b - s).toNat = 0
    · rw [if_neg (by omega), if_pos (by omega), if_pos (by omega), h0, pow_zero, Nat.div_one,
        BitVec.ofNat_toNat, BitVec.setWidth_eq]
    · by_cases hin : (b - s).toNat < n + 1
      · rw [if_pos (by omega), if_pos hin]
      · rw [if_neg (by omega), if_neg (by omega), if_neg hin]

/-! ## `memcpy` and `memmove` -/

def copyUp (d s n i : Word) (m : Memory 64) : Memory 64 :=
  if i < n then copyUp d s n (i + 1) (Function.update m (d + i) (m (s + i))) else m
termination_by n.toNat - i.toNat
decreasing_by
  rename_i hlt
  rw [BitVec.lt_def] at hlt
  rw [BitVec.toNat_add, show (1 : Word).toNat = 1 from rfl]
  omega

def copyDown (d s i : Word) (m : Memory 64) : Memory 64 :=
  if 0 < i then copyDown d s (i - 1) (Function.update m (d + (i - 1)) (m (s + (i - 1)))) else m
termination_by i.toNat
decreasing_by
  rename_i hpos
  rw [BitVec.lt_def, show (0 : Word).toNat = 0 from rfl] at hpos
  rw [BitVec.toNat_sub, show (1 : Word).toNat = 1 from rfl]
  omega

def memcpy (m : Memory 64) (d s n : Word) : Word × Memory 64 := (d, copyUp d s n 0 m)

def memmove (m : Memory 64) (d s n : Word) : Word × Memory 64 :=
  if d < s then (d, copyUp d s n 0 m) else (d, copyDown d s n m)

section Copy

variable {m : Memory 64} {d s n : Word}

/-- Copying upwards is right if no byte is read behind the ones already written. -/
theorem copyUp_move (hsrc : ∀ k < n.toNat, k ≤ (s + BitVec.ofNat 64 k - d).toNat) {i : Word}
    (hi : i.toNat ≤ n.toNat) :
    copyUp d s n i (m.move d s (· < i.toNat)) = m.move d s (· < n.toNat) := by
  induction hk : n.toNat - i.toNat generalizing i with
  | zero =>
    have hdone : ¬ i < n := by
      rw [BitVec.lt_def]
      omega
    rw [copyUp, if_neg hdone]
    exact Memory.move_congr fun j => by omega
  | succ k ih =>
    have hn := n.isLt
    have hmore : i < n := by
      rw [BitVec.lt_def]
      omega
    have hnext : (i + 1).toNat = i.toNat + 1 := by
      rw [BitVec.toNat_add, show (1 : Word).toNat = 1 from rfl]
      omega
    have hupdate := Memory.move_update (m := m) (P := (· < i.toNat)) i.isLt
      (Nat.not_lt.mpr (hsrc i.toNat (by omega)))
    rw [BitVec.ofNat_toNat, BitVec.setWidth_eq] at hupdate
    rw [copyUp, if_pos hmore, hupdate, ← ih (i := i + 1) (by omega) (by omega)]
    exact congrArg _ (Memory.move_congr fun j => by omega)

theorem copyUp_eq_move (hsrc : ∀ k < n.toNat, k ≤ (s + BitVec.ofNat 64 k - d).toNat) :
    copyUp d s n 0 m = m.move d s (· < n.toNat) := by
  have hnone : m.move d s (· < (0 : Word).toNat) = m := Memory.move_empty fun j => Nat.not_lt_zero j
  rw [← copyUp_move hsrc (i := 0) (Nat.zero_le _), hnone]

/-- Copying downwards is right if no byte is read among the ones already written. -/
theorem copyDown_move (hsrc : ∀ k < n.toNat, (s + BitVec.ofNat 64 k - d).toNat ≤ k ∨
      n.toNat ≤ (s + BitVec.ofNat 64 k - d).toNat) {i : Word} (hi : i.toNat ≤ n.toNat) :
    copyDown d s i (m.move d s fun j => i.toNat ≤ j ∧ j < n.toNat) = m.move d s (· < n.toNat) := by
  induction hk : i.toNat generalizing i with
  | zero =>
    have hdone : ¬ 0 < i := by
      rw [BitVec.lt_def, hk]
      exact Nat.lt_irrefl 0
    rw [copyDown, if_neg hdone]
    exact Memory.move_congr fun j => by omega
  | succ k ih =>
    have hmore : 0 < i := by
      rw [BitVec.lt_def, hk]
      exact Nat.succ_pos k
    have hnext : (i - 1).toNat = k := by
      rw [BitVec.toNat_sub, show (1 : Word).toNat = 1 from rfl]
      have := i.isLt
      omega
    have hupdate := Memory.move_update (m := m) (d := d) (s := s) (k := (i - 1).toNat)
      (P := fun j => k + 1 ≤ j ∧ j < n.toNat) (i - 1).isLt (by
        have := hsrc k (by omega)
        rw [hnext]
        omega)
    rw [BitVec.ofNat_toNat, BitVec.setWidth_eq] at hupdate
    rw [copyDown, if_pos hmore, hupdate, ← ih (i := i - 1) (by omega) hnext]
    exact congrArg _ (Memory.move_congr fun j => by omega)

theorem copyDown_eq_move (hsrc : ∀ k < n.toNat, (s + BitVec.ofNat 64 k - d).toNat ≤ k ∨
      n.toNat ≤ (s + BitVec.ofNat 64 k - d).toNat) :
    copyDown d s n m = m.move d s (· < n.toNat) := by
  have hnone : m.move d s (fun j => n.toNat ≤ j ∧ j < n.toNat) = m :=
    Memory.move_empty fun j => by omega
  rw [← copyDown_move hsrc le_rfl, hnone]

variable (hd : d.toNat + n.toNat ≤ 2 ^ 64) (hs : s.toNat + n.toNat ≤ 2 ^ 64)
include hs

theorem toNat_source_sub {k : ℕ} (hk : k < n.toNat) :
    (s + BitVec.ofNat 64 k - d).toNat = if d.toNat ≤ s.toNat + k then s.toNat + k - d.toNat
      else 2 ^ 64 - (d.toNat - (s.toNat + k)) := by
  have hadd : (s + BitVec.ofNat 64 k).toNat = s.toNat + k := by
    rw [BitVec.toNat_add, BitVec.toNat_ofNat]
    omega
  rw [BitVec.toNat_sub, hadd]
  split_ifs with h
  · omega
  · omega

include hd

theorem memmove_eq_move : (memmove m d s n).2 = m.move d s (· < n.toNat) := by
  unfold memmove
  split
  · rename_i hlt
    rw [BitVec.lt_def] at hlt
    refine copyUp_eq_move fun k hk => ?_
    rw [toNat_source_sub hs hk, if_pos (by omega)]
    omega
  · rename_i hge
    rw [BitVec.lt_def] at hge
    refine copyDown_eq_move fun k hk => ?_
    rw [toNat_source_sub hs hk]
    split_ifs with hinside
    · exact .inl (by omega)
    · exact .inr (by omega)

omit hd in
theorem memcpy_eq_move (h : d ≤ s ∨ Apart d n.toNat s n.toNat) :
    (memcpy m d s n).2 = m.move d s (· < n.toNat) := by
  refine copyUp_eq_move fun k hk => ?_
  rcases h with hle | hapart
  · rw [BitVec.le_def] at hle
    rw [toNat_source_sub hs hk, if_pos (by omega)]
    omega
  · exact hk.le.trans (hapart k hk)

/-- `memmove` leaves at the destination the bytes that were at the source, whatever the
overlap, and nothing else changes. `memcpy` does the same if the destination does not
start behind the source or the ranges do not meet. -/
theorem memmove_moves :
    (∀ i < n.toNat, (memmove m d s n).2 (d + BitVec.ofNat 64 i) = m (s + BitVec.ofNat 64 i)) ∧
      (∀ b, (∀ i < n.toNat, b ≠ d + BitVec.ofNat 64 i) → (memmove m d s n).2 b = m b) ∧
      (d ≤ s ∨ Apart d n.toNat s n.toNat → memcpy m d s n = memmove m d s n) := by
  have hmove := memmove_eq_move (m := m) hd hs
  have hn := n.isLt
  refine ⟨fun i hi => ?_, fun b hb => ?_, fun h => Prod.ext ?_ ?_⟩
  · rw [hmove]
    exact Memory.move_apply_of_mem (by omega) hi
  · rw [hmove]
    exact Memory.move_apply_of_notMem hb
  · unfold memmove
    split
    · rfl
    · rfl
  · rw [hmove]
    exact memcpy_eq_move hs h

end Copy

theorem memmove_moves_overlap :
    (memmove (fun a => a.setWidth 8) 0x12 0x10 4).2 (0x12 + BitVec.ofNat 64 2) = 0x12 :=
  (memmove_moves (by decide) (by decide)).1 2 (by decide)

/-! ## `memcmp` -/

def memcmp (m : Memory 64) (s1 s2 n : Word) : ℤ :=
  if n ≠ 0 then
    if m s1 ≠ m s2 then if m s1 < m s2 then -1 else 1
    else memcmp m (s1 + 1) (s2 + 1) (n - 1)
  else 0
termination_by n.toNat
decreasing_by
  rename_i hn _
  have hpos : 0 < n.toNat := Nat.pos_of_ne_zero fun h => hn (BitVec.eq_of_toNat_eq h)
  rw [BitVec.toNat_sub, show (1 : Word).toNat = 1 from rfl]
  omega

section Compare

variable (m : Memory 64)

theorem bytes_of_ne_zero {n : Word} (hn : n ≠ 0) (a : Word) :
    m.bytes a n.toNat = (m a).toNat :: m.bytes (a + 1) (n - 1).toNat := by
  have hpos : 0 < n.toNat := Nat.pos_of_ne_zero fun h => hn (BitVec.eq_of_toNat_eq h)
  have hsub : n.toNat = (n - 1).toNat + 1 := by
    rw [BitVec.toNat_sub, show (1 : Word).toNat = 1 from rfl]
    omega
  rw [hsub]
  rfl

theorem memcmp_eq_threeWay (s1 s2 n : Word) :
    memcmp m s1 s2 n = threeWay (m.bytes s1 n.toNat) (m.bytes s2 n.toNat) := by
  fun_induction memcmp m s1 s2 n with
  | case1 s1 s2 n hn hne hlt =>
    have hne' : (m s1).toNat ≠ (m s2).toNat := fun h => hne (BitVec.eq_of_toNat_eq h)
    rw [bytes_of_ne_zero m hn, bytes_of_ne_zero m hn, threeWay_cons, if_neg hne']
    exact (threeWay_of_lt (BitVec.lt_def.mp hlt)).symm
  | case2 s1 s2 n hn hne hge =>
    have hne' : (m s1).toNat ≠ (m s2).toNat := fun h => hne (BitVec.eq_of_toNat_eq h)
    rw [bytes_of_ne_zero m hn, bytes_of_ne_zero m hn, threeWay_cons, if_neg hne']
    rw [BitVec.lt_def] at hge
    exact (threeWay_of_gt (by omega)).symm
  | case3 s1 s2 n hn heq ih =>
    have heq' : (m s1).toNat = (m s2).toNat := congrArg BitVec.toNat (not_not.mp heq)
    rw [bytes_of_ne_zero m hn, bytes_of_ne_zero m hn, threeWay_cons, if_pos heq', ih]
  | case4 s1 s2 n hn =>
    obtain rfl := not_not.mp hn
    exact (threeWay_self _).symm

/-- `memcmp` is the lexicographic order of the unsigned bytes, as a three-way comparison. -/
theorem memcmp_lexicographic (a b c n : Word) :
    (memcmp m a b n = 0 ↔ m.bytes a n.toNat = m.bytes b n.toNat) ∧
    (memcmp m a b n < 0 ↔ m.bytes a n.toNat < m.bytes b n.toNat) ∧
    (∀ i < n.toNat, (∀ j < i, m (a + BitVec.ofNat 64 j) = m (b + BitVec.ofNat 64 j)) →
      m (a + BitVec.ofNat 64 i) ≠ m (b + BitVec.ofNat 64 i) →
      memcmp m a b n =
        if (m (a + BitVec.ofNat 64 i)).toNat < (m (b + BitVec.ofNat 64 i)).toNat then -1 else 1) ∧
    memcmp m b a n = -memcmp m a b n ∧
    (memcmp m a b n ≤ 0 → memcmp m b c n ≤ 0 → memcmp m a c n ≤ 0) ∧
    ∀ k l : Word, n.toNat = k.toNat + l.toNat →
      memcmp m a b n =
        if memcmp m a b k ≠ 0 then memcmp m a b k else memcmp m (a + k) (b + k) l := by
  simp only [memcmp_eq_threeWay]
  refine ⟨threeWay_eq_zero_iff, threeWay_neg_iff, ?_, threeWay_swap _ _, threeWay_trans, ?_⟩
  · intro i hi hbefore hne
    have ha := m.getElem?_bytes a hi
    have hb := m.getElem?_bytes b hi
    obtain ⟨hia, hxa⟩ := List.getElem?_eq_some_iff.mp ha
    obtain ⟨hib, hxb⟩ := List.getElem?_eq_some_iff.mp hb
    have hne' : (m (a + BitVec.ofNat 64 i)).toNat ≠ (m (b + BitVec.ofNat 64 i)).toNat :=
      fun h => hne (BitVec.eq_of_toNat_eq h)
    have hdecide := threeWay_of_first_difference hia hib
      (fun j hj => by
        rw [m.getElem?_bytes a (by omega), m.getElem?_bytes b (by omega), hbefore j hj])
      (by rwa [hxa, hxb])
    rw [hdecide, hxa, hxb, threeWay, if_neg hne']
  · intro k l hsplit
    have hk : ∀ x : Word, x + BitVec.ofNat 64 k.toNat = x + k := fun x => by
      rw [BitVec.ofNat_toNat, BitVec.setWidth_eq]
    rw [hsplit, m.bytes_add, m.bytes_add, hk, hk]
    exact threeWay_append _ _ (by rw [Memory.length_bytes, Memory.length_bytes])

end Compare

end Olive
