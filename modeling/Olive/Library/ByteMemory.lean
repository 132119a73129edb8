import Mathlib.Tactic

/-!
# Byte-addressed memory

Memory maps every address of a `w`-bit space to a byte. Numbers are read and
written little-endian, any number of bytes wide; addresses wrap as the machine's
do. The lemmas are the read-over-write rules (same place, separate places), the
frame rule for byte ranges, and the rules for ranges that are listed or moved.
-/

namespace Olive.Library

variable {w : ℕ}

/-- The content of a byte-addressed memory with `w`-bit addresses. -/
abbrev Memory (w : ℕ) := BitVec w → BitVec 8

/-- The byte range of length `n` at `a` and the one of length `k` at `b` do not meet. -/
def Apart (a : BitVec w) (n : ℕ) (b : BitVec w) (k : ℕ) : Prop :=
  ∀ j < k, n ≤ (b + BitVec.ofNat w j - a).toNat

namespace Memory

variable (m : Memory w) (a b : BitVec w)

/-- The little-endian number held by the `n` bytes at `a`. -/
def load (a : BitVec w) : ℕ → ℕ
  | 0 => 0
  | n + 1 => (m a).toNat + 256 * load (a + 1#w) n

/-- Write the `n` low bytes of `v`, lowest first, at `a`. -/
def store (n v : ℕ) : Memory w := fun b =>
  if (b - a).toNat < n then BitVec.ofNat 8 (v / 256 ^ (b - a).toNat) else m b

def fill (n : ℕ) (c : BitVec 8) : Memory w := fun b =>
  if (b - a).toNat < n then c else m b

@[irreducible] def load32 : BitVec 32 := BitVec.ofNat 32 (m.load a 4)
@[irreducible] def load64 : BitVec 64 := BitVec.ofNat 64 (m.load a 8)
@[irreducible] def store32 (v : BitVec 32) : Memory w := m.store a 4 v.toNat
@[irreducible] def store64 (v : BitVec 64) : Memory w := m.store a 8 v.toNat

theorem offset_add (j : ℕ) (hj : j < 2 ^ w) : (a + BitVec.ofNat w j - a).toNat = j := by
  rw [BitVec.add_comm, BitVec.add_sub_cancel, BitVec.toNat_ofNat, Nat.mod_eq_of_lt hj]

theorem load_congr {m m' : Memory w} {a : BitVec w} {n : ℕ}
    (h : ∀ j < n, m (a + BitVec.ofNat w j) = m' (a + BitVec.ofNat w j)) :
    m.load a n = m'.load a n := by
  induction n generalizing a with
  | zero => rfl
  | succ n ih =>
    have h0 : m a = m' a := by simpa using h 0 (Nat.succ_pos n)
    rw [load, load, h0, ih]
    intro j hj
    have hstep : a + 1#w + BitVec.ofNat w j = a + BitVec.ofNat w (j + 1) := by
      rw [BitVec.ofNat_add, BitVec.add_assoc, BitVec.add_comm (1#w)]
    rw [hstep]
    exact h (j + 1) (by omega)

theorem load_lt (n : ℕ) : m.load a n < 256 ^ n := by
  induction n generalizing a with
  | zero => simp [load]
  | succ n ih =>
    have hbyte := (m a).isLt
    have htail := ih (a + 1#w)
    rw [load, pow_succ]
    omega

/-- Bytes that spell out `v` are read back as `v`. -/
theorem load_eq_mod {m : Memory w} {a : BitVec w} {n v : ℕ}
    (h : ∀ j < n, m (a + BitVec.ofNat w j) = BitVec.ofNat 8 (v / 256 ^ j)) :
    m.load a n = v % 256 ^ n := by
  induction n generalizing a v with
  | zero => simp [load, Nat.mod_one]
  | succ n ih =>
    have h0 : (m a).toNat = v % 256 := by
      have := h 0 (Nat.succ_pos n)
      simp only [BitVec.add_zero, pow_zero, Nat.div_one] at this
      rw [this, BitVec.toNat_ofNat]
    have htail : m.load (a + 1#w) n = v / 256 % 256 ^ n := by
      apply ih
      intro j hj
      rw [show a + 1#w + BitVec.ofNat w j = a + BitVec.ofNat w (j + 1) by
        rw [BitVec.ofNat_add, BitVec.add_assoc, BitVec.add_comm (1#w)], h (j + 1) (by omega),
        Nat.div_div_eq_div_mul, pow_succ']
    rw [load, h0, htail, pow_succ', Nat.mod_mul]

theorem load_store (n v : ℕ) (hn : n ≤ 2 ^ w) : (m.store a n v).load a n = v % 256 ^ n := by
  apply load_eq_mod
  intro j hj
  have hoff := offset_add a j (by omega)
  simp only [store, hoff, if_pos hj]

theorem store_apply_of_apart {n v k : ℕ} (h : Apart a n b k) {j : ℕ} (hj : j < k) :
    m.store a n v (b + BitVec.ofNat w j) = m (b + BitVec.ofNat w j) :=
  if_neg (Nat.not_lt.mpr (h j hj))

theorem load_store_of_apart {n v k : ℕ} (h : Apart a n b k) :
    (m.store a n v).load b k = m.load b k :=
  load_congr fun _ hj => store_apply_of_apart m a b h hj

theorem load_fill_of_apart {n k : ℕ} (c : BitVec 8) (h : Apart a n b k) :
    (m.fill a n c).load b k = m.load b k :=
  load_congr fun j hj => if_neg (Nat.not_lt.mpr (h j hj))

theorem load_fill_zero {n k : ℕ} (h : ∀ j < k, (b + BitVec.ofNat w j - a).toNat < n) :
    (m.fill a n 0).load b k = 0 := by
  have hload : (m.fill a n 0).load b k = 0 % 256 ^ k := by
    apply load_eq_mod
    intro j hj
    rw [fill, if_pos (h j hj), Nat.zero_div]
    rfl
  simpa using hload

theorem store_load_self (n : ℕ) : m.store a n (m.load a n) = m := by
  have hbyte : ∀ (n : ℕ) (a : BitVec w), ∀ j < n,
      BitVec.ofNat 8 (m.load a n / 256 ^ j) = m (a + BitVec.ofNat w j) := by
    intro n
    induction n with
    | zero => intro a j hj; omega
    | succ n ih =>
      intro a j hj
      have hlt := (m a).isLt
      cases j with
      | zero =>
        apply BitVec.eq_of_toNat_eq
        rw [BitVec.toNat_ofNat, load, pow_zero, Nat.div_one]
        simp only [BitVec.add_zero]
        omega
      | succ j =>
        rw [load, pow_succ', ← Nat.div_div_eq_div_mul,
          show ((m a).toNat + 256 * m.load (a + 1#w) n) / 256 = m.load (a + 1#w) n by omega,
          ih (a + 1#w) j (by omega), BitVec.ofNat_add, BitVec.add_assoc, BitVec.add_comm (1#w)]
  funext b
  unfold store
  split_ifs with h
  · rw [hbyte n a _ h, BitVec.ofNat_toNat, BitVec.setWidth_eq, BitVec.add_comm, BitVec.sub_add_cancel]
  · rfl

@[simp] theorem load64_store64 (v : BitVec 64) (hw : 8 ≤ 2 ^ w) :
    (m.store64 a v).load64 a = v := by
  apply BitVec.eq_of_toNat_eq
  rw [load64, store64, load_store m a 8 v.toNat hw, BitVec.toNat_ofNat]
  have := v.isLt
  omega

theorem load64_store64_of_apart {v : BitVec 64} (h : Apart a 8 b 8) :
    (m.store64 a v).load64 b = m.load64 b := by
  rw [load64, load64, store64, load_store_of_apart m a b h]

theorem load64_fill_of_apart {n : ℕ} (c : BitVec 8) (h : Apart a n b 8) :
    (m.fill a n c).load64 b = m.load64 b := by
  rw [load64, load64, load_fill_of_apart m a b c h]

theorem load64_fill_zero {n : ℕ} (h : ∀ j < 8, (b + BitVec.ofNat w j - a).toNat < n) :
    (m.fill a n 0).load64 b = 0 := by
  rw [load64, load_fill_zero m a b h]
  rfl

theorem load64_zero : load64 (fun _ => 0 : Memory w) a = 0 := by
  have hload : load (fun _ => 0 : Memory w) a 8 = 0 % 256 ^ 8 := by
    apply load_eq_mod
    intro j _
    rw [Nat.zero_div]
    rfl
  rw [load64, hload]
  rfl

theorem store64_load64_self : m.store64 a (m.load64 a) = m := by
  have hlt : m.load a 8 < 2 ^ 64 := m.load_lt a 8
  rw [store64, load64, BitVec.toNat_ofNat, Nat.mod_eq_of_lt hlt, store_load_self m a 8]

/-! ## Memories that agree on a set of addresses -/

theorem toNat_add_ofNat {a : BitVec w} {j : ℕ} (h : a.toNat + j < 2 ^ w) :
    (a + BitVec.ofNat w j).toNat = a.toNat + j := by
  rw [BitVec.toNat_add, BitVec.toNat_ofNat, Nat.add_mod_mod, Nat.mod_eq_of_lt h]

theorem apart_of_toNat {a b : BitVec w} {n k : ℕ} (ha : a.toNat + n ≤ 2 ^ w) (hb : b.toNat + k ≤ 2 ^ w)
    (h : a.toNat + n ≤ b.toNat ∨ b.toNat + k ≤ a.toNat) : Apart a n b k := by
  intro j hj
  have hbj : (b + BitVec.ofNat w j).toNat = b.toNat + j := toNat_add_ofNat (by omega)
  rw [BitVec.toNat_sub, hbj]
  have ha' := a.isLt
  rcases h with h | h
  · rw [show 2 ^ w - a.toNat + (b.toNat + j) = b.toNat + j - a.toNat + 2 ^ w by omega,
      Nat.add_mod_right, Nat.mod_eq_of_lt (by omega)]
    omega
  · rw [Nat.mod_eq_of_lt (by omega)]
    omega

theorem apart_add {a i j : BitVec w} {n k : ℕ} (h : Apart i n j k) : Apart (a + i) n (a + j) k := by
  intro t ht
  have hoff : a + j + BitVec.ofNat w t - (a + i) = j + BitVec.ofNat w t - i := by
    rw [← BitVec.sub_sub, BitVec.add_assoc, BitVec.add_comm a, BitVec.add_sub_cancel]
  rw [hoff]
  exact h t ht

/-- The memory `m'` holds the bytes of `m` at the addresses in `S`. -/
def SameOn (S : Set ℕ) (m m' : Memory w) : Prop := ∀ x : BitVec w, x.toNat ∈ S → m' x = m x

section SameOn

variable {m m' m'' : Memory w} {S T : Set ℕ} {a : BitVec w} {n : ℕ}

theorem SameOn.refl (S : Set ℕ) (m : Memory w) : SameOn S m m := fun _ _ => rfl

theorem SameOn.trans (h : SameOn S m m') (h' : SameOn S m' m'') : SameOn S m m'' :=
  fun x hx => (h' x hx).trans (h x hx)

theorem SameOn.mono (h : SameOn S m m') (hsub : T ⊆ S) : SameOn T m m' := fun x hx => h x (hsub hx)

/-- An address outside a range is the length of the range or more away from its start. -/
theorem le_sub_of_notMem {x : BitVec w} (h : a.toNat + n ≤ 2 ^ w)
    (hx : x.toNat ∉ Set.Ico a.toNat (a.toNat + n)) : n ≤ (x - a).toNat := by
  have hx' := x.isLt
  have ha := a.isLt
  rw [Set.mem_Ico, not_and, not_lt] at hx
  rw [BitVec.toNat_sub]
  rcases Nat.lt_or_ge x.toNat a.toNat with hlt | hge
  · rw [Nat.mod_eq_of_lt (by omega)]
    omega
  · have := hx hge
    rw [show 2 ^ w - a.toNat + x.toNat = x.toNat - a.toNat + 2 ^ w by omega, Nat.add_mod_right,
      Nat.mod_eq_of_lt (by omega)]
    omega

theorem sameOn_store (h : a.toNat + n ≤ 2 ^ w) (m : Memory w) (v : ℕ) :
    SameOn (Set.Ico a.toNat (a.toNat + n))ᶜ m (m.store a n v) :=
  fun _ hx => if_neg (Nat.not_lt.mpr (le_sub_of_notMem h hx))

theorem sameOn_fill (h : a.toNat + n ≤ 2 ^ w) (m : Memory w) (c : BitVec 8) :
    SameOn (Set.Ico a.toNat (a.toNat + n))ᶜ m (m.fill a n c) :=
  fun _ hx => if_neg (Nat.not_lt.mpr (le_sub_of_notMem h hx))

theorem SameOn.load (h : SameOn S m m') (hw : a.toNat + n ≤ 2 ^ w)
    (hsub : Set.Ico a.toNat (a.toNat + n) ⊆ S) : m'.load a n = m.load a n := by
  apply load_congr
  intro j hj
  apply h
  apply hsub
  rw [toNat_add_ofNat (by omega), Set.mem_Ico]
  omega

theorem SameOn.load32 (h : SameOn S m m') (hw : a.toNat + 4 ≤ 2 ^ w)
    (hsub : Set.Ico a.toNat (a.toNat + 4) ⊆ S) : m'.load32 a = m.load32 a := by
  unfold Memory.load32
  rw [h.load hw hsub]

theorem SameOn.load64 (h : SameOn S m m') (hw : a.toNat + 8 ≤ 2 ^ w)
    (hsub : Set.Ico a.toNat (a.toNat + 8) ⊆ S) : m'.load64 a = m.load64 a := by
  unfold Memory.load64
  rw [h.load hw hsub]

end SameOn

@[simp] theorem load32_store32 (v : BitVec 32) (hw : 4 ≤ 2 ^ w) :
    (m.store32 a v).load32 a = v := by
  apply BitVec.eq_of_toNat_eq
  rw [load32, store32, load_store m a 4 v.toNat hw, BitVec.toNat_ofNat]
  have := v.isLt
  omega

theorem load32_store32_of_apart {v : BitVec 32} (h : Apart a 4 b 4) :
    (m.store32 a v).load32 b = m.load32 b := by
  rw [load32, load32, store32, load_store_of_apart m a b h]

theorem load32_store64_of_apart {v : BitVec 64} (h : Apart a 8 b 4) :
    (m.store64 a v).load32 b = m.load32 b := by
  rw [load32, load32, store64, load_store_of_apart m a b h]

theorem load64_store32_of_apart {v : BitVec 32} (h : Apart a 4 b 8) :
    (m.store32 a v).load64 b = m.load64 b := by
  rw [load64, load64, store32, load_store_of_apart m a b h]

/-! ## Copies -/

/-- The memory `m'` is `m` with the `n` bytes at `s` copied to `d`. -/
structure Copies (d s : BitVec w) (n : ℕ) (m m' : Memory w) : Prop where
  outside : SameOn (Set.Ico d.toNat (d.toNat + n))ᶜ m m'
  copied : ∀ i < n, m' (d + BitVec.ofNat w i) = m (s + BitVec.ofNat w i)

section Copies

variable {d s : BitVec w} {m₁ m₂ m₃ : Memory w} {n k : ℕ}

theorem ofNat_load_div {j : ℕ} (hj : j < n) (hn : n ≤ 2 ^ w) :
    BitVec.ofNat 8 (m.load a n / 256 ^ j) = m (a + BitVec.ofNat w j) := by
  have hself := congrFun (store_load_self m a n) (a + BitVec.ofNat w j)
  unfold store at hself
  rwa [offset_add a j (by omega), if_pos hj] at hself

theorem copies_store (hd : d.toNat + n ≤ 2 ^ w) : Copies d s n m (m.store d n (m.load s n)) := by
  refine ⟨sameOn_store hd m _, fun i hi => ?_⟩
  unfold store
  rw [offset_add d i (by omega), if_pos hi]
  exact ofNat_load_div m s hi (by omega)

theorem copies_store32 (hd : d.toNat + 4 ≤ 2 ^ w) :
    Copies d s 4 m (m.store32 d (m.load32 s)) := by
  have hlt : m.load s 4 < 2 ^ 32 := m.load_lt s 4
  rw [store32, load32, BitVec.toNat_ofNat, Nat.mod_eq_of_lt hlt]
  exact copies_store m hd

theorem copies_zero : Copies d s 0 m m := ⟨.refl _ _, fun i hi => absurd hi (Nat.not_lt_zero i)⟩

theorem Copies.append (h : Copies d s n m₁ m₂)
    (h' : Copies (d + BitVec.ofNat w n) (s + BitVec.ofNat w n) k m₂ m₃)
    (hd : d.toNat + (n + k) < 2 ^ w) (hs : s.toNat + (n + k) < 2 ^ w)
    (hapart : d.toNat + (n + k) ≤ s.toNat ∨ s.toNat + (n + k) ≤ d.toNat) :
    Copies d s (n + k) m₁ m₃ := by
  have hdn : (d + BitVec.ofNat w n).toNat = d.toNat + n := toNat_add_ofNat (by omega)
  have houtside := h'.outside
  rw [hdn] at houtside
  constructor
  · apply (h.outside.mono _).trans (houtside.mono _)
    · exact Set.compl_subset_compl.mpr (Set.Ico_subset_Ico le_rfl (by omega))
    · exact Set.compl_subset_compl.mpr (Set.Ico_subset_Ico (by omega) (by omega))
  · intro i hi
    by_cases hin : i < n
    · have hi' : (d + BitVec.ofNat w i).toNat = d.toNat + i := toNat_add_ofNat (by omega)
      rw [houtside _ (by rw [hi', Set.mem_compl_iff, Set.mem_Ico]; omega), h.copied i hin]
    · obtain ⟨j, rfl⟩ : ∃ j, i = n + j := ⟨i - n, by omega⟩
      have hs' : (s + BitVec.ofNat w (n + j)).toNat = s.toNat + (n + j) := toNat_add_ofNat (by omega)
      have hcopied := h'.copied j (by omega)
      rw [BitVec.add_assoc, BitVec.add_assoc, ← BitVec.ofNat_add] at hcopied
      rw [hcopied]
      apply h.outside
      rw [hs', Set.mem_compl_iff, Set.mem_Ico]
      omega

end Copies

/-! ## Ranges of bytes -/

def bytes (a : BitVec w) : ℕ → List ℕ
  | 0 => []
  | n + 1 => (m a).toNat :: bytes (a + 1#w) n

@[simp] theorem length_bytes (n : ℕ) : (m.bytes a n).length = n := by
  induction n generalizing a with
  | zero => rfl
  | succ n ih => rw [bytes, List.length_cons, ih]

theorem getElem?_bytes {n i : ℕ} (hi : i < n) :
    (m.bytes a n)[i]? = some (m (a + BitVec.ofNat w i)).toNat := by
  induction n generalizing a i with
  | zero => omega
  | succ n ih =>
    cases i with
    | zero => simp [bytes]
    | succ i =>
      rw [bytes, List.getElem?_cons_succ, ih (a + 1#w) (by omega), BitVec.ofNat_add,
        BitVec.add_assoc, BitVec.add_comm (1#w)]

theorem bytes_add (k l : ℕ) :
    m.bytes a (k + l) = m.bytes a k ++ m.bytes (a + BitVec.ofNat w k) l := by
  induction k generalizing a with
  | zero => simp [bytes]
  | succ k ih =>
    rw [Nat.add_right_comm, bytes, ih, bytes, List.cons_append, BitVec.ofNat_add, BitVec.add_assoc,
      BitVec.add_comm (1#w)]

/-- The memory in which the bytes at the offsets `P` behind `d` are those behind `s`. -/
def move (d s : BitVec w) (P : ℕ → Prop) [DecidablePred P] : Memory w := fun b =>
  if P (b - d).toNat then m (s + (b - d)) else m b

section Move

variable {m} {d s : BitVec w} {P Q : ℕ → Prop} [DecidablePred P] [DecidablePred Q]

theorem move_congr (h : ∀ j, P j ↔ Q j) : m.move d s P = m.move d s Q := by
  funext b
  unfold move
  exact if_congr (h _) rfl rfl

theorem move_empty (h : ∀ j, ¬ P j) : m.move d s P = m := by
  funext b
  exact if_neg (h _)

/-- One more byte is moved, if the byte it is moved from still is the original one. -/
theorem move_update {k : ℕ} (hk : k < 2 ^ w) (hsrc : ¬ P (s + BitVec.ofNat w k - d).toNat) :
    Function.update (m.move d s P) (d + BitVec.ofNat w k)
        (m.move d s P (s + BitVec.ofNat w k)) =
      m.move d s fun j => j = k ∨ P j := by
  have hread : m.move d s P (s + BitVec.ofNat w k) = m (s + BitVec.ofNat w k) := if_neg hsrc
  funext b
  rw [Function.update_apply, hread]
  by_cases hb : b = d + BitVec.ofNat w k
  · have hoff : b - d = BitVec.ofNat w k := by
      rw [hb, BitVec.add_comm, BitVec.add_sub_cancel]
    have hkk : (BitVec.ofNat w k).toNat = k := by rw [BitVec.toNat_ofNat, Nat.mod_eq_of_lt hk]
    simp only [move, hoff, hkk, true_or, if_true, if_pos hb]
  · have hoff : (b - d).toNat ≠ k := by
      rintro rfl
      apply hb
      rw [BitVec.ofNat_toNat, BitVec.setWidth_eq, BitVec.add_comm, BitVec.sub_add_cancel]
    simp only [move, hoff, false_or, if_neg hb]

theorem move_apply_of_mem {k : ℕ} (hk : k < 2 ^ w) (h : P k) :
    m.move d s P (d + BitVec.ofNat w k) = m (s + BitVec.ofNat w k) := by
  have hoff : d + BitVec.ofNat w k - d = BitVec.ofNat w k := by
    rw [BitVec.add_comm, BitVec.add_sub_cancel]
  have hkk : (BitVec.ofNat w k).toNat = k := by rw [BitVec.toNat_ofNat, Nat.mod_eq_of_lt hk]
  simp only [move, hoff, hkk, if_pos h]

theorem move_apply_of_notMem {b : BitVec w} (h : ∀ k, P k → b ≠ d + BitVec.ofNat w k) :
    m.move d s P b = m b := by
  refine if_neg fun hP => h _ hP ?_
  rw [BitVec.ofNat_toNat, BitVec.setWidth_eq, BitVec.add_comm, BitVec.sub_add_cancel]

end Move

end Memory

end Olive.Library
