import Olive.Library.ByteMemory

/-!
# Allocated objects

What `malloc`, `calloc`, `realloc` and `free` mean to the program that calls them: a set of
objects, each known by the pointer to its start, with the bytes the program can rely on. A byte
that was not written since the object was made is undetermined. The calls of a program and the
answers to them are events; `after` says what an event makes of the objects, `Allows` what the
program may do, and `Answers` what it may expect of the allocator.

The invariant is that the objects lie apart. A memory shows the objects when it holds their
determined bytes.
-/

namespace Olive.Library

variable {w : ℕ}

/-- The objects, by their pointers, and their bytes as far as they are determined. -/
abbrev Objects (w : ℕ) := BitVec w → Option (List (Option (BitVec 8)))

/-- A call with its answer, or an access to a byte of an object. -/
inductive ObjectEvent (w : ℕ) where
  | malloc (n : ℕ) (p : BitVec w)
  | calloc (n : ℕ) (p : BitVec w)
  | realloc (p : BitVec w) (n : ℕ) (q : BitVec w)
  | free (p : BitVec w)
  | write (p : BitVec w) (i : ℕ) (c : BitVec 8)
  | read (p : BitVec w) (i : ℕ) (c : BitVec 8)

namespace Objects

def empty : Objects w := fun _ => none

def drop (o : Objects w) (p : BitVec w) : Objects w := Function.update o p none

/-- A new object at `p`; the null pointer stands for no object. -/
def put (o : Objects w) (p : BitVec w) (bs : List (Option (BitVec 8))) : Objects w :=
  if p = 0 then o else Function.update o p (some bs)

/-- The bytes of an object whose size becomes `n`. -/
def resize (bs : List (Option (BitVec 8))) (n : ℕ) : List (Option (BitVec 8)) :=
  bs.take n ++ List.replicate (n - bs.length) none

/-- What an event makes of the objects. A `realloc` that fails leaves them as they are. -/
def after (o : Objects w) : ObjectEvent w → Objects w
  | .malloc n p => o.put p (List.replicate n none)
  | .calloc n p => o.put p (List.replicate n (some 0))
  | .realloc p n q =>
    if q = 0 ∧ n ≠ 0 then o else (o.drop p).put q (resize ((o p).getD []) n)
  | .free p => o.drop p
  | .write p i c => Function.update o p ((o p).map fun bs => bs.set i (some c))
  | .read _ _ _ => o

def Holds (o : Objects w) (p : BitVec w) (i : ℕ) : Prop := ∃ bs, o p = some bs ∧ i < bs.length

/-- What the program may do: pass a pointer to an object or null, and access bytes of objects. -/
def Allows (o : Objects w) : ObjectEvent w → Prop
  | .malloc _ _ => True
  | .calloc _ _ => True
  | .realloc p _ _ => p = 0 ∨ ∃ bs, o p = some bs
  | .free p => p = 0 ∨ ∃ bs, o p = some bs
  | .write p i _ => o.Holds p i
  | .read p i _ => o.Holds p i

/-- The `n` bytes at `p` lie in the address space and meet no object. -/
structure Free (o : Objects w) (align : ℕ) (p : BitVec w) (n : ℕ) : Prop where
  aligned : p.toNat % align = 0
  bound : p.toNat + n ≤ 2 ^ w
  apart : ∀ q bs, o q = some bs →
    q ≠ p ∧ (q.toNat + bs.length ≤ p.toNat ∨ p.toNat + n ≤ q.toNat)

/-- What the allocator owes: null or a free place, and the bytes that were written. -/
def Answers (align : ℕ) (o : Objects w) : ObjectEvent w → Prop
  | .malloc n p => p = 0 ∨ o.Free align p n
  | .calloc n p => p = 0 ∨ o.Free align p n
  | .realloc p n q => q = 0 ∨ (o.drop p).Free align q n
  | .free _ => True
  | .write _ _ _ => True
  | .read p i c => ∀ bs d, o p = some bs → bs[i]? = some (some d) → c = d

end Objects

/-- The call got what it asked for: a pointer that is not null, but for `realloc` to 0 bytes. -/
def ObjectEvent.Granted : ObjectEvent w → Prop
  | .malloc _ p => p ≠ 0
  | .calloc _ p => p ≠ 0
  | .realloc _ n q => q = 0 ↔ n = 0
  | .free _ => True
  | .write _ _ _ => True
  | .read _ _ _ => True

namespace Objects

/-- The program keeps to what it may do, in the order of the events. -/
def Obeys (o : Objects w) : List (ObjectEvent w) → Prop
  | [] => True
  | e :: es => o.Allows e ∧ (o.after e).Obeys es

/-- The allocator gives what it owes, in the order of the events. -/
def Served (align : ℕ) (o : Objects w) : List (ObjectEvent w) → Prop
  | [] => True
  | e :: es => o.Answers align e ∧ (o.after e).Served align es

def run (o : Objects w) (es : List (ObjectEvent w)) : Objects w := es.foldl after o

variable {o : Objects w} {p q : BitVec w} {bs cs : List (Option (BitVec 8))} {align n i : ℕ}

@[simp] theorem empty_apply (p : BitVec w) : (empty : Objects w) p = none := rfl

@[simp] theorem length_resize (bs : List (Option (BitVec 8))) (n : ℕ) :
    (resize bs n).length = n := by
  rw [resize, List.length_append, List.length_take, List.length_replicate]
  omega

theorem drop_eq_some : o.drop p q = some bs ↔ q ≠ p ∧ o q = some bs := by
  unfold drop
  by_cases h : q = p
  · subst h
    simp
  · simp [h]

theorem put_of_ne_zero (h : p ≠ 0) : o.put p bs = Function.update o p (some bs) := if_neg h

theorem obeys_append {es fs : List (ObjectEvent w)} :
    o.Obeys (es ++ fs) ↔ o.Obeys es ∧ (o.run es).Obeys fs := by
  induction es generalizing o with
  | nil => simp [Obeys, run]
  | cons e es ih =>
    change _ ∧ (o.after e).Obeys (es ++ fs) ↔ (_ ∧ (o.after e).Obeys es) ∧ _
    rw [ih, and_assoc]
    rfl

/-! ## Objects lie apart -/

def Separate (o : Objects w) : Prop := ∀ p q bs cs, o p = some bs → o q = some cs → p ≠ q →
  p.toNat + bs.length ≤ q.toNat ∨ q.toNat + cs.length ≤ p.toNat

theorem separate_empty : (empty : Objects w).Separate := by
  intro p q bs cs hp
  cases hp

theorem Separate.drop (h : o.Separate) (p : BitVec w) : (o.drop p).Separate := by
  intro q r bs cs hq hr hne
  exact h q r bs cs (drop_eq_some.mp hq).2 (drop_eq_some.mp hr).2 hne

variable (align) in
theorem Separate.put (h : o.Separate) (hfree : p = 0 ∨ o.Free align p bs.length) :
    (o.put p bs).Separate := by
  unfold Objects.put
  split_ifs with h0
  · exact h
  · have hfree := hfree.resolve_left h0
    intro q r cs ds hq hr hne
    rw [Function.update_apply] at hq hr
    split_ifs at hq hr with hqp hrp hrp
    · exact absurd (hqp.trans hrp.symm) hne
    · cases hq
      subst hqp
      exact (hfree.apart r ds hr).2.symm
    · cases hr
      subst hrp
      exact (hfree.apart q cs hq).2
    · exact h q r cs ds hq hr hne

theorem Separate.after {e : ObjectEvent w} (h : o.Separate) (he : o.Answers align e) :
    (o.after e).Separate := by
  cases e with
  | malloc n p =>
    apply h.put align
    rw [List.length_replicate]
    exact he
  | calloc n p =>
    apply h.put align
    rw [List.length_replicate]
    exact he
  | realloc p n q =>
    change (if q = 0 ∧ n ≠ 0 then o else _).Separate
    split_ifs
    · exact h
    · apply (h.drop p).put align
      rw [length_resize]
      exact he
  | free p => exact h.drop p
  | write p i c =>
    have hlen : ∀ q bs, o.after (.write p i c) q = some bs →
        ∃ bs', o q = some bs' ∧ bs'.length = bs.length := by
      intro q bs hq
      change Function.update o p _ q = some bs at hq
      rw [Function.update_apply] at hq
      split_ifs at hq with hqp
      · obtain ⟨bs', hbs', rfl⟩ := Option.map_eq_some_iff.mp hq
        exact ⟨bs', hqp ▸ hbs', List.length_set.symm⟩
      · exact ⟨bs, hq, rfl⟩
    intro q r bs cs hq hr hne
    obtain ⟨bs', hq', hbs⟩ := hlen q bs hq
    obtain ⟨cs', hr', hcs⟩ := hlen r cs hr
    rw [← hbs, ← hcs]
    exact h q r bs' cs' hq' hr' hne
  | read p i c => exact h

/-- The objects lie apart after every run in which the allocator gives what it owes. -/
theorem Separate.run {es : List (ObjectEvent w)} (h : o.Separate) (hes : o.Served align es) :
    (o.run es).Separate := by
  induction es generalizing o with
  | nil => exact h
  | cons e es ih => exact ih (h.after hes.1) hes.2

/-! ## Memories that show objects -/

/-- The live blocks are the objects, and the memory holds their determined bytes. -/
structure Shows (o : Objects w) (live : List (BitVec w × ℕ)) (m : Memory w) : Prop where
  blocks : ∀ p n, (p, n) ∈ live ↔ ∃ bs, o p = some bs ∧ bs.length = n
  bytes : ∀ p bs i d, o p = some bs → bs[i]? = some (some d) → m (p + BitVec.ofNat w i) = d

variable {live live' : List (BitVec w × ℕ)} {m m' : Memory w}

theorem shows_empty (m : Memory w) : (empty : Objects w).Shows [] m where
  blocks := by simp
  bytes p bs i d h := by cases h

theorem Shows.perm (h : o.Shows live m) (hperm : live'.Perm live) : o.Shows live' m where
  blocks p n := hperm.mem_iff.trans (h.blocks p n)
  bytes := h.bytes

theorem Shows.congr (h : o.Shows live m)
    (hm : ∀ p n, (p, n) ∈ live → ∀ i < n, m' (p + BitVec.ofNat w i) = m (p + BitVec.ofNat w i)) :
    o.Shows live m' where
  blocks := h.blocks
  bytes p bs i d hp hi := by
    obtain ⟨hlt, -⟩ := List.getElem?_eq_some_iff.mp hi
    rw [hm p bs.length ((h.blocks p _).mpr ⟨bs, hp, rfl⟩) i hlt]
    exact h.bytes p bs i d hp hi

theorem Shows.put (h : o.Shows live m) (h0 : p ≠ 0) (hnew : o p = none)
    (hbytes : ∀ i d, bs[i]? = some (some d) → m (p + BitVec.ofNat w i) = d) :
    (o.put p bs).Shows ((p, bs.length) :: live) m := by
  rw [put_of_ne_zero h0]
  constructor
  · intro q n
    rw [Function.update_apply, List.mem_cons, Prod.mk.injEq, h.blocks]
    split_ifs with hq
    · subst hq
      rw [hnew]
      simp [eq_comm]
    · simp [hq]
  · intro q cs i d hq hi
    rw [Function.update_apply] at hq
    split_ifs at hq with hqp
    · cases hq
      subst hqp
      exact hbytes i d hi
    · exact h.bytes q cs i d hq hi

theorem Shows.drop (h : o.Shows ((p, n) :: live) m) (hnew : ∀ n, (p, n) ∉ live) :
    (o.drop p).Shows live m := by
  constructor
  · intro q k
    constructor
    · intro hq
      obtain ⟨bs, hbs, hlen⟩ := (h.blocks q k).mp (List.mem_cons_of_mem _ hq)
      have hne : q ≠ p := by
        rintro rfl
        exact hnew k hq
      exact ⟨bs, drop_eq_some.mpr ⟨hne, hbs⟩, hlen⟩
    · rintro ⟨bs, hbs, hlen⟩
      obtain ⟨hne, hq⟩ := drop_eq_some.mp hbs
      have hmem := (h.blocks q k).mpr ⟨bs, hq, hlen⟩
      rw [List.mem_cons, Prod.mk.injEq] at hmem
      exact hmem.resolve_left fun hp => hne hp.1
  · intro q bs i d hq hi
    exact h.bytes q bs i d (drop_eq_some.mp hq).2 hi

/-- A write to a byte of one object; `hne` says that no other byte of an object has its address. -/
theorem Shows.write (h : o.Shows live m) {c : BitVec 8} (hi : o.Holds p i)
    (hm : m' (p + BitVec.ofNat w i) = c)
    (hne : ∀ q n j, (q, n) ∈ live → j < n → q ≠ p ∨ j ≠ i →
      m' (q + BitVec.ofNat w j) = m (q + BitVec.ofNat w j)) :
    (o.after (.write p i c)).Shows live m' := by
  obtain ⟨bs, hp, hlt⟩ := hi
  have hafter : o.after (.write p i c) = Function.update o p (some (bs.set i (some c))) := by
    change Function.update o p ((o p).map _) = _
    rw [hp]
    rfl
  rw [hafter]
  constructor
  · intro q n
    rw [h.blocks, Function.update_apply]
    split_ifs with hq
    · subst hq
      rw [hp]
      simp
    · rfl
  · intro q cs j d hq hj
    rw [Function.update_apply] at hq
    split_ifs at hq with hqp
    · cases hq
      subst hqp
      rw [List.getElem?_set] at hj
      split_ifs at hj with hij
      · cases hj
        subst hij
        exact hm
      · obtain ⟨hjlt, -⟩ := List.getElem?_eq_some_iff.mp hj
        rw [hne q bs.length j ((h.blocks q _).mpr ⟨bs, hp, rfl⟩) hjlt (Or.inr (Ne.symm hij))]
        exact h.bytes q bs j d hp hj
    · have hmem := (h.blocks q _).mpr ⟨cs, hq, rfl⟩
      obtain ⟨hjlt, -⟩ := List.getElem?_eq_some_iff.mp hj
      rw [hne q cs.length j hmem hjlt (Or.inl hqp)]
      exact h.bytes q cs j d hq hj

theorem Shows.read (h : o.Shows live m) (align i : ℕ) (p : BitVec w) :
    o.Answers align (.read p i (m (p + BitVec.ofNat w i))) :=
  fun bs d hp hi => h.bytes p bs i d hp hi

end Objects

end Olive.Library
