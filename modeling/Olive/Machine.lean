import Mathlib.Tactic

/-!
# Machine words, Limine types and the helpers of `olive.h`

Addresses, sizes and counters are 64-bit words throughout, with the wrapping
arithmetic of `uint64_t`. `WARN` and `ERROR` print to the console in every
build; their texts are kept as reports. `DEBUG` and `TRACE` expand to nothing in
a release build and are left out.
-/

namespace Olive

abbrev Word := BitVec 64

def pageSize : Word := 4096

@[simp] theorem toNat_pageSize : pageSize.toNat = 4096 := rfl

def divRoundUp (x y : Word) : Word := (x + (y - 1)) / y

def alignUp (x y : Word) : Word := divRoundUp x y * y

def alignDown (x y : Word) : Word := x / y * y

inductive Level where
  | warn
  | error
  deriving DecidableEq, Repr

/-- One line a module has printed: the format string and the numbers it formats. -/
structure Report where
  level : Level
  text : String
  args : List Word := []
  deriving DecidableEq, Repr

/-- Why a call never returns: a failed `ASSERT` halted the CPU in `hcf`, or a
loop runs forever. -/
inductive Stop where
  | hcf (assertion : String)
  | diverges
  deriving DecidableEq, Repr

/-- `ASSERT(x)`, with the text of `x`. -/
def assert (x : Bool) (text : String) : Except Stop Unit :=
  if x then .ok () else .error (.hcf text)

theorem assert_ok {p : Prop} [Decidable p] (h : p) (text : String) :
    assert (decide p) text = .ok () := if_pos (decide_eq_true h)

theorem of_assert_bind {α : Type} {x : Bool} {text : String} {k : Unit → Except Stop α} {r : α}
    (h : (assert x text >>= k) = .ok r) : x = true ∧ k () = .ok r := by
  cases x
  · cases h
  · exact ⟨rfl, h⟩

inductive MemmapType where
  | usable
  | reserved
  | acpiReclaimable
  | acpiNvs
  | badMemory
  | bootloaderReclaimable
  | kernelAndModules
  | framebuffer
  deriving DecidableEq, Repr

structure MemmapEntry where
  base : Word
  length : Word
  type : MemmapType
  deriving DecidableEq, Repr

namespace MemmapEntry

/-- The byte at physical address `x` lies in the entry. -/
def Covers (e : MemmapEntry) (x : ℕ) : Prop :=
  e.base.toNat ≤ x ∧ x < e.base.toNat + e.length.toNat

instance (e : MemmapEntry) (x : ℕ) : Decidable (e.Covers x) :=
  inferInstanceAs (Decidable (_ ∧ _))

end MemmapEntry

def PageAligned (x : Word) : Prop := x.toNat % 4096 = 0

instance (x : Word) : Decidable (PageAligned x) := inferInstanceAs (Decidable (_ = _))

theorem umod_pageSize_eq_zero_iff (x : Word) : x % pageSize = 0 ↔ PageAligned x := by
  rw [← BitVec.toNat_inj, BitVec.toNat_umod]
  rfl

/-- Rounding up reaches the next page boundary unless it would leave the word range. -/
theorem toNat_alignUp {x : Word} (h : x.toNat + 4095 < 2 ^ 64) :
    (alignUp x pageSize).toNat = (x.toNat + 4095) / 4096 * 4096 := by
  have hadd : (x + (pageSize - 1)).toNat = x.toNat + 4095 := by
    rw [BitVec.toNat_add, show (pageSize - 1).toNat = 4095 from rfl, Nat.mod_eq_of_lt h]
  rw [alignUp, divRoundUp, BitVec.toNat_mul, BitVec.toNat_udiv, hadd, toNat_pageSize]
  omega

theorem toNat_alignDown (x : Word) : (alignDown x pageSize).toNat = x.toNat / 4096 * 4096 := by
  have := x.isLt
  rw [alignDown, BitVec.toNat_mul, BitVec.toNat_udiv, toNat_pageSize]
  omega

theorem pageAligned_alignUp (x : Word) : PageAligned (alignUp x pageSize) := by
  have := (x + (pageSize - 1)).isLt
  rw [PageAligned, alignUp, divRoundUp, BitVec.toNat_mul, BitVec.toNat_udiv, toNat_pageSize]
  omega

theorem pageAligned_alignDown (x : Word) : PageAligned (alignDown x pageSize) := by
  rw [PageAligned, toNat_alignDown]
  omega

/-- A property of the words of a list is decided along the list, not over all words. -/
theorem forall_of_all {p : Word → Prop} [DecidablePred p] {xs : List Word}
    (h : (xs.all fun x => decide (p x)) = true) : ∀ x ∈ xs, p x :=
  fun x hx => of_decide_eq_true (List.all_eq_true.mp h x hx)

end Olive
