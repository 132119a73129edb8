import Olive.Library.Forest
import Olive.Vmm.Model

/-!
# Page tables as a function of frames and indices

`tables` reads memory as the table entries it holds: frame `f` and index `i` give
the entry at `f * 4096 + 8 * i` behind the HHDM offset. The functions of `vmm.c`
touch memory through single entries and through clearing whole frames, and these
two operations are point updates of `tables`, whatever the offset is.
-/

namespace Olive

open Library

/-- The number of a 4 KiB frame below 2^52. -/
abbrev Frame := BitVec 40

abbrev Index := BitVec 9

abbrev Page := BitVec 36

abbrev Tables := Frame → Index → Word

def frameAddr (f : Frame) : Word := f.setWidth 64 <<< 12

def frameOf (e : Word) : Frame := e.extractLsb' 12 40

def Present (e : Word) : Prop := e &&& pteBitPresent ≠ 0

instance (e : Word) : Decidable (Present e) := inferInstanceAs (Decidable (_ ≠ _))

/-- The page of a virtual address, taken modulo 2^48. -/
def pageOf (v : Word) : Page := v.extractLsb' 12 36

/-- The indices of a page, in the order of the walk: PML4, PDPT, PD and PT. -/
def pml4Index (p : Page) : Index := p.extractLsb' 27 9
def pdptIndex (p : Page) : Index := p.extractLsb' 18 9
def pdIndex (p : Page) : Index := p.extractLsb' 9 9
def ptIndex (p : Page) : Index := p.extractLsb' 0 9

/-- The path from the PML4 to the page table of a page. -/
def pathOf (p : Page) : List Index := [pml4Index p, pdptIndex p, pdIndex p]

@[simp] theorem length_pathOf (p : Page) : (pathOf p).length = 3 := rfl

/-! ## Bits -/

theorem getLsbD_frameMask : ∀ i < 64, frameMask.getLsbD i = decide (12 ≤ i ∧ i < 52) := by decide

theorem getLsbD_frameAddr (f : Frame) (i : ℕ) :
    (frameAddr f).getLsbD i = (decide (12 ≤ i ∧ i < 52) && f.getLsbD (i - 12)) := by
  simp only [frameAddr, BitVec.getLsbD_shiftLeft, BitVec.getLsbD_setWidth]
  by_cases h : i < 52
  · simp only [h, show i < 64 by omega, show i - 12 < 64 by omega]
    by_cases h12 : 12 ≤ i <;> simp [h12]
  · have hout : f.getLsbD (i - 12) = false := BitVec.getLsbD_of_ge _ _ (by omega)
    simp [hout]

theorem toNat_frameAddr (f : Frame) : (frameAddr f).toNat = 4096 * f.toNat := by
  have := f.isLt
  rw [frameAddr, BitVec.toNat_shiftLeft, BitVec.toNat_setWidth, Nat.shiftLeft_eq]
  omega

theorem frameAddr_injective : Function.Injective frameAddr := by
  intro f g h
  have hnat := congrArg BitVec.toNat h
  rw [toNat_frameAddr, toNat_frameAddr] at hnat
  exact BitVec.eq_of_toNat_eq (by omega)

theorem pageAligned_frameAddr (f : Frame) : PageAligned (frameAddr f) := by
  rw [PageAligned, toNat_frameAddr]
  omega

theorem exists_frameAddr {q : Word} (halign : PageAligned q) (hlt : q.toNat < 2 ^ 52) :
    ∃ f, q = frameAddr f := by
  refine ⟨BitVec.ofNat 40 (q.toNat / 4096), BitVec.eq_of_toNat_eq ?_⟩
  rw [PageAligned] at halign
  rw [toNat_frameAddr, BitVec.toNat_ofNat]
  omega

theorem and_frameMask (e : Word) : e &&& frameMask = frameAddr (frameOf e) := by
  apply BitVec.eq_of_getLsbD_eq
  intro i hi
  rw [BitVec.getLsbD_and, getLsbD_frameMask i hi, getLsbD_frameAddr, frameOf,
    BitVec.getLsbD_extractLsb']
  by_cases h : 12 ≤ i ∧ i < 52
  · simp [h, show 12 + (i - 12) = i by omega, show i - 12 < 40 by omega]
  · simp [h]

theorem toNat_pageOf (v : Word) : (pageOf v).toNat = v.toNat / 4096 % 2 ^ 36 := by
  rw [pageOf, BitVec.extractLsb'_toNat, Nat.shiftRight_eq_div_pow]

theorem toNat_frameOf (v : Word) : (frameOf v).toNat = v.toNat / 4096 % 2 ^ 40 := by
  rw [frameOf, BitVec.extractLsb'_toNat, Nat.shiftRight_eq_div_pow]

theorem PageAligned.add {x y : Word} (hx : PageAligned x) (hy : PageAligned y) :
    PageAligned (x + y) := by
  simp only [PageAligned, BitVec.toNat_add] at *
  omega

theorem pageOf_eq_iff {x y : Word} (hx : PageAligned x) (hy : PageAligned y) :
    pageOf x = pageOf y ↔ x.toNat % 2 ^ 48 = y.toNat % 2 ^ 48 := by
  rw [← BitVec.toNat_inj, toNat_pageOf, toNat_pageOf]
  simp only [PageAligned] at hx hy
  omega

theorem eq_alignDown_add (x : Word) :
    x = alignDown x pageSize + BitVec.ofNat 64 (x.toNat % 4096) := by
  have hlt := x.isLt
  apply BitVec.eq_of_toNat_eq
  rw [BitVec.toNat_add, toNat_alignDown, BitVec.toNat_ofNat]
  omega

/-- The bytes of a page are translated like its first one and lie in the same frame. -/
theorem pageOf_add_offset {x : Word} {r : ℕ} (hx : PageAligned x) (hr : r < 4096) :
    pageOf (x + BitVec.ofNat 64 r) = pageOf x := by
  have hlt := x.isLt
  apply BitVec.eq_of_toNat_eq
  rw [toNat_pageOf, toNat_pageOf, BitVec.toNat_add, BitVec.toNat_ofNat]
  unfold PageAligned at hx
  omega

theorem frameOf_add_offset {x : Word} {r : ℕ} (hx : PageAligned x) (hr : r < 4096) :
    frameOf (x + BitVec.ofNat 64 r) = frameOf x := by
  have hlt := x.isLt
  apply BitVec.eq_of_toNat_eq
  rw [toNat_frameOf, toNat_frameOf, BitVec.toNat_add, BitVec.toNat_ofNat]
  unfold PageAligned at hx
  omega

theorem frameOf_or_flags (x : Word) {flags : Word} (h : flags &&& frameMask = 0) :
    frameOf (x ||| flags) = frameOf x := by
  apply BitVec.eq_of_getLsbD_eq
  intro i hi
  have hbit := congrArg (fun e => e.getLsbD (12 + i)) h
  simp only [BitVec.getLsbD_and, getLsbD_frameMask (12 + i) (by omega)] at hbit
  rw [frameOf, frameOf, BitVec.getLsbD_extractLsb', BitVec.getLsbD_extractLsb', BitVec.getLsbD_or]
  simp [hi, show 12 + i < 52 by omega] at hbit ⊢
  simp [hbit]

theorem frameOf_frameAddr (f : Frame) : frameOf (frameAddr f) = f := by
  have hlt := f.isLt
  apply BitVec.eq_of_toNat_eq
  rw [toNat_frameOf, toNat_frameAddr]
  omega

theorem frameOf_frameAddr_or (f : Frame) {flags : Word} (h : flags &&& frameMask = 0) :
    frameOf (frameAddr f ||| flags) = f := by
  rw [frameOf_or_flags _ h, frameOf_frameAddr]

theorem tableIndex_eq (v : Word) {k : ℕ} (hk : k + 9 ≤ 64) :
    tableIndex v k = (v.extractLsb' k 9).setWidth 64 := by
  have hones : ∀ i < 64, (0x1ff : Word).getLsbD i = decide (i < 9) := by decide
  apply BitVec.eq_of_getLsbD_eq
  intro i hi
  rw [tableIndex, BitVec.getLsbD_ushiftRight, BitVec.getLsbD_and, BitVec.getLsbD_shiftLeft,
    BitVec.getLsbD_setWidth, BitVec.getLsbD_extractLsb', show k + i - k = i by omega, hones i hi]
  by_cases h : i < 9
  · simp [h, hi, show k + i < 64 by omega]
  · simp [h]

theorem extractLsb'_pageOf (v : Word) {k : ℕ} (hk : k + 9 ≤ 36) :
    (pageOf v).extractLsb' k 9 = v.extractLsb' (12 + k) 9 := by
  apply BitVec.eq_of_getLsbD_eq
  intro i hi
  simp only [pageOf, BitVec.getLsbD_extractLsb', hi, show k + i < 36 by omega, Nat.add_assoc]
  simp

theorem tableIndex_pml4 (v : Word) :
    tableIndex v 39 = (pml4Index (pageOf v)).setWidth 64 := by
  rw [tableIndex_eq v (by omega), pml4Index, extractLsb'_pageOf v (by omega)]

theorem tableIndex_pdpt (v : Word) :
    tableIndex v 30 = (pdptIndex (pageOf v)).setWidth 64 := by
  rw [tableIndex_eq v (by omega), pdptIndex, extractLsb'_pageOf v (by omega)]

theorem tableIndex_pd (v : Word) : tableIndex v 21 = (pdIndex (pageOf v)).setWidth 64 := by
  rw [tableIndex_eq v (by omega), pdIndex, extractLsb'_pageOf v (by omega)]

theorem tableIndex_pt (v : Word) : tableIndex v 12 = (ptIndex (pageOf v)).setWidth 64 := by
  rw [tableIndex_eq v (by omega), ptIndex, extractLsb'_pageOf v (by omega)]

theorem page_ext {p q : Page} (hpath : pathOf p = pathOf q) (hpt : ptIndex p = ptIndex q) :
    p = q := by
  simp only [pathOf, List.cons.injEq, and_true] at hpath
  obtain ⟨h1, h2, h3⟩ := hpath
  have hnat : ∀ {r : Page}, r.toNat = (pml4Index r).toNat * 2 ^ 27 + (pdptIndex r).toNat * 2 ^ 18 +
      (pdIndex r).toNat * 2 ^ 9 + (ptIndex r).toNat := by
    intro r
    have := r.isLt
    simp only [pml4Index, pdptIndex, pdIndex, ptIndex, BitVec.extractLsb'_toNat,
      Nat.shiftRight_eq_div_pow]
    omega
  apply BitVec.eq_of_toNat_eq
  rw [hnat, @hnat q, h1, h2, h3, hpt]

/-! ## Entries in memory -/

section Memory

variable (hhdmOffset : Word)

def tableAddr (f : Frame) : Word := frameAddr f + hhdmOffset

def slotAddr (f : Frame) (i : Index) : Word := tableAddr hhdmOffset f + i.setWidth 64 * 8

/-- Memory as the table entries it holds. -/
def tables (m : Memory 64) : Tables := fun f i => m.load64 (slotAddr hhdmOffset f i)

def Tables.set (T : Tables) (f : Frame) (i : Index) (e : Word) : Tables :=
  fun g j => if g = f ∧ j = i then e else T g j

def Tables.clear (T : Tables) (f : Frame) : Tables := fun g j => if g = f then 0 else T g j

theorem slotAddr_eq (f : Frame) (i : Index) :
    slotAddr hhdmOffset f i = BitVec.ofNat 64 (4096 * f.toNat + 8 * i.toNat) + hhdmOffset := by
  have hf := f.isLt
  have hi := i.isLt
  have hsum : frameAddr f + i.setWidth 64 * 8 = BitVec.ofNat 64 (4096 * f.toNat + 8 * i.toNat) := by
    apply BitVec.eq_of_toNat_eq
    rw [BitVec.toNat_add, toNat_frameAddr, BitVec.toNat_mul, BitVec.toNat_setWidth,
      BitVec.toNat_ofNat, show (8 : Word).toNat = 8 from rfl]
    omega
  rw [slotAddr, tableAddr, ← hsum, BitVec.add_assoc, BitVec.add_assoc, BitVec.add_comm hhdmOffset]

/-- The distance between two places behind the offset. -/
theorem toNat_offset_sub {a b j : ℕ} (ha : a < 2 ^ 63) :
    (BitVec.ofNat 64 b + hhdmOffset + BitVec.ofNat 64 j - (BitVec.ofNat 64 a + hhdmOffset)).toNat =
      (2 ^ 64 - a + (b + j)) % 2 ^ 64 := by
  have hh := hhdmOffset.isLt
  rw [BitVec.toNat_sub, BitVec.toNat_add, BitVec.toNat_add, BitVec.toNat_add, BitVec.toNat_ofNat,
    BitVec.toNat_ofNat, BitVec.toNat_ofNat]
  omega

theorem apart_slotAddr {f g : Frame} {i j : Index} (h : ¬ (g = f ∧ j = i)) :
    Apart (slotAddr hhdmOffset f i) 8 (slotAddr hhdmOffset g j) 8 := by
  intro k hk
  have hf := f.isLt
  have hg := g.isLt
  have hi := i.isLt
  have hj := j.isLt
  have hne : g.toNat ≠ f.toNat ∨ j.toNat ≠ i.toNat := by
    by_contra hboth
    exact h ⟨BitVec.eq_of_toNat_eq (by omega), BitVec.eq_of_toNat_eq (by omega)⟩
  rw [slotAddr_eq, slotAddr_eq, toNat_offset_sub hhdmOffset (by omega)]
  omega

theorem tableAddr_eq (f : Frame) :
    tableAddr hhdmOffset f = BitVec.ofNat 64 (4096 * f.toNat) + hhdmOffset := by
  rw [tableAddr, ← toNat_frameAddr, BitVec.ofNat_toNat, BitVec.setWidth_eq]

theorem apart_tableAddr {f g : Frame} (j : Index) (h : g ≠ f) :
    Apart (tableAddr hhdmOffset f) 4096 (slotAddr hhdmOffset g j) 8 := by
  intro k hk
  have hf := f.isLt
  have hg := g.isLt
  have hj := j.isLt
  have hne : g.toNat ≠ f.toNat := fun hn => h (BitVec.eq_of_toNat_eq hn)
  rw [tableAddr_eq, slotAddr_eq, toNat_offset_sub hhdmOffset (by omega)]
  omega

theorem slotAddr_in_table (f : Frame) (j : Index) {k : ℕ} (hk : k < 8) :
    (slotAddr hhdmOffset f j + BitVec.ofNat 64 k - tableAddr hhdmOffset f).toNat < 4096 := by
  have hf := f.isLt
  have hj := j.isLt
  rw [tableAddr_eq, slotAddr_eq, toNat_offset_sub hhdmOffset (by omega)]
  omega

theorem tables_store64 (m : Memory 64) (f : Frame) (i : Index) (e : Word) :
    tables hhdmOffset (m.store64 (slotAddr hhdmOffset f i) e) =
      (tables hhdmOffset m).set f i e := by
  funext g j
  unfold tables Tables.set
  split_ifs with h
  · obtain ⟨rfl, rfl⟩ := h
    exact Memory.load64_store64 m _ e (by decide)
  · exact Memory.load64_store64_of_apart m _ _ (apart_slotAddr hhdmOffset h)

theorem tables_memset (m : Memory 64) (f : Frame) :
    tables hhdmOffset (memset m (tableAddr hhdmOffset f) 0 pageSize.toNat) =
      (tables hhdmOffset m).clear f := by
  funext g j
  rw [memset_eq_fill m _ _ (by decide)]
  unfold tables Tables.clear
  split_ifs with h
  · subst h
    exact Memory.load64_fill_zero m _ _ fun k hk => slotAddr_in_table hhdmOffset g j hk
  · exact Memory.load64_fill_of_apart m _ _ _ (apart_tableAddr hhdmOffset j h)

end Memory

end Olive
