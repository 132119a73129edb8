import Olive.Vmm.Supply

/-!
# Lookups of pages that are not mapped

A page is not mapped if a table is missing on its path or if its leaf entry is empty.
`vmm_unmap` and `virt2phys` tell the first case from a mapped page, but not the second
one: they test the page table and never the entry in it.
-/

namespace Olive

open Library

/-! ## The page table of an address -/

section PageTable

variable (hhdmOffset : Word)

/-- The table an entry leads to, unless it has the address `NULL`. -/
def tableBelow (m : Memory 64) (table virt : Word) (shift : ℕ) : Option Word :=
  (entryAt m table virt shift).bind fun e =>
    if (e &&& frameMask) + hhdmOffset = 0 then none else some ((e &&& frameMask) + hhdmOffset)

/-- The page table of an address, if the three levels above it are present. -/
def pageTable (m : Memory 64) (pm : Pagemap) (virt : Word) : Option Word := do
  let pdpt ← tableBelow hhdmOffset m pm.pml4 virt 39
  let pd ← tableBelow hhdmOffset m pdpt virt 30
  tableBelow hhdmOffset m pd virt 21

variable {hhdmOffset} {m : Memory 64}

theorem tableBelow_ne_zero {table virt pt : Word} {shift : ℕ}
    (h : tableBelow hhdmOffset m table virt shift = some pt) : pt ≠ 0 := by
  obtain ⟨e, -, he⟩ := Option.bind_eq_some_iff.mp h
  split_ifs at he with hnull
  exact Option.some.inj he ▸ hnull

theorem pageTable_ne_zero {pm : Pagemap} {virt pt : Word}
    (h : pageTable hhdmOffset m pm virt = some pt) : pt ≠ 0 := by
  obtain ⟨pdpt, -, h⟩ := Option.bind_eq_some_iff.mp h
  obtain ⟨pd, -, h⟩ := Option.bind_eq_some_iff.mp h
  exact tableBelow_ne_zero h

variable {σ : Type} [PageAllocator σ] (s : Vmm σ)

/-- Whatever memory holds, a lookup without force reads one entry. -/
theorem getBelowPml_tableBelow (table virt : Word) (shift : ℕ) :
    getBelowPml hhdmOffset s table (tableIndex virt shift) false =
      ((tableBelow hhdmOffset s.mem table virt shift).getD 0, s) := by
  unfold getBelowPml tableBelow entryAt
  by_cases hpresent : Present (s.mem.load64 (table + tableIndex virt shift * 8))
  · simp only [if_pos hpresent, Option.bind_some]
    rw [if_pos (show _ &&& pteBitPresent ≠ 0 from hpresent)]
    split_ifs with hnull
    · rw [hnull]
      rfl
    · rfl
  · simp only [if_neg hpresent]
    exact (if_neg hpresent).trans rfl

theorem pml4ToPt_pageTable (pm : Pagemap) (virt : Word) :
    pml4ToPt hhdmOffset s pm.pml4 virt false =
      ((pageTable hhdmOffset s.mem pm virt).getD 0, s) := by
  simp only [pml4ToPt, getBelowPml_tableBelow, pageTable, Option.bind_eq_bind]
  cases hpdpt : tableBelow hhdmOffset s.mem pm.pml4 virt 39 with
  | none => rfl
  | some pdpt =>
    simp only [Option.getD_some, Option.bind_some, if_neg (tableBelow_ne_zero hpdpt)]
    cases hpd : tableBelow hhdmOffset s.mem pdpt virt 30 with
    | none => rfl
    | some pd => simp only [Option.getD_some, Option.bind_some, if_neg (tableBelow_ne_zero hpd)]

/-! ## `vmm_unmap` -/

theorem vmmUnmap_pageTable (pm : Pagemap) (virt : Word) (freePhys : Bool) :
    vmmUnmap hhdmOffset s pm virt freePhys =
      match pageTable hhdmOffset s.mem pm virt with
      | none => .ok (false, s)
      | some pt =>
        (if freePhys then
            PageAllocator.freePages s.pmm
              (s.mem.load64 (pt + tableIndex virt 12 * 8) &&& frameMask) 1
          else .ok s.pmm).map fun pmm =>
          (true, { s with
            pmm := pmm
            mem := s.mem.store64 (pt + tableIndex virt 12 * 8) 0 }) := by
  simp only [vmmUnmap, pml4ToPt_pageTable]
  cases hpt : pageTable hhdmOffset s.mem pm virt with
  | none => rfl
  | some pt =>
    simp only [Option.getD_some, if_neg (pageTable_ne_zero hpt)]
    cases freePhys with
    | false => rfl
    | true =>
      simp only [if_true]
      cases PageAllocator.freePages s.pmm
        (s.mem.load64 (pt + tableIndex virt 12 * 8) &&& frameMask) 1 <;> rfl

/-- `vmm_unmap` of any page in any state answers `false` and leaves the tables and the
PMM alone exactly when the page has no page table. -/
theorem vmmUnmap_harmless_iff (pm : Pagemap) (virt : Word) (freePhys : Bool) :
    vmmUnmap hhdmOffset s pm virt freePhys = .ok (false, s) ↔
      pageTable hhdmOffset s.mem pm virt = none := by
  rw [vmmUnmap_pageTable]
  cases pageTable hhdmOffset s.mem pm virt with
  | none => simp
  | some pt =>
    refine ⟨fun h => ?_, fun h => by cases h⟩
    dsimp only at h
    -- an answer is `true`, and a failed assertion is no answer
    cases hfree : (if freePhys then
        PageAllocator.freePages s.pmm
          (s.mem.load64 (pt + tableIndex virt 12 * 8) &&& frameMask) 1
      else .ok s.pmm) with
    | error stop =>
      rw [hfree] at h
      cases h
    | ok pmm =>
      rw [hfree] at h
      have htrue := congrArg Prod.fst (Except.ok.inj h)
      cases htrue

end PageTable

/-! ## The leaf entries of a run -/

/-- An entry is empty, or present with an address of `width` bits. -/
def LeafEntry (width : ℕ) (e : Word) : Prop :=
  e = 0 ∨ Present e ∧ (frameAddr (frameOf e)).toNat < 2 ^ width

/-- The entries of all page tables are leaf entries. -/
def LeafEntries (width : ℕ) (roots : Set Frame) (T : Tables) : Prop :=
  ∀ r ∈ roots, ∀ p f, p.length = 3 → follow (child T) r p = some f → ∀ i, LeafEntry width (T f i)

section Entries

variable {hhdmOffset : Word} {roots : Set Frame} {width : ℕ}

theorem LeafEntries.of_cleared {T : Tables} (h : ∀ r ∈ roots, ∀ i, T r i = 0) :
    LeafEntries width roots T := by
  intro r hr p f hp hf
  obtain ⟨rfl, -⟩ := follow_cleared h hr hf
  cases hp

theorem LeafEntries.link {T T' : Tables} {r n : Frame} {p : List Index} {i : Index}
    (hleaf : LeafEntries width roots T) (hinv : TreeInv hhdmOffset roots T)
    (h : Linked hhdmOffset roots T T' r p i n) : LeafEntries width roots T' := by
  intro r' hr' q g hq hg j
  rw [h.follow_eq hinv hr' hq.le] at hg
  split_ifs at hg with hnew
  · cases hg
    exact .inl (h.cleared j)
  · rw [h.entry_eq hinv hr' hq.le hg j]
    · exact hleaf r' hr' q g hq hg j
    · intro _ heq
      have hlen := congrArg List.length heq
      have hdepth := h.depth
      simp only [List.length_append, List.length_singleton] at hlen
      omega

theorem LeafEntries.set {T : Tables} {r pt : Frame} {page : Page} {e : Word}
    (hleaf : LeafEntries width roots T) (hinv : TreeInv hhdmOffset roots T) (hr : r ∈ roots)
    (hpt : follow (child T) r (pathOf page) = some pt) (he : LeafEntry width e) :
    LeafEntries width roots (T.set pt (ptIndex page) e) := by
  intro r' hr' q g hq hg j
  rw [follow_set hinv hr hpt hr' hq.le] at hg
  unfold Tables.set
  split_ifs
  · exact he
  · exact hleaf r' hr' q g hq hg j

variable {σ : Type} [PageAllocator σ] {s s' : Vmm σ}

theorem LeafEntries.grown (hleaf : LeafEntries width roots (tables hhdmOffset s.mem))
    (hinv : VmmInv hhdmOffset roots s) (h : Grown hhdmOffset roots s s') :
    LeafEntries width roots (tables hhdmOffset s'.mem) ∧
      s'.physicalAddressWidth = s.physicalAddressWidth := by
  refine (h.induct (Q := fun t => LeafEntries width roots (tables hhdmOffset t.mem) ∧
    t.physicalAddressWidth = s.physicalAddressWidth) ?_ hinv ⟨hleaf, rfl⟩).2
  rintro t t' hinv' ⟨hleaf', hwidth⟩ hgrow
  cases hgrow with
  | refused => exact ⟨hleaf', hwidth⟩
  | linked hreq hf hlink => exact ⟨hleaf'.link hinv'.tree hlink, hwidth⟩

end Entries

/-- One call on one of the page maps: `vmm_map` of an aligned address of `width` bits with
flags that are present and leave the address bits alone, or `vmm_unmap`, after which the
page allocator still serves no table in use. Without release that is always so. -/
inductive MapStep {σ : Type} [PageAllocator σ] (hhdmOffset : Word) (roots : Set Frame) (width : ℕ) :
    Vmm σ → VmmCall → Vmm σ → Prop
  | map {s : Vmm σ} {root : Frame} {virt phys flags : Word} (hroot : root ∈ roots)
      (halign : PageAligned phys) (hbound : phys.toNat < 2 ^ width) (hpresent : Present flags)
      (hclean : flags &&& frameMask = 0) :
      MapStep hhdmOffset roots width s (.map root virt phys flags)
        (vmmMap hhdmOffset s ⟨tableAddr hhdmOffset root⟩ virt phys flags)
  | unmap {s s' : Vmm σ} {root : Frame} {virt : Word} {freePhys b : Bool} (hroot : root ∈ roots)
      (h : vmmUnmap hhdmOffset s ⟨tableAddr hhdmOffset root⟩ virt freePhys = .ok (b, s'))
      (hserves : freePhys = true → ServesFrames s'.pmm (InUse hhdmOffset roots s.mem)) :
      MapStep hhdmOffset roots width s (.unmap root virt) s'

structure MapInv {σ : Type} [PageAllocator σ] (hhdmOffset : Word) (roots : Set Frame) (width : ℕ)
    (s : Vmm σ) : Prop where
  vmm : VmmInv hhdmOffset roots s
  leaves : LeafEntries width roots (tables hhdmOffset s.mem)
  width : s.physicalAddressWidth.toNat = width

section Run

variable {σ : Type} [PageAllocator σ] {hhdmOffset : Word} {roots : Set Frame} {width : ℕ}
  {s t : Vmm σ} {call : VmmCall}

theorem frameOf_phys {phys flags : Word} (halign : PageAligned phys) (hbound : phys.toNat < 2 ^ 52)
    (hclean : flags &&& frameMask = 0) : frameAddr (frameOf (phys ||| flags)) = phys := by
  obtain ⟨f, rfl⟩ := exists_frameAddr halign hbound
  rw [frameOf_frameAddr_or f hclean]

theorem MapStep.inv (hwidth : width ≤ 52) (hinv : MapInv hhdmOffset roots width s)
    (h : MapStep hhdmOffset roots width s call t) : MapInv hhdmOffset roots width t := by
  cases h with
  | @map root virt phys flags hroot halign hbound hpresent hclean =>
    have hentry : LeafEntry width (phys ||| flags) := by
      refine .inr ⟨present_or_flags hpresent, ?_⟩
      have hphys : phys.toNat < 2 ^ 52 :=
        hbound.trans_le (Nat.pow_le_pow_right (by decide) hwidth)
      rw [frameOf_phys halign hphys hclean]
      exact hbound
    have hvmm := vmmMap_inv hinv.vmm hroot virt phys flags
    obtain ⟨s₁, hgrown, hinv₁, ⟨-, pt, m, hpt, hptr, hm, heq⟩ | ⟨-, heq⟩⟩ :=
      vmmMap_spec hinv.vmm hroot virt phys flags
    · obtain ⟨hleaf, hkeep⟩ := hinv.leaves.grown hinv.vmm hgrown
      rw [heq] at hvmm ⊢
      refine ⟨hvmm, ?_, (congrArg BitVec.toNat hkeep).trans hinv.width⟩
      rw [hm]
      exact hleaf.set hinv₁.tree hroot hpt hentry
    · obtain ⟨hleaf, hkeep⟩ := hinv.leaves.grown hinv.vmm hgrown
      rw [heq] at hvmm ⊢
      exact ⟨hvmm, hleaf, (congrArg BitVec.toNat hkeep).trans hinv.width⟩
  | @unmap _ root virt freePhys b hroot h hserves =>
    rcases vmmUnmap_spec hinv.vmm hroot virt with ⟨-, heq⟩ | ⟨pt, m, hpt, hptr, hm, heq⟩
    · rw [(vmmUnmap_harmless_iff s _ virt freePhys).mpr
        ((vmmUnmap_harmless_iff s _ virt false).mp heq)] at h
      cases h
      exact hinv
    · have hclear : LeafEntries width roots (tables hhdmOffset m) := by
        rw [hm]
        exact hinv.leaves.set hinv.vmm.tree hroot hpt (.inl rfl)
      rw [heq freePhys] at h
      cases freePhys with
      | false =>
        cases h
        exact ⟨hinv.vmm.set hroot hpt hptr hm hinv.vmm.serves, hclear, hinv.width⟩
      | true =>
        cases hfree : PageAllocator.freePages s.pmm
            (frameAddr (frameOf (tables hhdmOffset s.mem pt (ptIndex (pageOf virt))))) 1 with
        | error stop =>
          rw [if_pos rfl, hfree] at h
          cases h
        | ok pmm =>
          rw [if_pos rfl, hfree] at h
          cases h
          exact ⟨hinv.vmm.set hroot hpt hptr hm (hserves rfl), hclear, hinv.width⟩

theorem mapRun_inv {u : Vmm σ} {ts : List (Transition (Vmm σ) VmmCall)} (hwidth : width ≤ 52)
    (hcleared : ∀ r ∈ roots, ∀ i, tables hhdmOffset s.mem r i = 0)
    (hserves : ServesFrames s.pmm roots) (hphys : s.physicalAddressWidth.toNat = width)
    (hrun : Run (MapStep hhdmOffset roots width) s ts u) : MapInv hhdmOffset roots width u :=
  (hrun.invariant (fun _ _ _ hinv hstep => hstep.inv hwidth hinv)
    ⟨.of_cleared hcleared hserves, .of_cleared hcleared, hphys⟩).1

end Run

/-! ## `virt2phys` -/

/-- The physical address of a virtual one by the walk of the hardware, or 0. -/
def walkedPhys (hhdmOffset : Word) (m : Memory 64) (pm : Pagemap) (virt : Word) : Word :=
  match hardwareWalk hhdmOffset m pm virt with
  | some t => frameAddr (frameOf t.entry) ||| (virt &&& 0xfff)
  | none => 0

section Virt2phys

variable {σ : Type} [PageAllocator σ] {hhdmOffset : Word} {roots : Set Frame} {width : ℕ}
  {s : Vmm σ} {r : Frame}

theorem and_mask {e : Word} {w : Word} (hlow : 12 ≤ w.toNat) (hhigh : w.toNat ≤ 52)
    (hbound : (frameAddr (frameOf e)).toNat < 2 ^ w.toNat) :
    e &&& ((((1 : Word) <<< w.toNat) - 1) &&& ~~~0xfff) = frameAddr (frameOf e) := by
  have hones : ((1 : Word) <<< w.toNat - 1).toNat = 2 ^ w.toNat - 1 := by
    have hpow : 2 ^ w.toNat ≤ 2 ^ 52 := Nat.pow_le_pow_right (by decide) hhigh
    have hpos : 0 < 2 ^ w.toNat := Nat.two_pow_pos _
    have hshift : ((1 : Word) <<< w.toNat).toNat = 2 ^ w.toNat := by
      rw [BitVec.toNat_shiftLeft, Nat.shiftLeft_eq, show (1 : Word).toNat = 1 from rfl, Nat.one_mul,
        Nat.mod_eq_of_lt (by omega)]
    rw [BitVec.toNat_sub, hshift, show (1 : Word).toNat = 1 from rfl]
    omega
  have hlowBits : ∀ i < 64, (~~~(0xfff : Word)).getLsbD i = decide (12 ≤ i) := by decide
  rw [← and_frameMask] at hbound ⊢
  apply BitVec.eq_of_getLsbD_eq
  intro i hi
  have hone : ((1 : Word) <<< w.toNat - 1).getLsbD i = decide (i < w.toNat) := by
    rw [← BitVec.testBit_toNat, hones, Nat.testBit_two_pow_sub_one]
  rw [BitVec.getLsbD_and, BitVec.getLsbD_and, BitVec.getLsbD_and, hone, hlowBits i hi,
    getLsbD_frameMask i hi]
  by_cases hi' : i < w.toNat
  · simp [hi', show i < 52 by omega]
  · -- above the width the frame has no bits
    have hzero : (e &&& frameMask).getLsbD i = false := by
      rw [← BitVec.testBit_toNat]
      exact Nat.testBit_lt_two_pow
        (hbound.trans_le (Nat.pow_le_pow_right (by decide) (by omega)))
    rw [BitVec.getLsbD_and, getLsbD_frameMask i hi] at hzero
    simp only [hi', decide_false, Bool.false_and, Bool.and_false]
    exact hzero.symm

theorem virt2phys_pageTable (s : Vmm σ) (pm : Pagemap) (virt : Word) :
    virt2phys hhdmOffset s pm virt =
      match pageTable hhdmOffset s.mem pm virt with
      | none => 0
      | some pt => (s.mem.load64 (pt + tableIndex virt 12 * 8) &&&
          ((((1 : Word) <<< s.physicalAddressWidth.toNat) - 1) &&& ~~~0xfff)) |||
          (virt &&& 0xfff) := by
  simp only [virt2phys, pml4ToPt_pageTable]
  cases hpt : pageTable hhdmOffset s.mem pm virt with
  | none => rfl
  | some pt => exact if_neg (pageTable_ne_zero hpt)

theorem MapInv.lookup (hinv : MapInv hhdmOffset roots width s) (hr : r ∈ roots) (virt : Word) :
    (pageTable hhdmOffset s.mem ⟨tableAddr hhdmOffset r⟩ virt = none ∧
        hardwareWalk hhdmOffset s.mem ⟨tableAddr hhdmOffset r⟩ virt = none) ∨
      ∃ pt e, pageTable hhdmOffset s.mem ⟨tableAddr hhdmOffset r⟩ virt = some pt ∧
        s.mem.load64 (pt + tableIndex virt 12 * 8) = e ∧ LeafEntry width e ∧
        hardwareWalk hhdmOffset s.mem ⟨tableAddr hhdmOffset r⟩ virt =
          if Present e then some (leafTranslation e) else none := by
  obtain ⟨pt, hread, hnone, hsome⟩ := pml4ToPt_read hinv.vmm hr virt
  have hptr := congrArg Prod.fst ((pml4ToPt_pageTable s ⟨tableAddr hhdmOffset r⟩ virt).symm.trans hread)
  rw [hardwareWalk_eq hinv.vmm.tree hr]
  cases htable : pageTable hhdmOffset s.mem ⟨tableAddr hhdmOffset r⟩ virt with
  | none =>
    rw [htable] at hptr
    refine .inl ⟨rfl, ?_⟩
    rw [hnone hptr.symm]
    rfl
  | some pt' =>
    rw [htable] at hptr
    obtain rfl : pt' = pt := hptr
    obtain ⟨f, rfl, hf⟩ := hsome (pageTable_ne_zero htable)
    have hslot : s.mem.load64 (tableAddr hhdmOffset f + tableIndex virt 12 * 8) =
        tables hhdmOffset s.mem f (ptIndex (pageOf virt)) := by
      rw [tableIndex_pt]
      rfl
    refine .inr ⟨_, _, rfl, hslot, hinv.leaves r hr _ f rfl hf _, ?_⟩
    rw [walk, hf, Option.bind_some]
    split_ifs <;> rfl

/-- After every run of `vmm_map` and `vmm_unmap`, `virt2phys` agrees with the hardware on
an address exactly if its page is mapped, or has no page table, or the address is the
first one of its page. -/
theorem virt2phys_walkedPhys_iff {u : Vmm σ} {ts : List (Transition (Vmm σ) VmmCall)}
    (hlow : 12 ≤ width) (hhigh : width ≤ 52)
    (hcleared : ∀ r ∈ roots, ∀ i, tables hhdmOffset s.mem r i = 0)
    (hserves : ServesFrames s.pmm roots) (hphys : s.physicalAddressWidth.toNat = width)
    (hrun : Run (MapStep hhdmOffset roots width) s ts u) (hr : r ∈ roots) (virt : Word) :
    virt2phys hhdmOffset u ⟨tableAddr hhdmOffset r⟩ virt =
        walkedPhys hhdmOffset u.mem ⟨tableAddr hhdmOffset r⟩ virt ↔
      hardwareWalk hhdmOffset u.mem ⟨tableAddr hhdmOffset r⟩ virt ≠ none ∨
        pageTable hhdmOffset u.mem ⟨tableAddr hhdmOffset r⟩ virt = none ∨ virt &&& 0xfff = 0 := by
  have hinv := mapRun_inv hhigh hcleared hserves hphys hrun
  have hwidth := hinv.width
  rw [virt2phys_pageTable, walkedPhys]
  rcases hinv.lookup hr virt with ⟨htable, hwalk⟩ | ⟨pt, e, htable, he, hleaf, hwalk⟩
  · simp [htable, hwalk]
  · by_cases hpresent : Present e
    · have hbound : (frameAddr (frameOf e)).toNat < 2 ^ u.physicalAddressWidth.toNat := by
        rw [hwidth]
        rcases hleaf with rfl | ⟨-, hbound⟩
        · exact absurd hpresent not_present_zero
        · exact hbound
      have hmask := and_mask (hwidth ▸ hlow) (hwidth ▸ hhigh) hbound
      rw [if_pos hpresent] at hwalk
      rw [htable, hwalk]
      dsimp only
      rw [he, hmask]
      simp [leafTranslation]
    · have hzero : e = 0 := hleaf.resolve_right fun h => hpresent h.1
      rw [if_neg hpresent] at hwalk
      rw [htable, hwalk]
      dsimp only
      rw [he, hzero]
      simp

end Virt2phys

/-! ## A page next to a mapped one -/

section Neighbour

variable {hhdmOffset : Word} {roots : Set Frame} {width : ℕ} {r : Frame}

theorem pageTable_congr (m : Memory 64) (pm : Pagemap) {v w : Word}
    (h : pathOf (pageOf v) = pathOf (pageOf w)) :
    pageTable hhdmOffset m pm v = pageTable hhdmOffset m pm w := by
  simp only [pathOf, List.cons.injEq, and_true] at h
  obtain ⟨hpml4, hpdpt, hpd⟩ := h
  simp only [pageTable, tableBelow, entryAt, tableIndex_pml4, tableIndex_pdpt, tableIndex_pd, hpml4,
    hpdpt, hpd]

/-- A page that is not mapped but shares its page table with a mapped one has an empty
slot. -/
theorem MapInv.emptySlot {σ : Type} [PageAllocator σ] {s : Vmm σ}
    (hinv : MapInv hhdmOffset roots width s) (hr : r ∈ roots) {v w : Word}
    (hpath : pathOf (pageOf v) = pathOf (pageOf w))
    (hv : hardwareWalk hhdmOffset s.mem ⟨tableAddr hhdmOffset r⟩ v ≠ none)
    (hw : hardwareWalk hhdmOffset s.mem ⟨tableAddr hhdmOffset r⟩ w = none) :
    ∃ pt, pageTable hhdmOffset s.mem ⟨tableAddr hhdmOffset r⟩ w = some pt ∧
      s.mem.load64 (pt + tableIndex w 12 * 8) = 0 := by
  rcases hinv.lookup hr w with ⟨hnone, -⟩ | ⟨pt, e, htable, he, hleaf, hwalk⟩
  · rcases hinv.lookup hr v with ⟨-, hnone'⟩ | ⟨pt, -, htable, -⟩
    · exact absurd hnone' hv
    · rw [pageTable_congr _ _ hpath, hnone] at htable
      cases htable
  · refine ⟨pt, htable, he.trans (hleaf.resolve_right fun h => ?_)⟩
    rw [hwalk, if_pos h.1] at hw
    cases hw

theorem vmmUnmap_emptySlot {s : Vmm Pmm} {pm : Pagemap} {w pt : Word}
    (htable : pageTable hhdmOffset s.mem pm w = some pt)
    (hslot : s.mem.load64 (pt + tableIndex w 12 * 8) = 0) :
    vmmUnmap hhdmOffset s pm w true = .error (.hcf "ptr != NULL") := by
  rw [vmmUnmap_pageTable, htable]
  dsimp only
  rw [hslot]
  rfl

end Neighbour

/-- Cleared memory on a machine with 39 address bits. -/
def clearedVmm39 : Vmm Pmm :=
  { clearedVmm with
    physicalAddressWidth := 39
    kernelPm := ⟨tableAddr 0xffff800000000000 0x1⟩ }

/-- The only page of the page map is then the one at 0x400000. -/
def mappedVmm : Vmm Pmm :=
  vmmMap 0xffff800000000000 clearedVmm39 ⟨tableAddr 0xffff800000000000 0x1⟩ 0x400000 0x5000 3

theorem tables_clearedVmm39 : ∀ r ∈ ({0x1} : Set Frame), ∀ i,
    tables 0xffff800000000000 clearedVmm39.mem r i = 0 := by
  intro r _ i
  exact Memory.load64_zero _

theorem mappedVmm_step :
    MapStep 0xffff800000000000 {0x1} 39 clearedVmm39 (.map 0x1 0x400000 0x5000 3)
      mappedVmm :=
  .map rfl (by decide) (by decide) (by decide) (by decide)

theorem represents_clearedVmm39 :
    Represents 0xffff800000000000 0x1 clearedVmm39.pmm clearedVmm39 ∅ 0 :=
  .of_cleared (.of_cleared tables_clearedVmm39 servesFrames_clearedVmm) rfl tables_clearedVmm39

theorem hardwareWalk_mappedVmm :
    hardwareWalk 0xffff800000000000 mappedVmm.mem
        ⟨tableAddr 0xffff800000000000 0x1⟩ 0x400000 ≠ none ∧
      hardwareWalk 0xffff800000000000 mappedVmm.mem
        ⟨tableAddr 0xffff800000000000 0x1⟩ 0x401123 = none := by
  have hobtains : ObtainsTables 0xffff800000000000 clearedVmm39
      ⟨tableAddr 0xffff800000000000 0x1⟩ 0x400000 := by
    have hlive : clearedVmm39.pmm.live = [0x2000, 0x3000, 0x4000] :=
      (@Pmm.pushAll_spec Pmm.boot [0x2000, 0x3000, 0x4000] (by decide)).1
    have hfree : ∀ q ∈ clearedVmm39.pmm.live, q ≠ 0 ∧ q + 0xffff800000000000 ≠ 0 := by
      rw [hlive]
      exact forall_of_all (by decide +kernel)
    exact obtainsTables_of_cleared represents_clearedVmm39 ⟨0x400000, 0x5000, 3⟩
      (servesTable_pmm hfree (by rw [hlive]; decide))
  have hinv : VmmInv 0xffff800000000000 {0x1} clearedVmm39 :=
    .of_cleared tables_clearedVmm39 servesFrames_clearedVmm
  have htree := (vmmMap_inv hinv (r := 0x1) rfl 0x400000 0x5000 3).tree
  have hroot : (0x1 : Frame) ∈ ({0x1} : Set Frame) := rfl
  have hwalk := vmmMap_walk hinv hroot 0x400000 0x5000 3 hroot
  constructor
  · rw [mappedVmm, hardwareWalk_eq htree rfl, hwalk, if_pos ⟨⟨rfl, rfl⟩, hobtains⟩,
      if_pos (by decide : Present (0x5000 ||| 3))]
    exact Option.some_ne_none _
  · have hother : pageOf 0x401123 ≠ pageOf 0x400000 := by decide
    rw [mappedVmm, hardwareWalk_eq htree rfl, hwalk, if_neg fun h => hother h.1.2,
      walk_cleared tables_clearedVmm39 rfl]
    rfl

theorem emptySlot_mappedVmm : ∃ pt,
    pageTable 0xffff800000000000 mappedVmm.mem
        ⟨tableAddr 0xffff800000000000 0x1⟩ 0x401123 = some pt ∧
      mappedVmm.mem.load64 (pt + tableIndex 0x401123 12 * 8) = 0 := by
  have hinv := mapRun_inv (by decide) tables_clearedVmm39 servesFrames_clearedVmm rfl
    (Run.cons mappedVmm_step (Run.nil _))
  obtain ⟨hmapped, hnone⟩ := hardwareWalk_mappedVmm
  exact hinv.emptySlot (r := 0x1) rfl (by decide) hmapped hnone

/-- After the page at 0x400000 was mapped, unmapping the next one with release halts the
CPU in an assertion, and without release it is reported as done. -/
theorem vmmUnmap_mappedVmm : ∃ ts u,
    Run (MapStep 0xffff800000000000 {0x1} 39) clearedVmm39 ts u ∧
    hardwareWalk 0xffff800000000000 u.mem ⟨tableAddr 0xffff800000000000 0x1⟩ 0x401123 = none ∧
    vmmUnmap 0xffff800000000000 u ⟨tableAddr 0xffff800000000000 0x1⟩ 0x401123 true =
      .error (.hcf "ptr != NULL") ∧
    vmmUnmap 0xffff800000000000 u ⟨tableAddr 0xffff800000000000 0x1⟩ 0x401123 false ≠
      .ok (false, u) := by
  obtain ⟨pt, htable, hslot⟩ := emptySlot_mappedVmm
  refine ⟨_, _, Run.cons mappedVmm_step (Run.nil _), hardwareWalk_mappedVmm.2,
    vmmUnmap_emptySlot htable hslot, ?_⟩
  rw [vmmUnmap_pageTable, htable]
  intro h
  cases congrArg Prod.fst (Except.ok.inj h)

/-- In the same state `virt2phys` of the address 0x401123 is 0x123, the offset in its page. -/
theorem virt2phys_mappedVmm : ∃ ts u,
    Run (MapStep 0xffff800000000000 {0x1} 39) clearedVmm39 ts u ∧
    hardwareWalk 0xffff800000000000 u.mem ⟨tableAddr 0xffff800000000000 0x1⟩ 0x401123 = none ∧
    virt2phys 0xffff800000000000 u ⟨tableAddr 0xffff800000000000 0x1⟩ 0x401123 = 0x123 := by
  obtain ⟨pt, htable, hslot⟩ := emptySlot_mappedVmm
  refine ⟨_, _, Run.cons mappedVmm_step (Run.nil _), hardwareWalk_mappedVmm.2, ?_⟩
  rw [virt2phys_pageTable, htable]
  dsimp only
  rw [hslot]
  have hoffset : (0x401123 : Word) &&& 0xfff = 0x123 := by decide
  rw [hoffset]
  simp

theorem virt2phys_walkedPhys_iff_mappedVmm : ∃ ts u,
    Run (MapStep 0xffff800000000000 {0x1} 39) clearedVmm39 ts u ∧
    ts.map Transition.act = [.map 0x1 0x400000 0x5000 3] ∧
    (virt2phys 0xffff800000000000 u ⟨tableAddr 0xffff800000000000 0x1⟩ 0x400123 =
        walkedPhys 0xffff800000000000 u.mem ⟨tableAddr 0xffff800000000000 0x1⟩ 0x400123 ↔
      hardwareWalk 0xffff800000000000 u.mem ⟨tableAddr 0xffff800000000000 0x1⟩ 0x400123 ≠ none ∨
        pageTable 0xffff800000000000 u.mem ⟨tableAddr 0xffff800000000000 0x1⟩ 0x400123 = none ∨
        (0x400123 : Word) &&& 0xfff = 0) := by
  have hrun := Run.cons mappedVmm_step (Run.nil mappedVmm)
  exact ⟨_, _, hrun, rfl, virt2phys_walkedPhys_iff (by decide) (by decide) tables_clearedVmm39
    servesFrames_clearedVmm rfl hrun rfl _⟩

end Olive
