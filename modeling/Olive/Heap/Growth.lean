import Olive.Heap.Edits
import Olive.Heap.Install

/-!
# New major blocks

`allocate_new_page` asks for enough pages for the new minor block, unless the request is so
large that its size wraps. What the allocator needs of the pages it gets is `Fresh`: they are
page aligned and lie apart from all blocks it has. Then the new block, without minor blocks,
is linked behind the last one.
-/

namespace Olive

open Library Memory

/-- The pages at `maj` can become a major block. -/
structure Layout.Fresh (L : Layout) (maj : Word) (st : BitVec 32) : Prop where
  ne : maj ≠ 0
  aligned : PageAligned maj
  bound : maj.toNat + st.toNat * 4096 ≤ 2 ^ 64
  apart : ∀ B ∈ L.majors, B.stop ≤ maj.toNat ∨ maj.toNat + st.toNat * 4096 ≤ B.start

/-- A page count of `allocate_new_page` with room for `size` bytes in one minor block. -/
structure EnoughPages (size : ℕ) (st : BitVec 32) : Prop where
  lt : st.toNat < 2 ^ 20
  room : 40 + (40 + size) ≤ st.toNat * 4096

/-- The padded sizes for which `allocate_new_page` computes without wrapping. -/
def SizeInRange (size : Word) : Prop := size.toNat + 80 ≤ 2 ^ 32 - 4096

section PageCount

variable {size : Word}

theorem SizeInRange.toNat_setWidth (h : SizeInRange size) :
    (size.setWidth 32).toNat = size.toNat := by
  unfold SizeInRange at h
  rw [BitVec.toNat_setWidth, Nat.mod_eq_of_lt (by omega)]

theorem SizeInRange.need_lt (h : SizeInRange size) : size.toNat + 40 < 2 ^ 64 := by
  unfold SizeInRange at h
  omega

theorem SizeInRange.toNat_sum (h : SizeInRange size) :
    (((((size.setWidth 32).setWidth 64 + sizeofMajor).setWidth 32).setWidth 64 +
      sizeofMinor).setWidth 32).toNat = size.toNat + 80 := by
  have hsize := h.toNat_setWidth
  unfold SizeInRange at h
  rw [sizeofMajor, sizeofMinor]
  generalize size.setWidth 32 = s at hsize
  rw [← hsize] at h ⊢
  bv_omega

theorem SizeInRange.enoughPages (h : SizeInRange size) :
    EnoughPages size.toNat (newPageCount (size.setWidth 32)) := by
  have hsum := h.toNat_sum
  unfold SizeInRange at h
  have hpage : lPageSize.toNat = 4096 := rfl
  have hcount : lPageCount.toNat = 16 := rfl
  unfold newPageCount
  dsimp only
  generalize ((((size.setWidth 32).setWidth 64 + sizeofMajor).setWidth 32).setWidth 64 +
    sizeofMinor).setWidth 32 = st at hsum
  have hst : ∃ r : BitVec 32, (if st % lPageSize = 0 then st / lPageSize else st / lPageSize + 1) = r ∧
      r.toNat < 2 ^ 20 ∧ st.toNat ≤ r.toNat * 4096 := by
    refine ⟨_, rfl, ?_⟩
    have hdiv : (st / lPageSize).toNat = st.toNat / 4096 := by rw [BitVec.toNat_udiv, hpage]
    have hmod : st % lPageSize = 0 ↔ st.toNat % 4096 = 0 := by
      rw [← BitVec.toNat_inj, BitVec.toNat_umod, hpage]
      rfl
    split_ifs with hzero
    · rw [hmod] at hzero
      rw [hdiv]
      omega
    · rw [hmod] at hzero
      rw [BitVec.toNat_add, hdiv, show (1 : BitVec 32).toNat = 1 from rfl]
      omega
  obtain ⟨r, hr, hlt, hle⟩ := hst
  rw [hr]
  split_ifs with hmin
  · rw [BitVec.lt_def, hcount] at hmin
    constructor
    · rw [hcount]
      omega
    · rw [hcount]
      omega
  · constructor
    · exact hlt
    · omega

end PageCount

def MajorBlock.empty (maj : Word) (st : BitVec 32) (hne : maj ≠ 0) (haligned : PageAligned maj)
    (hbound : maj.toNat + st.toNat * 4096 ≤ 2 ^ 64) (hlt : st.toNat < 2 ^ 20)
    (hpos : 40 ≤ st.toNat * 4096) : MajorBlock where
  addr := maj
  pages := st
  minors := []
  addr_ne := hne
  aligned := haligned
  pages_lt := hlt
  bound := hbound
  packed := by
    change maj.toNat + 40 ≤ maj.toNat + st.toNat * 4096
    omega

def Layout.append (L : Layout) (C : MajorBlock)
    (h : ∀ B ∈ L.majors, B.stop ≤ C.start ∨ C.stop ≤ B.start) : Layout where
  majors := L.majors ++ [C]
  apart := by
    rw [List.pairwise_append]
    refine ⟨L.apart, List.pairwise_singleton _ _, ?_⟩
    intro B hB D hD
    rw [List.mem_singleton] at hD
    subst hD
    exact h B hB

/-- What changes of the memory lies in `S`, and no minor block of `bs` is written to behind
its header. -/
structure Keeps (S : Set ℕ) (bs : List MinorBlock) (m m' : Memory 64) : Prop where
  outside : SameOn Sᶜ m m'
  payloads : ∀ b ∈ bs, SameOn (Set.Ico (b.start + 40) b.stop) m m'

theorem Keeps.trans {S T : Set ℕ} {bs cs : List MinorBlock} {m m₁ m₂ : Memory 64}
    (h : Keeps S bs m m₁) (h' : Keeps T cs m₁ m₂) (hST : S ⊆ T) (hbc : bs ⊆ cs) :
    Keeps T bs m m₂ where
  outside := (h.outside.mono (Set.compl_subset_compl.mpr hST)).trans h'.outside
  payloads b hb := (h.payloads b hb).trans (h'.payloads b (hbc hb))

theorem Keeps.refl (S : Set ℕ) (bs : List MinorBlock) (m : Memory 64) : Keeps S bs m m where
  outside := .refl _ _
  payloads _ _ := .refl _ _

/-- The layout `L'` is `L` with the empty major block `C` behind the last one. -/
structure Grows (L L' : Layout) (C : MajorBlock) (maj : Word) (st : BitVec 32) : Prop where
  majors : L'.majors = L.majors ++ [C]
  addr : C.addr = maj
  pages : C.pages = st
  minors : C.minors = []

theorem Layout.Fresh.grows {L : Layout} {maj : Word} {st : BitVec 32} {size : ℕ}
    (h : L.Fresh maj st) (hst : EnoughPages size st) : ∃ L' C, Grows L L' C maj st := by
  have hroom := hst.room
  exact ⟨L.append (.empty maj st h.ne h.aligned h.bound hst.lt (by omega)) h.apart, _,
    rfl, rfl, rfl, rfl⟩

section Grows

variable {L L' : Layout} {B C : MajorBlock} {maj : Word} {st : BitVec 32} {m m' : Memory 64}

theorem Grows.mem (hg : Grows L L' C maj st) : C ∈ L'.majors := by
  rw [hg.majors]
  simp

theorem Grows.mem_of_mem (hg : Grows L L' C maj st) (hB : B ∈ L.majors) : B ∈ L'.majors := by
  rw [hg.majors]
  exact List.mem_append_left _ hB

theorem Grows.mem_or_eq (hg : Grows L L' C maj st) (D : MajorBlock) (hD : D ∈ L'.majors) :
    D ∈ L.majors ∨ D = C := by
  rw [hg.majors, List.mem_append, List.mem_singleton] at hD
  exact hD

theorem Grows.ne (hg : Grows L L' C maj st) (hB : B ∈ L.majors) : B ≠ C := by
  have hnodup := L'.nodup_majors
  rw [hg.majors] at hnodup
  rintro rfl
  exact (List.nodup_append'.mp hnodup).2.2 hB (List.mem_singleton_self _)

theorem Grows.blocks (hg : Grows L L' C maj st) : L'.blocks = L.blocks := by
  unfold Layout.blocks
  rw [hg.majors, List.flatMap_append, List.flatMap_singleton, hg.minors, List.append_nil]

theorem Grows.taken (hg : Grows L L' C maj st) : L'.taken = L.taken := by
  unfold Layout.taken
  rw [hg.blocks]

theorem Grows.bytes (hg : Grows L L' C maj st) : L'.bytes = L.bytes + st.toNat * 4096 := by
  unfold Layout.bytes
  rw [hg.majors, List.map_append, List.sum_append, List.map_singleton, List.sum_singleton, hg.pages]

theorem Grows.addrs (hg : Grows L L' C maj st) : L'.addrs = L.addrs ++ [maj] := by
  unfold Layout.addrs
  rw [hg.majors, List.map_append, List.map_singleton, hg.addr]

theorem Grows.runs (hg : Grows L L' C maj st) : L'.runs = L.runs ++ [(maj, st)] := by
  unfold Layout.runs
  rw [hg.majors, List.map_append, List.map_singleton, hg.addr, hg.pages]

theorem Grows.span_subset (hg : Grows L L' C maj st) : L.span ⊆ L'.span := by
  rintro x ⟨B, hB, hx⟩
  exact ⟨B, hg.mem_of_mem hB, hx⟩

theorem Layout.header_subset (hB : B ∈ L.majors) : headerSpan B.addr ⊆ L.span := by
  exact fun x hx => ⟨B, hB, B.header_subset hx⟩

theorem Layout.block_subset {b : MinorBlock} (hb : b ∈ L.blocks) :
    ∃ B ∈ L.majors, b ∈ B.minors ∧ Set.Ico (b.start + 40) b.stop ⊆ Set.Ico (B.start + 40) B.stop := by
  obtain ⟨B, hB, hbB⟩ := List.mem_flatMap.mp hb
  obtain ⟨hlo, hhi⟩ := MajorBlock.minor_bounds hbB
  exact ⟨B, hB, hbB, Set.Ico_subset_Ico (by omega) hhi⟩

def newMajorHeader (st : BitVec 32) (prev : Word) : MajorHeader where
  prev := prev
  next := 0
  pages := st
  size := st * lPageSize
  usage := 40
  first := 0

theorem Grows.stored (hg : Grows L L' C maj st) {prev : Word}
    (h : majorAt m C.addr = newMajorHeader st prev) : C.Stored m := by
  constructor
  · rw [h, hg.pages]
    rfl
  · rw [h, hg.pages]
    rfl
  · rw [h, MajorBlock.used, hg.minors]
    rfl
  · rw [h, hg.minors]
    rfl
  · rw [hg.minors]
    trivial
  · intro b hb
    rw [hg.minors] at hb
    cases hb

end Grows

section Attach

variable {h : Heap} {L L' : Layout} {B C : MajorBlock} {maj : Word} {st : BitVec 32} {m : Memory 64}

theorem allocateNewPage_served {size : BitVec 32}
    (hne : (liballocAlloc h.pmm (newPageCount size)).1 ≠ 0) :
    allocateNewPage size h = ((liballocAlloc h.pmm (newPageCount size)).1, { h with
      pmm := (liballocAlloc h.pmm (newPageCount size)).2
      mem := initMajor (newPageCount size) (liballocAlloc h.pmm (newPageCount size)).1 h.mem
      allocated := h.allocated + loadUInt (initMajor (newPageCount size)
        (liballocAlloc h.pmm (newPageCount size)).1 h.mem)
          (majSize (liballocAlloc h.pmm (newPageCount size)).1) }) := by
  simp only [allocateNewPage, if_neg hne]

theorem Grows.allocated (hg : Grows L L' C maj st) (hrep : h.Represents L)
    (hm : majorAt m maj = newMajorHeader st 0) :
    h.allocated + loadUInt m (majSize maj) = BitVec.ofNat 64 L'.bytes := by
  have hsize : m.load32 (majSize maj) = st * lPageSize := congrArg MajorHeader.size hm
  have hlt := C.pages_lt
  rw [hg.pages] at hlt
  have hprod : ((st * lPageSize).setWidth 64) = BitVec.ofNat 64 (st.toNat * 4096) := by
    apply BitVec.eq_of_toNat_eq
    rw [BitVec.toNat_setWidth, BitVec.toNat_mul, show lPageSize.toNat = 4096 from rfl,
      BitVec.toNat_ofNat, Nat.mod_eq_of_lt (by omega : st.toNat * 4096 < 2 ^ 32)]
  rw [hrep.allocated, hg.bytes, BitVec.ofNat_add, loadUInt, hsize, hprod]

theorem Heap.Represents.append_first (hg : Grows L L' C maj st) (hrep : h.Represents L)
    (hL : L.majors = [])
    (pmm : Pmm) :
    ({ h with
      pmm := pmm
      mem := initMajor st maj h.mem
      memRoot := maj
      allocated := h.allocated + loadUInt (initMajor st maj h.mem) (majSize maj) } : Heap).Represents
        L' ∧ Keeps L'.span L.blocks h.mem (initMajor st maj h.mem) := by
  have hspace := C.inSpace
  have hCne := C.addr_ne
  rw [hg.addr] at hspace
  have w := writes_initMajor (m := h.mem) hspace st
  have haddrs : L.addrs = [] := by
    unfold Layout.addrs
    rw [hL]
    rfl
  have hheader : majorAt (initMajor st maj h.mem) C.addr = newMajorHeader st 0 := by
    rw [hg.addr]
    exact w.header
  constructor
  · apply hrep.append hg.majors
    · rw [hL]
      exact ⟨by simp, by simp, by simp, by simp⟩
    · exact hg.stored hheader
    · rw [hheader, haddrs]
      rfl
    · rw [hheader]
      rfl
    · rw [hg.addrs, haddrs]
      rfl
    · rfl
    · rw [hg.taken]
      exact hrep.inuse
    · exact hg.allocated hrep w.header
  · constructor
    · apply w.same.mono
      apply Set.compl_subset_compl.mpr
      rw [← hg.addr]
      exact Layout.header_subset hg.mem
    · intro b hb
      obtain ⟨B, hB, -⟩ := Layout.block_subset hb
      rw [hL] at hB
      cases hB

def linkMajor (st : BitVec 32) (last maj : Word) (m : Memory 64) : Memory 64 :=
  ((initMajor st maj m).store64 (majNext last) maj).store64 (majPrev maj) last

/-- What `linkMajor` leaves: the new header, linked behind the last major block. -/
structure Attached (m m' : Memory 64) (L L' : Layout) (B C : MajorBlock) (st : BitVec 32) : Prop where
  header : majorAt m' C.addr = newMajorHeader st B.addr
  relinks : Relinks m m' L.majors [] C.addr C.addr
  outside : SameOn L'.spanᶜ m m'

theorem linkMajor_attached (hg : Grows L L' C maj st) (hlast : L.majors.getLast? = some B) :
    Attached m (linkMajor st B.addr maj m) L L' B C st := by
  have hB : B ∈ L.majors := List.mem_of_mem_getLast? hlast
  have hclear : ∀ D ∈ L.majors, Clear D.addr maj := fun D hD =>
    hg.addr ▸ Layout.clear_majors (hg.mem_of_mem hD) hg.mem (hg.ne hD)
  have hspace : InSpace maj := hg.addr ▸ C.inSpace
  unfold linkMajor
  have w₁ := writes_initMajor (m := m) hspace st
  generalize initMajor st maj m = m₁ at w₁ ⊢
  have w₂ := writes_majNext (m := m₁) B.inSpace maj
  generalize m₁.store64 (majNext B.addr) maj = m₂ at w₂ ⊢
  have w₃ := writes_majPrev (m := m₂) hspace B.addr
  generalize m₂.store64 (majPrev maj) B.addr = m₃ at w₃ ⊢
  have hkeeps : ∀ S : Set ℕ, S ⊆ (headerSpan maj)ᶜ → S ⊆ (headerSpan B.addr)ᶜ → SameOn S m m₃ :=
    fun S hnew hold => (w₁.same.mono hnew).trans ((w₂.same.mono hold).trans (w₃.same.mono hnew))
  refine ⟨?_, ⟨?_, by simp, ?_, ?_⟩, ?_⟩
  · rw [hg.addr, w₃.header, majorAt_of_clear w₂.same hspace (hclear B hB), w₁.header]
    rfl
  · intro D hD
    rw [hlast] at hD
    cases hD
    rw [majorAt_of_clear w₃.same B.inSpace (hclear B hB).symm, w₂.header,
      majorAt_of_clear w₁.same B.inSpace (hclear B hB).symm, hg.addr]
  · intro D hD hne _
    rw [List.append_nil] at hD
    have hDB : B ≠ D := by
      rintro rfl
      exact hne hlast
    rw [majorAt_of_clear w₃.same D.inSpace (hclear D hD).symm,
      majorAt_of_clear w₂.same D.inSpace (Layout.clear_majors hB hD hDB),
      majorAt_of_clear w₁.same D.inSpace (hclear D hD).symm]
  · intro D hD
    rw [List.append_nil] at hD
    apply hkeeps
    · rw [← hg.addr]
      exact Layout.behind_subset_compl_header (hg.mem_of_mem hD) hg.mem
    · exact Layout.behind_subset_compl_header hD hB
  · apply hkeeps
    · rw [← hg.addr]
      exact Set.compl_subset_compl.mpr (Layout.header_subset hg.mem)
    · exact Set.compl_subset_compl.mpr (Layout.header_subset (hg.mem_of_mem hB))

theorem Heap.Represents.append_last (hg : Grows L L' C maj st) (hrep : h.Represents L)
    (hlast : L.majors.getLast? = some B) (pmm : Pmm) :
    ({ h with
      pmm := pmm
      mem := linkMajor st B.addr maj h.mem
      allocated := h.allocated + loadUInt (initMajor st maj h.mem) (majSize maj) } : Heap).Represents
        L' ∧ Keeps L'.span L.blocks h.mem (linkMajor st B.addr maj h.mem) := by
  have hspace : InSpace maj := hg.addr ▸ C.inSpace
  have halloc := hg.allocated hrep (writes_initMajor (m := h.mem) hspace st).header
  have hatt := linkMajor_attached (m := h.mem) hg hlast
  generalize Olive.linkMajor st B.addr maj h.mem = m at hatt ⊢
  constructor
  · apply hrep.append hg.majors hatt.relinks (hg.stored hatt.header)
    · rw [hatt.header]
      unfold Layout.addrs
      rw [List.getLastD_eq_getLast?, List.getLast?_map, hlast]
      rfl
    · rw [hatt.header]
      rfl
    · have hroot := hrep.root
      rw [hg.addrs]
      unfold Layout.addrs at hroot ⊢
      obtain ⟨D, Ds, hD⟩ := List.exists_cons_of_ne_nil (List.ne_nil_of_mem
        (List.mem_of_mem_getLast? hlast))
      rw [hD] at hroot ⊢
      exact hroot
    · rfl
    · rw [hg.taken]
      exact hrep.inuse
    · exact halloc
  · refine ⟨hatt.outside, fun b hb => ?_⟩
    obtain ⟨D, hD, -, hsub⟩ := Layout.block_subset hb
    exact (hatt.relinks.same D (List.mem_append_left _ hD)).mono hsub

end Attach

end Olive
