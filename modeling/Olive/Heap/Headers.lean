import Olive.Heap.Model

/-!
# The headers of the heap as records

A header in byte memory is read as a record of its fields, and a store to one field writes
the record with that field changed and no byte outside the 40 bytes of the header. The
proofs about the heap use these rules and the frame rules for separate headers only; the
offsets of the fields do not occur in them.
-/

namespace Olive

open Library Memory

@[ext] structure MinorHeader where
  prev : Word
  next : Word
  block : Word
  magic : BitVec 32
  size : BitVec 32
  reqSize : BitVec 32

@[ext] structure MajorHeader where
  prev : Word
  next : Word
  pages : BitVec 32
  size : BitVec 32
  usage : BitVec 32
  first : Word

def minorAt (m : Memory 64) (a : Word) : MinorHeader where
  prev := m.load64 (minPrev a)
  next := m.load64 (minNext a)
  block := m.load64 (minBlock a)
  magic := m.load32 (minMagic a)
  size := m.load32 (minSize a)
  reqSize := m.load32 (minReqSize a)

def majorAt (m : Memory 64) (a : Word) : MajorHeader where
  prev := m.load64 (majPrev a)
  next := m.load64 (majNext a)
  pages := m.load32 (majPages a)
  size := m.load32 (majSize a)
  usage := m.load32 (majUsage a)
  first := m.load64 (majFirst a)

def headerSpan (a : Word) : Set ℕ := Set.Ico a.toNat (a.toNat + 40)

def InSpace (a : Word) : Prop := a.toNat + 40 ≤ 2 ^ 64

def Clear (a b : Word) : Prop := a.toNat + 40 ≤ b.toNat ∨ b.toNat + 40 ≤ a.toNat

theorem Clear.symm {a b : Word} (h : Clear a b) : Clear b a := Or.symm h

theorem headerSpan_subset {a b : Word} (h : Clear b a) : headerSpan a ⊆ (headerSpan b)ᶜ := by
  intro x hx
  simp only [headerSpan, Clear, Set.mem_compl_iff, Set.mem_Ico] at hx h ⊢
  omega

theorem headerSpan_subset_Ico {a : Word} {lo hi : ℕ} (hlo : lo ≤ a.toNat) (hhi : a.toNat + 40 ≤ hi) :
    headerSpan a ⊆ Set.Ico lo hi := Set.Ico_subset_Ico hlo hhi

theorem offset_subset {a i : Word} {n : ℕ} (ha : InSpace a) (hi : i.toNat + n ≤ 40) (hn : 0 < n) :
    (a + i).toNat = a.toNat + i.toNat ∧
      Set.Ico (a + i).toNat ((a + i).toNat + n) ⊆ headerSpan a := by
  have hspace : a.toNat + 40 ≤ 2 ^ 64 := ha
  have hadd : (a + i).toNat = a.toNat + i.toNat := by
    rw [BitVec.toNat_add, Nat.mod_eq_of_lt (by omega)]
  refine ⟨hadd, fun x hx => ?_⟩
  simp only [hadd, headerSpan, Set.mem_Ico] at hx ⊢
  omega

/-! The first field of a header is at offset 0. -/

theorem minPrev_eq (a : Word) : minPrev a = a + 0 := (BitVec.add_zero a).symm

theorem majPrev_eq (a : Word) : majPrev a = a + 0 := (BitVec.add_zero a).symm

/-! ## Reading -/

section Reading

variable {m m' : Memory 64} {a b : Word}

theorem load64_offset (ha : InSpace a) (h : SameOn (headerSpan a) m m') (i : Word)
    (hi : i.toNat + 8 ≤ 40) : m'.load64 (a + i) = m.load64 (a + i) := by
  obtain ⟨hadd, hsub⟩ := offset_subset ha hi (by decide)
  have hspace : a.toNat + 40 ≤ 2 ^ 64 := ha
  exact h.load64 (by omega) hsub

theorem load32_offset (ha : InSpace a) (h : SameOn (headerSpan a) m m') (i : Word)
    (hi : i.toNat + 4 ≤ 40) : m'.load32 (a + i) = m.load32 (a + i) := by
  obtain ⟨hadd, hsub⟩ := offset_subset ha hi (by decide)
  have hspace : a.toNat + 40 ≤ 2 ^ 64 := ha
  exact h.load32 (by omega) hsub

theorem minorAt_congr (ha : InSpace a) (h : SameOn (headerSpan a) m m') :
    minorAt m' a = minorAt m a := by
  apply MinorHeader.ext
  · simpa only [minorAt, minPrev_eq] using load64_offset ha h 0 (by decide)
  · exact load64_offset ha h 8 (by decide)
  · exact load64_offset ha h 16 (by decide)
  · exact load32_offset ha h 24 (by decide)
  · exact load32_offset ha h 28 (by decide)
  · exact load32_offset ha h 32 (by decide)

theorem majorAt_congr (ha : InSpace a) (h : SameOn (headerSpan a) m m') :
    majorAt m' a = majorAt m a := by
  apply MajorHeader.ext
  · simpa only [majorAt, majPrev_eq] using load64_offset ha h 0 (by decide)
  · exact load64_offset ha h 8 (by decide)
  · exact load32_offset ha h 16 (by decide)
  · exact load32_offset ha h 20 (by decide)
  · exact load32_offset ha h 24 (by decide)
  · exact load64_offset ha h 32 (by decide)

theorem minorAt_of_clear (h : SameOn (headerSpan a)ᶜ m m') (hb : InSpace b) (hclear : Clear a b) :
    minorAt m' b = minorAt m b :=
  minorAt_congr hb (h.mono (headerSpan_subset hclear))

theorem majorAt_of_clear (h : SameOn (headerSpan a)ᶜ m m') (hb : InSpace b) (hclear : Clear a b) :
    majorAt m' b = majorAt m b :=
  majorAt_congr hb (h.mono (headerSpan_subset hclear))

end Reading

/-! ## Writing -/

/-- The memory `m'` is `m` with the minor header at `a` overwritten by `H`. -/
structure WritesMinor (m m' : Memory 64) (a : Word) (H : MinorHeader) : Prop where
  header : minorAt m' a = H
  same : SameOn (headerSpan a)ᶜ m m'

/-- The memory `m'` is `m` with the major header at `a` overwritten by `H`. -/
structure WritesMajor (m m' : Memory 64) (a : Word) (H : MajorHeader) : Prop where
  header : majorAt m' a = H
  same : SameOn (headerSpan a)ᶜ m m'

theorem apart_offsets (a i j : Word) {n k : ℕ} (hi : i.toNat + n ≤ 2 ^ 64) (hj : j.toNat + k ≤ 2 ^ 64)
    (h : i.toNat + n ≤ j.toNat ∨ j.toNat + k ≤ i.toNat) : Apart (a + i) n (a + j) k :=
  apart_add (apart_of_toNat hi hj h)

section Writing

variable {m : Memory 64} {a : Word}

theorem sameOn_store64_offset (ha : InSpace a) (i v : Word) (hi : i.toNat + 8 ≤ 40) :
    SameOn (headerSpan a)ᶜ m (m.store64 (a + i) v) := by
  obtain ⟨hadd, hsub⟩ := offset_subset ha hi (by decide)
  have hspace : a.toNat + 40 ≤ 2 ^ 64 := ha
  unfold store64
  exact (sameOn_store (by omega) m _).mono (Set.compl_subset_compl.mpr hsub)

theorem sameOn_store32_offset (ha : InSpace a) (i : Word) (u : BitVec 32) (hi : i.toNat + 4 ≤ 40) :
    SameOn (headerSpan a)ᶜ m (m.store32 (a + i) u) := by
  obtain ⟨hadd, hsub⟩ := offset_subset ha hi (by decide)
  have hspace : a.toNat + 40 ≤ 2 ^ 64 := ha
  unfold store32
  exact (sameOn_store (by omega) m _).mono (Set.compl_subset_compl.mpr hsub)

/-! A load at one offset behind a store at another. -/

theorem load64_store64_offset (i v j : Word) (hi : i.toNat + 8 ≤ 40) (hj : j.toNat + 8 ≤ 40)
    (h : i = j ∨ i.toNat + 8 ≤ j.toNat ∨ j.toNat + 8 ≤ i.toNat) :
    (m.store64 (a + i) v).load64 (a + j) = if j = i then v else m.load64 (a + j) := by
  split_ifs with hij
  · rw [hij]
    exact load64_store64 m (a + i) v (by decide)
  · apply load64_store64_of_apart
    exact apart_offsets a i j (by omega) (by omega) (h.resolve_left (Ne.symm hij))

theorem load32_store32_offset (i j : Word) (u : BitVec 32) (hi : i.toNat + 4 ≤ 40)
    (hj : j.toNat + 4 ≤ 40) (h : i = j ∨ i.toNat + 4 ≤ j.toNat ∨ j.toNat + 4 ≤ i.toNat) :
    (m.store32 (a + i) u).load32 (a + j) = if j = i then u else m.load32 (a + j) := by
  split_ifs with hij
  · rw [hij]
    exact load32_store32 m (a + i) u (by decide)
  · apply load32_store32_of_apart
    exact apart_offsets a i j (by omega) (by omega) (h.resolve_left (Ne.symm hij))

theorem load32_store64_offset (i v j : Word) (hi : i.toNat + 8 ≤ 40) (hj : j.toNat + 4 ≤ 40)
    (h : i.toNat + 8 ≤ j.toNat ∨ j.toNat + 4 ≤ i.toNat) :
    (m.store64 (a + i) v).load32 (a + j) = m.load32 (a + j) := by
  apply load32_store64_of_apart
  exact apart_offsets a i j (by omega) (by omega) h

theorem load64_store32_offset (i j : Word) (u : BitVec 32) (hi : i.toNat + 4 ≤ 40)
    (hj : j.toNat + 8 ≤ 40) (h : i.toNat + 4 ≤ j.toNat ∨ j.toNat + 8 ≤ i.toNat) :
    (m.store32 (a + i) u).load64 (a + j) = m.load64 (a + j) := by
  apply load64_store32_of_apart
  exact apart_offsets a i j (by omega) (by omega) h

/-! A store to one of the fields of a width is a write of the header. -/

theorem writes_minor64 (ha : InSpace a) {i : Word} (hi : i ∈ [(0 : Word), 8, 16]) (v : Word) :
    WritesMinor m (m.store64 (a + i) v) a { minorAt m a with
      prev := if 0 = i then v else (minorAt m a).prev
      next := if 8 = i then v else (minorAt m a).next
      block := if 16 = i then v else (minorAt m a).block } := by
  obtain ⟨hlt, hslot⟩ : i.toNat + 8 ≤ 24 ∧ ∀ j ∈ [(0 : Word), 8, 16],
      i = j ∨ i.toNat + 8 ≤ j.toNat ∨ j.toNat + 8 ≤ i.toNat := by
    simp only [List.mem_cons, List.not_mem_nil, or_false] at hi
    rcases hi with rfl | rfl | rfl <;> simp
  refine ⟨MinorHeader.ext ?_ ?_ ?_ ?_ ?_ ?_, sameOn_store64_offset ha i v (by omega)⟩
  · simp only [minorAt, minPrev_eq]
    exact load64_store64_offset i v 0 (by omega) (by decide) (hslot 0 (by decide))
  · exact load64_store64_offset i v 8 (by omega) (by decide) (hslot 8 (by decide))
  · exact load64_store64_offset i v 16 (by omega) (by decide) (hslot 16 (by decide))
  · exact load32_store64_offset i v 24 (by omega) (by decide) (Or.inl hlt)
  · exact load32_store64_offset i v 28 (by omega) (by decide) (Or.inl (hlt.trans (by decide)))
  · exact load32_store64_offset i v 32 (by omega) (by decide) (Or.inl (hlt.trans (by decide)))

theorem writes_minor32 (ha : InSpace a) {i : Word} (hi : i ∈ [(24 : Word), 28, 32]) (u : BitVec 32) :
    WritesMinor m (m.store32 (a + i) u) a { minorAt m a with
      magic := if 24 = i then u else (minorAt m a).magic
      size := if 28 = i then u else (minorAt m a).size
      reqSize := if 32 = i then u else (minorAt m a).reqSize } := by
  obtain ⟨hge, hlt, hslot⟩ : 24 ≤ i.toNat ∧ i.toNat + 4 ≤ 40 ∧
      ∀ j ∈ [(24 : Word), 28, 32], i = j ∨ i.toNat + 4 ≤ j.toNat ∨ j.toNat + 4 ≤ i.toNat := by
    simp only [List.mem_cons, List.not_mem_nil, or_false] at hi
    rcases hi with rfl | rfl | rfl <;> simp
  refine ⟨MinorHeader.ext ?_ ?_ ?_ ?_ ?_ ?_, sameOn_store32_offset ha i u hlt⟩
  · simp only [minorAt, minPrev_eq]
    exact load64_store32_offset i 0 u hlt (by decide) (Or.inr (le_trans (by decide) hge))
  · exact load64_store32_offset i 8 u hlt (by decide) (Or.inr (le_trans (by decide) hge))
  · exact load64_store32_offset i 16 u hlt (by decide) (Or.inr hge)
  · exact load32_store32_offset i 24 u hlt (by decide) (hslot 24 (by decide))
  · exact load32_store32_offset i 28 u hlt (by decide) (hslot 28 (by decide))
  · exact load32_store32_offset i 32 u hlt (by decide) (hslot 32 (by decide))

theorem writes_major64 (ha : InSpace a) {i : Word} (hi : i ∈ [(0 : Word), 8, 32]) (v : Word) :
    WritesMajor m (m.store64 (a + i) v) a { majorAt m a with
      prev := if 0 = i then v else (majorAt m a).prev
      next := if 8 = i then v else (majorAt m a).next
      first := if 32 = i then v else (majorAt m a).first } := by
  obtain ⟨hlt, hapart, hslot⟩ : i.toNat + 8 ≤ 40 ∧
      (∀ j ∈ [(16 : Word), 20, 24], i.toNat + 8 ≤ j.toNat ∨ j.toNat + 4 ≤ i.toNat) ∧
      ∀ j ∈ [(0 : Word), 8, 32], i = j ∨ i.toNat + 8 ≤ j.toNat ∨ j.toNat + 8 ≤ i.toNat := by
    simp only [List.mem_cons, List.not_mem_nil, or_false] at hi
    rcases hi with rfl | rfl | rfl <;> simp
  refine ⟨MajorHeader.ext ?_ ?_ ?_ ?_ ?_ ?_, sameOn_store64_offset ha i v hlt⟩
  · simp only [majorAt, majPrev_eq]
    exact load64_store64_offset i v 0 hlt (by decide) (hslot 0 (by decide))
  · exact load64_store64_offset i v 8 hlt (by decide) (hslot 8 (by decide))
  · exact load32_store64_offset i v 16 hlt (by decide) (hapart 16 (by decide))
  · exact load32_store64_offset i v 20 hlt (by decide) (hapart 20 (by decide))
  · exact load32_store64_offset i v 24 hlt (by decide) (hapart 24 (by decide))
  · exact load64_store64_offset i v 32 hlt (by decide) (hslot 32 (by decide))

theorem writes_major32 (ha : InSpace a) {i : Word} (hi : i ∈ [(16 : Word), 20, 24]) (u : BitVec 32) :
    WritesMajor m (m.store32 (a + i) u) a { majorAt m a with
      pages := if 16 = i then u else (majorAt m a).pages
      size := if 20 = i then u else (majorAt m a).size
      usage := if 24 = i then u else (majorAt m a).usage } := by
  obtain ⟨hlt, hapart, hslot⟩ : i.toNat + 4 ≤ 40 ∧
      (∀ j ∈ [(0 : Word), 8, 32], i.toNat + 4 ≤ j.toNat ∨ j.toNat + 8 ≤ i.toNat) ∧
      ∀ j ∈ [(16 : Word), 20, 24], i = j ∨ i.toNat + 4 ≤ j.toNat ∨ j.toNat + 4 ≤ i.toNat := by
    simp only [List.mem_cons, List.not_mem_nil, or_false] at hi
    rcases hi with rfl | rfl | rfl <;> simp
  refine ⟨MajorHeader.ext ?_ ?_ ?_ ?_ ?_ ?_, sameOn_store32_offset ha i u hlt⟩
  · simp only [majorAt, majPrev_eq]
    exact load64_store32_offset i 0 u hlt (by decide) (hapart 0 (by decide))
  · exact load64_store32_offset i 8 u hlt (by decide) (hapart 8 (by decide))
  · exact load32_store32_offset i 16 u hlt (by decide) (hslot 16 (by decide))
  · exact load32_store32_offset i 20 u hlt (by decide) (hslot 20 (by decide))
  · exact load32_store32_offset i 24 u hlt (by decide) (hslot 24 (by decide))
  · exact load64_store32_offset i 32 u hlt (by decide) (hapart 32 (by decide))

/-! The fields. -/

theorem writes_minPrev (ha : InSpace a) (v : Word) :
    WritesMinor m (m.store64 (minPrev a) v) a { minorAt m a with prev := v } := by
  rw [minPrev_eq]
  exact writes_minor64 ha (by decide) v

theorem writes_minNext (ha : InSpace a) (v : Word) :
    WritesMinor m (m.store64 (minNext a) v) a { minorAt m a with next := v } :=
  writes_minor64 ha (by decide) v

theorem writes_minBlock (ha : InSpace a) (v : Word) :
    WritesMinor m (m.store64 (minBlock a) v) a { minorAt m a with block := v } :=
  writes_minor64 ha (by decide) v

theorem writes_minMagic (ha : InSpace a) (u : BitVec 32) :
    WritesMinor m (m.store32 (minMagic a) u) a { minorAt m a with magic := u } :=
  writes_minor32 ha (by decide) u

theorem writes_minSize (ha : InSpace a) (u : BitVec 32) :
    WritesMinor m (m.store32 (minSize a) u) a { minorAt m a with size := u } :=
  writes_minor32 ha (by decide) u

theorem writes_minReqSize (ha : InSpace a) (u : BitVec 32) :
    WritesMinor m (m.store32 (minReqSize a) u) a { minorAt m a with reqSize := u } :=
  writes_minor32 ha (by decide) u

theorem writes_majPrev (ha : InSpace a) (v : Word) :
    WritesMajor m (m.store64 (majPrev a) v) a { majorAt m a with prev := v } := by
  rw [majPrev_eq]
  exact writes_major64 ha (by decide) v

theorem writes_majNext (ha : InSpace a) (v : Word) :
    WritesMajor m (m.store64 (majNext a) v) a { majorAt m a with next := v } :=
  writes_major64 ha (by decide) v

theorem writes_majPages (ha : InSpace a) (u : BitVec 32) :
    WritesMajor m (m.store32 (majPages a) u) a { majorAt m a with pages := u } :=
  writes_major32 ha (by decide) u

theorem writes_majSize (ha : InSpace a) (u : BitVec 32) :
    WritesMajor m (m.store32 (majSize a) u) a { majorAt m a with size := u } :=
  writes_major32 ha (by decide) u

theorem writes_majUsage (ha : InSpace a) (u : BitVec 32) :
    WritesMajor m (m.store32 (majUsage a) u) a { majorAt m a with usage := u } :=
  writes_major32 ha (by decide) u

theorem writes_majFirst (ha : InSpace a) (v : Word) :
    WritesMajor m (m.store64 (majFirst a) v) a { majorAt m a with first := v } :=
  writes_major64 ha (by decide) v

theorem WritesMinor.trans {m m₁ m₂ : Memory 64} {H H₁ : MinorHeader} (h : WritesMinor m m₁ a H)
    (h₁ : WritesMinor m₁ m₂ a H₁) : WritesMinor m m₂ a H₁ :=
  ⟨h₁.header, h.same.trans h₁.same⟩

theorem WritesMajor.trans {m m₁ m₂ : Memory 64} {H H₁ : MajorHeader} (h : WritesMajor m m₁ a H)
    (h₁ : WritesMajor m₁ m₂ a H₁) : WritesMajor m m₂ a H₁ :=
  ⟨h₁.header, h.same.trans h₁.same⟩

end Writing

/-! ## The functions that fill in a header -/

/-- `fillMinor` sets every field of the header but its links. -/
theorem writes_fillMinor {m : Memory 64} {min : Word} (hmin : InSpace min) (size reqSize maj : Word) :
    WritesMinor m (fillMinor size reqSize maj min m) min
      { minorAt m min with
        block := maj
        magic := liballocMagic
        size := size.setWidth 32
        reqSize := reqSize.setWidth 32 } := by
  have hmagic := @writes_minMagic m min hmin liballocMagic
  have hblock := hmagic.trans (writes_minBlock hmin maj)
  have hsize := hblock.trans (writes_minSize hmin (size.setWidth 32))
  have hreq := hsize.trans (writes_minReqSize hmin (reqSize.setWidth 32))
  refine ⟨hreq.header.trans ?_, hreq.same⟩
  simp only [hsize.header, hblock.header, hmagic.header]

theorem writes_initMajor {m : Memory 64} {maj : Word} (hmaj : InSpace maj) (st : BitVec 32) :
    WritesMajor m (initMajor st maj m) maj
      { prev := 0, next := 0, pages := st, size := st * lPageSize, usage := 40, first := 0 } := by
  have hprev := @writes_majPrev m maj hmaj 0
  have hnext := hprev.trans (writes_majNext hmaj 0)
  have hpages := hnext.trans (writes_majPages hmaj st)
  have hsize := hpages.trans (writes_majSize hmaj (st * lPageSize))
  have husage := hsize.trans (writes_majUsage hmaj (sizeofMajor.setWidth 32))
  have hfirst := husage.trans (writes_majFirst hmaj 0)
  refine ⟨hfirst.header.trans ?_, hfirst.same⟩
  simp only [husage.header, hsize.header, hpages.header, hnext.header, hprev.header]
  rfl

end Olive
