import Olive.Heap.Splices

/-!
# Placing a minor block

A place of `kmalloc` is a cut in the list of minor blocks with enough room behind the front
part. At each of the four kinds of cut `linkMinor` links the new block in, and `install`
brings the header of the major block up to date and notes the distance of the payload.
-/

namespace Olive

open Library Memory

/-- The place at the cut between two parts of a list of minor blocks. -/
def placeAt (xs ys : List MinorBlock) : Place :=
  match xs.getLast?, ys with
  | none, [] => .empty
  | none, _ :: _ => .front
  | some a, [] => .last a.addr
  | some a, _ :: _ => .gap a.addr

def newHeader (maj : Word) (xs ys : List MinorBlock) (b : MinorBlock) : MinorHeader where
  prev := (xs.map MinorBlock.addr).getLastD 0
  next := (ys.map MinorBlock.addr).headD 0
  block := maj
  magic := liballocMagic
  size := b.size
  reqSize := b.reqSize

/-- The major block `B` is to become `B'`, which has the block `b` between `xs` and `ys`. -/
structure Inserts (B B' : MajorBlock) (xs ys : List MinorBlock) (b : MinorBlock) : Prop where
  addr : B'.addr = B.addr
  pages : B'.pages = B.pages
  before : B.minors = xs ++ ys
  after : B'.minors = xs ++ b :: ys
  start : b.start = endOf MinorBlock.stop (B.start + 40) xs

section Link

variable {m : Memory 64} {B B' : MajorBlock} {xs ys : List MinorBlock} {a b c : MinorBlock}
  {size reqSize : Word}

/-- The first block is put right behind the header, every other one behind the one in front. -/
theorem Inserts.addr_of_nil (h : Inserts B B' [] ys b) : b.addr = B.addr + sizeofMajor := by
  have hstart := h.start
  have hle := B.header_le
  have hstop := B.stop_le
  have hb := b.start_lt_stop
  have hbstop := MajorBlock.minor_stop_le (B := B') (b := b) (by rw [h.after]; simp)
  rw [endOf_nil] at hstart
  unfold MinorBlock.start MajorBlock.start at hstart
  unfold MinorBlock.start at hb
  rw [sizeofMajor]
  bv_omega

theorem Inserts.addr_of_concat {xs : List MinorBlock} (h : Inserts B B' (xs ++ [a]) ys b) :
    b.addr = a.addr + sizeofMinor + a.size.setWidth 64 := by
  have hstart := h.start
  have hb := b.start_lt_stop
  have hbstop := MajorBlock.minor_stop_le (B := B') (b := b) (by rw [h.after]; simp)
  rw [endOf_concat] at hstart
  unfold MinorBlock.start MinorBlock.stop at hstart
  unfold MinorBlock.start at hb
  rw [sizeofMinor]
  have hwidth : (a.size.setWidth 64).toNat = a.size.toNat := by
    rw [BitVec.toNat_setWidth, Nat.mod_eq_of_lt (by have := a.size.isLt; omega)]
  bv_omega

/-- What `linkMinor` leaves at a place, whichever of the four it is. -/
structure Linking (m : Memory 64) (B : MajorBlock) (xs ys : List MinorBlock) (b : MinorBlock)
    (r : Word × Memory 64) : Prop where
  addr : r.1 = b.addr
  splices : Splices m r.2 B.addr xs ys b b.addr b.addr
  header : minorAt r.2 b.addr = newHeader B.addr xs ys b

theorem linkMinor_empty (h : Inserts B B' [] [] b) (hsize : b.size = size.setWidth 32)
    (hreq : b.reqSize = reqSize.setWidth 32) :
    Linking m B [] [] b (linkMinor size reqSize B.addr m .empty) := by
  have hb : b ∈ B'.minors := by rw [h.after]; simp
  have hclear : Clear B.addr b.addr := h.addr ▸ MajorBlock.clear_header hb
  have hspace := b.inSpace (MajorBlock.minor_stop_le hb)
  simp only [linkMinor, ← h.addr_of_nil]
  have w₁ := writes_majFirst (m := m) B.inSpace b.addr
  generalize m.store64 (majFirst B.addr) b.addr = m₁ at w₁ ⊢
  have w₂ := writes_minPrev (m := m₁) hspace 0
  generalize m₁.store64 (minPrev b.addr) 0 = m₂ at w₂ ⊢
  have w₃ := w₂.trans (writes_minNext hspace 0)
  generalize m₂.store64 (minNext b.addr) 0 = m₃ at w₃ ⊢
  have w₄ := w₃.trans (writes_fillMinor hspace size reqSize B.addr)
  generalize fillMinor size reqSize B.addr b.addr m₃ = m₄ at w₄ ⊢
  refine ⟨rfl, ⟨by simp, by simp, ?_, ?_⟩, ?_⟩
  · rw [majorAt_of_clear w₄.same B.inSpace hclear.symm, w₁.header]
    simp
  · intro x hx
    have hmaj : x.toNat ∈ (headerSpan B.addr)ᶜ := fun hm => hx (Or.inl hm)
    have hmin : x.toNat ∈ (headerSpan b.addr)ᶜ := fun hm => hx (Or.inr (Or.inl hm))
    exact (w₄.same x hmin).trans (w₁.same x hmaj)
  · rw [w₄.header, w₃.header, w₂.header]
    simp [newHeader, hsize, hreq]

theorem linkMinor_front (hB : B.Stored m) (h : Inserts B B' [] (c :: ys) b)
    (hsize : b.size = size.setWidth 32) (hreq : b.reqSize = reqSize.setWidth 32) :
    Linking m B [] (c :: ys) b (linkMinor size reqSize B.addr m .front) := by
  have hb : b ∈ B'.minors := by rw [h.after]; simp
  obtain ⟨hc, hcb⟩ := mem_of_rest h.after (c := c) (by simp)
  have hbclear : Clear B.addr b.addr := h.addr ▸ MajorBlock.clear_header hb
  have hcclear : Clear B.addr c.addr := h.addr ▸ MajorBlock.clear_header hc
  have hclear : Clear b.addr c.addr := MajorBlock.clear_minors hb hc hcb.symm
  have hbspace := b.inSpace (MajorBlock.minor_stop_le hb)
  have hcspace := c.inSpace (MajorBlock.minor_stop_le hc)
  have hfirst : m.load64 (majFirst B.addr) = c.addr := by
    have := hB.first
    rw [h.before] at this
    exact this
  simp only [linkMinor, ← h.addr_of_nil, hfirst]
  have w₁ := writes_minPrev (m := m) hcspace b.addr
  generalize m.store64 (minPrev c.addr) b.addr = m₁ at w₁ ⊢
  have hmaj₁ := majorAt_of_clear w₁.same B.inSpace hcclear.symm
  rw [show m₁.load64 (majFirst B.addr) = c.addr from (congrArg MajorHeader.first hmaj₁).trans hfirst,
    show m₁.load64 (minPrev c.addr) = b.addr from congrArg MinorHeader.prev w₁.header]
  have w₂ := writes_minNext (m := m₁) hbspace c.addr
  generalize m₁.store64 (minNext b.addr) c.addr = m₂ at w₂ ⊢
  have hmaj₂ := (majorAt_of_clear w₂.same B.inSpace hbclear.symm).trans hmaj₁
  have hc₂ := (minorAt_of_clear w₂.same hcspace hclear).trans w₁.header
  rw [show m₂.load64 (majFirst B.addr) = c.addr from (congrArg MajorHeader.first hmaj₂).trans hfirst,
    show m₂.load64 (minPrev c.addr) = b.addr from congrArg MinorHeader.prev hc₂]
  have w₃ := writes_majFirst (m := m₂) B.inSpace b.addr
  generalize m₂.store64 (majFirst B.addr) b.addr = m₃ at w₃ ⊢
  rw [show m₃.load64 (majFirst B.addr) = b.addr from congrArg MajorHeader.first w₃.header]
  have w₄ := writes_minPrev (m := m₃) hbspace 0
  generalize m₃.store64 (minPrev b.addr) 0 = m₄ at w₄ ⊢
  have w₅ := w₄.trans (writes_fillMinor hbspace size reqSize B.addr)
  generalize fillMinor size reqSize B.addr b.addr m₄ = m₅ at w₅ ⊢
  refine ⟨rfl, ⟨by simp, ?_, ?_, ?_⟩, ?_⟩
  · intro a ha
    cases ha
    rw [minorAt_of_clear w₅.same hcspace hclear, minorAt_of_clear w₃.same hcspace hcclear, hc₂]
  · rw [majorAt_of_clear w₅.same B.inSpace hbclear.symm, w₃.header, hmaj₂]
    simp
  · intro x hx
    have hmaj : x.toNat ∈ (headerSpan B.addr)ᶜ := fun hm => hx (Or.inl hm)
    have hmin : x.toNat ∈ (headerSpan b.addr)ᶜ := fun hm => hx (Or.inr (Or.inl hm))
    have hnext : x.toNat ∈ (headerSpan c.addr)ᶜ :=
      fun hm => hx (Or.inr (Or.inr ⟨c, Or.inr rfl, hm⟩))
    exact (w₅.same x hmin).trans ((w₃.same x hmaj).trans ((w₂.same x hmin).trans (w₁.same x hnext)))
  · have hb₃ := minorAt_of_clear w₃.same hbspace hbclear
    rw [w₅.header, w₄.header, hb₃, w₂.header]
    simp [newHeader, hsize, hreq]

theorem linkMinor_last {xs : List MinorBlock} (hB : B.Stored m) (h : Inserts B B' (xs ++ [a]) [] b)
    (hsize : b.size = size.setWidth 32) (hreq : b.reqSize = reqSize.setWidth 32) :
    Linking m B (xs ++ [a]) [] b (linkMinor size reqSize B.addr m (.last a.addr)) := by
  have hb : b ∈ B'.minors := by rw [h.after]; simp
  obtain ⟨ha, hab⟩ := mem_of_rest h.after (c := a) (by simp)
  have hbclear : Clear B.addr b.addr := h.addr ▸ MajorBlock.clear_header hb
  have haclear : Clear B.addr a.addr := h.addr ▸ MajorBlock.clear_header ha
  have hclear : Clear b.addr a.addr := MajorBlock.clear_minors hb ha hab.symm
  have hbspace := b.inSpace (MajorBlock.minor_stop_le hb)
  have haspace := a.inSpace (MajorBlock.minor_stop_le ha)
  have hasize : loadUInt m (minSize a.addr) = a.size.setWidth 64 := by
    have := (hB.minors a (by rw [h.before]; simp)).size
    exact congrArg (BitVec.setWidth 64) this
  simp only [linkMinor, hasize, ← h.addr_of_concat]
  have w₁ := writes_minNext (m := m) haspace b.addr
  generalize m.store64 (minNext a.addr) b.addr = m₁ at w₁ ⊢
  rw [show m₁.load64 (minNext a.addr) = b.addr from congrArg MinorHeader.next w₁.header]
  have w₂ := writes_minPrev (m := m₁) hbspace a.addr
  generalize m₁.store64 (minPrev b.addr) a.addr = m₂ at w₂ ⊢
  have ha₂ := (minorAt_of_clear w₂.same haspace hclear).trans w₁.header
  rw [show m₂.load64 (minNext a.addr) = b.addr from congrArg MinorHeader.next ha₂]
  have w₃ := w₂.trans (writes_minNext hbspace 0)
  generalize m₂.store64 (minNext b.addr) 0 = m₃ at w₃ ⊢
  have w₄ := w₃.trans (writes_fillMinor hbspace size reqSize B.addr)
  generalize fillMinor size reqSize B.addr b.addr m₃ = m₄ at w₄ ⊢
  refine ⟨rfl, ⟨?_, by simp, ?_, ?_⟩, ?_⟩
  · intro c hc
    rw [List.getLast?_concat] at hc
    cases hc
    rw [minorAt_of_clear w₄.same haspace hclear, w₁.header]
  · rw [majorAt_of_clear w₄.same B.inSpace hbclear.symm,
      majorAt_of_clear w₁.same B.inSpace haclear.symm]
    simp
  · intro x hx
    have hmin : x.toNat ∈ (headerSpan b.addr)ᶜ := fun hm => hx (Or.inr (Or.inl hm))
    have hprev : x.toNat ∈ (headerSpan a.addr)ᶜ :=
      fun hm => hx (Or.inr (Or.inr ⟨a, Or.inl List.getLast?_concat, hm⟩))
    exact (w₄.same x hmin).trans (w₁.same x hprev)
  · rw [w₄.header, w₃.header, w₂.header]
    simp [newHeader, hsize, hreq]

theorem linkMinor_gap {xs : List MinorBlock} (hB : B.Stored m)
    (h : Inserts B B' (xs ++ [a]) (c :: ys) b) (hsize : b.size = size.setWidth 32)
    (hreq : b.reqSize = reqSize.setWidth 32) :
    Linking m B (xs ++ [a]) (c :: ys) b (linkMinor size reqSize B.addr m (.gap a.addr)) := by
  have hb : b ∈ B'.minors := by rw [h.after]; simp
  obtain ⟨ha, hab⟩ := mem_of_rest h.after (c := a) (by simp)
  obtain ⟨hc, hcb⟩ := mem_of_rest h.after (c := c) (by simp)
  have hac : a ≠ c := by
    have hnodup := B.nodup_minors
    rw [h.before, List.append_assoc] at hnodup
    have htail := (List.nodup_append'.mp hnodup).2.1
    rintro rfl
    simp at htail
  have hbclear : Clear B.addr b.addr := h.addr ▸ MajorBlock.clear_header hb
  have haclear : Clear B.addr a.addr := h.addr ▸ MajorBlock.clear_header ha
  have hcclear : Clear B.addr c.addr := h.addr ▸ MajorBlock.clear_header hc
  have hba : Clear b.addr a.addr := MajorBlock.clear_minors hb ha hab.symm
  have hbc : Clear b.addr c.addr := MajorBlock.clear_minors hb hc hcb.symm
  have hclear : Clear a.addr c.addr := MajorBlock.clear_minors ha hc hac
  have hbspace := b.inSpace (MajorBlock.minor_stop_le hb)
  have haspace := a.inSpace (MajorBlock.minor_stop_le ha)
  have hcspace := c.inSpace (MajorBlock.minor_stop_le hc)
  have hasize : loadUInt m (minSize a.addr) = a.size.setWidth 64 := by
    have := (hB.minors a (by rw [h.before]; simp)).size
    exact congrArg (BitVec.setWidth 64) this
  have hnext : m.load64 (minNext a.addr) = c.addr := by
    have hlinked := hB.linked
    rw [h.before, List.append_assoc, List.map_append, List.map_append] at hlinked
    exact hlinked.neighbours.2
  simp only [linkMinor, hasize, ← h.addr_of_concat, hnext]
  have w₁ := writes_minNext (m := m) hbspace c.addr
  generalize m.store64 (minNext b.addr) c.addr = m₁ at w₁ ⊢
  have w₂ := w₁.trans (writes_minPrev hbspace a.addr)
  generalize m₁.store64 (minPrev b.addr) a.addr = m₂ at w₂ ⊢
  have w₃ := w₂.trans (writes_fillMinor hbspace size reqSize B.addr)
  generalize fillMinor size reqSize B.addr b.addr m₂ = m₃ at w₃ ⊢
  have ha₃ := minorAt_of_clear w₃.same haspace hba
  rw [show m₃.load64 (minNext a.addr) = c.addr from (congrArg MinorHeader.next ha₃).trans hnext]
  have w₄ := writes_minPrev (m := m₃) hcspace b.addr
  generalize m₃.store64 (minPrev c.addr) b.addr = m₄ at w₄ ⊢
  have w₅ := writes_minNext (m := m₄) haspace b.addr
  generalize m₄.store64 (minNext a.addr) b.addr = m₅ at w₅ ⊢
  refine ⟨rfl, ⟨?_, ?_, ?_, ?_⟩, ?_⟩
  · intro d hd
    rw [List.getLast?_concat] at hd
    cases hd
    rw [w₅.header, minorAt_of_clear w₄.same haspace hclear.symm, ha₃]
  · intro d hd
    cases hd
    rw [minorAt_of_clear w₅.same hcspace hclear, w₄.header, minorAt_of_clear w₃.same hcspace hbc]
  · rw [majorAt_of_clear w₅.same B.inSpace haclear.symm,
      majorAt_of_clear w₄.same B.inSpace hcclear.symm,
      majorAt_of_clear w₃.same B.inSpace hbclear.symm]
    simp
  · intro x hx
    have hmin : x.toNat ∈ (headerSpan b.addr)ᶜ := fun hm => hx (Or.inr (Or.inl hm))
    have hprev : x.toNat ∈ (headerSpan a.addr)ᶜ :=
      fun hm => hx (Or.inr (Or.inr ⟨a, Or.inl List.getLast?_concat, hm⟩))
    have hsucc : x.toNat ∈ (headerSpan c.addr)ᶜ :=
      fun hm => hx (Or.inr (Or.inr ⟨c, Or.inr rfl, hm⟩))
    exact (w₅.same x hprev).trans ((w₄.same x hsucc).trans (w₃.same x hmin))
  · rw [minorAt_of_clear w₅.same hbspace hba.symm, minorAt_of_clear w₄.same hbspace hbc.symm,
      w₃.header, w₂.header, w₁.header]
    simp [newHeader, hsize, hreq]

theorem linkMinor_placeAt (hB : B.Stored m) (h : Inserts B B' xs ys b)
    (hsize : b.size = size.setWidth 32) (hreq : b.reqSize = reqSize.setWidth 32) :
    Linking m B xs ys b (linkMinor size reqSize B.addr m (placeAt xs ys)) := by
  rcases List.eq_nil_or_concat xs with rfl | ⟨xs, a, rfl⟩
  · cases ys with
    | nil => exact linkMinor_empty h hsize hreq
    | cons c ys => exact linkMinor_front hB h hsize hreq
  · have hlast : (xs ++ [a]).getLast? = some a := List.getLast?_concat
    simp only [List.concat_eq_append] at h ⊢
    unfold placeAt
    rw [hlast]
    cases ys with
    | nil => exact linkMinor_last hB h hsize hreq
    | cons c ys => exact linkMinor_gap hB h hsize hreq

theorem Inserts.used (h : Inserts B B' xs ys b) : B'.used = B.used + (40 + b.size.toNat) := by
  unfold MajorBlock.used
  rw [h.before, h.after]
  simp only [List.map_append, List.map_cons, List.sum_append, List.sum_cons]
  omega

theorem Inserts.usage (h : Inserts B B' xs ys b) (hsize : b.size = size.setWidth 32) :
    ((BitVec.ofNat 32 B.used).setWidth 64 + (size + sizeofMinor)).setWidth 32 =
      BitVec.ofNat 32 B'.used := by
  have hcast : ((BitVec.ofNat 32 B.used).setWidth 64).setWidth 32 = BitVec.ofNat 32 B.used :=
    BitVec.setWidth_setWidth_of_le _ (by decide)
  rw [h.used, BitVec.setWidth_add _ _ (by decide), hcast, BitVec.setWidth_add _ _ (by decide),
    BitVec.ofNat_add, BitVec.ofNat_add, ← hsize, BitVec.ofNat_toNat, BitVec.setWidth_eq,
    BitVec.add_comm b.size]
  rfl

/-- What the last part of `kmalloc` leaves after it has found a place. -/
structure Installed (h : Heap) (size : Word) (B B' : MajorBlock) (b : MinorBlock)
    (r : Word × Heap) : Prop where
  pointer : r.1 = b.payload
  heap : r.2 = { h with mem := r.2.mem, inuse := h.inuse + size }
  stored : B'.Stored r.2.mem
  links : (majorAt r.2.mem B.addr).prev = (majorAt h.mem B.addr).prev ∧
    (majorAt r.2.mem B.addr).next = (majorAt h.mem B.addr).next
  same : SameOn B.spanᶜ h.mem r.2.mem
  payloads : ∀ c ∈ B.minors, SameOn (Set.Ico (c.start + 40) c.stop) h.mem r.2.mem

/-- The byte that notes the distance lies between the header and the payload. -/
theorem sameOn_distance (hb : b.stop ≤ 2 ^ 64) (m : Memory 64) (v : ℕ) :
    SameOn (Set.Ico (b.start + 40) (b.start + 56))ᶜ m (m.store (b.payload - 16) 1 v) ∧
      m.store (b.payload - 16) 1 v (b.payload - 16) = BitVec.ofNat 8 v := by
  obtain ⟨-, hlo, hhi, -⟩ := b.payload_bounds hb
  have hsize := b.start_lt_stop
  have hsub : (b.payload - 16).toNat = b.payload.toNat - 16 := by bv_omega
  constructor
  · apply (sameOn_store (by omega) m v).mono
    apply Set.compl_subset_compl.mpr
    exact Set.Ico_subset_Ico (by omega) (by omega)
  · simp [Memory.store]

theorem toNat_distance (hb : b.stop ≤ 2 ^ 64) :
    (b.payload - (b.addr + sizeofMinor)).toNat = b.payload.toNat - (b.start + 40) := by
  obtain ⟨-, hlo, hhi, -⟩ := b.payload_bounds hb
  have hsize := b.start_lt_stop
  unfold MinorBlock.start at hlo hhi hsize ⊢
  rw [sizeofMinor]
  bv_omega

theorem Inserts.first (h : Inserts B B' xs ys b) (hB : B.Stored m) :
    (if xs = [] then b.addr else (majorAt m B.addr).first) =
      (B'.minors.map MinorBlock.addr).headD 0 := by
  rw [hB.first, h.before, h.after]
  cases xs with
  | nil => rfl
  | cons a xs => rfl

/-- The last two writes of `install`: the usage of the major block and the noted distance. -/
structure Completes (m m' : Memory 64) (B' : MajorBlock) (b : MinorBlock) : Prop where
  mem : b ∈ B'.minors
  header : majorAt m' B'.addr = { majorAt m B'.addr with usage := BitVec.ofNat 32 B'.used }
  distance : m' (b.payload - 16) = BitVec.ofNat 8 (b.payload - (b.addr + sizeofMinor)).toNat
  same : SameOn (headerSpan B'.addr ∪ Set.Ico (b.start + 40) (b.start + 56))ᶜ m m'

theorem Completes.of_writes {m₁ m₂ m₃ : Memory 64} (hb : b ∈ B'.minors)
    (w : WritesMajor m₁ m₂ B'.addr { majorAt m₁ B'.addr with usage := BitVec.ofNat 32 B'.used })
    (hbyte : m₃ (b.payload - 16) = BitVec.ofNat 8 (b.payload - (b.addr + sizeofMinor)).toNat)
    (hs : SameOn (Set.Ico (b.start + 40) (b.start + 56))ᶜ m₂ m₃) : Completes m₁ m₃ B' b := by
  have hlo := (MajorBlock.minor_bounds hb).1
  unfold MajorBlock.start at hlo
  refine ⟨hb, ?_, hbyte, (w.same.mono ?_).trans (hs.mono ?_)⟩
  · rw [majorAt_congr B'.inSpace (hs.mono _), w.header]
    rintro x ⟨hx, hx'⟩ ⟨hd, hd'⟩
    omega
  · exact Set.compl_subset_compl.mpr Set.subset_union_left
  · exact Set.compl_subset_compl.mpr Set.subset_union_right

namespace Completes

variable {m' : Memory 64}

theorem headerSpan_disjoint (hc : c ∈ B'.minors) :
    Set.Ico c.start c.stop ⊆ (headerSpan B'.addr)ᶜ :=
  (MajorBlock.minor_subset hc).trans B'.behind_subset_compl

theorem rest (h : Completes m m' B' b) (hc : c ∈ B'.minors) (hne : c ≠ b) :
    SameOn (Set.Ico c.start c.stop) m m' := by
  have hapart := MajorBlock.minors_apart hc h.mem hne
  have hsize := b.start_lt_stop
  apply h.same.mono
  rintro x hx (hm | ⟨hd, hd'⟩)
  · exact headerSpan_disjoint hc hx hm
  · obtain ⟨hx, hx'⟩ := hx
    omega

theorem minorAt_eq (h : Completes m m' B' b) (hc : c ∈ B'.minors) :
    minorAt m' c.addr = minorAt m c.addr := by
  apply minorAt_congr (c.inSpace (MajorBlock.minor_stop_le hc))
  by_cases hcb : c = b
  · subst hcb
    apply h.same.mono
    rintro x hx (hm | ⟨hd, hd'⟩)
    · exact headerSpan_disjoint hc (c.header_subset hx) hm
    · obtain ⟨hx, hx'⟩ := hx
      unfold MinorBlock.start at hd
      omega
  · exact (h.rest hc hcb).mono c.header_subset

theorem stored_new {maj : Word} (h : Completes m m' B' b)
    (hheader : minorAt m b.addr = newHeader maj xs ys b) : b.Stored maj m' := by
  have hstop := MajorBlock.minor_stop_le h.mem
  have hdist := toNat_distance hstop
  obtain ⟨-, hlo, hhi, -⟩ := b.payload_bounds hstop
  have hsame := (h.minorAt_eq h.mem).trans hheader
  constructor
  · rw [hsame]
    rfl
  · rw [hsame]
    rfl
  · rw [hsame]
    rfl
  · rw [hsame]
    rfl
  · rw [h.distance, hdist, BitVec.toNat_ofNat, Nat.mod_eq_of_lt]
    omega

end Completes

/-- The list is linked again as soon as its neighbours point to the new block. -/
theorem Splices.linked {m₁ : Memory 64} (hB : B.Stored m) (hins : Inserts B B' xs ys b)
    (hsplice : Splices m m₁ B'.addr xs ys b b.addr b.addr)
    (hheader : minorAt m₁ b.addr = newHeader B.addr xs ys b) :
    Linked (fun a => (minorAt m₁ a).prev) (fun a => (minorAt m₁ a).next) 0
      (B'.minors.map MinorBlock.addr) 0 := by
  have hlinked := hB.linked
  have hnodup := B.nodup_addrs
  rw [hins.before, List.map_append] at hlinked hnodup
  rw [hins.after, List.map_append, List.map_cons]
  exact hlinked.insert hnodup (congrArg MinorHeader.prev hheader)
    (congrArg MinorHeader.next hheader) (hsplice.relinked hins.after)

theorem Inserts.span (h : Inserts B B' xs ys b) : B'.span = B.span := by
  unfold MajorBlock.span MajorBlock.start MajorBlock.stop
  rw [h.addr, h.pages]

/-- The major block as it stands in memory after the two writes behind `linkMinor`. -/
theorem Inserts.stored {m₁ m₃ : Memory 64} (hins : Inserts B B' xs ys b) (hB : B.Stored m)
    (hsplice : Splices m m₁ B'.addr xs ys b b.addr b.addr)
    (hheader : minorAt m₁ b.addr = newHeader B.addr xs ys b) (hfin : Completes m₁ m₃ B' b)
    (hmajor : majorAt m₃ B.addr = { majorAt m B.addr with
      first := (B'.minors.map MinorBlock.addr).headD 0
      usage := BitVec.ofNat 32 B'.used }) : B'.Stored m₃ := by
  constructor
  · rw [hins.addr, hins.pages, hmajor, hB.pages]
  · rw [hins.addr, hins.pages, hmajor, hB.size]
  · rw [hins.addr, hmajor]
  · rw [hins.addr, hmajor]
  · apply (hsplice.linked hB hins hheader).congr
    · intro a ha
      obtain ⟨c, hc, rfl⟩ := List.mem_map.mp ha
      rw [hfin.minorAt_eq hc]
    · intro a ha
      obtain ⟨c, hc, rfl⟩ := List.mem_map.mp ha
      rw [hfin.minorAt_eq hc]
  · intro c hc
    rw [hins.addr]
    by_cases hcb : c = b
    · subst hcb
      exact hfin.stored_new hheader
    · have hmem : c ∈ xs ++ ys := by
        rw [hins.after] at hc
        simp only [List.mem_append, List.mem_cons, hcb, false_or] at hc ⊢
        exact hc
      have hstored := hsplice.keeps_stored hins.after hmem
        (hB.minors c (by rw [hins.before]; exact hmem))
      apply hstored.congr (MajorBlock.minor_stop_le hc)
      exact (hfin.rest hc hcb).mono c.front_subset

theorem Inserts.same {m₁ m₃ : Memory 64} (hins : Inserts B B' xs ys b)
    (hsplice : Splices m m₁ B.addr xs ys b b.addr b.addr) (hfin : Completes m₁ m₃ B' b) :
    SameOn B.spanᶜ m m₃ := by
  have hsize := b.start_lt_stop
  rw [← hins.span]
  apply (hsplice.same.mono _).trans (hfin.same.mono _)
  · exact Set.compl_subset_compl.mpr (hins.addr ▸ splicedSpan_subset hins.after)
  · apply Set.compl_subset_compl.mpr
    apply Set.union_subset B'.header_subset
    have hdistance : Set.Ico (b.start + 40) (b.start + 56) ⊆ Set.Ico b.start b.stop :=
      Set.Ico_subset_Ico (by omega) (by omega)
    exact hdistance.trans ((MajorBlock.minor_subset hfin.mem).trans B'.behind_subset)

theorem install_placeAt {h : Heap} (hB : B.Stored h.mem) (hins : Inserts B B' xs ys b)
    (hsize : b.size = size.setWidth 32) (hreq : b.reqSize = reqSize.setWidth 32) :
    Installed h size B B' b (install size reqSize B.addr (placeAt xs ys) h) := by
  have hlink := linkMinor_placeAt (m := h.mem) hB hins hsize hreq
  unfold install
  generalize linkMinor size reqSize B.addr h.mem (placeAt xs ys) = r at hlink
  obtain ⟨min, m₁⟩ := r
  obtain ⟨rfl, hsplice, hheader⟩ := hlink
  dsimp only at hsplice hheader ⊢
  have hsplice' : Splices h.mem m₁ B'.addr xs ys b b.addr b.addr := by
    rw [hins.addr]
    exact hsplice
  have hb : b ∈ B'.minors := by rw [hins.after]; simp
  -- the header of the major block
  have husage : loadUInt m₁ (majUsage B.addr) = (BitVec.ofNat 32 B.used).setWidth 64 := by
    apply congrArg (BitVec.setWidth 64)
    rw [← hB.usage]
    exact congrArg MajorHeader.usage hsplice.major
  have w₂ : WritesMajor m₁ (storeUInt m₁ (majUsage B.addr)
      (loadUInt m₁ (majUsage B.addr) + (size + sizeofMinor))) B'.addr
      { majorAt m₁ B'.addr with usage := BitVec.ofNat 32 B'.used } := by
    rw [husage, ← hins.usage hsize, hins.addr]
    exact writes_majUsage B.inSpace _
  generalize storeUInt m₁ (majUsage B.addr) _ = m₂ at w₂ ⊢
  -- the noted distance
  rw [align_eq]
  dsimp only
  obtain ⟨s₃, hbyte⟩ := sameOn_distance (MajorBlock.minor_stop_le hb) m₂
    (b.payload - (b.addr + sizeofMinor)).toNat
  have hfin := Completes.of_writes hb w₂ hbyte s₃
  unfold MinorBlock.payload at hfin
  generalize m₂.store _ 1 _ = m₃ at hfin ⊢
  have hmajor : majorAt m₃ B.addr = { majorAt h.mem B.addr with
      first := (B'.minors.map MinorBlock.addr).headD 0
      usage := BitVec.ofNat 32 B'.used } := by
    rw [← hins.addr, hfin.header, hins.addr, hsplice.major, hins.first hB]
  refine ⟨rfl, rfl, hins.stored hB hsplice' hheader hfin hmajor, ?_, hins.same hsplice hfin, ?_⟩
  · rw [hmajor]
    exact ⟨rfl, rfl⟩
  · intro c hc
    rw [hins.before] at hc
    obtain ⟨hcB, hcb⟩ := mem_of_rest hins.after hc
    apply (hsplice'.keeps_payload hins.after hcB).trans
    exact (hfin.rest hcB hcb).mono (Set.Ico_subset_Ico (by omega) le_rfl)

end Link

end Olive
