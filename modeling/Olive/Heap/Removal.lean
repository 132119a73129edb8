import Olive.Heap.Placement
import Olive.Locks.Liballoc

/-!
# Taking blocks out of their lists

`kfree` takes a minor block out of its major block, and a major block without minor blocks
out of the heap. Both times at most two neighbours are written to, each only if there is
one. `EditsAt` is such a write: to the header of a block, or to none.
-/

namespace Olive

open Library Memory

/-! ## Writes to a header that may not be there -/

section Edits

variable {A H : Type}

def addrOf (addr : A → Word) (o : Option A) : Word := (o.map addr).getD 0

theorem headD_addrs (addr : A → Word) (ys : List A) :
    (ys.map addr).headD 0 = addrOf addr ys.head? := by
  cases ys with
  | nil => rfl
  | cons c ys => rfl

theorem getLastD_addrs (addr : A → Word) (xs : List A) :
    (xs.map addr).getLastD 0 = addrOf addr xs.getLast? := by
  rw [List.getLastD_eq_getLast?, List.getLast?_map]
  rfl

/-- What is read at the address of the block is changed by `f`, if there is a block. -/
structure EditsAt (read : Memory 64 → Word → H) (addr : A → Word) (m m' : Memory 64) (o : Option A)
    (f : H → H) : Prop where
  header : ∀ a, o = some a → read m' (addr a) = f (read m (addr a))
  same : SameOn {x | ∀ a, o = some a → x ∉ headerSpan (addr a)} m m'

variable {read : Memory 64 → Word → H} {addr : A → Word} {m m' : Memory 64} {o : Option A} {f : H → H}
  {b : Word}

theorem EditsAt.keeps (h : EditsAt read addr m m' o f) (hclear : ∀ a, o = some a → Clear (addr a) b) :
    SameOn (headerSpan b) m m' := by
  apply h.same.mono
  intro x hx a ha
  exact headerSpan_subset (hclear a ha) hx

theorem EditsAt.minorAt_of_clear (h : EditsAt read addr m m' o f) (hb : InSpace b)
    (hclear : ∀ a, o = some a → Clear (addr a) b) : minorAt m' b = minorAt m b :=
  minorAt_congr hb (h.keeps hclear)

theorem EditsAt.majorAt_of_clear (h : EditsAt read addr m m' o f) (hb : InSpace b)
    (hclear : ∀ a, o = some a → Clear (addr a) b) : majorAt m' b = majorAt m b :=
  majorAt_congr hb (h.keeps hclear)

/-- A write behind the test that the pointer is not `NULL`. -/
theorem editsAt_of_ite (hne : ∀ a, o = some a → addr a ≠ 0)
    (h : ∀ a, o = some a →
      read m' (addr a) = f (read m (addr a)) ∧ SameOn (headerSpan (addr a))ᶜ m m') :
    EditsAt read addr m (if addrOf addr o ≠ 0 then m' else m) o f := by
  cases o with
  | none =>
    rw [if_neg (by simp [addrOf])]
    exact ⟨by simp, .refl _ _⟩
  | some a =>
    obtain ⟨hread, hsame⟩ := h a rfl
    rw [if_pos (show addrOf addr (some a) ≠ 0 from hne a rfl)]
    constructor
    · intro b hb
      cases hb
      exact hread
    · apply hsame.mono
      exact fun x hx => hx a rfl

end Edits

/-! ## Minor blocks -/

section UnlinkMinor

variable {m : Memory 64} {B B' : MajorBlock} {xs ys : List MinorBlock} {b : MinorBlock}

/-- What `unlinkMinor` leaves: `m₁` is the memory after the usage was brought up to date. -/
structure Unlinking (m m₁ m' : Memory 64) (B : MajorBlock) (xs ys : List MinorBlock) (b : MinorBlock) :
    Prop where
  usage : WritesMajor m m₁ B.addr
    { majorAt m B.addr with usage := BitVec.ofNat 32 (B.used - (40 + b.size.toNat)) }
  splices : Splices m₁ m' B.addr xs ys b (addrOf MinorBlock.addr xs.getLast?)
    (addrOf MinorBlock.addr ys.head?)
  header : minorAt m' b.addr = { minorAt m₁ b.addr with magic := liballocDead }

theorem used_of_split (hsplit : B.minors = xs ++ b :: ys) :
    40 + b.size.toNat + (40 + ((xs ++ ys).map fun b => 40 + b.size.toNat).sum) = B.used := by
  unfold MajorBlock.used
  rw [hsplit]
  simp only [List.map_append, List.map_cons, List.sum_append, List.sum_cons]
  omega

theorem usage_of_split (hB : B.Stored m) (hsplit : B.minors = xs ++ b :: ys) :
    (loadUInt m (majUsage B.addr) - (loadUInt m (minSize b.addr) + sizeofMinor)).setWidth 32 =
      BitVec.ofNat 32 (B.used - (40 + b.size.toNat)) := by
  have hused := used_of_split hsplit
  have hle := B.used_le
  have hstop := B.stop_le
  have hb : b ∈ B.minors := by rw [hsplit]; simp
  have husage : m.load32 (majUsage B.addr) = BitVec.ofNat 32 B.used := hB.usage
  have hsize : m.load32 (minSize b.addr) = b.size := (hB.minors b hb).size
  have hlt : B.used < 2 ^ 32 := by
    have hpages := B.pages_lt
    unfold MajorBlock.start MajorBlock.stop at hle
    omega
  rw [loadUInt, loadUInt, husage, hsize]
  apply BitVec.eq_of_toNat_eq
  have h₁ : ((BitVec.ofNat 32 B.used).setWidth 64).toNat = B.used := by
    rw [toNat_setWidth64, BitVec.toNat_ofNat, Nat.mod_eq_of_lt hlt]
  have h₂ := toNat_setWidth64 b.size
  generalize (BitVec.ofNat 32 B.used).setWidth 64 = u at h₁
  generalize b.size.setWidth 64 = s at h₂
  rw [sizeofMinor]
  bv_omega

theorem addrOf_eq_zero_iff (h : ∀ a, xs.getLast? = some a → a ∈ B.minors) :
    addrOf MinorBlock.addr xs.getLast? = 0 ↔ xs = [] := by
  rcases List.eq_nil_or_concat xs with rfl | ⟨xs, a, rfl⟩
  · simp [addrOf]
  · rw [List.concat_eq_append] at h ⊢
    have hne := minor_addr_ne_zero (h a List.getLast?_concat)
    simpa [addrOf] using hne

theorem setFirst_spec (hB : InSpace B.addr) (hlast : ∀ a, xs.getLast? = some a → a ∈ B.minors ∧ a ≠ b)
    (n : Word) :
    majorAt (if addrOf MinorBlock.addr xs.getLast? = 0 then m.store64 (majFirst B.addr) n else m)
        B.addr =
      { majorAt m B.addr with first := if xs = [] then n else (majorAt m B.addr).first } ∧
    SameOn (headerSpan B.addr)ᶜ m
      (if addrOf MinorBlock.addr xs.getLast? = 0 then m.store64 (majFirst B.addr) n else m) := by
  have hiff := addrOf_eq_zero_iff fun a ha => (hlast a ha).1
  by_cases hxs : xs = []
  · have hw := writes_majFirst (m := m) hB n
    rw [if_pos (hiff.mpr hxs), if_pos hxs]
    exact ⟨hw.header, hw.same⟩
  · rw [if_neg (fun h => hxs (hiff.mp h)), if_neg hxs]
    exact ⟨rfl, .refl _ _⟩

/-- The link back of a block, if there is one. -/
theorem editsAt_minPrev {o : Option MinorBlock} (h : ∀ c, o = some c → c ∈ B.minors) (p : Word) :
    EditsAt minorAt MinorBlock.addr m (if addrOf MinorBlock.addr o ≠ 0
      then m.store64 (minPrev (addrOf MinorBlock.addr o)) p else m) o
      fun H => { H with prev := p } := by
  apply editsAt_of_ite fun c hc => minor_addr_ne_zero (h c hc)
  intro c hc
  rw [hc]
  have w := writes_minPrev (m := m) (c.inSpace (MajorBlock.minor_stop_le (h c hc))) p
  exact ⟨w.header, w.same⟩

theorem editsAt_minNext {o : Option MinorBlock} (h : ∀ c, o = some c → c ∈ B.minors) (n : Word) :
    EditsAt minorAt MinorBlock.addr m (if addrOf MinorBlock.addr o ≠ 0
      then m.store64 (minNext (addrOf MinorBlock.addr o)) n else m) o
      fun H => { H with next := n } := by
  apply editsAt_of_ite fun c hc => minor_addr_ne_zero (h c hc)
  intro c hc
  rw [hc]
  have w := writes_minNext (m := m) (c.inSpace (MajorBlock.minor_stop_le (h c hc))) n
  exact ⟨w.header, w.same⟩

theorem MajorBlock.Stored.neighbours (hB : B.Stored m) (hsplit : B.minors = xs ++ b :: ys) :
    (minorAt m b.addr).prev = addrOf MinorBlock.addr xs.getLast? ∧
      (minorAt m b.addr).next = addrOf MinorBlock.addr ys.head? := by
  have hlinked := hB.linked
  rw [hsplit, List.map_append, List.map_cons] at hlinked
  exact ⟨hlinked.neighbours.1.trans (getLastD_addrs _ xs),
    hlinked.neighbours.2.trans (headD_addrs _ ys)⟩

/-- The neighbours of a block do not overlap. -/
theorem clear_neighbours (hsplit : B.minors = xs ++ b :: ys) {a c : MinorBlock}
    (ha : xs.getLast? = some a) (hc : ys.head? = some c) : Clear a.addr c.addr := by
  apply MajorBlock.clear_minors (mem_of_neighbour hsplit (Or.inl ha)).1
    (mem_of_neighbour hsplit (Or.inr hc)).1
  have hnodup := B.nodup_minors
  rw [hsplit] at hnodup
  rintro rfl
  exact (List.nodup_append'.mp hnodup).2.2 (List.mem_of_mem_getLast? ha)
    (List.mem_cons_of_mem _ (List.mem_of_mem_head? hc))

/-- The four writes behind the one to the usage, taken together. -/
theorem splices_of_edits {m₁ m₂ m₃ m₄ m₅ : Memory 64} {H : MinorHeader} {p n : Word}
    (hsplit : B.minors = xs ++ b :: ys) (w₂ : WritesMinor m₁ m₂ b.addr H)
    (e₃ : EditsAt minorAt MinorBlock.addr m₂ m₃ ys.head? fun H => { H with prev := p })
    (e₄ : EditsAt minorAt MinorBlock.addr m₃ m₄ xs.getLast? fun H => { H with next := n })
    (hmajor₅ : majorAt m₅ B.addr =
      { majorAt m₄ B.addr with first := if xs = [] then n else (majorAt m₄ B.addr).first })
    (same₅ : SameOn (headerSpan B.addr)ᶜ m₄ m₅) : Splices m₁ m₅ B.addr xs ys b p n := by
  have hb : b ∈ B.minors := by rw [hsplit]; simp
  have hbclear : Clear B.addr b.addr := MajorBlock.clear_header hb
  have hlast : ∀ a, xs.getLast? = some a → a ∈ B.minors ∧ a ≠ b :=
    fun a ha => mem_of_neighbour hsplit (Or.inl ha)
  have hhead : ∀ c, ys.head? = some c → c ∈ B.minors ∧ c ≠ b :=
    fun c hc => mem_of_neighbour hsplit (Or.inr hc)
  constructor
  · intro a ha
    have haspace := a.inSpace (MajorBlock.minor_stop_le (hlast a ha).1)
    have hab : Clear b.addr a.addr := MajorBlock.clear_minors hb (hlast a ha).1 (hlast a ha).2.symm
    rw [minorAt_of_clear same₅ haspace (MajorBlock.clear_header (hlast a ha).1), e₄.header a ha,
      e₃.minorAt_of_clear haspace fun c hc => (clear_neighbours hsplit ha hc).symm,
      minorAt_of_clear w₂.same haspace hab]
  · intro c hc
    have hcspace := c.inSpace (MajorBlock.minor_stop_le (hhead c hc).1)
    have hbc : Clear b.addr c.addr := MajorBlock.clear_minors hb (hhead c hc).1 (hhead c hc).2.symm
    rw [minorAt_of_clear same₅ hcspace (MajorBlock.clear_header (hhead c hc).1),
      e₄.minorAt_of_clear hcspace fun a ha => clear_neighbours hsplit ha hc, e₃.header c hc,
      minorAt_of_clear w₂.same hcspace hbc]
  · have hmajor₄ : majorAt m₄ B.addr = majorAt m₁ B.addr := by
      rw [e₄.majorAt_of_clear B.inSpace fun a ha => (MajorBlock.clear_header (hlast a ha).1).symm,
        e₃.majorAt_of_clear B.inSpace fun c hc => (MajorBlock.clear_header (hhead c hc).1).symm,
        majorAt_of_clear w₂.same B.inSpace hbclear.symm]
    rw [hmajor₅, hmajor₄]
  · have hsub₄ : (splicedSpan B.addr xs ys b)ᶜ ⊆
        {x | ∀ a, xs.getLast? = some a → x ∉ headerSpan a.addr} :=
      fun x hx a ha hm => hx (Or.inr (Or.inr ⟨a, Or.inl ha, hm⟩))
    have hsub₃ : (splicedSpan B.addr xs ys b)ᶜ ⊆
        {x | ∀ c, ys.head? = some c → x ∉ headerSpan c.addr} :=
      fun x hx c hc hm => hx (Or.inr (Or.inr ⟨c, Or.inr hc, hm⟩))
    have h₂ : SameOn (splicedSpan B.addr xs ys b)ᶜ m₁ m₂ :=
      w₂.same.mono fun x hx hm => hx (Or.inr (Or.inl hm))
    have h₅ : SameOn (splicedSpan B.addr xs ys b)ᶜ m₄ m₅ := same₅.mono fun x hx hm => hx (Or.inl hm)
    exact h₂.trans ((e₃.same.mono hsub₃).trans ((e₄.same.mono hsub₄).trans h₅))

theorem unlinkMinor_unlinking (hB : B.Stored m) (hsplit : B.minors = xs ++ b :: ys) :
    ∃ m₁, Unlinking m m₁ (unlinkMinor b.addr B.addr m) B xs ys b := by
  have hb : b ∈ B.minors := by rw [hsplit]; simp
  have hbspace := b.inSpace (MajorBlock.minor_stop_le hb)
  have hbclear : Clear B.addr b.addr := MajorBlock.clear_header hb
  have hlast : ∀ a, xs.getLast? = some a → a ∈ B.minors ∧ a ≠ b :=
    fun a ha => mem_of_neighbour hsplit (Or.inl ha)
  have hhead : ∀ c, ys.head? = some c → c ∈ B.minors ∧ c ≠ b :=
    fun c hc => mem_of_neighbour hsplit (Or.inr hc)
  obtain ⟨hprev, hnext⟩ := hB.neighbours hsplit
  unfold unlinkMinor
  have w₁ : WritesMajor m (storeUInt m (majUsage B.addr) (loadUInt m (majUsage B.addr) -
      (loadUInt m (minSize b.addr) + sizeofMinor))) B.addr
      { majorAt m B.addr with usage := BitVec.ofNat 32 (B.used - (40 + b.size.toNat)) } := by
    rw [← usage_of_split hB hsplit]
    exact writes_majUsage B.inSpace _
  generalize storeUInt m (majUsage B.addr) _ = m₁ at w₁ ⊢
  have hb₁ := minorAt_of_clear w₁.same hbspace hbclear
  dsimp only
  have w₂ := writes_minMagic (m := m₁) hbspace liballocDead
  generalize m₁.store32 (minMagic b.addr) liballocDead = m₂ at w₂ ⊢
  have hb₂ : minorAt m₂ b.addr = { minorAt m b.addr with magic := liballocDead } := by
    rw [w₂.header, hb₁]
  -- the link back from the next block
  rw [show m₂.load64 (minNext b.addr) = addrOf MinorBlock.addr ys.head? from
      (congrArg MinorHeader.next hb₂).trans hnext,
    show m₂.load64 (minPrev b.addr) = addrOf MinorBlock.addr xs.getLast? from
      (congrArg MinorHeader.prev hb₂).trans hprev]
  have e₃ := editsAt_minPrev (m := m₂) (fun c hc => (hhead c hc).1)
    (addrOf MinorBlock.addr xs.getLast?)
  generalize (if addrOf MinorBlock.addr ys.head? ≠ 0
      then m₂.store64 (minPrev (addrOf MinorBlock.addr ys.head?))
        (addrOf MinorBlock.addr xs.getLast?)
      else m₂) = m₃ at e₃ ⊢
  have hclear₃ : ∀ c, ys.head? = some c → Clear c.addr b.addr :=
    fun c hc => MajorBlock.clear_minors (hhead c hc).1 hb (hhead c hc).2
  have hb₃ := e₃.minorAt_of_clear hbspace hclear₃
  rw [hb₂] at hb₃
  -- the link on from the one in front
  rw [show m₃.load64 (minPrev b.addr) = addrOf MinorBlock.addr xs.getLast? from
      (congrArg MinorHeader.prev hb₃).trans hprev,
    show m₃.load64 (minNext b.addr) = addrOf MinorBlock.addr ys.head? from
      (congrArg MinorHeader.next hb₃).trans hnext]
  have e₄ := editsAt_minNext (m := m₃) (fun a ha => (hlast a ha).1)
    (addrOf MinorBlock.addr ys.head?)
  generalize (if addrOf MinorBlock.addr xs.getLast? ≠ 0
      then m₃.store64 (minNext (addrOf MinorBlock.addr xs.getLast?))
        (addrOf MinorBlock.addr ys.head?)
      else m₃) = m₄ at e₄ ⊢
  have hclear₄ : ∀ a, xs.getLast? = some a → Clear a.addr b.addr :=
    fun a ha => MajorBlock.clear_minors (hlast a ha).1 hb (hlast a ha).2
  have hb₄ := e₄.minorAt_of_clear hbspace hclear₄
  rw [hb₃] at hb₄
  rw [show m₄.load64 (minPrev b.addr) = addrOf MinorBlock.addr xs.getLast? from
      (congrArg MinorHeader.prev hb₄).trans hprev,
    show m₄.load64 (minNext b.addr) = addrOf MinorBlock.addr ys.head? from
      (congrArg MinorHeader.next hb₄).trans hnext]
  obtain ⟨hmajor₅, same₅⟩ := setFirst_spec (m := m₄) B.inSpace hlast (addrOf MinorBlock.addr ys.head?)
  generalize (if addrOf MinorBlock.addr xs.getLast? = 0
      then m₄.store64 (majFirst B.addr) (addrOf MinorBlock.addr ys.head?)
      else m₄) = m₅ at hmajor₅ same₅ ⊢
  refine ⟨m₁, w₁, splices_of_edits hsplit w₂ e₃ e₄ hmajor₅ same₅, ?_⟩
  rw [minorAt_of_clear same₅ hbspace hbclear, hb₄, hb₁]

/-- What the list of minor blocks and the major block are after `b` was taken out. -/
structure Removed (m m' : Memory 64) (B B' : MajorBlock) (b : MinorBlock) : Prop where
  stored : B'.Stored m'
  links : (majorAt m' B.addr).prev = (majorAt m B.addr).prev ∧
    (majorAt m' B.addr).next = (majorAt m B.addr).next
  same : SameOn B.spanᶜ m m'
  payloads : ∀ c ∈ B.minors, SameOn (Set.Ico (c.start + 40) c.stop) m m'
  header : minorAt m' b.addr = { minorAt m b.addr with magic := liballocDead }

section Unlinking

variable {m₁ m' : Memory 64}

/-- Bringing the usage up to date leaves the minor blocks as they were. -/
theorem Unlinking.minor_same (h : Unlinking m m₁ m' B xs ys b) {c : MinorBlock} (hc : c ∈ B.minors) :
    SameOn (Set.Ico c.start c.stop) m m₁ :=
  h.usage.same.mono ((MajorBlock.minor_subset hc).trans B.behind_subset_compl)

theorem Unlinking.minor_eq (h : Unlinking m m₁ m' B xs ys b) {c : MinorBlock} (hc : c ∈ B.minors) :
    minorAt m₁ c.addr = minorAt m c.addr :=
  minorAt_congr (c.inSpace (MajorBlock.minor_stop_le hc)) ((h.minor_same hc).mono c.header_subset)

theorem Unlinking.linked (h : Unlinking m m₁ m' B xs ys b) (hB : B.Stored m)
    (hsplit : B.minors = xs ++ b :: ys) :
    Linked (fun a => (minorAt m' a).prev) (fun a => (minorAt m' a).next) 0
      ((xs ++ ys).map MinorBlock.addr) 0 := by
  have hlinked : Linked (fun a => (minorAt m₁ a).prev) (fun a => (minorAt m₁ a).next) 0
      (B.minors.map MinorBlock.addr) 0 := by
    apply hB.linked.congr
    · intro a ha
      obtain ⟨c, hc, rfl⟩ := List.mem_map.mp ha
      exact congrArg MinorHeader.prev (h.minor_eq hc)
    · intro a ha
      obtain ⟨c, hc, rfl⟩ := List.mem_map.mp ha
      exact congrArg MinorHeader.next (h.minor_eq hc)
  have hnodup := B.nodup_addrs
  rw [hsplit, List.map_append, List.map_cons] at hlinked hnodup
  rw [List.map_append]
  apply hlinked.remove (List.nodup_cons.mp (List.nodup_middle.mp hnodup)).2
  rw [getLastD_addrs, headD_addrs]
  exact h.splices.relinked hsplit

theorem Unlinking.major (h : Unlinking m m₁ m' B xs ys b) (hB : B.Stored m)
    (hsplit : B.minors = xs ++ b :: ys) : majorAt m' B.addr = { majorAt m B.addr with
      usage := BitVec.ofNat 32 (B.used - (40 + b.size.toNat))
      first := addrOf MinorBlock.addr (xs ++ ys).head? } := by
  rw [h.splices.major, h.usage.header, hB.first, hsplit]
  cases xs with
  | nil => rfl
  | cons a xs => rfl

theorem Unlinking.stored (h : Unlinking m m₁ m' B xs ys b) (hB : B.Stored m)
    (hsplit : B.minors = xs ++ b :: ys) (haddr : B'.addr = B.addr) (hpages : B'.pages = B.pages)
    (hminors : B'.minors = xs ++ ys) : B'.Stored m' := by
  have hmajor := h.major hB hsplit
  constructor
  · rw [haddr, hpages, hmajor, hB.pages]
  · rw [haddr, hpages, hmajor, hB.size]
  · have hused := used_of_split hsplit
    have hused' : B'.used = B.used - (40 + b.size.toNat) := by
      rw [← hused, MajorBlock.used, hminors]
      omega
    rw [haddr, hmajor, hused']
  · rw [haddr, hmajor, hminors, headD_addrs]
  · rw [hminors]
    exact h.linked hB hsplit
  · intro c hc
    rw [hminors] at hc
    rw [haddr]
    obtain ⟨hcB, -⟩ := mem_of_rest hsplit hc
    apply h.splices.keeps_stored hsplit hc
    apply (hB.minors c hcB).congr (MajorBlock.minor_stop_le hcB)
    exact (h.minor_same hcB).mono c.front_subset

end Unlinking

theorem unlinkMinor_removed (hB : B.Stored m) (hsplit : B.minors = xs ++ b :: ys)
    (haddr : B'.addr = B.addr) (hpages : B'.pages = B.pages) (hminors : B'.minors = xs ++ ys) :
    Removed m (unlinkMinor b.addr B.addr m) B B' b := by
  obtain ⟨m₁, hunlink⟩ := unlinkMinor_unlinking hB hsplit
  generalize unlinkMinor b.addr B.addr m = m' at hunlink ⊢
  refine ⟨hunlink.stored hB hsplit haddr hpages hminors, ?_, ?_, ?_, ?_⟩
  · rw [hunlink.major hB hsplit]
    exact ⟨rfl, rfl⟩
  · apply (hunlink.usage.same.mono _).trans (hunlink.splices.same.mono _)
    · exact Set.compl_subset_compl.mpr B.header_subset
    · exact Set.compl_subset_compl.mpr (splicedSpan_subset hsplit)
  · intro c hc
    exact ((hunlink.minor_same hc).mono (Set.Ico_subset_Ico (by omega) le_rfl)).trans
      (hunlink.splices.keeps_payload hsplit hc)
  · rw [hunlink.header, hunlink.minor_eq (by rw [hsplit]; simp)]

end UnlinkMinor

/-! ## Major blocks -/

section UnlinkMajor

variable {h : Heap} {L L' : Layout} {B : MajorBlock} {Bs Cs : List MajorBlock}

/-- The writes of `unlinkMajor`: the neighbours are linked with each other. -/
def skipMajor (maj : Word) (m : Memory 64) : Memory 64 :=
  let m := if m.load64 (majPrev maj) ≠ 0 then
    m.store64 (majNext (m.load64 (majPrev maj))) (m.load64 (majNext maj)) else m
  if m.load64 (majNext maj) ≠ 0 then
    m.store64 (majPrev (m.load64 (majNext maj))) (m.load64 (majPrev maj)) else m

theorem unlinkMajor_eq (maj : Word) (h : Heap) : unlinkMajor maj h = { h with
    memRoot := if h.memRoot = maj then h.mem.load64 (majNext maj) else h.memRoot
    bestBet := if h.bestBet = maj then 0 else h.bestBet
    mem := skipMajor maj h.mem
    allocated := h.allocated - loadUInt (skipMajor maj h.mem) (majSize maj) } := by
  unfold unlinkMajor skipMajor
  by_cases hroot : h.memRoot = maj
  · by_cases hbest : h.bestBet = maj
    · simp only [if_pos hroot, if_pos hbest]
    · simp only [if_pos hroot, if_neg hbest]
  · by_cases hbest : h.bestBet = maj
    · simp only [if_neg hroot, if_pos hbest]
    · simp only [if_neg hroot, if_neg hbest]

/-- The memory in which the neighbours of `B` are linked with each other. -/
structure Skips (m m' : Memory 64) (L : Layout) (B : MajorBlock) (Bs Cs : List MajorBlock) : Prop where
  relinks : Relinks m m' Bs Cs (addrOf MajorBlock.addr Bs.getLast?) (addrOf MajorBlock.addr Cs.head?)
  pages : SameOn B.span m m'
  outside : SameOn L.spanᶜ m m'

theorem editsAt_majPrev {m : Memory 64} (o : Option MajorBlock) (p : Word) :
    EditsAt majorAt MajorBlock.addr m (if addrOf MajorBlock.addr o ≠ 0
      then m.store64 (majPrev (addrOf MajorBlock.addr o)) p else m) o
      fun H => { H with prev := p } := by
  apply editsAt_of_ite fun C _ => C.addr_ne
  intro C hC
  rw [hC]
  have w := writes_majPrev (m := m) C.inSpace p
  exact ⟨w.header, w.same⟩

theorem editsAt_majNext {m : Memory 64} (o : Option MajorBlock) (n : Word) :
    EditsAt majorAt MajorBlock.addr m (if addrOf MajorBlock.addr o ≠ 0
      then m.store64 (majNext (addrOf MajorBlock.addr o)) n else m) o
      fun H => { H with next := n } := by
  apply editsAt_of_ite fun C _ => C.addr_ne
  intro C hC
  rw [hC]
  have w := writes_majNext (m := m) C.inSpace n
  exact ⟨w.header, w.same⟩

theorem Heap.Represents.neighbours (hrep : h.Represents L) (hL : L.majors = Bs ++ B :: Cs) :
    (majorAt h.mem B.addr).prev = addrOf MajorBlock.addr Bs.getLast? ∧
      (majorAt h.mem B.addr).next = addrOf MajorBlock.addr Cs.head? := by
  have hlinked := hrep.linked
  unfold Layout.addrs at hlinked
  rw [hL, List.map_append, List.map_cons] at hlinked
  exact ⟨hlinked.neighbours.1.trans (getLastD_addrs _ Bs),
    hlinked.neighbours.2.trans (headD_addrs _ Cs)⟩

namespace Layout

variable {A C : MajorBlock}

theorem mem_of_last (hL : L.majors = Bs ++ B :: Cs) (hA : Bs.getLast? = some A) :
    A ∈ L.majors ∧ A ≠ B :=
  mem_rest hL (List.mem_append_left _ (List.mem_of_mem_getLast? hA))

theorem mem_of_head (hL : L.majors = Bs ++ B :: Cs) (hC : Cs.head? = some C) :
    C ∈ L.majors ∧ C ≠ B :=
  mem_rest hL (List.mem_append_right _ (List.mem_of_mem_head? hC))

theorem clear_neighbours (hL : L.majors = Bs ++ B :: Cs) (hA : Bs.getLast? = some A)
    (hC : Cs.head? = some C) : Clear A.addr C.addr := by
  apply clear_majors (mem_of_last hL hA).1 (mem_of_head hL hC).1
  have hnodup := L.nodup_majors
  rw [hL] at hnodup
  rintro rfl
  exact (List.nodup_append'.mp hnodup).2.2 (List.mem_of_mem_getLast? hA)
    (List.mem_cons_of_mem _ (List.mem_of_mem_head? hC))

end Layout

/-- The two writes of `skipMajor`, taken together. -/
theorem skips_of_edits {m m₁ m₂ : Memory 64} (hL : L.majors = Bs ++ B :: Cs)
    (e₁ : EditsAt majorAt MajorBlock.addr m m₁ Bs.getLast?
      fun H => { H with next := addrOf MajorBlock.addr Cs.head? })
    (e₂ : EditsAt majorAt MajorBlock.addr m₁ m₂ Cs.head?
      fun H => { H with prev := addrOf MajorBlock.addr Bs.getLast? }) :
    Skips m m₂ L B Bs Cs := by
  have hB : B ∈ L.majors := by rw [hL]; simp
  have hkeeps : ∀ S : Set ℕ, (∀ D ∈ L.majors, D ≠ B → S ⊆ (headerSpan D.addr)ᶜ) →
      SameOn S m m₂ := by
    intro S hS
    apply (e₁.same.mono _).trans (e₂.same.mono _)
    · exact fun x hx A hA => hS A (Layout.mem_of_last hL hA).1 (Layout.mem_of_last hL hA).2 hx
    · exact fun x hx C hC => hS C (Layout.mem_of_head hL hC).1 (Layout.mem_of_head hL hC).2 hx
  constructor
  · constructor
    · intro A hA
      rw [e₂.majorAt_of_clear A.inSpace fun C hC => (Layout.clear_neighbours hL hA hC).symm,
        e₁.header A hA]
    · intro C hC
      rw [e₂.header C hC,
        e₁.majorAt_of_clear C.inSpace fun A hA => Layout.clear_neighbours hL hA hC]
    · intro D hD hDlast hDhead
      have hDL := (Layout.mem_rest hL hD).1
      rw [e₂.majorAt_of_clear D.inSpace, e₁.majorAt_of_clear D.inSpace]
      · intro A hA
        apply Layout.clear_majors (Layout.mem_of_last hL hA).1 hDL
        rintro rfl
        exact hDlast hA
      · intro C hC
        apply Layout.clear_majors (Layout.mem_of_head hL hC).1 hDL
        rintro rfl
        exact hDhead hC
    · intro D hD
      have hDL := (Layout.mem_rest hL hD).1
      exact hkeeps _ fun E hE _ => Layout.behind_subset_compl_header hDL hE
  · exact hkeeps _ fun D hD hne => Layout.span_subset_compl_header hB hD hne
  · exact hkeeps _ fun D hD _ => Set.compl_subset_compl.mpr (Layout.header_subset hD)

theorem skipMajor_skips (hrep : h.Represents L) (hL : L.majors = Bs ++ B :: Cs) :
    Skips h.mem (skipMajor B.addr h.mem) L B Bs Cs := by
  have hB : B ∈ L.majors := by rw [hL]; simp
  have hclear : ∀ A, Bs.getLast? = some A → Clear A.addr B.addr := fun A hA =>
    Layout.clear_majors (Layout.mem_of_last hL hA).1 hB (Layout.mem_of_last hL hA).2
  obtain ⟨hprev, hnext⟩ := hrep.neighbours hL
  unfold skipMajor
  rw [show h.mem.load64 (majPrev B.addr) = addrOf MajorBlock.addr Bs.getLast? from hprev,
    show h.mem.load64 (majNext B.addr) = addrOf MajorBlock.addr Cs.head? from hnext]
  dsimp only
  -- the link on from the block in front
  have e₁ := editsAt_majNext (m := h.mem) Bs.getLast? (addrOf MajorBlock.addr Cs.head?)
  generalize (if addrOf MajorBlock.addr Bs.getLast? ≠ 0 then _ else h.mem) = m₁ at e₁ ⊢
  have hB₁ := e₁.majorAt_of_clear B.inSpace hclear
  rw [show m₁.load64 (majPrev B.addr) = addrOf MajorBlock.addr Bs.getLast? from
      (congrArg MajorHeader.prev hB₁).trans hprev,
    show m₁.load64 (majNext B.addr) = addrOf MajorBlock.addr Cs.head? from
      (congrArg MajorHeader.next hB₁).trans hnext]
  -- the link back from the next block
  exact skips_of_edits hL e₁ (editsAt_majPrev Cs.head? (addrOf MajorBlock.addr Bs.getLast?))

/-- What `unlinkMajor` leaves: the layout without the block, and its pages untouched. -/
structure UnlinkedMajor (h h' : Heap) (L L' : Layout) (B : MajorBlock) : Prop where
  represents : h'.Represents L'
  pmm : h'.pmm = h.pmm
  pages : SameOn B.span h.mem h'.mem
  keeps : Keeps L.span L'.blocks h.mem h'.mem

/-- The size `unlinkMajor` takes off the account is that of the pages. -/
theorem Skips.size {m : Memory 64} (hskips : Skips h.mem m L B Bs Cs) (hB : B.Stored h.mem) :
    loadUInt m (majSize B.addr) = BitVec.ofNat 64 (B.pages.toNat * 4096) := by
  have hpages := B.pages_lt
  have hheader : majorAt m B.addr = majorAt h.mem B.addr := by
    apply majorAt_congr B.inSpace
    exact hskips.pages.mono B.header_subset
  have hload : m.load32 (majSize B.addr) = B.pages * lPageSize :=
    (congrArg MajorHeader.size hheader).trans hB.size
  apply BitVec.eq_of_toNat_eq
  rw [loadUInt, hload, toNat_setWidth64, BitVec.toNat_mul, show lPageSize.toNat = 4096 from rfl,
    BitVec.toNat_ofNat, Nat.mod_eq_of_lt (by omega : B.pages.toNat * 4096 < 2 ^ 32)]
  omega

section Rest

variable (hL : L.majors = Bs ++ B :: Cs) (hL' : L'.majors = Bs ++ Cs)

include hL hL'

theorem Layout.bytes_rest : L.bytes = L'.bytes + B.pages.toNat * 4096 := by
  unfold Layout.bytes
  rw [hL, hL']
  simp only [List.map_append, List.map_cons, List.sum_append, List.sum_cons]
  omega

theorem Layout.blocks_rest (hminors : B.minors = []) : L'.blocks = L.blocks := by
  unfold Layout.blocks
  rw [hL, hL', List.flatMap_append, List.flatMap_append, List.flatMap_cons, hminors,
    List.nil_append]

theorem Heap.Represents.root_rest (hrep : h.Represents L) :
    (if h.memRoot = B.addr then h.mem.load64 (majNext B.addr) else h.memRoot) =
      L'.addrs.headD 0 := by
  have hroot := hrep.root
  have hnodup := L.nodup_addrs
  unfold Layout.addrs at hroot hnodup ⊢
  rw [hL] at hroot hnodup
  rw [hL', List.map_append]
  cases hBs : Bs with
  | nil =>
    rw [hBs] at hroot
    exact (if_pos hroot).trans (hrep.next hL).1
  | cons A As =>
    rw [hBs] at hroot hnodup
    have haddr : h.memRoot ≠ B.addr := by
      rw [hroot]
      intro heq
      apply (List.nodup_cons.mp hnodup).1
      change A.addr = B.addr at heq
      rw [heq]
      simp
    exact (if_neg haddr).trans hroot

theorem Heap.Represents.best_rest (hrep : h.Represents L) :
    (if h.bestBet = B.addr then 0 else h.bestBet) = 0 ∨
      (if h.bestBet = B.addr then 0 else h.bestBet) ∈ L'.addrs := by
  by_cases hbest : h.bestBet = B.addr
  · exact Or.inl (if_pos hbest)
  · rw [if_neg hbest]
    refine hrep.best.imp id fun hmem => ?_
    unfold Layout.addrs at hmem ⊢
    rw [hL, List.map_append, List.map_cons, List.mem_append, List.mem_cons] at hmem
    rw [hL', List.map_append, List.mem_append]
    exact hmem.imp id fun h => h.resolve_left hbest

end Rest

theorem unlinkMajor_spec (hrep : h.Represents L) (hL : L.majors = Bs ++ B :: Cs)
    (hL' : L'.majors = Bs ++ Cs) (hminors : B.minors = []) :
    UnlinkedMajor h (unlinkMajor B.addr h) L L' B := by
  have hB : B ∈ L.majors := by rw [hL]; simp
  have hskips := skipMajor_skips hrep hL
  have hblocks := Layout.blocks_rest hL hL' hminors
  have hroot := hrep.root_rest hL hL'
  have hbest := hrep.best_rest hL hL'
  rw [unlinkMajor_eq]
  generalize skipMajor B.addr h.mem = m' at hskips ⊢
  have hsize := hskips.size (hrep.stored B hB)
  constructor
  · refine hrep.remove hL hL' ?_ hroot hbest ?_ ?_
    · rw [getLastD_addrs, headD_addrs]
      exact hskips.relinks
    · unfold Layout.taken
      rw [hblocks]
      exact hrep.inuse
    · change h.allocated - loadUInt m' (majSize B.addr) = _
      rw [hsize, hrep.allocated, Layout.bytes_rest hL hL', BitVec.ofNat_add,
        BitVec.add_sub_cancel]
  · rfl
  · exact hskips.pages
  · refine ⟨hskips.outside, fun b hb => ?_⟩
    rw [hblocks] at hb
    obtain ⟨D, hD, hbD, hsub⟩ := Layout.block_subset hb
    have hDne : D ≠ B := by
      rintro rfl
      rw [hminors] at hbD
      cases hbD
    have hDrest : D ∈ Bs ++ Cs := by
      rw [hL, List.mem_append, List.mem_cons] at hD
      rw [List.mem_append]
      exact hD.imp id fun h => h.resolve_left hDne
    exact (hskips.relinks.same D hDrest).mono hsub

end UnlinkMajor

end Olive
