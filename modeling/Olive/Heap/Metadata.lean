import Olive.Heap.Kfree

/-!
# The bytes the allocator relies on

The metadata of a layout are the headers and, in front of each payload, the noted distance.
What a heap represents is read off the metadata, and no payload meets them: whatever the
owner of a block writes into its payload, the heap stays what it was. A request can be made
smaller in place, as `krealloc` does.
-/

namespace Olive

open Library Memory

namespace Layout

def metadata (L : Layout) : Set ℕ :=
  {x | ∃ B ∈ L.majors, x ∈ headerSpan B.addr ∨ ∃ b ∈ B.minors, x ∈ b.front}

variable {L : Layout} {B : MajorBlock} {a b : MinorBlock}

theorem header_subset_metadata (hB : B ∈ L.majors) : headerSpan B.addr ⊆ L.metadata :=
  fun _ hx => ⟨B, hB, Or.inl hx⟩

theorem front_subset_metadata (hB : B ∈ L.majors) (hb : b ∈ B.minors) : b.front ⊆ L.metadata :=
  fun _ hx => ⟨B, hB, Or.inr ⟨b, hb, hx⟩⟩

theorem apart_of_mem (ha : a ∈ L.blocks) (hb : b ∈ L.blocks) (hne : a ≠ b) :
    a.stop ≤ b.start ∨ b.stop ≤ a.start := by
  have hsymm : Std.Symm fun a b : MinorBlock => a.stop ≤ b.start ∨ b.stop ≤ a.start :=
    ⟨fun _ _ => Or.symm⟩
  exact L.blocks_apart.forall ha hb hne

theorem nodup_blocks (L : Layout) : L.blocks.Nodup := by
  apply L.blocks_apart.imp
  rintro a b hab rfl
  have := a.start_lt_stop
  omega

theorem data_subset (hb : b ∈ L.blocks) : b.data ⊆ L.metadataᶜ := by
  have hstop := block_stop_le hb
  obtain ⟨C, hC, hbC, -⟩ := block_subset hb
  obtain ⟨hlo, hhi⟩ := MajorBlock.minor_bounds hbC
  intro x hx
  have hxb := MinorBlock.data_subset hstop hx
  rw [Set.mem_Ico] at hxb
  rintro ⟨B, hB, hm | ⟨a, ha, hm⟩⟩
  · unfold headerSpan at hm
    rw [Set.mem_Ico] at hm
    have hBle := B.header_le
    by_cases hBC : B = C
    · subst hBC
      unfold MajorBlock.start at hlo
      omega
    · have := majors_apart hB hC hBC
      unfold MajorBlock.start at this hBle hlo
      omega
  · have haL : a ∈ L.blocks := List.mem_flatMap.mpr ⟨B, hB, ha⟩
    have hasize := a.start_lt_stop
    unfold MinorBlock.front at hm
    rw [Set.mem_Ico] at hm
    by_cases hab : a = b
    · subst hab
      omega
    · have := apart_of_mem haL hb hab
      omega

theorem data_disjoint (ha : a ∈ L.blocks) (hb : b ∈ L.blocks) (hne : a ≠ b) :
    a.payload.toNat + a.reqSize.toNat ≤ b.payload.toNat ∨
      b.payload.toNat + b.reqSize.toNat ≤ a.payload.toNat := by
  obtain ⟨-, halo, -, hahi⟩ := a.payload_bounds (block_stop_le ha)
  obtain ⟨-, hblo, -, hbhi⟩ := b.payload_bounds (block_stop_le hb)
  have := apart_of_mem ha hb hne
  omega

theorem payload_injOn (ha : a ∈ L.blocks) (hb : b ∈ L.blocks) (h : a.payload = b.payload) : a = b := by
  by_contra hne
  obtain ⟨-, halo, hahi, -⟩ := a.payload_bounds (block_stop_le ha)
  obtain ⟨-, hblo, hbhi, -⟩ := b.payload_bounds (block_stop_le hb)
  have hasize := a.start_lt_stop
  have hbsize := b.start_lt_stop
  have := apart_of_mem ha hb hne
  rw [h] at halo hahi
  omega

end Layout

/-- A major block is read off its header and the bytes in front of its payloads. -/
theorem MajorBlock.Stored.of_metadata {B : MajorBlock} {m m' : Memory 64} (h : B.Stored m)
    (hheader : SameOn (headerSpan B.addr) m m') (hfronts : ∀ b ∈ B.minors, SameOn b.front m m') :
    B.Stored m' :=
  h.of_fronts (majorAt_congr B.inSpace hheader) hfronts

theorem Heap.Represents.of_metadata {h : Heap} {L : Layout} {m : Memory 64} (hrep : h.Represents L)
    (hsame : SameOn L.metadata h.mem m) : ({ h with mem := m } : Heap).Represents L := by
  have hheader : ∀ a ∈ L.addrs, majorAt m a = majorAt h.mem a := by
    intro a ha
    obtain ⟨B, hB, rfl⟩ := List.mem_map.mp ha
    exact majorAt_congr B.inSpace (hsame.mono (Layout.header_subset_metadata hB))
  refine ⟨hrep.root, ?_, hrep.best, ?_, hrep.inuse, hrep.allocated⟩
  · apply hrep.linked.congr
    · exact fun a ha => congrArg MajorHeader.prev (hheader a ha)
    · exact fun a ha => congrArg MajorHeader.next (hheader a ha)
  · intro B hB
    apply (hrep.stored B hB).of_metadata
    · exact hsame.mono (Layout.header_subset_metadata hB)
    · exact fun b hb => hsame.mono (Layout.front_subset_metadata hB hb)

theorem Heap.Represents.of_data {h : Heap} {L : Layout} {b : MinorBlock} {m : Memory 64}
    (hrep : h.Represents L) (hb : b ∈ L.blocks) (hsame : SameOn b.dataᶜ h.mem m) :
    ({ h with mem := m } : Heap).Represents L := by
  apply hrep.of_metadata
  apply hsame.mono
  exact Set.subset_compl_comm.mp (Layout.data_subset hb)

/-! ## The memory determines the layout -/

section Unique

variable {h : Heap} {L L' : Layout} {B C : MajorBlock} {b c : MinorBlock} {m : Memory 64} {maj : Word}

theorem eq_of_map_eq {A K : Type*} {f : A → K} {xs ys : List A} (hmap : xs.map f = ys.map f)
    (hinj : ∀ x ∈ xs, ∀ y ∈ ys, f x = f y → x = y) : xs = ys := by
  induction xs generalizing ys with
  | nil => exact (List.map_eq_nil_iff.mp hmap.symm).symm
  | cons x xs ih =>
    cases ys with
    | nil => cases hmap
    | cons y ys =>
      rw [List.map_cons, List.map_cons, List.cons.injEq] at hmap
      rw [hinj x List.mem_cons_self y List.mem_cons_self hmap.1, ih hmap.2]
      exact fun x hx y hy => hinj x (List.mem_cons_of_mem _ hx) y (List.mem_cons_of_mem _ hy)

theorem MinorBlock.Stored.unique (hb : b.Stored maj m) (hc : c.Stored maj m) (haddr : b.addr = c.addr) :
    b = c := by
  have hsize : b.size = c.size := by rw [← hb.size, ← hc.size, haddr]
  have hreq : b.reqSize = c.reqSize := by rw [← hb.reqSize, ← hc.reqSize, haddr]
  cases b
  cases c
  subst haddr hsize hreq
  rfl

theorem MajorBlock.Stored.unique (hB : B.Stored m) (hC : C.Stored m) (haddr : B.addr = C.addr) :
    B = C := by
  have hpages : B.pages = C.pages := by rw [← hB.pages, ← hC.pages, haddr]
  have hfirst : (B.minors.map MinorBlock.addr).headD 0 = (C.minors.map MinorBlock.addr).headD 0 := by
    rw [← hB.first, ← hC.first, haddr]
  have hzero : ∀ D : MajorBlock, (0 : Word) ∉ D.minors.map MinorBlock.addr := by
    intro D hmem
    obtain ⟨d, hd, hzero⟩ := List.mem_map.mp hmem
    exact minor_addr_ne_zero hd hzero
  have haddrs := hB.linked.unique hC.linked (hzero B) (hzero C) hfirst
  have hminors : B.minors = C.minors := by
    apply eq_of_map_eq haddrs
    intro b hb c hc hbc
    exact (hB.minors b hb).unique (haddr ▸ hC.minors c hc) hbc
  cases B
  cases C
  subst haddr hpages hminors
  rfl

theorem Heap.Represents.unique (hL : h.Represents L) (hL' : h.Represents L') : L = L' := by
  have hzero : ∀ L : Layout, (0 : Word) ∉ L.addrs := by
    intro L hmem
    obtain ⟨D, -, hzero⟩ := List.mem_map.mp hmem
    exact D.addr_ne hzero
  have haddrs := hL.linked.unique hL'.linked (hzero L) (hzero L') (hL.root.symm.trans hL'.root)
  have hmajors : L.majors = L'.majors := by
    apply eq_of_map_eq haddrs
    intro B hB C hC hBC
    exact (hL.stored B hB).unique (hL'.stored C hC) hBC
  cases L
  cases L'
  subst hmajors
  rfl

end Unique

/-! ## Making a request smaller -/

def MinorBlock.shrink (b : MinorBlock) (reqSize : BitVec 32) (h : reqSize.toNat ≤ b.reqSize.toNat) :
    MinorBlock where
  addr := b.addr
  size := b.size
  reqSize := reqSize
  room := by
    have hroom := b.room
    omega

section Shrink

variable {h : Heap} {L : Layout} {b : MinorBlock} {r : BitVec 32}

/-- What is left when `krealloc` has made a request smaller in place. -/
structure Shrinks (L L' : Layout) (b b' : MinorBlock) (m m' : Memory 64) : Prop where
  runs : L'.runs = L.runs
  span : L'.span = L.span
  perm : ∃ bs, L.blocks.Perm (b :: bs) ∧ L'.blocks.Perm (b' :: bs)
  inhabited : L.Inhabited → L'.Inhabited
  keeps : SameOn (headerSpan b.addr)ᶜ m m'

section Block

variable {B : MajorBlock} {xs ys : List MinorBlock} {m : Memory 64} {maj : Word}

def MajorBlock.shrinkAt (B : MajorBlock) (hsplit : B.minors = xs ++ b :: ys)
    (hr : r.toNat ≤ b.reqSize.toNat) : MajorBlock where
  addr := B.addr
  pages := B.pages
  minors := xs ++ b.shrink r hr :: ys
  addr_ne := B.addr_ne
  aligned := B.aligned
  pages_lt := B.pages_lt
  bound := B.bound
  packed := by
    have hp := B.packed
    rw [hsplit] at hp
    obtain ⟨hxs, hys⟩ := packed_append.mp hp
    exact packed_append.mpr ⟨hxs, hys.1, hys.2.1, hys.2.2⟩

theorem MajorBlock.map_shrinkAt {A : Type} (hsplit : B.minors = xs ++ b :: ys)
    (hr : r.toNat ≤ b.reqSize.toNat) (f : MinorBlock → A) (hf : f (b.shrink r hr) = f b) :
    (B.shrinkAt hsplit hr).minors.map f = B.minors.map f := by
  change (xs ++ b.shrink r hr :: ys).map f = _
  rw [hsplit, List.map_append, List.map_append, List.map_cons, List.map_cons, hf]

theorem MinorBlock.Stored.shrink (hb : b.Stored maj m) (hstop : b.stop ≤ 2 ^ 64)
    (hr : r.toNat ≤ b.reqSize.toNat) :
    (b.shrink r hr).Stored maj (m.store32 (minReqSize b.addr) r) := by
  have hw := writes_minReqSize (m := m) (b.inSpace hstop) r
  have hsize := b.start_lt_stop
  constructor
  · exact (congrArg MinorHeader.block hw.header).trans hb.block
  · exact (congrArg MinorHeader.magic hw.header).trans hb.magic
  · exact (congrArg MinorHeader.size hw.header).trans hb.size
  · exact congrArg MinorHeader.reqSize hw.header
  · have hbyte : m.store32 (minReqSize b.addr) r (b.payload - 16) = m (b.payload - 16) := by
      obtain ⟨-, hlo, hhi, -⟩ := b.payload_bounds hstop
      apply hw.same
      rw [Set.mem_compl_iff, headerSpan, Set.mem_Ico]
      unfold MinorBlock.start at hlo hhi hsize
      bv_omega
    change (m.store32 (minReqSize b.addr) r (b.payload - 16)).toNat = _
    rw [hbyte]
    exact hb.distance

/-- The request size of one block is no part of what stands in front of the others. -/
theorem MajorBlock.sameOn_front {c : MinorBlock} (hb : b ∈ B.minors) (hc : c ∈ B.minors)
    (hcb : c ≠ b) : SameOn c.front m (m.store32 (minReqSize b.addr) r) := by
  have hapart := MajorBlock.minors_apart hc hb hcb
  have hbsize := b.start_lt_stop
  have hcsize := c.start_lt_stop
  apply (writes_minReqSize (b.inSpace (MajorBlock.minor_stop_le hb)) r).same.mono
  rintro x ⟨hx, hx'⟩ ⟨hm, hm'⟩
  unfold MinorBlock.start at hapart hx hx' hcsize hbsize
  omega

theorem MajorBlock.links_shrink {c : MinorBlock} (hb : b ∈ B.minors) (hc : c ∈ B.minors) :
    (minorAt (m.store32 (minReqSize b.addr) r) c.addr).prev = (minorAt m c.addr).prev ∧
      (minorAt (m.store32 (minReqSize b.addr) r) c.addr).next = (minorAt m c.addr).next := by
  have hw := writes_minReqSize (m := m) (b.inSpace (MajorBlock.minor_stop_le hb)) r
  by_cases hcb : c = b
  · rw [hcb, hw.header]
    exact ⟨rfl, rfl⟩
  · rw [minorAt_of_clear hw.same (c.inSpace (MajorBlock.minor_stop_le hc))
      (MajorBlock.clear_minors hb hc (Ne.symm hcb))]
    exact ⟨rfl, rfl⟩

theorem MajorBlock.majorAt_shrink (hb : b ∈ B.minors) :
    majorAt (m.store32 (minReqSize b.addr) r) B.addr = majorAt m B.addr :=
  majorAt_of_clear (writes_minReqSize (b.inSpace (MajorBlock.minor_stop_le hb)) r).same B.inSpace
    (MajorBlock.clear_header hb).symm

theorem MajorBlock.Stored.shrinkAt (hB : B.Stored m) (hsplit : B.minors = xs ++ b :: ys)
    (hr : r.toNat ≤ b.reqSize.toNat) :
    (B.shrinkAt hsplit hr).Stored (m.store32 (minReqSize b.addr) r) := by
  have hb : b ∈ B.minors := by rw [hsplit]; simp
  have hmajor := MajorBlock.majorAt_shrink (m := m) (r := r) hb
  constructor
  · exact (congrArg MajorHeader.pages hmajor).trans hB.pages
  · exact (congrArg MajorHeader.size hmajor).trans hB.size
  · have hused : (B.shrinkAt hsplit hr).used = B.used := by
      unfold MajorBlock.used
      rw [MajorBlock.map_shrinkAt hsplit hr (fun b => 40 + b.size.toNat) rfl]
    rw [hused]
    exact (congrArg MajorHeader.usage hmajor).trans hB.usage
  · rw [MajorBlock.map_shrinkAt hsplit hr MinorBlock.addr rfl]
    exact (congrArg MajorHeader.first hmajor).trans hB.first
  · rw [MajorBlock.map_shrinkAt hsplit hr MinorBlock.addr rfl]
    apply hB.linked.congr
    · intro a ha
      obtain ⟨c, hc, rfl⟩ := List.mem_map.mp ha
      exact (MajorBlock.links_shrink hb hc).1
    · intro a ha
      obtain ⟨c, hc, rfl⟩ := List.mem_map.mp ha
      exact (MajorBlock.links_shrink hb hc).2
  · have hrest : ∀ c ∈ xs ++ ys, c.Stored B.addr (m.store32 (minReqSize b.addr) r) := by
      intro c hc
      obtain ⟨hcB, hcb⟩ := mem_of_rest hsplit hc
      exact (hB.minors c hcB).congr (MajorBlock.minor_stop_le hcB)
        (MajorBlock.sameOn_front hb hcB hcb)
    intro c hc
    rcases List.mem_append.mp hc with hc | hc
    · exact hrest c (List.mem_append_left _ hc)
    · rcases List.mem_cons.mp hc with rfl | hc
      · exact (hB.minors b hb).shrink (MajorBlock.minor_stop_le hb) hr
      · exact hrest c (List.mem_append_right _ hc)

end Block

theorem Heap.Represents.shrink (hrep : h.Represents L) (hb : b ∈ L.blocks)
    (hr : r.toNat ≤ b.reqSize.toNat) :
    ∃ L', ({ h with mem := h.mem.store32 (minReqSize b.addr) r } : Heap).Represents L' ∧
      Shrinks L L' b (b.shrink r hr) h.mem (h.mem.store32 (minReqSize b.addr) r) := by
  obtain ⟨B, hB, hbB⟩ := List.mem_flatMap.mp hb
  obtain ⟨Bs, Cs, hL⟩ := List.append_of_mem hB
  obtain ⟨xs, ys, hsplit⟩ := List.append_of_mem hbB
  have hw := writes_minReqSize (m := h.mem) (b.inSpace (MajorBlock.minor_stop_le hbB)) r
  have hmajor := MajorBlock.majorAt_shrink (m := h.mem) (r := r) hbB
  obtain ⟨L', hL', hruns, hbytes, hspan⟩ :=
    Layout.exists_set hL (show (B.shrinkAt hsplit hr).addr = B.addr from rfl) rfl
  have hblocks := Layout.blocks_split hL hsplit
  have hblocks' := Layout.blocks_split hL'
    (show (B.shrinkAt hsplit hr).minors = xs ++ b.shrink r hr :: ys from rfl)
  have hsame : SameOn B.spanᶜ h.mem (h.mem.store32 (minReqSize b.addr) r) := by
    apply hw.same.mono
    apply Set.compl_subset_compl.mpr
    exact b.header_subset.trans ((MajorBlock.minor_subset hbB).trans B.behind_subset)
  have htaken : L'.taken = L.taken := by
    unfold Layout.taken
    rw [hblocks, hblocks']
    simp [MinorBlock.shrink]
  refine ⟨L', ?_, hruns, hspan, ⟨Bs.flatMap MajorBlock.minors ++ xs ++
    (ys ++ Cs.flatMap MajorBlock.minors), ?_, ?_⟩, ?_, hw.same⟩
  · refine hrep.set hL hL' rfl rfl ((hrep.stored B hB).shrinkAt hsplit hr) ⟨?_, ?_⟩ hsame rfl
      hrep.best ?_ rfl
    · exact congrArg MajorHeader.prev hmajor
    · exact congrArg MajorHeader.next hmajor
    · rw [htaken]
      exact hrep.inuse
  · rw [hblocks]
    exact List.perm_middle
  · rw [hblocks']
    exact List.perm_middle
  · intro hinh D hD
    rw [hL', List.mem_append, List.mem_cons] at hD
    rcases hD with hD | rfl | hD
    · exact hinh D (Layout.mem_rest hL (List.mem_append_left _ hD)).1
    · exact List.append_ne_nil_of_right_ne_nil _ (List.cons_ne_nil _ _)
    · exact hinh D (Layout.mem_rest hL (List.mem_append_right _ hD)).1

end Shrink

end Olive
