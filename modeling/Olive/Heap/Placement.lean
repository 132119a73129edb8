import Olive.Heap.Growth
import Olive.Heap.Search

/-!
# What `kmalloc` does to the layout

In range, `kmalloc` always returns. It takes a gap if some major block has one, and otherwise
asks for one new block: if it gets one the minor block is put there, and if it gets none the
answer is `NULL` and only warnings are left behind. Nothing outside the pages of the heap is
written, and nothing behind the header of a minor block.
-/

namespace Olive

open Library Memory

def MajorBlock.newMinor (B : MajorBlock) (xs : List MinorBlock) (size reqSize : BitVec 32)
    (hroom : reqSize.toNat + 32 ≤ size.toNat) : MinorBlock where
  addr := BitVec.ofNat 64 (endOf MinorBlock.stop (B.start + 40) xs)
  size := size
  reqSize := reqSize
  room := hroom

/-- The layout `L'` is `L` with a minor block for `reqSize` bytes put into one major block. -/
structure Places (L L' : Layout) (b : MinorBlock) (size reqSize : Word) : Prop where
  runs : L'.runs = L.runs
  bytes : L'.bytes = L.bytes
  span : L'.span = L.span
  perm : L'.blocks.Perm (b :: L.blocks)
  size : b.size = size.setWidth 32
  reqSize : b.reqSize = reqSize.setWidth 32

section Placing

variable {L L' : Layout} {B B' : MajorBlock} {Bs Cs : List MajorBlock} {xs ys : List MinorBlock}
  {b : MinorBlock} {size reqSize : Word} {h : Heap}

theorem Places.taken (hp : Places L L' b size reqSize) :
    L'.taken = b.size.toNat + L.taken := by
  unfold Layout.taken
  rw [(hp.perm.map fun b => b.size.toNat).sum_eq]
  rfl

theorem MajorBlock.Fits.inserts (hfits : B.Fits (size.toNat + 40) xs ys)
    (hsize : (size.setWidth 32).toNat = size.toNat)
    (hroom : (reqSize.setWidth 32).toNat + 32 ≤ (size.setWidth 32).toNat) :
    ∃ B', Inserts B B' xs ys (B.newMinor xs _ _ hroom) := by
  have hpacked := B.packed
  have hstop := B.stop_le
  rw [hfits.split] at hpacked
  have hend := (packed_append.mp hpacked).2.le
  have hroomy := hfits.room
  have hle : startOf MinorBlock.start ys B.stop ≤ B.stop := by
    cases ys with
    | nil => exact le_rfl
    | cons c ys =>
      have hbounds := (packed_append.mp hpacked).2.bounds List.mem_cons_self
      exact hbounds.2.1.trans hbounds.2.2
  have hstart : (B.newMinor xs _ _ hroom).start = endOf MinorBlock.stop (B.start + 40) xs := by
    unfold MinorBlock.start newMinor
    rw [BitVec.toNat_ofNat, Nat.mod_eq_of_lt (by omega)]
  have hlen : (B.newMinor xs _ _ hroom).stop = (B.newMinor xs _ _ hroom).start + 40 + size.toNat := by
    unfold MinorBlock.stop MinorBlock.start newMinor
    rw [hsize]
  refine ⟨{ B with minors := xs ++ B.newMinor xs _ _ hroom :: ys, packed := ?_ }, rfl, rfl,
    hfits.split, rfl, hstart⟩
  apply hpacked.insert
  · rw [hstart]
    exact le_rfl
  · rw [hlen]
    omega
  · have hfit : endOf MinorBlock.stop (B.start + 40) xs + (size.toNat + 40) ≤
        startOf MinorBlock.start ys (B.addr.toNat + B.pages.toNat * 4096) := hfits.room
    rw [hlen, hstart]
    omega

theorem Layout.exists_set (hL : L.majors = Bs ++ B :: Cs) (haddr : B'.addr = B.addr)
    (hpages : B'.pages = B.pages) : ∃ L' : Layout, L'.majors = Bs ++ B' :: Cs ∧
      L'.runs = L.runs ∧ L'.bytes = L.bytes ∧ L'.span = L.span := by
  have hstart : B'.start = B.start := by
    unfold MajorBlock.start
    rw [haddr]
  have hstop : B'.stop = B.stop := by
    unfold MajorBlock.stop
    rw [haddr, hpages]
  have hapart := L.apart
  rw [hL, List.pairwise_append, List.pairwise_cons] at hapart
  obtain ⟨hBs, ⟨hBC, hCs⟩, hcross⟩ := hapart
  refine ⟨⟨Bs ++ B' :: Cs, ?_⟩, rfl, ?_, ?_, ?_⟩
  · rw [List.pairwise_append, List.pairwise_cons]
    refine ⟨hBs, ⟨?_, hCs⟩, ?_⟩
    · intro C hC
      rw [hstart, hstop]
      exact hBC C hC
    · intro A hA C hC
      rcases List.mem_cons.mp hC with rfl | hC
      · rw [hstart, hstop]
        exact hcross A hA B List.mem_cons_self
      · exact hcross A hA C (List.mem_cons_of_mem _ hC)
  · unfold runs
    rw [hL, List.map_append, List.map_append, List.map_cons, List.map_cons, haddr, hpages]
  · unfold bytes
    rw [hL, List.map_append, List.map_append, List.map_cons, List.map_cons, hpages]
  · have hspan : B'.span = B.span := by
      unfold MajorBlock.span
      rw [hstart, hstop]
    unfold span
    ext x
    simp only [hL, Set.mem_ofPred_eq, List.mem_append, List.mem_cons, or_and_right, exists_or,
      exists_eq_left, hspan]

theorem Layout.blocks_split {zs : List MinorBlock} (hL : L.majors = Bs ++ B :: Cs)
    (hsplit : B.minors = xs ++ zs) :
    L.blocks = Bs.flatMap MajorBlock.minors ++ xs ++ (zs ++ Cs.flatMap MajorBlock.minors) := by
  unfold Layout.blocks
  rw [hL, List.flatMap_append, List.flatMap_cons, hsplit]
  simp only [List.append_assoc]

theorem Inserts.perm (hins : Inserts B B' xs ys b) (hL : L.majors = Bs ++ B :: Cs)
    (hL' : L'.majors = Bs ++ B' :: Cs) : L'.blocks.Perm (b :: L.blocks) := by
  rw [Layout.blocks_split hL hins.before, Layout.blocks_split hL' hins.after]
  exact List.perm_middle

/-- A call that writes to one major block, and there to no payload, keeps the others as well. -/
theorem Keeps.of_major {m m' : Memory 64} (hB : B ∈ L.majors) (hsame : SameOn B.spanᶜ m m')
    (hpayloads : ∀ c ∈ B.minors, SameOn (Set.Ico (c.start + 40) c.stop) m m') :
    Keeps L.span L.blocks m m' := by
  constructor
  · apply hsame.mono
    apply Set.compl_subset_compl.mpr
    exact fun x hx => ⟨B, hB, hx⟩
  · intro c hc
    obtain ⟨C, hC, hcC, hsub⟩ := Layout.block_subset hc
    by_cases hCB : C = B
    · subst hCB
      exact hpayloads c hcC
    · apply hsame.mono
      apply hsub.trans
      apply Set.Subset.trans _ (Layout.disjoint_spans hB hC (Ne.symm hCB))
      exact Set.Ico_subset_Ico (by omega) le_rfl

/-- What `kmalloc` has done when it returns a block: `g` is the heap the block was put into,
and `B` the major block. -/
structure Placed (g : Heap) (L L' : Layout) (B : MajorBlock) (b : MinorBlock) (size reqSize : Word)
    (r : Word × Heap) : Prop where
  places : Places L L' b size reqSize
  inhabited : ∀ C ∈ L'.majors, C.minors ≠ [] ∨ C ∈ L.majors ∧ C ≠ B
  pointer : r.1 = b.payload
  heap : r.2 = { g with mem := r.2.mem, inuse := g.inuse + size }
  represents : r.2.Represents L'
  keeps : Keeps L.span L.blocks g.mem r.2.mem

theorem Heap.Represents.install (hrep : h.Represents L) (hB : B ∈ L.majors)
    (hfits : B.Fits (size.toNat + 40) xs ys) (hsize : (size.setWidth 32).toNat = size.toNat)
    (hroom : (reqSize.setWidth 32).toNat + 32 ≤ (size.setWidth 32).toNat) :
    ∃ L' b, Placed h L L' B b size reqSize (install size reqSize B.addr (placeAt xs ys) h) := by
  obtain ⟨B', hins⟩ := hfits.inserts hsize hroom
  obtain ⟨Bs, Cs, hL⟩ := List.append_of_mem hB
  obtain ⟨L', hL', hruns, hbytes, hspan⟩ := Layout.exists_set hL hins.addr hins.pages
  have hinst := install_placeAt (hrep.stored B hB) hins rfl rfl
  have hplaces : Places L L' _ size reqSize :=
    ⟨hruns, hbytes, hspan, hins.perm hL hL', rfl, rfl⟩
  refine ⟨L', _, hplaces, ?_, hinst.pointer, hinst.heap, ?_, ?_⟩
  · intro C hC
    rw [hL', List.mem_append, List.mem_cons] at hC
    rcases hC with hC | rfl | hC
    · exact Or.inr (Layout.mem_rest hL (List.mem_append_left _ hC))
    · left
      rw [hins.after]
      simp
    · exact Or.inr (Layout.mem_rest hL (List.mem_append_right _ hC))
  · have hheap := hinst.heap
    apply hrep.set hL hL' hins.addr hins.pages hinst.stored hinst.links hinst.same
    · rw [hheap]
    · rw [hheap]
      exact hrep.best
    · rw [hheap, hplaces.taken]
      change h.inuse + size = _
      rw [hrep.inuse, BitVec.ofNat_add, BitVec.add_comm, hplaces.size, hsize, BitVec.ofNat_toNat,
        BitVec.setWidth_eq]
    · rw [hheap]
  · exact .of_major hB hinst.same hinst.payloads

end Placing

/-! ## The whole call -/

/-- The requests for which `kmalloc` computes without wrapping. -/
def RequestInRange (reqSize : Word) : Prop := (effectiveRequest reqSize).toNat ≤ 2 ^ 32 - 4208

def Layout.Full (L : Layout) (reqSize : Word) : Prop :=
  ∀ B ∈ L.majors, ¬ B.HasGap ((effectiveRequest reqSize).toNat + 72)

/-- What `liballoc_alloc` answers when the heap is full: `NULL` or fresh pages. -/
def Layout.Supplied (L : Layout) (s : Pmm) (reqSize : Word) : Prop :=
  L.Full reqSize → (liballocAlloc s (requestedPages reqSize)).1 = 0 ∨
    L.Fresh (liballocAlloc s (requestedPages reqSize)).1 (requestedPages reqSize)

/-- Where `kmalloc` gets the room from: a gap, or a new block behind the last one. -/
inductive Layout.Grown (L : Layout) (reqSize : Word) (s s' : Pmm)
    (runs : List (Word × BitVec 32)) : Prop
  | gap (hgap : ¬ L.Full reqSize) (hpmm : s' = s) (hruns : runs = L.runs)
  | fresh (hfull : L.Full reqSize)
      (hfresh : L.Fresh (liballocAlloc s (requestedPages reqSize)).1 (requestedPages reqSize))
      (hpmm : s' = (liballocAlloc s (requestedPages reqSize)).2)
      (hruns : runs = L.runs ++
        [((liballocAlloc s (requestedPages reqSize)).1, requestedPages reqSize)])

def Layout.Inhabited (L : Layout) : Prop := ∀ B ∈ L.majors, B.minors ≠ []

/-- `kmalloc(reqSize)` has answered the payload of the new minor block `b`. -/
structure Kmalloced (h : Heap) (L L' : Layout) (b : MinorBlock) (reqSize p : Word) (h' : Heap) :
    Prop where
  pointer : p = b.payload
  requested : b.reqSize.toNat = (effectiveRequest reqSize).toNat
  padded : b.size.toNat = (effectiveRequest reqSize).toNat + 32
  perm : L'.blocks.Perm (b :: L.blocks)
  grown : L.Grown reqSize h.pmm h'.pmm L'.runs
  represents : h'.Represents L'
  inhabited : L.Inhabited → L'.Inhabited
  span : L.span ⊆ L'.span
  keeps : Keeps L'.span L.blocks h.mem h'.mem

/-- `kmalloc(reqSize)` has answered `NULL` because there was no gap and no new block. -/
structure KmallocNull (h : Heap) (L : Layout) (reqSize p : Word) (h' : Heap) : Prop where
  pointer : p = 0
  full : L.Full reqSize
  refused : (liballocAlloc h.pmm (requestedPages reqSize)).1 = 0
  pmm : h'.pmm = (liballocAlloc h.pmm (requestedPages reqSize)).2
  mem : h'.mem = h.mem
  represents : h'.Represents L

section Loop

variable {L L' : Layout} {B C : MajorBlock} {xs ys : List MinorBlock} {size reqSize : Word}
  {c c' : Cursor} {h : Heap}

theorem Finds.loop (hf : Finds size reqSize L c c' B xs ys) : ∃ n₀, ∀ n ≥ n₀,
    kmallocLoop size reqSize n c = .ok (install size reqSize B.addr (placeAt xs ys) c'.heap) := by
  obtain ⟨a, b, hloop⟩ := hf.reach.loop
  obtain ⟨fuel, hstep⟩ := hf.step
  refine ⟨max b fuel + 1 + a, fun n hn => ?_⟩
  obtain ⟨n, rfl⟩ : ∃ i, n = i + 1 + a := ⟨n - 1 - a, by omega⟩
  rw [hloop (n + 1) (by omega), kmallocLoop, kmallocStep_mono hstep (by omega)]
  rfl

theorem Grows.hasGap {maj : Word} {st : BitVec 32} {n : ℕ} (hg : Grows L L' C maj st)
    (hst : EnoughPages n st) : C.Fits (n + 40) [] [] := by
  refine ⟨hg.minors, ?_⟩
  have hroom := hst.room
  rw [endOf_nil, startOf_nil]
  unfold MajorBlock.stop MajorBlock.start
  rw [hg.pages]
  omega

variable (reqSize) in
/-- In a block with a gap the loop finds a place from either of its two points on. -/
theorem finds_of_fits (hneed : size.toNat + 40 < 2 ^ 64) (hmaj : c.maj = B.addr)
    (hB : B ∈ L.majors) (hrep : c.heap.Represents L) (hfits : B.Fits (size.toNat + 40) xs ys) :
    ∃ c' zs ws, Finds size reqSize L c c' B zs ws := by
  cases hpc : c.pc with
  | head =>
    rcases Cursor.At.visit reqSize ⟨hpc, hmaj, hB, hrep⟩ hneed with
      hfinds | ⟨c', c'', pc, hleaves⟩
    · exact hfinds
    · exact absurd ⟨xs, ys, hfits⟩ hleaves.full
  | place =>
    rcases findPlace_spec (B.minors.length + 1) (hrep.stored B hB) hneed
        (fun _ => hfits.le_free) (Nat.lt_succ_self _) with ⟨zs, ws, hfind, hfits'⟩ | ⟨-, hfull⟩
    · refine ⟨c, zs, ws, .refl c, hB, hfits', hrep, B.minors.length + 1, ?_⟩
      simp only [kmallocStep, hpc, placeStep, hmaj, hfind]
      rfl
    · exact absurd ⟨xs, ys, hfits⟩ hfull

end Loop

section Kmalloc

variable {h h' : Heap} {L : Layout} {reqSize : Word}

theorem RequestInRange.toNat_padded (hn : RequestInRange reqSize) :
    (paddedSize (effectiveRequest reqSize)).toNat = (effectiveRequest reqSize).toNat + 32 := by
  unfold RequestInRange at hn
  rw [paddedSize]
  bv_omega

theorem RequestInRange.sizeInRange (hn : RequestInRange reqSize) :
    SizeInRange (paddedSize (effectiveRequest reqSize)) := by
  have hsize := hn.toNat_padded
  unfold RequestInRange at hn
  unfold SizeInRange
  omega

theorem RequestInRange.toNat_setWidth (hn : RequestInRange reqSize) :
    ((effectiveRequest reqSize).setWidth 32).toNat = (effectiveRequest reqSize).toNat := by
  unfold RequestInRange at hn
  rw [BitVec.toNat_setWidth, Nat.mod_eq_of_lt (by omega)]

theorem RequestInRange.enoughPages (hn : RequestInRange reqSize) :
    EnoughPages (paddedSize (effectiveRequest reqSize)).toNat (requestedPages reqSize) :=
  hn.sizeInRange.enoughPages

theorem RequestInRange.full_iff (hn : RequestInRange reqSize) : L.Full reqSize ↔
    ∀ B ∈ L.majors, ¬ B.HasGap ((paddedSize (effectiveRequest reqSize)).toNat + 40) := by
  rw [hn.toNat_padded]
  rfl

theorem Placed.kmalloced {g : Heap} {L₁ L' : Layout} {B : MajorBlock} {b : MinorBlock}
    {r : Word × Heap}
    (hp : Placed g L₁ L' B b (paddedSize (effectiveRequest reqSize)) (effectiveRequest reqSize) r)
    (hn : RequestInRange reqSize) (hgrown : L.Grown reqSize h.pmm g.pmm L₁.runs)
    (hmajors : ∀ C ∈ L₁.majors, C ∈ L.majors ∨ C = B)
    (hblocks : L₁.blocks = L.blocks) (hspan : L.span ⊆ L₁.span)
    (hkeeps : Keeps L₁.span L.blocks h.mem g.mem) : Kmalloced h L L' b reqSize r.1 r.2 where
  pointer := hp.pointer
  requested := by rw [hp.places.reqSize, hn.toNat_setWidth]
  padded := by rw [hp.places.size, hn.sizeInRange.toNat_setWidth, hn.toNat_padded]
  perm := by
    rw [← hblocks]
    exact hp.places.perm
  grown := by
    rw [hp.heap, hp.places.runs]
    exact hgrown
  represents := hp.represents
  inhabited hinh C hC := by
    rcases hp.inhabited C hC with hne | ⟨hC, hCB⟩
    · exact hne
    · exact hinh C ((hmajors C hC).resolve_right hCB)
  span := by
    rw [hp.places.span]
    exact hspan
  keeps := by
    rw [hp.places.span]
    apply hkeeps.trans hp.keeps (fun _ hx => hx)
    rw [hblocks]
    exact List.Subset.refl _

theorem RequestInRange.room (hn : RequestInRange reqSize) :
    ((effectiveRequest reqSize).setWidth 32).toNat + 32 ≤
      ((paddedSize (effectiveRequest reqSize)).setWidth 32).toNat := by
  rw [hn.toNat_setWidth, hn.sizeInRange.toNat_setWidth, hn.toNat_padded]

/-- A call has found a place in the layout `L₁`, which is `L` or has one block more. -/
theorem Finds.kmalloced {L₁ : Layout} {c c' : Cursor} {B : MajorBlock} {xs ys : List MinorBlock}
    (hf : Finds (paddedSize (effectiveRequest reqSize)) (effectiveRequest reqSize) L₁ c c' B xs ys)
    (hn : RequestInRange reqSize) (hgrown : L.Grown reqSize h.pmm c.heap.pmm L₁.runs)
    (hmajors : ∀ C ∈ L₁.majors, C ∈ L.majors ∨ C = B) (hblocks : L₁.blocks = L.blocks)
    (hspan : L.span ⊆ L₁.span)
    (hkeeps : Keeps L₁.span L.blocks h.mem c.heap.mem) :
    ∃ n₀ p h', (∀ n ≥ n₀, kmallocLoop (paddedSize (effectiveRequest reqSize))
      (effectiveRequest reqSize) n c = .ok (p, h')) ∧ ∃ L' b, Kmalloced h L L' b reqSize p h' := by
  obtain ⟨n₀, hloop⟩ := hf.loop
  have hsame := hf.reach.sameHeap rfl
  obtain ⟨L', b, hplaced⟩ :=
    hf.represents.install hf.mem hf.fits hn.sizeInRange.toNat_setWidth hn.room
  refine ⟨n₀, _, _, hloop, L', b, ?_⟩
  apply hplaced.kmalloced hn _ hmajors hblocks hspan
  · rw [hsame.mem]
    exact hkeeps
  · rw [hsame.pmm]
    exact hgrown

theorem allocateNewPage_null {size : BitVec 32}
    (hnull : (liballocAlloc h.pmm (newPageCount size)).1 = 0) :
    allocateNewPage size h = (0, { h with
      pmm := (liballocAlloc h.pmm (newPageCount size)).2 }.warn
        (liballocAllocNullReport (newPageCount size))) := by
  simp only [allocateNewPage, if_pos hnull]

theorem Heap.Represents.congr (hrep : h.Represents L) (hmem : h'.mem = h.mem)
    (hroot : h'.memRoot = h.memRoot) (hbest : h'.bestBet = h.bestBet) (hinuse : h'.inuse = h.inuse)
    (halloc : h'.allocated = h.allocated) : h'.Represents L := by
  apply hrep.of_same hmem hroot _ hinuse halloc
  rw [hbest]
  exact hrep.best

theorem Heap.Represents.refused {size : BitVec 32} (hrep : h.Represents L)
    (hnull : (liballocAlloc h.pmm (newPageCount size)).1 = 0) :
    ∃ g, allocateNewPage size h = (0, g) ∧ g.Represents L ∧ g.mem = h.mem ∧
      g.pmm = (liballocAlloc h.pmm (newPageCount size)).2 ∧ g.memRoot = h.memRoot := by
  refine ⟨_, allocateNewPage_null hnull, ?_⟩
  generalize (liballocAlloc h.pmm (newPageCount size)).2 = s
  exact ⟨hrep.congr rfl rfl rfl rfl rfl, rfl, rfl, rfl⟩

theorem attach_null {size : Word} {c : Cursor} {pc : Pc} {g : Heap}
    (hpage : allocateNewPage (size.setWidth 32) c.heap = (0, g)) (hmem : g.mem = c.heap.mem)
    (hnext : c.heap.mem.load64 (majNext c.maj) = 0) : attach size c pc = .error g := by
  rw [← hmem] at hnext
  have hself : g.mem.store64 (majNext c.maj) 0 = g.mem := by
    rw [← hnext, Memory.store64_load64_self]
  simp only [attach, hpage, hself, hnext, if_true]

theorem Heap.Represents.allocateNewPage_first {size : BitVec 32} {L₁ : Layout} {C : MajorBlock}
    (hrep : h.Represents L) (hg : Grows L L₁ C (liballocAlloc h.pmm (newPageCount size)).1
      (newPageCount size)) (hL : L.majors = []) :
    ∃ g, allocateNewPage size h = (C.addr, g) ∧ { g with memRoot := C.addr }.Represents L₁ ∧
      g.bestBet = 0 ∧ g.pmm = (liballocAlloc h.pmm (newPageCount size)).2 ∧
      Keeps L₁.span L.blocks h.mem g.mem := by
  have haddr := hg.addr
  have hne := C.addr_ne
  have hbest : h.bestBet = 0 := by
    have hmem := hrep.best
    unfold Layout.addrs at hmem
    rw [hL] at hmem
    exact hmem.resolve_right List.not_mem_nil
  rw [haddr] at hne ⊢
  refine ⟨_, allocateNewPage_served hne, ?_⟩
  generalize (liballocAlloc h.pmm (newPageCount size)).2 = s
  generalize (liballocAlloc h.pmm (newPageCount size)).1 = maj at hg
  obtain ⟨hrep₁, hkeeps₁⟩ := hrep.append_first hg hL s
  exact ⟨hrep₁, hbest, rfl, hkeeps₁⟩

theorem Heap.Represents.attach_fresh {size : Word} {c : Cursor} (pc : Pc) {L₁ : Layout}
    {B C : MajorBlock} (hrep : c.heap.Represents L)
    (hg : Grows L L₁ C (liballocAlloc c.heap.pmm (newPageCount (size.setWidth 32))).1
      (newPageCount (size.setWidth 32))) (hB : c.maj = B.addr)
    (hlast : L.majors.getLast? = some B) :
    ∃ g, attach size c pc = .ok { c with pc := pc, maj := C.addr, heap := g } ∧ g.Represents L₁ ∧
      g.pmm = (liballocAlloc c.heap.pmm (newPageCount (size.setWidth 32))).2 ∧
      Keeps L₁.span L.blocks c.heap.mem g.mem := by
  have hBmem : B ∈ L.majors := List.mem_of_mem_getLast? hlast
  have hclear : Clear B.addr C.addr :=
    Layout.clear_majors (hg.mem_of_mem hBmem) hg.mem (hg.ne hBmem)
  have haddr := hg.addr
  have hne := C.addr_ne
  have hspace := C.inSpace
  have hlink : ∀ m : Memory 64, (m.store64 (majNext B.addr) C.addr).load64 (majNext B.addr) = C.addr :=
    fun m => congrArg MajorHeader.next (writes_majNext B.inSpace C.addr).header
  have hback : ∀ m : Memory 64, ((m.store64 (majNext B.addr) C.addr).store64 (majPrev C.addr)
      B.addr).load64 (majNext B.addr) = C.addr := by
    intro m
    have w := writes_majPrev (m := m.store64 (majNext B.addr) C.addr) hspace B.addr
    have hsame := majorAt_of_clear w.same B.inSpace hclear.symm
    exact (congrArg MajorHeader.next hsame).trans (hlink m)
  rw [haddr] at hne hlink hback ⊢
  have hpage := allocateNewPage_served hne
  unfold attach
  rw [hpage]
  generalize (liballocAlloc c.heap.pmm (newPageCount (size.setWidth 32))).2 = s
  generalize (liballocAlloc c.heap.pmm (newPageCount (size.setWidth 32))).1 = maj at hg hne hlink hback
  obtain ⟨hrep₁, hkeeps₁⟩ := hrep.append_last hg hlast s
  simp only [hB, hlink, hback, if_neg hne]
  exact ⟨_, rfl, hrep₁, rfl, hkeeps₁⟩

theorem kmallocSized_null {size : Word} {g : Heap} (hroot : h.memRoot = 0)
    (hpage : allocateNewPage (size.setWidth 32) h = (0, g)) (n : ℕ) :
    kmallocSized n size reqSize h = .ok (0, { g with memRoot := 0 }.report memRootReport) := by
  simp only [kmallocSized, if_pos hroot, hpage, if_true]

theorem kmallocLoop_null {size : Word} {start c c' : Cursor} {pc : Pc} {fuel : ℕ} {g : Heap}
    (hreach : Reaches size reqSize start 0 c)
    (hstep : kmallocStep size reqSize fuel c = .ok (.needsBlock c' pc))
    (hpage : allocateNewPage (size.setWidth 32) c'.heap = (0, g)) (hmem : g.mem = c'.heap.mem) :
    ∃ n₀, ∀ n ≥ n₀, kmallocLoop size reqSize n start = .ok (kmallocFails size g) := by
  obtain ⟨a, b, hloop⟩ := hreach.loop
  refine ⟨max b fuel + 1 + a, fun n hle => ?_⟩
  obtain ⟨n, rfl⟩ : ∃ i, n = i + 1 + a := ⟨n - 1 - a, by omega⟩
  rw [hloop (n + 1) (by omega), kmallocLoop, kmallocStep_mono hstep (by omega)]
  simp only [bind, Except.bind, attach_null hpage hmem (kmallocStep_needsBlock hstep).2]

theorem kmallocSized_empty (hrep : h.Represents L) (hn : RequestInRange reqSize)
    (hL : L.majors = []) (hsupply : L.Supplied h.pmm reqSize) :
    ∃ n₀ p h', (∀ n ≥ n₀, kmallocSized n (paddedSize (effectiveRequest reqSize))
      (effectiveRequest reqSize) h = .ok (p, h')) ∧
        ((∃ L' b, Kmalloced h L L' b reqSize p h') ∨ KmallocNull h L reqSize p h') := by
  have hroot : h.memRoot = 0 := by rw [hrep.root, L.headD_addrs_eq_zero_iff, hL]
  have hfull : L.Full reqSize := by
    intro B hB
    rw [hL] at hB
    cases hB
  rcases hsupply hfull with hnull | hfresh
  · obtain ⟨g, hpage, hrep', hmem, hpmm, hroot'⟩ := hrep.refused hnull
    refine ⟨0, _, _, fun n _ => kmallocSized_null hroot hpage n, Or.inr ?_⟩
    refine ⟨rfl, hfull, hnull, hpmm, hmem, ?_⟩
    exact hrep'.congr rfl (hroot.symm.trans hroot'.symm) rfl rfl rfl
  · obtain ⟨L₁, C, hg⟩ := hfresh.grows hn.enoughPages
    obtain ⟨g, hpage, hrep₁, hbest, hpmm, hkeeps₁⟩ := hrep.allocateNewPage_first hg hL
    have hmaj : (startCursor (paddedSize (effectiveRequest reqSize))
        { g with memRoot := C.addr }).maj = C.addr := by
      simp only [startCursor, hbest, ne_eq, not_true_eq_false, false_and, if_false]
    have hheap := startCursor_heap (paddedSize (effectiveRequest reqSize)) { g with memRoot := C.addr }
    obtain ⟨c', zs, ws, hfinds⟩ := finds_of_fits (effectiveRequest reqSize)
      hn.sizeInRange.need_lt hmaj hg.mem (by rw [hheap]; exact hrep₁) (hg.hasGap hn.enoughPages)
    obtain ⟨n₀, p, h', hloop, hresult⟩ := hfinds.kmalloced (h := h) hn
      (.fresh hfull hfresh (by rw [hheap]; exact hpmm) hg.runs) hg.mem_or_eq hg.blocks hg.span_subset
      (by rw [hheap]; exact hkeeps₁)
    refine ⟨n₀, p, h', fun n hle => ?_, Or.inl hresult⟩
    simp only [kmallocSized, if_pos hroot]
    rw [hpage]
    simp only [if_neg C.addr_ne]
    exact hloop n hle

theorem kmallocLoop_full {start c c' : Cursor} {B : MajorBlock} {pc : Pc} {fuel : ℕ}
    (hrep : c'.heap.Represents L) (hn : RequestInRange reqSize) (hfull : L.Full reqSize)
    (hsupply : L.Supplied h.pmm reqSize) (hheap : start.heap = h)
    (hreach : Reaches (paddedSize (effectiveRequest reqSize)) (effectiveRequest reqSize) start 0 c)
    (hstep : kmallocStep (paddedSize (effectiveRequest reqSize)) (effectiveRequest reqSize) fuel c =
      .ok (.needsBlock c' pc))
    (hmaj : c'.maj = B.addr) (hlast : L.majors.getLast? = some B) :
    ∃ n₀ p h', (∀ n ≥ n₀, kmallocLoop (paddedSize (effectiveRequest reqSize))
      (effectiveRequest reqSize) n start = .ok (p, h')) ∧
        ((∃ L' b, Kmalloced h L L' b reqSize p h') ∨ KmallocNull h L reqSize p h') := by
  obtain ⟨hsame', hnext⟩ := kmallocStep_needsBlock hstep
  have hsame : SameHeap h c'.heap := hheap ▸ (hreach.sameHeap rfl).trans hsame'
  have hst : newPageCount ((paddedSize (effectiveRequest reqSize)).setWidth 32) =
      requestedPages reqSize := rfl
  rcases hsupply hfull with hnull | hfresh
  · have hnull' : (liballocAlloc c'.heap.pmm (requestedPages reqSize)).1 = 0 := by
      rw [hsame.pmm, hnull]
    obtain ⟨g, hpage, hrep', hmem, hpmm, -⟩ := hrep.refused hnull'
    obtain ⟨n₀, hloop⟩ := kmallocLoop_null hreach hstep hpage hmem
    refine ⟨n₀, _, _, hloop, Or.inr ⟨rfl, hfull, hnull, ?_, ?_, ?_⟩⟩
    · exact hpmm.trans (by rw [hsame.pmm, hst])
    · exact hmem.trans hsame.mem
    · exact hrep'.congr rfl rfl rfl rfl rfl
  · obtain ⟨L₁, C, hg⟩ := hfresh.grows hn.enoughPages
    rw [← hsame.pmm] at hg
    obtain ⟨g, hattach, hrep₁, hpmm, hkeeps₁⟩ := hrep.attach_fresh pc hg hmaj hlast
    obtain ⟨c'', zs, ws, hfinds⟩ := finds_of_fits (effectiveRequest reqSize)
      (c := { c' with pc := pc, maj := C.addr, heap := g })
      hn.sizeInRange.need_lt rfl hg.mem hrep₁ (hg.hasGap hn.enoughPages)
    rw [hsame.pmm] at hpmm hg
    rw [hsame.mem] at hkeeps₁
    obtain ⟨n₀, p, h', hloop, hresult⟩ := hfinds.kmalloced (h := h) hn
      (.fresh hfull hfresh hpmm hg.runs) hg.mem_or_eq hg.blocks hg.span_subset hkeeps₁
    obtain ⟨a, b, hloop'⟩ := (hreach.trans (.attaches hstep hattach (.refl _))).loop
    refine ⟨max n₀ b + a, p, h', fun n hle => ?_, Or.inl hresult⟩
    obtain ⟨n, rfl⟩ : ∃ i, n = i + a := ⟨n - a, by omega⟩
    rw [hloop' n (by omega)]
    exact hloop n (by omega)

theorem kmallocSized_spec (hrep : h.Represents L) (hn : RequestInRange reqSize)
    (hsupply : L.Supplied h.pmm reqSize) :
    ∃ n₀ p h', (∀ n ≥ n₀, kmallocSized n (paddedSize (effectiveRequest reqSize))
      (effectiveRequest reqSize) h = .ok (p, h')) ∧
        ((∃ L' b, Kmalloced h L L' b reqSize p h') ∨ KmallocNull h L reqSize p h') := by
  by_cases hL : L.majors = []
  · exact kmallocSized_empty hrep hn hL hsupply
  · have hroot : h.memRoot ≠ 0 := by
      rw [hrep.root, ne_eq, L.headD_addrs_eq_zero_iff]
      exact hL
    have hheap := startCursor_heap (paddedSize (effectiveRequest reqSize)) h
    have hloop : ∃ n₀ p h', (∀ n ≥ n₀, kmallocLoop (paddedSize (effectiveRequest reqSize))
        (effectiveRequest reqSize) n (startCursor (paddedSize (effectiveRequest reqSize)) h) =
          .ok (p, h')) ∧
        ((∃ L' b, Kmalloced h L L' b reqSize p h') ∨ KmallocNull h L reqSize p h') := by
      cases searched_startCursor (effectiveRequest reqSize) hn.sizeInRange.need_lt hrep
          hL with
      | found hfinds =>
        have hgap : ¬ L.Full reqSize := by
          intro hfull
          rw [hn.full_iff] at hfull
          exact hfull _ hfinds.mem ⟨_, _, hfinds.fits⟩
        obtain ⟨n₀, p, h', hloop, hresult⟩ := hfinds.kmalloced (h := h) (L := L) hn
          (.gap hgap (by rw [hheap]) rfl) (fun _ => Or.inl) rfl (fun _ hx => hx)
          (by rw [hheap]; exact .refl _ _ _)
        exact ⟨n₀, p, h', hloop, Or.inl hresult⟩
      | full hreach hfull hstep hmaj hlast hrep' =>
        exact kmallocLoop_full hrep' hn (hn.full_iff.mpr hfull) hsupply hheap hreach hstep hmaj hlast
    obtain ⟨n₀, p, h', hloop, hresult⟩ := hloop
    refine ⟨n₀, p, h', fun n hle => ?_, hresult⟩
    rw [kmallocSized, if_neg hroot]
    exact hloop n hle

/-- In range `kmalloc` returns: with a new minor block, or, only if the heap is full and the
PMM answers `NULL`, with `NULL`. -/
theorem kmalloc_spec (hrep : h.Represents L) (hn : RequestInRange reqSize)
    (hsupply : L.Supplied h.pmm reqSize) :
    ∃ n₀ p h', (∀ n ≥ n₀, kmalloc n reqSize h = .ok (p, h')) ∧
      ((∃ L' b, Kmalloced h L L' b reqSize p h') ∨ KmallocNull h L reqSize p h') := by
  have hentry : (entryHeap reqSize h).Represents L ∧ (entryHeap reqSize h).pmm = h.pmm ∧
      (entryHeap reqSize h).mem = h.mem := by
    unfold entryHeap
    split_ifs
    · exact ⟨⟨hrep.root, hrep.linked, hrep.best, hrep.stored, hrep.inuse, hrep.allocated⟩, rfl, rfl⟩
    · exact ⟨hrep, rfl, rfl⟩
  obtain ⟨hrep', hpmm, hmem⟩ := hentry
  obtain ⟨n₀, p, h', hresult, hspec⟩ := kmallocSized_spec hrep' hn (by rwa [hpmm])
  refine ⟨n₀, p, h', fun n hle => by rw [kmalloc_eq, hresult n hle], ?_⟩
  rcases hspec with ⟨L', b, hs⟩ | hs
  · have hgrown := hs.grown
    have hkeeps := hs.keeps
    rw [hpmm] at hgrown
    rw [hmem] at hkeeps
    exact Or.inl ⟨L', b, hs.pointer, hs.requested, hs.padded, hs.perm, hgrown, hs.represents,
      hs.inhabited, hs.span, hkeeps⟩
  · have hrefused := hs.refused
    have hpmm' := hs.pmm
    rw [hpmm] at hrefused hpmm'
    exact Or.inr ⟨hs.pointer, hs.full, hrefused, hpmm', hs.mem.trans hmem, hs.represents⟩

end Kmalloc

end Olive
