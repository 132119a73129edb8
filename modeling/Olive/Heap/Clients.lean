import Olive.Heap.Realloc
import Olive.Library.Objects
import Olive.Library.Runs

/-!
# The heap and its clients

The steps of the system are the calls of the heap, with what they answer, and the accesses of
its clients to memory. A layout serves a set of objects when its minor blocks are the objects
and the memory holds what was written to them. Every step keeps that, as long as the clients
pass pointers to objects and the pages last, and answers what `malloc`, `calloc`, `realloc` and
`free` are to answer. What a step takes from the PMM and gives back to it is kept beside it.
-/

namespace Olive

open Library Memory Relation

/-- A call that returned, or an access of a client to memory. -/
inductive HeapStep (npf : Formatter) : Kernel → ObjectEvent 64 → Kernel → Prop
  | kmalloc {k k' : Kernel} {fuel : ℕ} {caller n p : Word}
      (h : (Locked.kmalloc npf caller fuel n).eval k = some (p, k')) :
      HeapStep npf k (.malloc n.toNat p) k'
  | kcalloc {k k' : Kernel} {fuel : ℕ} {caller nobj size p : Word}
      (h : (Locked.kcalloc npf fuel caller nobj size).eval k = some (p, k')) :
      HeapStep npf k (.calloc (nobj.toNat * size.toNat) p) k'
  | krealloc {k k' : Kernel} {fuel : ℕ} {caller here p n q : Word}
      (h : (Locked.krealloc npf fuel caller here p n).eval k = some (q, k')) :
      HeapStep npf k (.realloc p n.toNat q) k'
  | kfree {k k' : Kernel} {caller p : Word}
      (h : (Locked.kfree npf caller p).eval k = some ((), k')) : HeapStep npf k (.free p) k'
  | write (k : Kernel) (p : Word) (i : ℕ) (c : BitVec 8) :
      HeapStep npf k (.write p i c)
        { k with mem := Function.update k.mem (p + BitVec.ofNat 64 i) c }
  | read (k : Kernel) (p : Word) (i : ℕ) :
      HeapStep npf k (.read p i (k.mem (p + BitVec.ofNat 64 i))) k

/-- The `st` pages on top of the stack are consecutive, the first one lowest. -/
structure Consecutive (s : Pmm) (st : BitVec 32) : Prop where
  enough : st.toNat ≤ s.pmStackIdx.toNat
  run : ∃ p, s.live.drop (s.pmStackIdx.toNat - st.toNat) = ticks pageSize p st.toNat

/-- The pages last for `n` bytes: if no major block has room, the pages on top of the stack
are consecutive, and they are new to the heap. -/
def PagesLast (k : Kernel) (n : ℕ) : Prop := ∀ L, k.toHeap.Represents L →
  L.Full (BitVec.ofNat 64 n) →
    L.Fresh (liballocAlloc k.pmm (requestedPages (BitVec.ofNat 64 n))).1
      (requestedPages (BitVec.ofNat 64 n)) ∧
    Consecutive k.pmm (requestedPages (BitVec.ofNat 64 n))

/-- What a call needs besides a proper pointer; `last` says that the pages last. -/
def Provided (last : Kernel → ℕ → Prop) (k : Kernel) : ObjectEvent 64 → Prop
  | .malloc n _ => n ≤ 2 ^ 32 - 4208 ∧ last k n
  | .calloc n _ => n < 2 ^ 31 ∧ last k n
  | .realloc p n _ => n = 0 ∨ (p ≠ 0 ∧ n ≤ (k.mem.load32 (minReqSize (headerOf p k.mem))).toNat) ∨
      n ≤ 2 ^ 32 - 4208 ∧ last k n
  | .free _ => True
  | .write _ _ _ => True
  | .read _ _ _ => True

def Alone (k : Kernel) (p : Word) : Prop :=
  ∃ L B b, k.toHeap.Represents L ∧ B ∈ L.majors ∧ B.minors = [b] ∧ b.payload = p

/-- The call gives up the only block of a major block. -/
def Releases (k : Kernel) : ObjectEvent 64 → Prop
  | .realloc p n _ => Alone k p ∧
      (n = 0 ∨ (k.mem.load32 (minReqSize (headerOf p k.mem))).toNat < n)
  | .free p => Alone k p
  | _ => False

/-- A run of pages is taken from the PMM, or given back to it where `gives` allows that. -/
inductive PageFlow (gives : Prop) :
    Pmm × List (Word × BitVec 32) → Pmm × List (Word × BitVec 32) → Prop
  | request {s s' : Pmm} {rs : List (Word × BitVec 32)} {st : BitVec 32} {size : ℕ}
      (hst : EnoughPages size st) (hserved : Consecutive s st)
      (hpmm : s' = { (liballocAlloc s st).2 with reports := s'.reports }) :
      PageFlow gives (s, rs) (s', rs ++ [((liballocAlloc s st).1, st)])
  | release {s s' t : Pmm} {rs : List (Word × BitVec 32)} {a : Word} {st : BitVec 32}
      (hgives : gives) (hmem : (a, st) ∈ rs)
      (hfree : pmmFreePages s a (st.signExtend 64) = .ok t)
      (hpmm : s' = { t with reports := s'.reports }) : PageFlow gives (s, rs) (s', rs.erase (a, st))
  | prints {s s' : Pmm} {rs : List (Word × BitVec 32)}
      (hpmm : s' = { s with reports := s'.reports }) : PageFlow gives (s, rs) (s', rs)

def live (bs : List MinorBlock) : List (Word × ℕ) := bs.map fun b => (b.payload, b.reqSize.toNat)

/-- The heap holds exactly the objects. -/
structure Serving (o : Objects 64) (L : Layout) (k : Kernel) : Prop where
  represents : k.toHeap.Represents L
  inhabited : L.Inhabited
  shows_ : o.Shows (live L.blocks) k.mem

/-! ## Blocks and objects -/

section Blocks

variable {L L' : Layout} {a b : MinorBlock} {bs : List MinorBlock} {o : Objects 64} {m m' : Memory 64}

theorem mem_live {p : Word} {n : ℕ} :
    (p, n) ∈ live bs ↔ ∃ b ∈ bs, b.payload = p ∧ b.reqSize.toNat = n := by
  unfold live
  simp

theorem MinorBlock.payload_ne_zero (h : b.stop ≤ 2 ^ 64) : b.payload ≠ 0 := by
  obtain ⟨-, hlo, -, -⟩ := b.payload_bounds h
  intro hzero
  rw [hzero] at hlo
  change _ ≤ 0 at hlo
  omega

/-- The objects at other blocks of a layout leave the bytes of the block `b` free. -/
theorem Layout.free_of_perm (hperm : L'.blocks.Perm (b :: bs)) (hs : o.Shows (live bs) m) :
    o.Free 16 b.payload b.reqSize.toNat := by
  have hb : b ∈ L'.blocks := hperm.mem_iff.mpr List.mem_cons_self
  have hstop := Layout.block_stop_le hb
  obtain ⟨haligned, -, -, hhi⟩ := b.payload_bounds hstop
  refine ⟨haligned, by omega, fun q xs hq => ?_⟩
  obtain ⟨c, hc, rfl, hlen⟩ := mem_live.mp ((hs.blocks q _).mpr ⟨xs, hq, rfl⟩)
  have hcL : c ∈ L'.blocks := hperm.mem_iff.mpr (List.mem_cons_of_mem _ hc)
  have hcb : c ≠ b := by
    rintro rfl
    exact (List.nodup_cons.mp (hperm.nodup_iff.mp L'.nodup_blocks)).1 hc
  have hapart := Layout.data_disjoint hcL hb hcb
  rw [← hlen]
  exact ⟨fun heq => hcb (Layout.payload_injOn hcL hb heq), hapart⟩

theorem Layout.shows_put (hperm : L'.blocks.Perm (b :: bs)) (hs : o.Shows (live bs) m)
    {xs : List (Option (BitVec 8))} (hlen : xs.length = b.reqSize.toNat)
    (hbytes : ∀ i d, xs[i]? = some (some d) → m (b.payload + BitVec.ofNat 64 i) = d) :
    (o.put b.payload xs).Shows (live L'.blocks) m := by
  have hb : b ∈ L'.blocks := hperm.mem_iff.mpr List.mem_cons_self
  have hnone : o b.payload = none := by
    rw [Option.eq_none_iff_forall_ne_some]
    intro ys hys
    exact ((Layout.free_of_perm hperm hs).apart _ ys hys).1 rfl
  have hput := hs.put (MinorBlock.payload_ne_zero (Layout.block_stop_le hb)) hnone hbytes
  rw [hlen] at hput
  exact hput.perm (hperm.map _)

theorem Layout.shows_drop (hperm : L.blocks.Perm (a :: bs)) (hs : o.Shows (live L.blocks) m) :
    (o.drop a.payload).Shows (live bs) m := by
  have hperm' : (live (a :: bs)).Perm (live L.blocks) := (hperm.map _).symm
  have hs : o.Shows ((a.payload, a.reqSize.toNat) :: live bs) m := hs.perm hperm'
  apply hs.drop
  intro n hn
  obtain ⟨c, hc, hpayload, -⟩ := mem_live.mp hn
  have haL : a ∈ L.blocks := hperm.mem_iff.mpr List.mem_cons_self
  have hcL : c ∈ L.blocks := hperm.mem_iff.mpr (List.mem_cons_of_mem _ hc)
  have hca := Layout.payload_injOn hcL haL hpayload
  subst hca
  exact (List.nodup_cons.mp (hperm.nodup_iff.mp L.nodup_blocks)).1 hc

theorem Layout.shows_congr (hbs : bs ⊆ L.blocks) (hs : o.Shows (live bs) m)
    (hm : ∀ c ∈ bs, SameOn c.data m m') : o.Shows (live bs) m' := by
  apply hs.congr
  intro p n hpn i hi
  obtain ⟨c, hc, rfl, rfl⟩ := mem_live.mp hpn
  exact hm c hc _ (MinorBlock.byte_mem (Layout.block_stop_le (hbs hc)) hi)

end Blocks

section Serving

variable {o : Objects 64} {L L' : Layout} {k k' : Kernel} {a b : MinorBlock} {n p : Word}
  {xs : List (Option (BitVec 8))}

theorem Serving.block (hk : Serving o L k) (hp : o p = some xs) :
    ∃ b ∈ L.blocks, b.payload = p ∧ b.reqSize.toNat = xs.length :=
  mem_live.mp ((hk.shows_.blocks p _).mpr ⟨xs, hp, rfl⟩)

theorem Serving.object (hk : Serving o L k) (hb : b ∈ L.blocks) :
    ∃ xs, o b.payload = some xs ∧ xs.length = b.reqSize.toNat :=
  (hk.shows_.blocks _ _).mp (mem_live.mpr ⟨b, hb, rfl, rfl⟩)

theorem Serving.added (hk : Serving o L k) (hext : Extends k L L' b n k')
    (hlen : xs.length = n.toNat)
    (hbytes : ∀ i d, xs[i]? = some (some d) → k'.mem (b.payload + BitVec.ofNat 64 i) = d) :
    o.Free 16 b.payload n.toNat ∧ Serving (o.put b.payload xs) L' k' := by
  have hshows : o.Shows (live L.blocks) k'.mem := by
    apply Layout.shows_congr (List.Subset.refl _) hk.shows_
    intro c hc
    apply (hext.keeps.payloads c hc).mono
    exact MinorBlock.data_subset_behind (Layout.block_stop_le hc)
  refine ⟨?_, hext.represents, hext.inhabited hk.inhabited, ?_⟩
  · rw [← hext.requested]
    exact Layout.free_of_perm hext.perm hshows
  · exact Layout.shows_put hext.perm hshows (hlen.trans hext.requested.symm) hbytes

theorem Serving.freed (hk : Serving o L k) (hfreed : Kfreed k L L' a k') :
    Serving (o.drop a.payload) L' k' := by
  refine ⟨hfreed.represents, hfreed.inhabited hk.inhabited, ?_⟩
  have hsub : L'.blocks ⊆ L.blocks := fun c hc => hfreed.perm.mem_iff.mpr (List.mem_cons_of_mem _ hc)
  apply Layout.shows_congr hsub (Layout.shows_drop hfreed.perm hk.shows_)
  intro c hc
  apply (hfreed.keeps.payloads c hc).mono
  exact MinorBlock.data_subset_behind (Layout.block_stop_le (hsub hc))

theorem Serving.replaced {bs : List MinorBlock} (hk : Serving o L k)
    (hrep : k'.toHeap.Represents L') (hinh : L'.Inhabited) (hL : L.blocks.Perm (a :: bs))
    (hL' : L'.blocks.Perm (b :: bs)) (hkeeps : ∀ c ∈ bs, SameOn c.data k.mem k'.mem)
    (hlen : xs.length = b.reqSize.toNat)
    (hbytes : ∀ i d, xs[i]? = some (some d) → k'.mem (b.payload + BitVec.ofNat 64 i) = d) :
    (o.drop a.payload).Free 16 b.payload b.reqSize.toNat ∧
      Serving ((o.drop a.payload).put b.payload xs) L' k' := by
  have hsub : bs ⊆ L.blocks := fun c hc => hL.mem_iff.mpr (List.mem_cons_of_mem _ hc)
  have hshows : (o.drop a.payload).Shows (live bs) k'.mem :=
    Layout.shows_congr hsub (Layout.shows_drop hL hk.shows_) hkeeps
  exact ⟨Layout.free_of_perm hL' hshows, hrep, hinh, Layout.shows_put hL' hshows hlen hbytes⟩

theorem Serving.resized (hk : Serving o L k) (ha : a ∈ L.blocks) {m : Memory 64} {q : Word}
    (hp : o a.payload = some xs) {i : ℕ} {d : BitVec 8}
    (hm : i < a.reqSize.toNat → i < n.toNat →
      m (q + BitVec.ofNat 64 i) = k.mem (a.payload + BitVec.ofNat 64 i))
    (hi : (Objects.resize xs n.toNat)[i]? = some (some d)) : m (q + BitVec.ofNat 64 i) = d := by
  obtain ⟨ys, hys, hlen⟩ := hk.object ha
  cases hp.symm.trans hys
  rw [Objects.resize, List.getElem?_append] at hi
  split_ifs at hi with hlt
  · rw [List.length_take] at hlt
    rw [List.getElem?_take_of_lt (by omega)] at hi
    rw [hm (by omega) (by omega)]
    exact hk.shows_.bytes _ xs i d hp hi
  · rw [List.getElem?_replicate] at hi
    split_ifs at hi
    cases hi

end Serving

/-! ## Pages -/

theorem PageFlow.imp {gives gives' : Prop} {x y : Pmm × List (Word × BitVec 32)}
    (h : PageFlow gives x y) (himp : gives → gives') : PageFlow gives' x y := by
  cases h with
  | request hst hserved hpmm => exact .request hst hserved hpmm
  | release hgives hmem hfree hpmm => exact .release (himp hgives) hmem hfree hpmm
  | prints hpmm => exact .prints hpmm

section Flow

variable {L L' : Layout} {k k' : Kernel} {a b : MinorBlock} {n : Word}

theorem Extends.flow (hext : Extends k L L' b n k') (hn : SmallRequest n)
    (hserved : L.Full n → Consecutive k.pmm (requestedPages n)) (gives : Prop) :
    ReflTransGen (PageFlow gives) (k.pmm, L.runs) (k'.pmm, L'.runs) := by
  obtain ⟨s, hgrown, hpmm⟩ := hext.grown
  cases hgrown with
  | gap hgap hs hruns =>
    rw [hruns]
    exact .single (.prints (hs ▸ hpmm))
  | fresh hfull hfresh hs hruns =>
    rw [hruns]
    exact .single (.request hn.inRange.enoughPages (hserved hfull) (hs ▸ hpmm))

theorem Kfreed.flow (hfreed : Kfreed k L L' a k') {gives : Prop}
    (hgives : ∀ B ∈ L.majors, B.minors = [a] → gives) :
    ReflTransGen (PageFlow gives) (k.pmm, L.runs) (k'.pmm, L'.runs) := by
  cases hfreed.shrunk with
  | stays hB hb hne hpmm hruns =>
    rw [hruns, hpmm]
  | released hB hminors hfree hpmm hruns =>
    rw [hruns]
    exact .single (.release (hgives _ hB hminors) (List.mem_map.mpr ⟨_, hB, rfl⟩) hfree hpmm)

theorem Layout.major_unique {B C : MajorBlock} (hB : B ∈ L.majors) (hC : C ∈ L.majors)
    (ha : a ∈ B.minors) (ha' : a ∈ C.minors) : B = C := by
  by_contra hne
  have hapart := Layout.majors_apart hB hC hne
  have hbounds := MajorBlock.minor_bounds ha
  have hbounds' := MajorBlock.minor_bounds ha'
  have hsize := a.start_lt_stop
  omega

theorem Layout.minors_subset (hruns : L.runs ⊆ L'.runs) (hblocks : L.blocks ⊆ L'.blocks)
    {B : MajorBlock} (hB : B ∈ L.majors) : ∃ B' ∈ L'.majors, B.minors ⊆ B'.minors := by
  obtain ⟨B', hB', hrun⟩ := List.mem_map.mp (hruns (List.mem_map.mpr ⟨B, hB, rfl⟩))
  obtain ⟨haddr, hpages⟩ := Prod.mk.injEq .. ▸ hrun
  refine ⟨B', hB', fun a ha => ?_⟩
  obtain ⟨C, hC, haC⟩ := List.mem_flatMap.mp (hblocks (List.mem_flatMap.mpr ⟨B, hB, ha⟩))
  by_cases hCB : C = B'
  · exact hCB ▸ haC
  have hapart := Layout.majors_apart hC hB' hCB
  have hbounds := MajorBlock.minor_bounds ha
  have hbounds' := MajorBlock.minor_bounds haC
  have hsize := a.start_lt_stop
  unfold MajorBlock.start MajorBlock.stop at *
  rw [haddr, hpages] at hapart
  omega

/-- A block that is alone when the heap has grown was alone before. -/
theorem Layout.alone_of_grown (hruns : L.runs ⊆ L'.runs) (hblocks : L.blocks ⊆ L'.blocks)
    (ha : a ∈ L.blocks) {C : MajorBlock} (hC : C ∈ L'.majors) (hminors : C.minors = [a]) :
    ∃ B ∈ L.majors, B.minors = [a] := by
  obtain ⟨B, hB, haB⟩ := List.mem_flatMap.mp ha
  obtain ⟨B', hB', hsub⟩ := Layout.minors_subset hruns hblocks hB
  have hBC : B' = C := Layout.major_unique hB' hC (hsub haB) (hminors ▸ List.mem_singleton_self a)
  rw [hBC, hminors] at hsub
  have hnodup : B.minors.Nodup := B.nodup_addrs.of_map _
  refine ⟨B, hB, List.perm_singleton.mp ?_⟩
  exact (List.perm_ext_iff_of_nodup hnodup (List.nodup_singleton a)).mpr fun x =>
    ⟨fun hx => hsub hx, fun hx => List.mem_singleton.mp hx ▸ haB⟩

theorem Extends.payload_ne_zero (hext : Extends k L L' b n k') : b.payload ≠ 0 :=
  MinorBlock.payload_ne_zero (Layout.block_stop_le hext.mem)

theorem Extends.runs_subset (hext : Extends k L L' b n k') : L.runs ⊆ L'.runs := by
  obtain ⟨s, hgrown, -⟩ := hext.grown
  cases hgrown with
  | gap hgap hs hruns => rw [hruns]; exact List.Subset.refl _
  | fresh hfull hfresh hs hruns => rw [hruns]; exact List.subset_append_left _ _

end Flow

/-! ## Steps -/

/-- A step has answered what it owes, and the heap serves the objects behind it. -/
structure Serves (o : Objects 64) (L : Layout) (k : Kernel) (e : ObjectEvent 64) (k' : Kernel) :
    Prop where
  answers : o.Answers 16 e
  granted : e.Granted
  serving : ∃ L', Serving (o.after e) L' k' ∧
    ReflTransGen (PageFlow (Releases k e)) (k.pmm, L.runs) (k'.pmm, L'.runs)
  errors : k'.errorCounts = k.errorCounts

section Steps

variable {npf : Formatter} {o : Objects 64} {L : Layout} {k k' : Kernel} {n p q : Word} {fuel : ℕ}
  {caller here : Word}

theorem PagesLast.stocked (h : PagesLast k n.toNat) (hrep : k.toHeap.Represents L) :
    L.Stocked k.pmm n ∧ (L.Full n → Consecutive k.pmm (requestedPages n)) := by
  have hall := h L hrep
  rw [BitVec.ofNat_toNat, BitVec.setWidth_eq] at hall
  exact ⟨fun hfull => (hall hfull).1, fun hfull => (hall hfull).2⟩

theorem Serving.kmalloc (hk : Serving o L k) (hn : n.toNat ≤ 2 ^ 32 - 4208 ∧ PagesLast k n.toNat)
    (h : (Locked.kmalloc npf caller fuel n).eval k = some (p, k')) :
    ∃ L' b, p = b.payload ∧ Extends k L L' b n k' ∧
      ∀ gives, ReflTransGen (PageFlow gives) (k.pmm, L.runs) (k'.pmm, L'.runs) := by
  obtain ⟨hstock, hserved⟩ := hn.2.stocked hk.represents
  obtain ⟨L', b, hp, hext⟩ | ⟨-, href⟩ :=
    Locked.kmalloc_returns npf hk.represents hn.1 hstock.supplied h
  · exact ⟨L', b, hp, hext, hext.flow hn.1 hserved⟩
  · exact absurd hstock href.not_stocked

theorem Serving.kmalloc_serves (hk : Serving o L k) (hn : n.toNat ≤ 2 ^ 32 - 4208 ∧ PagesLast k n.toNat)
    (h : (Locked.kmalloc npf caller fuel n).eval k = some (p, k')) :
    Serves o L k (.malloc n.toNat p) k' := by
  obtain ⟨L', b, rfl, hext, hflow⟩ := hk.kmalloc hn h
  have hbytes : ∀ (i : ℕ) (d : BitVec 8), (List.replicate n.toNat none)[i]? = some (some d) →
      k'.mem (b.payload + BitVec.ofNat 64 i) = d := by
    intro i d hi
    rw [List.getElem?_replicate] at hi
    split_ifs at hi
    cases hi
  obtain ⟨hfree, hserving⟩ := hk.added hext List.length_replicate hbytes
  exact ⟨Or.inr hfree, hext.payload_ne_zero, ⟨L', hserving, hflow _⟩, hext.errors⟩

theorem Serving.kcalloc_serves {nobj size : Word} (hk : Serving o L k)
    (hn : Provided PagesLast k (.calloc (nobj.toNat * size.toNat) p))
    (h : (Locked.kcalloc npf fuel caller nobj size).eval k = some (p, k')) :
    Serves o L k (.calloc (nobj.toNat * size.toNat) p) k' := by
  obtain ⟨hfits, hpages⟩ := hn
  have hfits : ProductFits nobj size := hfits
  have htoNat := hfits.toNat_callocSize
  rw [← htoNat] at hpages
  obtain ⟨hstock, hserved⟩ := hpages.stocked hk.represents
  obtain ⟨L', b, rfl, hext, hzero⟩ := Locked.kcalloc_returns npf hk.represents hfits hstock h
  have hbytes : ∀ (i : ℕ) (d : BitVec 8),
      (List.replicate (nobj.toNat * size.toNat) (some (0 : BitVec 8)))[i]? = some (some d) →
      k'.mem (b.payload + BitVec.ofNat 64 i) = d := by
    intro i d hi
    rw [List.getElem?_replicate] at hi
    split_ifs at hi with hlt
    cases hi
    exact hzero i hlt
  obtain ⟨hfree, hserving⟩ := hk.added hext (List.length_replicate.trans htoNat.symm) hbytes
  rw [htoNat] at hfree
  exact ⟨Or.inr hfree, hext.payload_ne_zero, ⟨L', hserving, hext.flow hfits.small hserved _⟩,
    hext.errors⟩

theorem drop_of_none (hp : o p = none) : o.drop p = o := by
  unfold Objects.drop
  rw [← hp, Function.update_eq_self]

theorem Serving.null (hk : Serving o L k) : o 0 = none := by
  rw [Option.eq_none_iff_forall_ne_some]
  intro xs hxs
  obtain ⟨b, hb, hzero, -⟩ := hk.block hxs
  exact MinorBlock.payload_ne_zero (Layout.block_stop_le hb) hzero

theorem Serving.kfree_serves (hk : Serving o L k) (hp : p = 0 ∨ ∃ xs, o p = some xs)
    (h : (Locked.kfree npf caller p).eval k = some ((), k')) :
    ∃ L', Serving (o.drop p) L' k' ∧
      ReflTransGen (PageFlow (Alone k p)) (k.pmm, L.runs) (k'.pmm, L'.runs) ∧
      k'.errorCounts = k.errorCounts := by
  rcases hp with rfl | ⟨xs, hxs⟩
  · obtain ⟨c, hc⟩ := Locked.kfree_null npf (k := k) caller
    cases hc.symm.trans h
    refine ⟨L, ?_, .refl, rfl⟩
    rw [drop_of_none hk.null]
    exact ⟨hk.represents.congr rfl rfl rfl rfl rfl, hk.inhabited, hk.shows_⟩
  · obtain ⟨a, ha, rfl, -⟩ := hk.block hxs
    obtain ⟨k₁, L', hfree, hfreed⟩ := Locked.kfree_spec npf caller hk.represents ha
    cases hfree.symm.trans h
    obtain ⟨herror, hoverrun, -⟩ := hfreed.errors
    refine ⟨L', hk.freed hfreed, hfreed.flow ?_, Prod.ext herror hoverrun⟩
    exact fun B hB hminors => ⟨L, B, a, hk.represents, hB, hminors, rfl⟩

theorem after_realloc (hq : q ≠ 0) {n : ℕ} :
    o.after (.realloc p n q) = (o.drop p).put q (Objects.resize ((o p).getD []) n) :=
  if_neg fun h => hq h.1

theorem granted_realloc (hq : q ≠ 0) (hn : n ≠ 0) :
    (ObjectEvent.realloc p n.toNat q).Granted :=
  iff_of_false hq fun h => hn (BitVec.eq_of_toNat_eq h)

theorem Serving.krealloc_object {xs : List (Option (BitVec 8))} (hk : Serving o L k)
    (hn : n ≠ 0) (hxs : o p = some xs) (hprov : Provided PagesLast k (.realloc p n.toNat q))
    (h : (Locked.krealloc npf fuel caller here p n).eval k = some (q, k')) :
    Serves o L k (.realloc p n.toNat q) k' := by
  obtain ⟨a, ha, rfl, hlen⟩ := hk.block hxs
  obtain ⟨hp0, -, -, -⟩ := Locked.header_of_payload hk.represents ha
  by_cases hle : n.toNat ≤ a.reqSize.toNat
  · obtain ⟨k₁, L', b, heval, hkept⟩ :=
      Locked.krealloc_kept npf fuel caller here hk.represents ha hn hle
    cases heval.symm.trans h
    obtain ⟨bs, hL, hL'⟩ := hkept.others
    have hbytes : ∀ i d, (Objects.resize xs n.toNat)[i]? = some (some d) →
        k'.mem (b.payload + BitVec.ofNat 64 i) = d := by
      intro i d
      apply hk.resized ha hxs
      intro hi _
      rw [hkept.payload]
      exact hkept.keeps a ha _ (MinorBlock.byte_mem (Layout.block_stop_le ha) hi)
    obtain ⟨hfree, hserving⟩ := hk.replaced hkept.represents (hkept.inhabited hk.inhabited) hL hL'
      (fun c hc => hkept.keeps c (hL.mem_iff.mpr (List.mem_cons_of_mem _ hc)))
      ((Objects.length_resize _ _).trans hkept.requested.symm) hbytes
    rw [hkept.payload] at hfree hserving
    refine ⟨Or.inr (hkept.requested ▸ hfree), granted_realloc hp0 hn, ⟨L', ?_, ?_⟩, hkept.errors⟩
    · rw [after_realloc hp0, hxs]
      exact hserving
    · rw [hkept.pmm, hkept.runs]
  · have hreq := Locked.load_reqSize hk.represents ha
    have havail : n.toNat ≤ 2 ^ 32 - 4208 ∧ PagesLast k n.toNat := by
      rcases hprov with hzero | ⟨-, hsmall⟩ | havail
      · exact absurd (BitVec.eq_of_toNat_eq hzero) hn
      · exact absurd (hreq ▸ hsmall) hle
      · exact havail
    obtain ⟨hstock, hserved⟩ := havail.2.stocked hk.represents
    obtain ⟨L₁, L', b, k₁, rfl, hmoved⟩ :=
      Locked.krealloc_moved npf hk.represents ha (by omega) havail.1 hstock h
    obtain ⟨bs, hL, hL'⟩ := hmoved.others
    have hbL' : b ∈ L'.blocks := hL'.mem_iff.mpr List.mem_cons_self
    have hnodup := hL'.nodup_iff.mp L'.nodup_blocks
    have hkeeps : ∀ c ∈ bs, SameOn c.data k.mem k'.mem := by
      intro c hc
      apply hmoved.keeps c (hL'.mem_iff.mpr (List.mem_cons_of_mem _ hc))
      rintro rfl
      exact (List.nodup_cons.mp hnodup).1 hc
    have hbytes : ∀ i d, (Objects.resize xs n.toNat)[i]? = some (some d) →
        k'.mem (b.payload + BitVec.ofNat 64 i) = d := by
      intro i d
      apply hk.resized ha hxs
      exact fun hi _ => hmoved.copied i hi
    obtain ⟨hfree, hserving⟩ := hk.replaced hmoved.freed.represents
      (hmoved.freed.inhabited (hmoved.added.inhabited hk.inhabited)) hL hL' hkeeps
      ((Objects.length_resize _ _).trans hmoved.added.requested.symm) hbytes
    have hb0 : b.payload ≠ 0 := hmoved.added.payload_ne_zero
    refine ⟨Or.inr (hmoved.added.requested ▸ hfree), granted_realloc hb0 hn, ⟨L', ?_, ?_⟩,
      hmoved.errors⟩
    · rw [after_realloc hb0, hxs]
      exact hserving
    · apply (hmoved.added.flow havail.1 hserved _).trans
      apply hmoved.freed.flow
      intro C hC hminors
      obtain ⟨B, hB, hB'⟩ := Layout.alone_of_grown hmoved.added.runs_subset
        (fun c hc => hmoved.added.perm.mem_iff.mpr (List.mem_cons_of_mem _ hc)) ha hC hminors
      exact ⟨⟨L, B, a, hk.represents, hB, hB', rfl⟩, Or.inr (hreq ▸ by omega)⟩

theorem Serving.krealloc_serves (hk : Serving o L k) (hp : p = 0 ∨ ∃ xs, o p = some xs)
    (hprov : Provided PagesLast k (.realloc p n.toNat q))
    (h : (Locked.krealloc npf fuel caller here p n).eval k = some (q, k')) :
    Serves o L k (.realloc p n.toNat q) k' := by
  by_cases hn : n = 0
  · subst hn
    rw [Locked.krealloc_zero, Code.eval_bind, Option.bind_eq_some_iff] at h
    obtain ⟨⟨u, k₁⟩, hfree, hresult⟩ := h
    cases hresult
    obtain ⟨L', hserving, hflow, herrors⟩ := hk.kfree_serves hp hfree
    refine ⟨Or.inl rfl, iff_of_true rfl rfl, ⟨L', hserving, ?_⟩, herrors⟩
    exact ReflTransGen.mono (fun _ _ h => h.imp fun h => ⟨h, Or.inl rfl⟩) _ _ hflow
  rcases hp with rfl | ⟨xs, hxs⟩
  · rw [Locked.krealloc_null npf fuel caller here hn] at h
    have havail : n.toNat ≤ 2 ^ 32 - 4208 ∧ PagesLast k n.toNat := by
      rcases hprov with hzero | ⟨hne, -⟩ | havail
      · exact absurd (BitVec.eq_of_toNat_eq hzero) hn
      · exact absurd rfl hne
      · exact havail
    have hserves := hk.kmalloc_serves havail h
    obtain ⟨L', b, hq, hext, -⟩ := hk.kmalloc havail h
    have hq0 : q ≠ 0 := hq ▸ hext.payload_ne_zero
    have hafter : o.after (.realloc 0 n.toNat q) = o.after (.malloc n.toNat q) := by
      rw [after_realloc hq0, drop_of_none hk.null, hk.null]
      simp [Objects.resize, Objects.after]
    obtain ⟨L₁, hserving, hflow⟩ := hserves.serving
    refine ⟨?_, granted_realloc hq0 hn, ⟨L₁, hafter ▸ hserving, ?_⟩, hserves.errors⟩
    · change q = 0 ∨ (o.drop 0).Free 16 q n.toNat
      rw [drop_of_none hk.null]
      exact hserves.answers
    · exact ReflTransGen.mono (fun _ _ hflow => hflow.imp False.elim) _ _ hflow
  · exact hk.krealloc_object hn hxs hprov h

theorem Serving.write_serves {i : ℕ} {c : BitVec 8} (hk : Serving o L k) (hi : o.Holds p i) :
    Serves o L k (.write p i c)
      { k with mem := Function.update k.mem (p + BitVec.ofNat 64 i) c } := by
  obtain ⟨xs, hxs, hlt⟩ := hi
  obtain ⟨b, hb, rfl, hlen⟩ := hk.block hxs
  have hbstop := Layout.block_stop_le hb
  have hmem := MinorBlock.byte_mem hbstop (hlen ▸ hlt)
  have hsame : SameOn b.dataᶜ k.mem (Function.update k.mem (b.payload + BitVec.ofNat 64 i) c) := by
    intro x hx
    apply Function.update_of_ne
    rintro rfl
    exact hx hmem
  refine ⟨trivial, trivial, ⟨L, ⟨?_, hk.inhabited, ?_⟩, .refl⟩, rfl⟩
  · exact hk.represents.of_data hb hsame
  · apply hk.shows_.write ⟨xs, hxs, hlt⟩ (Function.update_self _ _ _)
    intro q n j hq hj hne
    obtain ⟨a, ha, rfl, rfl⟩ := mem_live.mp hq
    have hastop := Layout.block_stop_le ha
    have haj := MinorBlock.byte_mem hastop hj
    by_cases hab : a = b
    · subst hab
      apply Function.update_of_ne
      intro heq
      have hoff := hne.resolve_left (fun h => h rfl)
      have hroom := a.room
      obtain ⟨-, -, hmid, hhi⟩ := a.payload_bounds hastop
      unfold MinorBlock.start MinorBlock.stop at *
      have htoNat := congrArg BitVec.toNat heq
      rw [toNat_add_ofNat (by omega), toNat_add_ofNat (by omega)] at htoNat
      omega
    · apply hsame
      intro hbj
      have hapart := Layout.data_disjoint ha hb hab
      unfold MinorBlock.data at haj hbj
      rw [Set.mem_Ico] at haj hbj
      omega

theorem Serving.step {e : ObjectEvent 64} (hk : Serving o L k) (hallow : o.Allows e)
    (hprov : Provided PagesLast k e) (h : HeapStep npf k e k') : Serves o L k e k' := by
  cases h with
  | kmalloc h => exact hk.kmalloc_serves hprov h
  | kcalloc h => exact hk.kcalloc_serves hprov h
  | krealloc h => exact hk.krealloc_serves hallow hprov h
  | kfree h =>
    obtain ⟨L', hserving, hflow, herrors⟩ := hk.kfree_serves hallow h
    exact ⟨trivial, trivial, ⟨L', hserving, hflow⟩, herrors⟩
  | write p i c => exact hk.write_serves hallow
  | read p i => exact ⟨hk.shows_.read 16 i p, trivial, ⟨L, hk, .refl⟩, rfl⟩

end Steps

end Olive
