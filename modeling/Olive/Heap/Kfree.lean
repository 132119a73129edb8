import Olive.Heap.Removal
import Olive.Locks.ErrorCounts

/-!
# What `kfree` does to the layout

For a pointer that `kmalloc` has answered, `kfree` takes the minor block out and, if it was
the only one, gives the pages of its major block back. The magic number of the block that
was given up stays in memory, so that a second `kfree` of the same pointer is noticed and
changes nothing.
-/

namespace Olive

open Library Memory

/-! ## The layout without the block -/

section RemoveMinor

variable {h : Heap} {L : Layout} {B : MajorBlock} {Bs Cs : List MajorBlock} {xs ys : List MinorBlock}
  {b : MinorBlock}

def MajorBlock.without (B : MajorBlock) (hsplit : B.minors = xs ++ b :: ys) : MajorBlock where
  addr := B.addr
  pages := B.pages
  minors := xs ++ ys
  addr_ne := B.addr_ne
  aligned := B.aligned
  pages_lt := B.pages_lt
  bound := B.bound
  packed := by
    have hpacked := B.packed
    rw [hsplit] at hpacked
    exact hpacked.remove

/-- The heap behind `unlinkMinor`, as `kfree` leaves it there. -/
def Heap.giveUp (h : Heap) (min maj : Word) : Heap :=
  { h with inuse := h.inuse - loadUInt h.mem (minSize min), mem := unlinkMinor min maj h.mem }

/-- The layout `L₁` is `L` without the minor block `b` of `B`, which leaves `B₁`. -/
structure TakenOut (h : Heap) (L L₁ : Layout) (Bs Cs : List MajorBlock) (B B₁ : MajorBlock)
    (b : MinorBlock) : Prop where
  majors : L₁.majors = Bs ++ B₁ :: Cs
  runs : L₁.runs = L.runs
  span : L₁.span = L.span
  perm : L.blocks.Perm (b :: L₁.blocks)
  represents : (h.giveUp b.addr B.addr).Represents L₁
  removed : Removed h.mem (h.giveUp b.addr B.addr).mem B B₁ b
  keeps : Keeps L.span L.blocks h.mem (h.giveUp b.addr B.addr).mem

theorem Heap.Represents.takeOut (hrep : h.Represents L) (hL : L.majors = Bs ++ B :: Cs)
    (hsplit : B.minors = xs ++ b :: ys) : ∃ L₁, TakenOut h L L₁ Bs Cs B (B.without hsplit) b := by
  have hB : B ∈ L.majors := by rw [hL]; simp
  have hb : b ∈ B.minors := by rw [hsplit]; simp
  have hstored := hrep.stored B hB
  obtain ⟨L₁, hL₁, hruns, hbytes, hspan⟩ :=
    Layout.exists_set hL (show (B.without hsplit).addr = B.addr from rfl) rfl
  have hremoved : Removed h.mem (h.giveUp b.addr B.addr).mem B (B.without hsplit) b :=
    unlinkMinor_removed hstored hsplit rfl rfl rfl
  have hperm : L.blocks.Perm (b :: L₁.blocks) := by
    rw [Layout.blocks_split hL hsplit,
      Layout.blocks_split hL₁ (show (B.without hsplit).minors = xs ++ ys from rfl)]
    exact List.perm_middle
  have htaken : L.taken = b.size.toNat + L₁.taken := by
    unfold Layout.taken
    rw [(hperm.map fun b => b.size.toNat).sum_eq]
    rfl
  refine ⟨L₁, hL₁, hruns, hspan, hperm, ?_, hremoved,
    .of_major hB hremoved.same hremoved.payloads⟩
  apply hrep.set hL hL₁ rfl rfl hremoved.stored hremoved.links hremoved.same rfl hrep.best _ rfl
  have hsize : loadUInt h.mem (minSize b.addr) = BitVec.ofNat 64 b.size.toNat := by
    have hload : h.mem.load32 (minSize b.addr) = b.size := (hstored.minors b hb).size
    rw [loadUInt, hload]
    apply BitVec.eq_of_toNat_eq
    rw [toNat_setWidth64, BitVec.toNat_ofNat, Nat.mod_eq_of_lt (by have := b.size.isLt; omega)]
  change h.inuse - loadUInt h.mem (minSize b.addr) = _
  rw [hsize, hrep.inuse, htaken, Nat.add_comm, BitVec.ofNat_add, BitVec.add_sub_cancel]

namespace TakenOut

variable {L₁ : Layout} {B₁ : MajorBlock}

theorem dead (ht : TakenOut h L L₁ Bs Cs B B₁ b) :
    (h.giveUp b.addr B.addr).mem.load32 (minMagic b.addr) = liballocDead :=
  congrArg MinorHeader.magic ht.removed.header

theorem distance (ht : TakenOut h L L₁ Bs Cs B B₁ b) :
    (h.giveUp b.addr B.addr).mem (b.payload - 16) = h.mem (b.payload - 16) := by
  have hb : b ∈ L.blocks := ht.perm.mem_iff.mpr List.mem_cons_self
  obtain ⟨-, hlo, hhi, -⟩ := b.payload_bounds (Layout.block_stop_le hb)
  have hsize := b.start_lt_stop
  apply ht.keeps.payloads b hb
  rw [Set.mem_Ico]
  bv_omega

theorem keeps_rest (ht : TakenOut h L L₁ Bs Cs B B₁ b) :
    Keeps L.span L₁.blocks h.mem (h.giveUp b.addr B.addr).mem where
  outside := ht.keeps.outside
  payloads c hc := ht.keeps.payloads c (ht.perm.mem_iff.mpr (List.mem_cons_of_mem _ hc))

/-- Taking the major block out of its list leaves its own pages as `unlinkMinor` left them. -/
theorem unlinked {m : Memory 64} (ht : TakenOut h L L₁ Bs Cs B B₁ b) (hb : b ∈ B.minors)
    (haddr : B₁.addr = B.addr) (hpages : B₁.pages = B.pages)
    (hsame : SameOn B.span (h.giveUp b.addr B.addr).mem m) :
    m.load32 (majPages B.addr) = B.pages ∧ m.load32 (minMagic b.addr) = liballocDead ∧
      m (b.payload - 16) = h.mem (b.payload - 16) := by
  have hstop := MajorBlock.minor_stop_le hb
  have hsize := b.start_lt_stop
  obtain ⟨-, hlo, hhi, -⟩ := b.payload_bounds hstop
  have hbspan := (MajorBlock.minor_subset hb).trans B.behind_subset
  have hmajor := majorAt_congr B.inSpace (hsame.mono B.header_subset)
  have hminor := minorAt_congr (b.inSpace hstop) (hsame.mono (b.header_subset.trans hbspan))
  have hstored := ht.removed.stored.pages
  rw [haddr, hpages] at hstored
  refine ⟨(congrArg MajorHeader.pages hmajor).trans hstored,
    (congrArg MinorHeader.magic hminor).trans ht.dead, ?_⟩
  rw [hsame (b.payload - 16) (hbspan ⟨by bv_omega, by bv_omega⟩), ht.distance]

end TakenOut

theorem Heap.Represents.updateBest (hrep : h.Represents L) (hB : B ∈ L.majors) :
    (updateBest B.addr h).Represents L ∧ (updateBest B.addr h).mem = h.mem ∧
      (updateBest B.addr h).pmm = h.pmm := by
  unfold Olive.updateBest
  dsimp only
  split_ifs
  · exact ⟨hrep.of_same rfl rfl (Or.inr (List.mem_map_of_mem hB)) rfl rfl, rfl, rfl⟩
  · exact ⟨hrep, rfl, rfl⟩
  · exact ⟨hrep, rfl, rfl⟩

end RemoveMinor

/-! ## The call -/

/-- What becomes of the major block of `b`: it stays, or it was left without minor blocks and
its pages are given back. -/
inductive Layout.Shrunk (L : Layout) (b : MinorBlock) (s s' : Pmm)
    (runs : List (Word × BitVec 32)) : Prop
  | stays {B : MajorBlock} (hB : B ∈ L.majors) (hb : b ∈ B.minors) (hne : B.minors ≠ [b])
      (hpmm : s' = s) (hruns : runs = L.runs)
  | released {B : MajorBlock} {t : Pmm} (hB : B ∈ L.majors) (hminors : B.minors = [b])
      (hfree : pmmFreePages s B.addr (B.pages.signExtend 64) = .ok t)
      (hpmm : s' = { t with reports := s'.reports })
      (hruns : runs = L.runs.erase (B.addr, B.pages))

structure Kfreed (k : Kernel) (L L' : Layout) (b : MinorBlock) (k' : Kernel) : Prop where
  perm : L.blocks.Perm (b :: L'.blocks)
  shrunk : L.Shrunk b k.pmm k'.pmm L'.runs
  represents : k'.toHeap.Represents L'
  inhabited : L.Inhabited → L'.Inhabited
  span : L'.span ⊆ L.span
  keeps : Keeps L.span L'.blocks k.mem k'.mem
  dead : k'.mem.load32 (minMagic b.addr) = liballocDead
  distance : k'.mem (b.payload - 16) = k.mem (b.payload - 16)
  errors : k'.errorCount = k.errorCount ∧ k'.possibleOverruns = k.possibleOverruns ∧
    k'.warningCount = k.warningCount

section Pointer

variable {m : Memory 64} {B : MajorBlock} {b : MinorBlock}

/-- `UNALIGN` finds its way back to the end of the header by the distance `ALIGN` has noted. -/
theorem unalign_of_distance {p : Word} {d : ℕ} (hd : (m (p - 16)).toNat = d) (hlt : d < 32) :
    unalign p m = p - BitVec.ofNat 64 d := by
  have hext : (m (p - 16)).signExtend 64 = BitVec.ofNat 64 d := by
    have hmsb : (m (p - 16)).msb = false := by
      rw [BitVec.msb_eq_false_iff_two_mul_lt, hd]
      omega
    rw [BitVec.signExtend_eq_setWidth_of_msb_false hmsb]
    apply BitVec.eq_of_toNat_eq
    rw [BitVec.toNat_setWidth, hd, BitVec.toNat_ofNat]
  unfold unalign
  dsimp only
  rw [hext, if_pos]
  rw [BitVec.lt_def, BitVec.toNat_ofNat, Nat.mod_eq_of_lt (by omega)]
  exact hlt

theorem MinorBlock.unalign_payload (hstop : b.stop ≤ 2 ^ 64)
    (hd : (m (b.payload - 16)).toNat = b.payload.toNat - (b.start + 40)) :
    unalign b.payload m - sizeofMinor = b.addr := by
  obtain ⟨-, hlo, hhi, -⟩ := b.payload_bounds hstop
  have hsize := b.start_lt_stop
  rw [unalign_of_distance hd (by omega), sizeofMinor]
  unfold MinorBlock.start at hlo hhi hsize ⊢
  bv_omega

end Pointer

namespace Locked

variable (npf : Formatter) {k : Kernel} {L : Layout} {b : MinorBlock}

theorem kfree_eval_of_magic (caller : Word) {ptr min maj : Word} (hptr : ptr ≠ 0)
    (hmin : unalign ptr k.mem - sizeofMinor = min)
    (hmagic : k.mem.load32 (minMagic min) = liballocMagic)
    (hmaj : k.mem.load64 (minBlock min) = maj) :
    (kfree npf caller ptr).eval k =
      if (k.toHeap.giveUp min maj).mem.load64 (majFirst maj) = 0 then
        ((liballocFree npf maj
          ((unlinkMajor maj (k.toHeap.giveUp min maj)).mem.load32 (majPages maj))).eval
          { k with toHeap := unlinkMajor maj (k.toHeap.giveUp min maj) })
      else some ((), { k with toHeap := updateBest maj (k.toHeap.giveUp min maj) }) := by
  unfold kfree liballocLock liballocUnlock spinlockAcquire spinlockRelease
  rw [if_neg hptr, Code.eval_bind_of_eq (Code.eval_get k _), Code.eval_bind_of_eq (Code.eval_lock k _)]
  dsimp only
  rw [hmin, Code.eval_bind_of_eq (Code.eval_get k _), hmagic, if_neg (by simp),
    Code.eval_bind_of_eq (Code.eval_get k _), hmaj]
  simp only [modifyHeap, modifyMem, Code.eval_bind, Code.eval_modify, Code.eval_get, Code.eval_ite,
    Code.eval_unlock, Option.bind_some]
  apply if_congr Iff.rfl _ rfl
  exact Option.bind_fun_some _

/-- The pages of a major block can always be given back: they are aligned, and there are some. -/
theorem liballocFree_eval (k : Kernel) {B : MajorBlock} : ∃ k' t,
    (liballocFree npf B.addr B.pages).eval k = some ((), k') ∧
      Olive.pmmFreePages k.pmm B.addr (B.pages.signExtend 64) = .ok t ∧
      k'.toHeap = { k.toHeap with pmm := { t with reports := k'.pmm.reports } } := by
  have hpos : B.pages.signExtend 64 ≠ 0 := by
    have hheader := B.header_le
    have hlt := B.pages_lt
    unfold MajorBlock.start MajorBlock.stop at hheader
    have hmsb : B.pages.msb = false := by
      rw [BitVec.msb_eq_false_iff_two_mul_lt]
      omega
    rw [BitVec.signExtend_eq_setWidth_of_msb_false hmsb]
    intro hzero
    have htoNat := toNat_setWidth64 B.pages
    rw [hzero] at htoNat
    change 0 = _ at htoNat
    omega
  have hfree : ∃ t, Olive.pmmFreePages k.pmm B.addr (B.pages.signExtend 64) = .ok t := by
    rw [pmmFreePages_of_asserted B.addr_ne B.aligned hpos]
    rcases Olive.pushFreed B.addr (B.pages.signExtend 64).toNat 0 k.pmm with ⟨full, s⟩
    cases full with
    | true => exact ⟨_, rfl⟩
    | false => exact ⟨_, rfl⟩
  obtain ⟨t, hfree⟩ := hfree
  have hrefines := pmmFreePages_refines npf k.toHeap B.addr (B.pages.signExtend 64) k k.pmm
    ⟨k.pmm.reports, rfl⟩
  dsimp only at hrefines
  rw [hfree] at hrefines
  obtain ⟨k', heval, rs, hk'⟩ := hrefines.of_some
  have hrs : k'.pmm.reports = rs := congrArg (fun h : Heap => h.pmm.reports) hk'
  refine ⟨k', t, heval, hfree, ?_⟩
  rw [hrs]
  exact hk'

theorem unlinkMajor_takenOut {B : MajorBlock} {Bs Cs : List MajorBlock} {xs ys : List MinorBlock}
    {L₁ : Layout} {h : Heap} (hL : L.majors = Bs ++ B :: Cs) (hsplit : B.minors = xs ++ b :: ys)
    (hempty : xs ++ ys = []) (ht : TakenOut h L L₁ Bs Cs B (B.without hsplit) b) :
    ∃ L', UnlinkedMajor (h.giveUp b.addr B.addr) (unlinkMajor B.addr (h.giveUp b.addr B.addr)) L₁ L'
      (B.without hsplit) ∧ L'.majors = Bs ++ Cs ∧ L'.blocks = L₁.blocks ∧
      L'.runs = L.runs.erase (B.addr, B.pages) ∧ L'.span ⊆ L.span := by
  have hsub : (Bs ++ Cs).Sublist L₁.majors := by
    rw [ht.majors]
    exact (List.sublist_cons_self _ Cs).append_left Bs
  obtain ⟨L', hL'⟩ : ∃ L' : Layout, L'.majors = Bs ++ Cs := ⟨⟨_, L₁.apart.sublist hsub⟩, rfl⟩
  have hminors : (B.without hsplit).minors = [] := hempty
  refine ⟨L', unlinkMajor_spec ht.represents ht.majors hL' hminors, hL', ?_, ?_, ?_⟩
  · unfold Layout.blocks
    rw [hL', ht.majors, List.flatMap_append, List.flatMap_append, List.flatMap_cons, hminors,
      List.nil_append]
  · have hnodup := L.nodup_runs
    unfold Layout.runs at hnodup ⊢
    rw [hL, List.map_append, List.map_cons] at hnodup ⊢
    rw [hL', List.map_append, List.erase_append_right, List.erase_cons_head]
    exact fun h => (List.nodup_append'.mp hnodup).2.2 h List.mem_cons_self
  · rintro x ⟨D, hD, hx⟩
    rw [← ht.span]
    rw [hL'] at hD
    exact ⟨D, hsub.subset hD, hx⟩

/-- The last minor block was given up: the pages of the major block go back. -/
theorem kfree_releases {B : MajorBlock} {Bs Cs : List MajorBlock} {xs ys : List MinorBlock}
    {L₁ : Layout} (hL : L.majors = Bs ++ B :: Cs) (hsplit : B.minors = xs ++ b :: ys)
    (hempty : xs ++ ys = []) (ht : TakenOut k.toHeap L L₁ Bs Cs B (B.without hsplit) b) :
    ∃ k' L', (liballocFree npf B.addr ((unlinkMajor B.addr
        (k.toHeap.giveUp b.addr B.addr)).mem.load32 (majPages B.addr))).eval
      { k with toHeap := unlinkMajor B.addr (k.toHeap.giveUp b.addr B.addr) } = some ((), k') ∧
      Kfreed k L L' b k' := by
  have hB : B ∈ L.majors := by rw [hL]; simp
  have hbB : b ∈ B.minors := by rw [hsplit]; simp
  obtain ⟨L', hun, hL', hblocks, hruns, hspan⟩ := unlinkMajor_takenOut hL hsplit hempty ht
  obtain ⟨hpages, hdead, hbyte⟩ := ht.unlinked hbB rfl rfl hun.pages
  generalize hh₂ : unlinkMajor B.addr (k.toHeap.giveUp b.addr B.addr) = h₂ at *
  rw [hpages]
  obtain ⟨k', t, hfree, ht', hk'⟩ := liballocFree_eval npf { k with toHeap := h₂ } (B := B)
  have hmem : k'.mem = h₂.mem := (congrArg Heap.mem hk' :)
  have herrors : k'.errorCounts = k.errorCounts := (pmmFreePages_fixes npf _ _ hfree :)
  have hminors : B.minors = [b] := by
    obtain ⟨rfl, rfl⟩ := List.append_eq_nil_iff.mp hempty
    exact hsplit
  refine ⟨k', L', hfree, ?_, ?_, ?_, ?_, hspan, ?_, ?_, ?_, ?_⟩
  · rw [hblocks]
    exact ht.perm
  · have hpmm₂ : h₂.pmm = k.pmm := hun.pmm
    refine .released hB hminors (hpmm₂ ▸ ht') ?_ hruns
    exact (congrArg Heap.pmm hk' :)
  · apply hun.represents.congr hmem
    · exact (congrArg Heap.memRoot hk' :)
    · exact (congrArg Heap.bestBet hk' :)
    · exact (congrArg Heap.inuse hk' :)
    · exact (congrArg Heap.allocated hk' :)
  · intro hinh D hD
    rw [hL'] at hD
    exact hinh D (Layout.mem_rest hL hD).1
  · have hkeeps₂ := hun.keeps
    rw [ht.span, hblocks] at hkeeps₂
    rw [hmem, hblocks]
    exact ht.keeps_rest.trans hkeeps₂ (fun _ hx => hx) (List.Subset.refl _)
  · rw [hmem]
    exact hdead
  · rw [hmem]
    exact hbyte
  · have hwarn₂ : h₂.warningCount = k.warningCount := by
      rw [← hh₂, unlinkMajor_eq]
      rfl
    exact ⟨congrArg Prod.fst herrors, congrArg Prod.snd herrors,
      (congrArg Heap.warningCount hk' :).trans hwarn₂⟩

/-- Other minor blocks remain: the major block stays, and may become the best bet. -/
theorem kfree_stays {B : MajorBlock} {Bs Cs : List MajorBlock} {xs ys : List MinorBlock}
    {L₁ : Layout} (hL : L.majors = Bs ++ B :: Cs) (hsplit : B.minors = xs ++ b :: ys)
    (hne : xs ++ ys ≠ []) (ht : TakenOut k.toHeap L L₁ Bs Cs B (B.without hsplit) b) :
    Kfreed k L L₁ b { k with toHeap := updateBest B.addr (k.toHeap.giveUp b.addr B.addr) } := by
  have hB : B ∈ L.majors := by rw [hL]; simp
  have hbB : b ∈ B.minors := by rw [hsplit]; simp
  have hmem₁ : B.without hsplit ∈ L₁.majors := by
    rw [ht.majors]
    simp
  obtain ⟨hrep', hmem, hpmm⟩ := ht.represents.updateBest hmem₁
  have hwarn : (updateBest (B.without hsplit).addr (k.toHeap.giveUp b.addr B.addr)).warningCount =
      k.warningCount := by
    unfold updateBest
    dsimp only
    split_ifs
    · rfl
    · rfl
    · rfl
  refine ⟨ht.perm, ?_, hrep', ?_, ?_, ?_, ?_, ?_, rfl, rfl, hwarn⟩
  · refine .stays hB hbB ?_ hpmm ht.runs
    intro hminors
    rw [hsplit] at hminors
    have hlen := congrArg List.length hminors
    simp only [List.length_append, List.length_cons, List.length_nil] at hlen
    apply hne
    rw [List.append_eq_nil_iff]
    exact ⟨List.eq_nil_of_length_eq_zero (by omega), List.eq_nil_of_length_eq_zero (by omega)⟩
  · intro hinh D hD
    rw [ht.majors, List.mem_append, List.mem_cons] at hD
    rcases hD with hD | rfl | hD
    · exact hinh D (Layout.mem_rest hL (List.mem_append_left _ hD)).1
    · exact hne
    · exact hinh D (Layout.mem_rest hL (List.mem_append_right _ hD)).1
  · rw [ht.span]
  · change Keeps L.span L₁.blocks k.mem (updateBest (B.without hsplit).addr _).mem
    rw [hmem]
    exact ht.keeps_rest
  · change (updateBest (B.without hsplit).addr _).mem.load32 _ = _
    rw [hmem]
    exact ht.dead
  · change (updateBest (B.without hsplit).addr _).mem _ = _
    rw [hmem]
    exact ht.distance

theorem kfree_spec (caller : Word) (hrep : k.toHeap.Represents L) (hb : b ∈ L.blocks) :
    ∃ k' L', (kfree npf caller b.payload).eval k = some ((), k') ∧ Kfreed k L L' b k' := by
  obtain ⟨B, hB, hbB⟩ := List.mem_flatMap.mp hb
  obtain ⟨Bs, Cs, hL⟩ := List.append_of_mem hB
  obtain ⟨xs, ys, hsplit⟩ := List.append_of_mem hbB
  have hstop := Layout.block_stop_le hb
  have hstored := (hrep.stored B hB).minors b hbB
  have hptr : b.payload ≠ 0 := by
    obtain ⟨-, hlo, -⟩ := b.payload_bounds hstop
    intro hzero
    rw [hzero] at hlo
    change _ ≤ 0 at hlo
    omega
  have heval := kfree_eval_of_magic npf caller hptr (b.unalign_payload hstop hstored.distance)
    hstored.magic hstored.block
  obtain ⟨L₁, ht⟩ := hrep.takeOut hL hsplit
  have hfirst : (k.toHeap.giveUp b.addr B.addr).mem.load64 (majFirst B.addr) =
      ((xs ++ ys).map MinorBlock.addr).headD 0 := ht.removed.stored.first
  rw [hfirst] at heval
  by_cases hempty : xs ++ ys = []
  · obtain ⟨k', L', hfree, hfreed⟩ := kfree_releases npf hL hsplit hempty ht
    rw [if_pos (by rw [hempty]; rfl)] at heval
    exact ⟨k', L', heval.trans hfree, hfreed⟩
  · have hne : ((xs ++ ys).map MinorBlock.addr).headD 0 ≠ 0 := by
      obtain ⟨c, cs, hcs⟩ := List.exists_cons_of_ne_nil hempty
      have hc : c ∈ (B.without hsplit).minors := by
        change c ∈ xs ++ ys
        rw [hcs]
        exact List.mem_cons_self
      rw [hcs]
      exact minor_addr_ne_zero hc
    rw [if_neg hne] at heval
    exact ⟨_, L₁, heval, kfree_stays hL hsplit hempty ht⟩

end Locked

end Olive
