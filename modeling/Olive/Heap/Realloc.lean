import Olive.Heap.Calls

/-!
# `krealloc`

A block that is large enough is kept and only its requested size changes. Otherwise `krealloc`
takes a new block, copies the old bytes into it and gives the old block up. Copying is
`liballoc_memcpy`, which goes word by word and then byte by byte.
-/

namespace Olive

open Library Memory

/-! ## Copying -/

theorem copyWords_copies {n : ℕ} {d s : Word} {m : Memory 64} (hd : d.toNat + n * 4 < 2 ^ 64)
    (hs : s.toNat + n * 4 < 2 ^ 64) (hapart : d.toNat + n * 4 ≤ s.toNat ∨ s.toNat + n * 4 ≤ d.toNat) :
    Copies d s (n * 4) m (copyWords n d s m) := by
  induction n generalizing d s m with
  | zero => exact copies_zero m
  | succ n ih =>
    have hd4 : (d + 4).toNat = d.toNat + 4 := toNat_add_ofNat (j := 4) (by omega)
    have hs4 : (s + 4).toNat = s.toNat + 4 := toNat_add_ofNat (j := 4) (by omega)
    have hrest := @ih (d + 4) (s + 4) (m.store32 d (m.load32 s)) (by omega) (by omega) (by omega)
    have hboth := (copies_store32 m (by omega)).append hrest (by omega) (by omega) (by omega)
    rw [show (n + 1) * 4 = 4 + n * 4 by omega]
    exact hboth

theorem copyBytes_copies {n : ℕ} {d s : Word} {m : Memory 64} (hd : d.toNat + n < 2 ^ 64)
    (hs : s.toNat + n < 2 ^ 64) (hapart : d.toNat + n ≤ s.toNat ∨ s.toNat + n ≤ d.toNat) :
    Copies d s n m (copyBytes n d s m) := by
  induction n generalizing d s m with
  | zero => exact copies_zero m
  | succ n ih =>
    have hd1 : (d + 1).toNat = d.toNat + 1 := toNat_add_ofNat (j := 1) (by omega)
    have hs1 : (s + 1).toNat = s.toNat + 1 := toNat_add_ofNat (j := 1) (by omega)
    have hrest := @ih (d + 1) (s + 1) (m.store d 1 (m s).toNat) (by omega) (by omega) (by omega)
    have hbyte : m.load s 1 = (m s).toNat := by simp [Memory.load]
    have hfirst : Copies d s 1 m (m.store d 1 (m s).toNat) := hbyte ▸ copies_store m (by omega)
    have hboth := hfirst.append hrest (by omega) (by omega) (by omega)
    rw [Nat.add_comm] at hboth
    exact hboth

/-- `liballoc_memcpy` copies word by word and the rest byte by byte. -/
theorem liballocMemcpy_copies {n : ℕ} {d s : Word} {m : Memory 64} (hd : d.toNat + n < 2 ^ 64)
    (hs : s.toNat + n < 2 ^ 64) (hapart : d.toNat + n ≤ s.toNat ∨ s.toNat + n ≤ d.toNat) :
    Copies d s n m (liballocMemcpy d s n m) := by
  have hsplit : n / 4 * 4 + n % 4 = n := Nat.div_add_mod' n 4
  have hd' : (d + BitVec.ofNat 64 (n / 4 * 4)).toNat = d.toNat + n / 4 * 4 :=
    toNat_add_ofNat (by omega)
  have hs' : (s + BitVec.ofNat 64 (n / 4 * 4)).toNat = s.toNat + n / 4 * 4 :=
    toNat_add_ofNat (by omega)
  have hwords := @copyWords_copies (n / 4) d s m (by omega) (by omega) (by omega)
  have hbytes := @copyBytes_copies (n % 4) (d + BitVec.ofNat 64 (n / 4 * 4))
    (s + BitVec.ofNat 64 (n / 4 * 4)) (copyWords (n / 4) d s m) (by omega) (by omega) (by omega)
  have hboth := hwords.append hbytes (by omega) (by omega) (by omega)
  rw [hsplit] at hboth
  exact hboth

/-! ## The call -/

/-- The state when `krealloc` has copied `n` bytes from `p` to `q`. -/
def copyInto (q p n : Word) (k : Kernel) : Kernel :=
  { k with mem := liballocMemcpy q p n.toNat k.mem }

structure Kept (k : Kernel) (L L' : Layout) (a b : MinorBlock) (n : Word) (k' : Kernel) : Prop where
  payload : b.payload = a.payload
  requested : b.reqSize.toNat = n.toNat
  others : ∃ bs, L.blocks.Perm (a :: bs) ∧ L'.blocks.Perm (b :: bs)
  runs : L'.runs = L.runs
  pmm : k'.pmm = k.pmm
  represents : k'.toHeap.Represents L'
  inhabited : L.Inhabited → L'.Inhabited
  keeps : ∀ c ∈ L.blocks, SameOn c.data k.mem k'.mem
  errors : k'.errorCounts = k.errorCounts

/-- The bytes of the block `a` were moved to the new block `b`; the heap was grown to `L₁` and
the old block taken out of that. -/
structure Moved (k : Kernel) (L L₁ L' : Layout) (a b : MinorBlock) (n : Word) (k₁ k' : Kernel) :
    Prop where
  added : Extends k L L₁ b n k₁
  freed : Kfreed k₁ L₁ L' a k'
  others : ∃ bs, L.blocks.Perm (a :: bs) ∧ L'.blocks.Perm (b :: bs)
  copied : ∀ i < a.reqSize.toNat,
    k'.mem (b.payload + BitVec.ofNat 64 i) = k.mem (a.payload + BitVec.ofNat 64 i)
  keeps : ∀ c ∈ L'.blocks, c ≠ b → SameOn c.data k.mem k'.mem

section Moved

variable {k k₁ k' : Kernel} {L L₁ L' : Layout} {a b : MinorBlock} {n : Word}

theorem Moved.errors (h : Moved k L L₁ L' a b n k₁ k') : k'.errorCounts = k.errorCounts := by
  obtain ⟨herror, hoverrun, -⟩ := h.freed.errors
  exact (Prod.ext herror hoverrun : k'.errorCounts = k₁.errorCounts).trans h.added.errors

theorem MinorBlock.data_subset_behind (hc : b.stop ≤ 2 ^ 64) :
    b.data ⊆ Set.Ico (b.start + 40) b.stop :=
  (MinorBlock.data_subset hc).trans (Set.Ico_subset_Ico (by omega) le_rfl)

theorem MinorBlock.byte_mem {i : ℕ} (hc : b.stop ≤ 2 ^ 64) (hi : i < b.reqSize.toNat) :
    (b.payload + BitVec.ofNat 64 i).toNat ∈ b.data := by
  obtain ⟨-, hlo, hmid, hhi⟩ := b.payload_bounds hc
  have hroom := b.room
  unfold MinorBlock.start MinorBlock.stop at *
  rw [MinorBlock.data, Set.mem_Ico, toNat_add_ofNat (by omega)]
  omega

theorem Extends.ne (h : Extends k L L₁ b n k₁) (ha : a ∈ L.blocks) : a ≠ b := by
  rintro rfl
  exact (List.nodup_cons.mp (h.perm.nodup_iff.mp L₁.nodup_blocks)).1 ha

theorem Extends.copy (h : Extends k L L₁ b n k₁) (ha : a ∈ L.blocks)
    (hle : a.reqSize.toNat ≤ n.toNat) :
    Extends k L L₁ b n (copyInto b.payload a.payload (a.reqSize.setWidth 64) k₁) ∧
      Copies b.payload a.payload a.reqSize.toNat k₁.mem
        (copyInto b.payload a.payload (a.reqSize.setWidth 64) k₁).mem := by
  have haL₁ : a ∈ L₁.blocks := h.perm.mem_iff.mpr (List.mem_cons_of_mem _ ha)
  have hroom := a.room
  have hroom' := b.room
  have hreq := h.requested
  obtain ⟨-, -, hamid, -⟩ := a.payload_bounds (Layout.block_stop_le haL₁)
  obtain ⟨-, -, hbmid, -⟩ := b.payload_bounds (Layout.block_stop_le h.mem)
  have hastop := Layout.block_stop_le haL₁
  have hbstop := Layout.block_stop_le h.mem
  have hapart := Layout.data_disjoint haL₁ h.mem (h.ne ha)
  have hcopy : Copies b.payload a.payload a.reqSize.toNat k₁.mem
      (copyInto b.payload a.payload (a.reqSize.setWidth 64) k₁).mem := by
    unfold copyInto
    rw [toNat_setWidth64]
    unfold MinorBlock.start MinorBlock.stop at *
    exact liballocMemcpy_copies (by omega) (by omega) (by omega)
  refine ⟨h.write ?_, hcopy⟩
  apply hcopy.outside.mono
  apply Set.compl_subset_compl.mpr
  exact Set.Ico_subset_Ico le_rfl (by omega)

theorem moved_of_extends {k₂ : Kernel} (ha : a ∈ L.blocks) (hlt : a.reqSize.toNat ≤ n.toNat)
    (hext : Extends k L L₁ b n k₁) (hwritten : Extends k L L₁ b n k₂)
    (hcopy : Copies b.payload a.payload a.reqSize.toNat k₁.mem k₂.mem)
    (hfreed : Kfreed k₂ L₁ L' a k') : Moved k L L₁ L' a b n k₂ k' := by
  obtain ⟨bs, hbs⟩ : ∃ bs, L.blocks.Perm (a :: bs) := by
    obtain ⟨xs, ys, hsplit⟩ := List.append_of_mem ha
    exact ⟨xs ++ ys, hsplit ▸ List.perm_middle⟩
  have hperm : L'.blocks.Perm (b :: bs) := by
    have hgrown : L₁.blocks.Perm (b :: a :: bs) := hext.perm.trans (hbs.cons b)
    have hswap : (a :: L'.blocks).Perm (a :: b :: bs) :=
      (hfreed.perm.symm.trans hgrown).trans (List.Perm.swap a b bs)
    exact hswap.cons_inv
  have hbL' : b ∈ L'.blocks := hperm.mem_iff.mpr List.mem_cons_self
  have hastop := Layout.block_stop_le ha
  have hbstop := Layout.block_stop_le hext.mem
  have hreq := hext.requested
  refine ⟨hwritten, hfreed, ⟨bs, hbs, hperm⟩, fun i hi => ?_, fun c hc hcb => ?_⟩
  · calc k'.mem (b.payload + BitVec.ofNat 64 i)
      _ = k₂.mem (b.payload + BitVec.ofNat 64 i) := by
        apply hfreed.keeps.payloads b hbL'
        exact MinorBlock.data_subset_behind hbstop (MinorBlock.byte_mem hbstop (by omega))
      _ = k₁.mem (a.payload + BitVec.ofNat 64 i) := hcopy.copied i hi
      _ = k.mem (a.payload + BitVec.ofNat 64 i) := by
        apply hext.keeps.payloads a ha
        exact MinorBlock.data_subset_behind hastop (MinorBlock.byte_mem hastop hi)
  · have hcbs : c ∈ bs := (List.mem_cons.mp (hperm.mem_iff.mp hc)).resolve_left hcb
    have hcL : c ∈ L.blocks := hbs.mem_iff.mpr (List.mem_cons_of_mem _ hcbs)
    apply SameOn.mono _ (MinorBlock.data_subset_behind (Layout.block_stop_le hcL))
    exact (hwritten.keeps.payloads c hcL).trans (hfreed.keeps.payloads c hc)

end Moved

namespace Locked

variable (npf : Formatter) {k k' : Kernel} {L : Layout} {a : MinorBlock} {n p : Word}

theorem krealloc_zero (fuel : ℕ) (caller here p : Word) :
    krealloc npf fuel caller here p 0 = (do kfree npf here p; return 0) := by
  unfold krealloc
  rw [if_pos rfl]

theorem krealloc_null (fuel : ℕ) (caller here : Word) (hn : n ≠ 0) :
    krealloc npf fuel caller here 0 n = kmalloc npf here fuel n := by
  unfold krealloc
  rw [if_neg hn, if_pos rfl]

theorem krealloc_eval_of_magic (fuel : ℕ) (caller here : Word) (hn : n ≠ 0) (hp : p ≠ 0)
    (hmagic : k.mem.load32 (minMagic (headerOf p k.mem)) = liballocMagic) :
    (krealloc npf fuel caller here p n).eval k =
      if n ≤ loadUInt k.mem (minReqSize (headerOf p k.mem)) then
        some (p, { k with mem := storeUInt k.mem (minReqSize (headerOf p k.mem)) n })
      else ((kmalloc npf here fuel n).eval k).bind fun r =>
        ((kfree npf here p).eval
          (copyInto r.1 p (loadUInt k.mem (minReqSize (headerOf p k.mem))) r.2)).map
            fun t => (r.1, t.2) := by
  unfold headerOf at hmagic ⊢
  unfold krealloc liballocLock liballocUnlock spinlockAcquire spinlockRelease
  rw [if_neg hn, if_neg hp, Code.eval_bind_of_eq (Code.eval_get k _),
    Code.eval_bind_of_eq (Code.eval_lock k _)]
  dsimp only
  rw [Code.eval_bind_of_eq (Code.eval_get k _), hmagic, if_neg (by simp),
    Code.eval_bind_of_eq (Code.eval_get k _), Code.eval_ite]
  apply if_congr Iff.rfl
  · rfl
  · rw [Code.eval_bind_of_eq (Code.eval_unlock k _), Code.eval_bind]
    apply congrArg
    funext r
    rw [modifyMem, Code.eval_bind_of_eq (Code.eval_modify r.2 _), Code.eval_bind]
    exact Option.map_eq_bind.symm

theorem header_of_payload (hrep : k.toHeap.Represents L) (ha : a ∈ L.blocks) :
    a.payload ≠ 0 ∧ headerOf a.payload k.mem = a.addr ∧
      k.mem.load32 (minMagic a.addr) = liballocMagic ∧
      loadUInt k.mem (minReqSize a.addr) = a.reqSize.setWidth 64 := by
  obtain ⟨B, hB, haB⟩ := List.mem_flatMap.mp ha
  have hstored := (hrep.stored B hB).minors a haB
  have hstop := Layout.block_stop_le ha
  refine ⟨?_, a.unalign_payload hstop hstored.distance, hstored.magic, ?_⟩
  · obtain ⟨-, hlo, -, -⟩ := a.payload_bounds hstop
    intro hzero
    rw [hzero] at hlo
    change _ ≤ 0 at hlo
    omega
  · exact congrArg (BitVec.setWidth 64) hstored.reqSize

theorem load_reqSize (hrep : k.toHeap.Represents L) (ha : a ∈ L.blocks) :
    k.mem.load32 (minReqSize (headerOf a.payload k.mem)) = a.reqSize := by
  obtain ⟨B, hB, haB⟩ := List.mem_flatMap.mp ha
  rw [(header_of_payload hrep ha).2.1]
  exact ((hrep.stored B hB).minors a haB).reqSize

theorem krealloc_kept (fuel : ℕ) (caller here : Word) (hrep : k.toHeap.Represents L)
    (ha : a ∈ L.blocks) (hn : n ≠ 0) (hle : n.toNat ≤ a.reqSize.toNat) :
    ∃ k' L' b, (krealloc npf fuel caller here a.payload n).eval k = some (a.payload, k') ∧
      Kept k L L' a b n k' := by
  obtain ⟨hp, hheader, hmagic, hreq⟩ := header_of_payload hrep ha
  have hlt := a.reqSize.isLt
  have heval := krealloc_eval_of_magic npf (k := k) fuel caller here hn hp (by rw [hheader, hmagic])
  rw [hheader, hreq, if_pos (by rw [BitVec.le_def, toNat_setWidth64]; exact hle)] at heval
  have hsize : (n.setWidth 32).toNat = n.toNat := by
    rw [BitVec.toNat_setWidth, Nat.mod_eq_of_lt (by omega)]
  have hr : (n.setWidth 32).toNat ≤ a.reqSize.toNat := hsize ▸ hle
  obtain ⟨L', hrep', hs⟩ := hrep.shrink ha hr
  refine ⟨_, L', a.shrink _ hr, heval, rfl, hsize, hs.perm, hs.runs, rfl, hrep', hs.inhabited,
    fun c hc => ?_, rfl⟩
  apply hs.keeps.mono
  rw [Set.subset_compl_comm]
  obtain ⟨B, hB, haB⟩ := List.mem_flatMap.mp ha
  exact a.header_subset_front.trans ((Layout.front_subset_metadata hB haB).trans
    (Set.subset_compl_comm.mp (Layout.data_subset hc)))

theorem krealloc_moved {fuel : ℕ} {caller here : Word} (hrep : k.toHeap.Represents L)
    (ha : a ∈ L.blocks) (hlt : a.reqSize.toNat < n.toNat) (hn : SmallRequest n)
    (hstock : L.Stocked k.pmm n)
    (heval : (krealloc npf fuel caller here a.payload n).eval k = some (p, k')) :
    ∃ L₁ L' b k₁, p = b.payload ∧ Moved k L L₁ L' a b n k₁ k' := by
  obtain ⟨hp, hheader, hmagic, hreq⟩ := header_of_payload hrep ha
  have hn0 : n ≠ 0 := by
    rintro rfl
    exact absurd hlt (Nat.not_lt_zero _)
  rw [krealloc_eval_of_magic npf fuel caller here hn0 hp (by rw [hheader, hmagic]), hheader, hreq,
    if_neg (by rw [BitVec.le_def, toNat_setWidth64]; omega), Option.bind_eq_some_iff] at heval
  obtain ⟨⟨q, k₁⟩, hmalloc, hrest⟩ := heval
  obtain ⟨⟨u, k₃⟩, hkfree, hresult⟩ := Option.map_eq_some_iff.mp hrest
  cases hresult
  obtain ⟨L₁, b, rfl, hext⟩ | ⟨-, href⟩ := kmalloc_returns npf hrep hn hstock.supplied hmalloc
  · obtain ⟨hwritten, hcopy⟩ := hext.copy ha hlt.le
    have haL₁ : a ∈ L₁.blocks := hext.perm.mem_iff.mpr (List.mem_cons_of_mem _ ha)
    obtain ⟨k₄, L', hfree, hfreed⟩ := kfree_spec npf here hwritten.represents haL₁
    have hsame := hkfree.symm.trans hfree
    cases hsame
    exact ⟨L₁, L', b, _, rfl, moved_of_extends ha hlt.le hext hwritten hcopy hfreed⟩
  · exact absurd hstock href.not_stocked

end Locked

end Olive
