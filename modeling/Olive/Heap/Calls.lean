import Olive.Heap.Metadata

/-!
# The calls of the heap

What `kmalloc`, `kcalloc` and `kfree` do in the kernel when one context runs alone: a new
block is added to the layout, `kcalloc` zeroes it, and a pointer behind no header with the
magic number is counted as an error and changes nothing of the heap.
-/

namespace Olive

open Library Memory

/-! ## `kmalloc` in the kernel -/

section Fuel

variable {size reqSize : Word} {fuel fuel' : ℕ} {r : Word × Heap}

theorem kmallocLoop_mono {c : Cursor} (h : kmallocLoop size reqSize fuel c = .ok r)
    (hle : fuel ≤ fuel') : kmallocLoop size reqSize fuel' c = .ok r := by
  induction fuel generalizing fuel' c with
  | zero => cases h
  | succ fuel ih =>
    obtain ⟨fuel', rfl⟩ : ∃ k, fuel' = k + 1 := ⟨fuel' - 1, by omega⟩
    rw [kmallocLoop] at h ⊢
    cases hstep : kmallocStep size reqSize fuel c with
    | error e =>
      rw [hstep] at h
      cases h
    | ok next =>
      rw [hstep] at h
      rw [kmallocStep_mono hstep (by omega)]
      simp only [bind, Except.bind] at h ⊢
      cases next with
      | breaks g => exact h
      | returns p g => exact h
      | continues c' => exact ih h (by omega)
      | needsBlock c' pc =>
        dsimp only at h ⊢
        cases hattach : attach size c' pc with
        | error g =>
          rw [hattach] at h
          exact h
        | ok c'' =>
          rw [hattach] at h
          exact ih h (by omega)

theorem kmallocSized_mono {h : Heap} (hr : kmallocSized fuel size reqSize h = .ok r)
    (hle : fuel ≤ fuel') : kmallocSized fuel' size reqSize h = .ok r := by
  unfold kmallocSized at hr ⊢
  dsimp only at hr ⊢
  split_ifs at hr ⊢
  · exact hr
  · exact kmallocLoop_mono hr hle
  · exact kmallocLoop_mono hr hle

/-- More fuel does not change what `kmalloc` answers. -/
theorem kmalloc_mono {h : Heap} (hr : kmalloc fuel reqSize h = .ok r) (hle : fuel ≤ fuel') :
    kmalloc fuel' reqSize h = .ok r := by
  rw [kmalloc_eq] at hr ⊢
  exact kmallocSized_mono hr hle

end Fuel

def SmallRequest (n : Word) : Prop := n.toNat ≤ 2 ^ 32 - 4208

section Small

variable {n : Word}

theorem SmallRequest.padded_ne (hn : SmallRequest n) : paddedSize n ≠ 0 := by
  unfold SmallRequest at hn
  rw [paddedSize]
  bv_omega

theorem SmallRequest.effective (hn : SmallRequest n) : effectiveRequest n = n :=
  if_neg hn.padded_ne

theorem SmallRequest.inRange (hn : SmallRequest n) : RequestInRange n := by
  unfold RequestInRange
  rw [hn.effective]
  exact hn

end Small

/-- What `liballoc_alloc` answers when the heap is full is never `NULL`. -/
def Layout.Stocked (L : Layout) (s : Pmm) (n : Word) : Prop :=
  L.Full n → L.Fresh (liballocAlloc s (requestedPages n)).1 (requestedPages n)

/-- The layout has one more block, with room for `n` bytes, and the others keep theirs. -/
structure Extends (k : Kernel) (L L' : Layout) (b : MinorBlock) (n : Word) (k' : Kernel) : Prop where
  requested : b.reqSize.toNat = n.toNat
  perm : L'.blocks.Perm (b :: L.blocks)
  grown : ∃ s, L.Grown n k.pmm s L'.runs ∧ k'.pmm = { s with reports := k'.pmm.reports }
  represents : k'.toHeap.Represents L'
  inhabited : L.Inhabited → L'.Inhabited
  span : L.span ⊆ L'.span
  keeps : Keeps L'.span L.blocks k.mem k'.mem
  errors : k'.errorCounts = k.errorCounts

/-- The call has found no room and got no pages, and the layout is what it was. -/
structure Refuses (k : Kernel) (L : Layout) (n : Word) (k' : Kernel) : Prop where
  full : L.Full n
  refused : (liballocAlloc k.pmm (requestedPages n)).1 = 0
  mem : k'.mem = k.mem
  represents : k'.toHeap.Represents L
  errors : k'.errorCounts = k.errorCounts

theorem Layout.Stocked.supplied {L : Layout} {s : Pmm} {n : Word} (h : L.Stocked s n) :
    L.Supplied s n :=
  fun hfull => Or.inr (h hfull)

theorem Refuses.not_stocked {k k' : Kernel} {L : Layout} {n : Word} (h : Refuses k L n k') :
    ¬ L.Stocked k.pmm n :=
  fun hstocked => (hstocked h.full).ne h.refused

section Extends

variable {k k' : Kernel} {L L' : Layout} {b : MinorBlock} {n : Word} {m : Memory 64}

theorem Extends.mem (h : Extends k L L' b n k') : b ∈ L'.blocks :=
  h.perm.mem_iff.mpr List.mem_cons_self

theorem Extends.write (h : Extends k L L' b n k') (hm : SameOn b.dataᶜ k'.mem m) :
    Extends k L L' b n { k' with mem := m } where
  requested := h.requested
  perm := h.perm
  grown := h.grown
  represents := h.represents.of_data h.mem hm
  inhabited := h.inhabited
  span := h.span
  keeps := by
    have hdata := MinorBlock.data_subset (Layout.block_stop_le h.mem)
    constructor
    · apply h.keeps.outside.trans
      apply hm.mono
      apply Set.compl_subset_compl.mpr
      obtain ⟨B, hB, -, hsub⟩ := Layout.block_subset h.mem
      intro x hx
      have hxB := hsub (Set.Ico_subset_Ico (by omega) le_rfl (hdata hx))
      exact ⟨B, hB, Set.Ico_subset_Ico (by omega) le_rfl hxB⟩
    · intro c hc
      have hcL : c ∈ L'.blocks := h.perm.mem_iff.mpr (List.mem_cons_of_mem _ hc)
      have hne : c ≠ b := by
        rintro rfl
        have hnodup := h.perm.nodup_iff.mp L'.nodup_blocks
        exact (List.nodup_cons.mp hnodup).1 hc
      have hapart := Layout.apart_of_mem hcL h.mem hne
      apply (h.keeps.payloads c hc).trans
      apply hm.mono
      intro x hx hxb
      have hxb := hdata hxb
      rw [Set.mem_Ico] at hx hxb
      omega
  errors := h.errors

end Extends

theorem ShowsHeap.represents {k : Kernel} {h : Heap} {L : Layout} (hk : ShowsHeap k h)
    (hrep : h.Represents L) : k.toHeap.Represents L := by
  obtain ⟨rs, rs', hk⟩ := hk
  rw [hk]
  exact hrep.congr rfl rfl rfl rfl rfl

theorem ShowsHeap.pmm_eq {k : Kernel} {h : Heap} (hk : ShowsHeap k h) :
    k.pmm = { h.pmm with reports := k.pmm.reports } := by
  obtain ⟨rs, rs', hk⟩ := hk
  rw [hk]
  rfl

theorem SameResult.of_eval {S T α : Type} {R : S → T → Prop} {a : α} {s : S} {y : Option (α × T)}
    (h : SameResult R (some (a, s)) y) : ∃ t, y = some (a, t) ∧ R s t := by
  cases y with
  | none => cases h
  | some r =>
    cases h with
    | some h =>
      obtain ⟨rfl, hR⟩ := h
      exact ⟨r.2, rfl, hR⟩

namespace Locked

variable (npf : Formatter) {k k' : Kernel} {L : Layout} {n p : Word}

theorem kmalloc_eval {fuel : ℕ} {caller : Word} (hn : paddedSize n ≠ 0)
    (heval : (kmalloc npf caller fuel n).eval k = some (p, k')) :
    ∃ h', Olive.kmalloc (fuel - 1) n k.toHeap = .ok (p, h') ∧ ShowsHeap k' h' := by
  cases fuel with
  | zero => cases heval
  | succ fuel =>
    have hrefines := kmalloc_refines npf caller fuel n k k.toHeap ⟨_, _, rfl⟩
    rw [if_neg hn, heval] at hrefines
    obtain ⟨h', hresult, hshows⟩ := SameResult.of_eval hrefines
    refine ⟨h', ?_, hshows⟩
    dsimp only at hresult
    rw [Nat.add_sub_cancel]
    cases hmalloc : Olive.kmalloc fuel n k.toHeap with
    | error e =>
      rw [hmalloc] at hresult
      cases hresult
    | ok r =>
      rw [hmalloc] at hresult
      cases hresult
      rfl

theorem kmalloc_returns {fuel : ℕ} {caller : Word} (hrep : k.toHeap.Represents L)
    (hn : SmallRequest n) (hsupply : L.Supplied k.pmm n)
    (heval : (kmalloc npf caller fuel n).eval k = some (p, k')) :
    (∃ L' b, p = b.payload ∧ Extends k L L' b n k') ∨ p = 0 ∧ Refuses k L n k' := by
  obtain ⟨h', hmalloc, hshows⟩ := kmalloc_eval npf hn.padded_ne heval
  have herrors := kmalloc_fixes npf caller fuel n heval
  obtain ⟨n₀, p', g, hall, hspec⟩ := Olive.kmalloc_spec hrep hn.inRange hsupply
  have hsame := kmalloc_mono hmalloc (le_max_left (fuel - 1) n₀)
  rw [hall _ (le_max_right _ _), Except.ok.injEq, Prod.mk.injEq] at hsame
  obtain ⟨rfl, rfl⟩ := hsame
  have hmem := hshows.mem_eq
  rcases hspec with ⟨L', b, hs⟩ | hs
  · refine Or.inl ⟨L', b, hs.pointer, ?_, hs.perm, ⟨_, hs.grown, hshows.pmm_eq⟩,
      hshows.represents hs.represents, hs.inhabited, hs.span, ?_, herrors⟩
    · rw [hs.requested, hn.effective]
    · rw [hmem]
      exact hs.keeps
  · exact Or.inr ⟨hs.pointer, hs.full, hs.refused, hmem.trans hs.mem,
      hshows.represents hs.represents, herrors⟩

theorem kmalloc_terminates (caller : Word) (hrep : k.toHeap.Represents L) (hn : SmallRequest n)
    (hsupply : L.Supplied k.pmm n) :
    ∃ n₀, ∀ fuel ≥ n₀, ∃ p k', (kmalloc npf caller fuel n).eval k = some (p, k') := by
  obtain ⟨n₀, p, h', hall, -⟩ := Olive.kmalloc_spec hrep hn.inRange hsupply
  refine ⟨n₀ + 1, fun fuel hle => ?_⟩
  obtain ⟨fuel, rfl⟩ : ∃ i, fuel = i + 1 := ⟨fuel - 1, by omega⟩
  have hrefines := kmalloc_refines npf caller fuel n k k.toHeap ⟨_, _, rfl⟩
  rw [if_neg hn.padded_ne] at hrefines
  dsimp only at hrefines
  rw [hall fuel (by omega)] at hrefines
  obtain ⟨k', heval, -⟩ := hrefines.of_some
  exact ⟨p, k', heval⟩

end Locked

/-! ## `kcalloc` -/

def ProductFits (nobj size : Word) : Prop := nobj.toNat * size.toNat < 2 ^ 31

def callocSize (nobj size : Word) : Word := ((nobj * size).setWidth 32).signExtend 64

theorem ProductFits.toNat_callocSize {nobj size : Word} (h : ProductFits nobj size) :
    (callocSize nobj size).toNat = nobj.toNat * size.toNat := by
  unfold ProductFits at h
  have hprod : (nobj * size).toNat = nobj.toNat * size.toNat := by
    rw [BitVec.toNat_mul, Nat.mod_eq_of_lt (by omega)]
  have hlow : ((nobj * size).setWidth 32).toNat = nobj.toNat * size.toNat := by
    rw [BitVec.toNat_setWidth, hprod, Nat.mod_eq_of_lt (by omega)]
  have hmsb : ((nobj * size).setWidth 32).msb = false := by
    rw [BitVec.msb_eq_false_iff_two_mul_lt, hlow]
    omega
  rw [callocSize, BitVec.signExtend_eq_setWidth_of_msb_false hmsb, toNat_setWidth64, hlow]

theorem ProductFits.small {nobj size : Word} (h : ProductFits nobj size) :
    SmallRequest (callocSize nobj size) := by
  unfold SmallRequest
  rw [h.toNat_callocSize]
  unfold ProductFits at h
  omega

namespace Locked

variable (npf : Formatter) {k k' : Kernel} {L : Layout} {p : Word}

theorem kcalloc_eval (fuel : ℕ) (caller : Word) {nobj size : Word} (hfits : ProductFits nobj size) :
    (kcalloc npf fuel caller nobj size).eval k =
      ((kmalloc npf caller fuel (callocSize nobj size)).eval k).map fun r =>
        (r.1, { r.2 with mem := memset r.2.mem r.1 0 (callocSize nobj size).toNat }) := by
  have hlt : ¬ 2 ^ 32 ≤ (callocSize nobj size).toNat := by
    rw [hfits.toNat_callocSize]
    unfold ProductFits at hfits
    omega
  change (kmalloc npf caller fuel (callocSize nobj size) >>= fun p =>
    if 2 ^ 32 ≤ (callocSize nobj size).toNat then Code.stop else _).eval k = _
  rw [Code.eval_bind]
  cases (kmalloc npf caller fuel (callocSize nobj size)).eval k with
  | none => rfl
  | some r => rw [Option.bind_some, Option.map_some, if_neg hlt]; rfl

theorem kcalloc_returns {fuel : ℕ} {caller nobj size : Word} (hrep : k.toHeap.Represents L)
    (hfits : ProductFits nobj size) (hstock : L.Stocked k.pmm (callocSize nobj size))
    (heval : (kcalloc npf fuel caller nobj size).eval k = some (p, k')) :
    ∃ L' b, p = b.payload ∧ Extends k L L' b (callocSize nobj size) k' ∧
      ∀ i < nobj.toNat * size.toNat, k'.mem (p + BitVec.ofNat 64 i) = 0 := by
  rw [kcalloc_eval npf fuel caller hfits, Option.map_eq_some_iff] at heval
  obtain ⟨⟨q, k₁⟩, hmalloc, hresult⟩ := heval
  cases hresult
  obtain ⟨L', b, rfl, hext⟩ | ⟨-, href⟩ :=
    kmalloc_returns npf hrep hfits.small hstock.supplied hmalloc
  · have hn := hfits.toNat_callocSize
    have hlt := (callocSize nobj size).isLt
    rw [memset_eq_fill _ _ _ (by omega)]
    have hstop := Layout.block_stop_le hext.mem
    obtain ⟨-, -, -, hhi⟩ := b.payload_bounds hstop
    refine ⟨L', b, rfl, hext.write ?_, ?_⟩
    · unfold MinorBlock.data
      rw [hext.requested]
      exact sameOn_fill (by have := hext.requested; omega) _ _
    · intro i hi
      apply if_pos
      rw [Memory.offset_add _ _ (by omega)]
      omega
  · exact absurd hstock href.not_stocked

end Locked

/-! ## Pointers to no block -/

/-- The magic number differs from the right one, but not in all of its low bytes. -/
def CloseMagic (magic : BitVec 32) : Prop :=
  magic &&& 0xffffff = liballocMagic &&& 0xffffff ∨
    magic &&& 0xffff = liballocMagic &&& 0xffff ∨ magic &&& 0xff = liballocMagic &&& 0xff

instance : DecidablePred CloseMagic := fun _ => inferInstanceAs (Decidable (_ ∨ _ ∨ _))

/-- The header `kfree` and `krealloc` look at for the pointer `p`. -/
def headerOf (p : Word) (m : Memory 64) : Word := unalign p m - sizeofMinor

/-- The call has counted an error and printed, and has changed nothing else. -/
structure Rejects (k : Kernel) (magic : BitVec 32) (k' : Kernel) : Prop where
  heap : k'.toHeap = k.toHeap
  errorCount : k'.errorCount = k.errorCount + 1
  overruns : k'.possibleOverruns =
    if CloseMagic magic then k.possibleOverruns + 1 else k.possibleOverruns

namespace Locked

variable (npf : Formatter) {k k' : Kernel} {L : Layout} {p : Word}

theorem reportMagic_eval (level pre : String) (min ptr caller : Word) : ∃ k',
    (reportMagic npf level pre min ptr caller).eval k = some ((), k') ∧
      Rejects k (k.mem.load32 (minMagic min)) k' := by
  unfold reportMagic
  rw [Code.eval_bind_of_eq (Code.eval_modify k _), Code.eval_bind_of_eq (Code.eval_get _ _)]
  dsimp only
  generalize k.mem.load32 (minMagic min) = magic
  have hlast : ∀ k : Kernel, ∃ c, (if magic = liballocDead then
      log npf "ERROR" (pre ++ "liballoc: multiple PREFIX(free)() attempt on %x from %x.\n")
        [.num ptr, .num caller]
      else log npf "ERROR" (pre ++ "liballoc: Bad PREFIX(free)( %x ) called from %x\n")
        [.num ptr, .num caller]).eval k = some ((), { k with console := c }) := by
    intro k
    split_ifs
    · exact log_eval npf k _ _ _
    · exact log_eval npf k _ _ _
  by_cases hclose : CloseMagic magic
  · have htest := hclose
    unfold CloseMagic at htest
    rw [if_pos htest, Code.eval_bind_of_eq (Code.eval_modify _ _)]
    dsimp only
    obtain ⟨c, hc⟩ := log_eval npf
      { k with errorCount := k.errorCount + 1, possibleOverruns := k.possibleOverruns + 1 } level
      "liballoc: Possible 1-3 byte overrun for magic %x != %x\n"
      [.num (magic.setWidth 64), .num (liballocMagic.setWidth 64)]
    rw [Code.eval_bind_of_eq hc]
    obtain ⟨c', hc'⟩ := hlast _
    exact ⟨_, hc', rfl, rfl, (if_pos hclose).symm⟩
  · have htest := hclose
    unfold CloseMagic at htest
    rw [if_neg htest]
    obtain ⟨c, hc⟩ := hlast { k with errorCount := k.errorCount + 1 }
    exact ⟨_, hc, rfl, rfl, (if_neg hclose).symm⟩

theorem kfree_rejects (caller : Word) (hp : p ≠ 0)
    (hmagic : k.mem.load32 (minMagic (headerOf p k.mem)) ≠ liballocMagic) :
    ∃ k', (kfree npf caller p).eval k = some ((), k') ∧
      Rejects k (k.mem.load32 (minMagic (headerOf p k.mem))) k' := by
  unfold headerOf at hmagic ⊢
  obtain ⟨k', heval, hrejects⟩ := reportMagic_eval npf (k := k) "WARN" ""
    (unalign p k.mem - sizeofMinor) (unalign p k.mem) caller
  refine ⟨k', ?_, hrejects⟩
  unfold kfree liballocLock liballocUnlock spinlockAcquire spinlockRelease
  rw [if_neg hp, Code.eval_bind_of_eq (Code.eval_get k _), Code.eval_bind_of_eq (Code.eval_lock k _),
    Code.eval_bind_of_eq (Code.eval_get k _), if_pos hmagic, Code.eval_bind_of_eq heval]
  rfl

theorem kfree_null (caller : Word) : ∃ c, (kfree npf caller 0).eval k =
    some ((), { k with warningCount := k.warningCount + 1, console := c }) := by
  obtain ⟨c, hc⟩ := log_eval npf { k with warningCount := k.warningCount + 1 } "WARN"
    "liballoc:PREFIX(free)( NULL ) called from %x\n" [.num caller]
  exact ⟨c, hc⟩

/-- What `kfree` leaves in memory lets the next `kfree` of the same pointer find a header that
was given up. -/
theorem kfree_twice (caller : Word) {L' : Layout} {b : MinorBlock} (hb : b ∈ L.blocks)
    (hrep : k.toHeap.Represents L) (hfreed : Kfreed k L L' b k') : ∃ k'',
    (kfree npf caller b.payload).eval k' = some ((), k'') ∧ k''.toHeap = k'.toHeap ∧
      k''.errorCount = k'.errorCount + 1 ∧ k''.possibleOverruns = k'.possibleOverruns := by
  have hstop := Layout.block_stop_le hb
  obtain ⟨B, hB, hbB⟩ := List.mem_flatMap.mp hb
  have hdistance := ((hrep.stored B hB).minors b hbB).distance
  rw [← hfreed.distance] at hdistance
  have hheader : headerOf b.payload k'.mem = b.addr := b.unalign_payload hstop hdistance
  have hmagic : k'.mem.load32 (minMagic (headerOf b.payload k'.mem)) = liballocDead := by
    rw [hheader, hfreed.dead]
  have hne : b.payload ≠ 0 := by
    obtain ⟨-, hlo, -, -⟩ := b.payload_bounds hstop
    intro hzero
    rw [hzero] at hlo
    change _ ≤ 0 at hlo
    omega
  obtain ⟨k'', heval, hrejects⟩ := kfree_rejects npf caller hne (k := k') (by rw [hmagic]; decide)
  rw [hmagic] at hrejects
  exact ⟨k'', heval, hrejects.heap, hrejects.errorCount, hrejects.overruns.trans (if_neg (by decide))⟩

end Locked

end Olive
