import Olive.Vmm.Coverage

/-!
# Where the free stack lies after `vmm_init`

`pmm_init` cuts the storage of the free stack off a usable entry, in the memory map it
shares with `vmm_init`. So no loop maps the storage on purpose, and it is mapped exactly
where the overlong loop of a framebuffer or of reclaimable memory reaches it.
-/

namespace Olive

open Library

/-! ## The map before and after `pmm_init` -/

section Carve

variable {entries entries' : List MemmapEntry} {size block : Word}

theorem Carved.mem_cases (h : Carved entries entries' size block) {m : MemmapEntry}
    (hm : m ∈ entries') :
    m ∈ entries ∨ ∃ e ∈ entries, e.type = .usable ∧ size ≤ e.length ∧ m = e.shorten size := by
  obtain ⟨pre, e, post, rfl, husable, hfit, rfl, -⟩ := h.exists_entry
  rcases List.mem_append.mp hm with hm | hm
  · exact .inl (List.mem_append_left _ hm)
  · rcases List.mem_cons.mp hm with rfl | hm
    · exact .inr ⟨e, by simp, husable, hfit, rfl⟩
    · exact .inl (by simp [hm])

theorem Carved.mem_of_not_usable (h : Carved entries entries' size block) {m : MemmapEntry}
    (hm : m ∈ entries) (htype : m.type ≠ .usable) : m ∈ entries' := by
  obtain ⟨pre, e, post, rfl, husable, -, rfl, -⟩ := h.exists_entry
  rcases List.mem_append.mp hm with hm | hm
  · exact List.mem_append_left _ hm
  · rcases List.mem_cons.mp hm with rfl | hm
    · exact absurd husable htype
    · simp [hm]

end Carve

section Boot

variable {hhdmOffset : Word} {entries : List MemmapEntry} {pmm : Pmm}

theorem InitPost.mem_cases (h : InitPost entries hhdmOffset pmm) {m : MemmapEntry}
    (hm : m ∈ pmm.memmap) :
    m ∈ entries ∨ ∃ e ∈ entries, e.type = .usable ∧ stackSize pmm.pmTotalPages ≤ e.length ∧
      m = e.shorten (stackSize pmm.pmTotalPages) := by
  rcases h.stack with ⟨block, hcarved, -⟩ | ⟨-, heq, -⟩
  · exact hcarved.mem_cases hm
  · exact .inl (heq ▸ hm)

theorem InitPost.mem_of_not_usable (h : InitPost entries hhdmOffset pmm) {m : MemmapEntry}
    (hm : m ∈ entries) (htype : m.type ≠ .usable) : m ∈ pmm.memmap := by
  rcases h.stack with ⟨block, hcarved, -⟩ | ⟨-, heq, -⟩
  · exact hcarved.mem_of_not_usable hm htype
  · exact heq ▸ hm

theorem InitPost.mem_iff (h : InitPost entries hhdmOffset pmm) {m : MemmapEntry}
    (htype : m.type ≠ .usable) : m ∈ pmm.memmap ↔ m ∈ entries := by
  constructor
  · intro hm
    rcases h.mem_cases hm with hm | ⟨e, -, husable, -, rfl⟩
    · exact hm
    · exact absurd husable htype
  · exact fun hm => h.mem_of_not_usable hm htype

theorem InitPost.usable_cases (h : InitPost entries hhdmOffset pmm)
    (hmap : LimineMemmap hhdmOffset entries) {m : MemmapEntry} (hm : m ∈ pmm.memmap)
    (husable : m.type = .usable) {p : Word} (hp : p ∈ m.loopPages) :
    PageAligned p ∧ ∃ e ∈ entries, e.type = .usable ∧ e.Covers p.toNat := by
  have hmap' := hmap.initPost h
  obtain ⟨halign, hlo, hhi⟩ := (hmap'.mem_loopPages_iff hm).mp hp
  have hcovers : m.Covers p.toNat := by
    unfold MemmapEntry.loopStart at hlo
    unfold MemmapEntry.loopEnd at hhi
    rw [husable] at hlo hhi
    exact ⟨hlo, hhi⟩
  refine ⟨halign, ?_⟩
  rcases h.mem_cases hm with hm | ⟨e, he, heu, hfit, rfl⟩
  · exact ⟨m, hm, husable, hcovers⟩
  · have hlen : (e.shorten (stackSize pmm.pmTotalPages)).length.toNat =
        e.length.toNat - (stackSize pmm.pmTotalPages).toNat := BitVec.toNat_sub_of_le hfit
    obtain ⟨hlo', hhi'⟩ := hcovers
    rw [hlen] at hhi'
    refine ⟨e, he, heu, hlo', ?_⟩
    change p.toNat < e.base.toNat + _ at hhi'
    omega

theorem InitPost.loopPages_subset (h : InitPost entries hhdmOffset pmm)
    (hmap : LimineMemmap hhdmOffset entries) :
    ∀ p ∈ pmm.memmap.flatMap MemmapEntry.loopPages, p ∈ entries.flatMap MemmapEntry.loopPages := by
  intro p hp
  obtain ⟨m, hm, hp⟩ := List.mem_flatMap.mp hp
  by_cases husable : m.type = .usable
  · obtain ⟨halign, e, he, heu, hcovers⟩ := h.usable_cases hmap hm husable hp
    have hloop := hcovers.loop (hmap.bounded e he) (.inl heu)
    exact List.mem_flatMap.mpr ⟨e, he, (hmap.mem_loopPages_iff he).mpr ⟨halign, hloop⟩⟩
  · exact List.mem_flatMap.mpr ⟨m, (h.mem_iff husable).mp hm, hp⟩

theorem HhdmDistinct.mono {layout : KernelLayout} {pages pages' : List Word}
    (h : HhdmDistinct hhdmOffset layout pages) (hsub : ∀ p ∈ pages', p ∈ pages) :
    HhdmDistinct hhdmOffset layout pages' :=
  ⟨fun p hp q hq => h.distinct p (hsub p hp) q (hsub q hq), fun p hp => h.apart p (hsub p hp)⟩

end Boot

/-! ## Bytes, pages and flags -/

theorem ofNat_pages (n : ℕ) :
    BitVec.ofNat 64 n = BitVec.ofNat 64 (n / 4096) * pageSize + BitVec.ofNat 64 (n % 4096) := by
  apply BitVec.eq_of_toNat_eq
  rw [BitVec.toNat_add, BitVec.toNat_mul, BitVec.toNat_ofNat, BitVec.toNat_ofNat,
    BitVec.toNat_ofNat, toNat_pageSize]
  omega

theorem loopFlags_and_frameMask (type : MemmapType) : loopFlags type &&& frameMask = 0 := by
  cases type <;> decide

/-- The loops over the memory map map everything writable. -/
theorem writable_or_loopFlags (x : Word) (type : MemmapType) :
    (x ||| loopFlags type) &&& pteBitReadWrite ≠ 0 := by
  have hbit : ((x ||| loopFlags type) &&& pteBitReadWrite).getLsbD 1 = true := by
    rw [BitVec.getLsbD_and, BitVec.getLsbD_or]
    cases type <;> simp [loopFlags, pteBitReadWrite, pteBitPresent]
  intro h
  rw [h] at hbit
  simp at hbit

/-! ## The storage -/

theorem MemmapEntry.type_of_mem_loopPages {m : MemmapEntry} {p : Word} (hp : p ∈ m.loopPages) :
    m.type = .usable ∨ m.type = .framebuffer ∨ m.type = .bootloaderReclaimable := by
  unfold loopPages at hp
  cases htype : m.type <;> simp [htype] at hp ⊢

/-- Every byte of the storage is mapped writable, at the frame where it was placed. -/
def StorageMapped (hhdmOffset : Word) (s' : Vmm Pmm) (pmm : Pmm) (block : Word) : Prop :=
  ∀ x < 8 * pmm.pmTotalPages.toNat, ∃ t,
    hardwareWalk hhdmOffset s'.mem s'.kernelPm (pmm.pmStack + BitVec.ofNat 64 x) = some t ∧
      t.writable = true ∧ frameOf t.entry = frameOf (block + BitVec.ofNat 64 x)

/-- The stack has an entry, and each of its pages lies in the reach of the loop of some
framebuffer or reclaimable entry. -/
def StorageReached (entries : List MemmapEntry) : Prop :=
  ∃ e, stackEntry entries = some e ∧
    ∀ q ∈ ticks pageSize (stackBlock entries e) ((stackSize (countPages entries 0)).toNat / 4096),
      ∃ m ∈ entries, (m.type = .framebuffer ∨ m.type = .bootloaderReclaimable) ∧ q ∈ m.loopPages

section Storage

variable {hhdmOffset kernelVirt kernelPhys : Word} {entries : List MemmapEntry}
  {layout : KernelLayout} {eax : BitVec 32} {s s' : Vmm Pmm}

theorem InitPost.notMem_loopPages {block q : Word} (hmap : LimineMemmap hhdmOffset entries)
    (hpost : InitPost entries hhdmOffset s.pmm)
    (hcarved : Carved entries s.pmm.memmap (stackSize s.pmm.pmTotalPages) block)
    (hq : q ∈ ticks pageSize block ((stackSize s.pmm.pmTotalPages).toNat / 4096))
    {m : MemmapEntry} (hm : m ∈ s.pmm.memmap) (husable : m.type = .usable) : q ∉ m.loopPages := by
  intro hp
  have hv := hmap.usableMemmap
  have hmap' := hmap.initPost hpost
  have hsize := (stackSize_spec (hpost.total.trans_le hv.length_le)).1
  obtain ⟨halign, hlo, hhi⟩ := (hmap'.mem_loopPages_iff hm).mp hp
  have hcovers : m.Covers q.toNat := by
    unfold MemmapEntry.loopStart at hlo
    unfold MemmapEntry.loopEnd at hhi
    rw [husable] at hlo hhi
    exact ⟨hlo, hhi⟩
  have hleft : q ∈ usablePages s.pmm.memmap := by
    have hbound := (hmap'.bounded m hm).trans (by norm_num : 2 ^ 52 ≤ 2 ^ 64)
    exact mem_usablePages.mpr ⟨m, hm, husable,
      (MemmapEntry.mem_pages_iff (hmap'.aligned m hm (.inl husable)) hbound).mpr ⟨halign, hcovers⟩⟩
  have hnodup := (hcarved.perm hv hsize).nodup_iff.mp hv.nodup
  exact List.disjoint_of_nodup_append hnodup hleft hq

theorem storagePage_iff {root : Frame} {block q : Word} (hmap : LimineMemmap hhdmOffset entries)
    (hpost : InitPost entries hhdmOffset s.pmm)
    (ht : InitTables hhdmOffset
      (initCalls hhdmOffset s.pmm.memmap layout kernelVirt kernelPhys) s s' root)
    (hdistinct : HhdmDistinct hhdmOffset layout (entries.flatMap MemmapEntry.loopPages))
    (hsilent : s'.reports = s.reports)
    (hcarved : Carved entries s.pmm.memmap (stackSize s.pmm.pmTotalPages) block)
    (hq : q ∈ ticks pageSize block ((stackSize s.pmm.pmTotalPages).toNat / 4096)) :
    (∃ t, hardwareWalk hhdmOffset s'.mem s'.kernelPm (q + hhdmOffset) = some t ∧
        t.writable = true ∧ frameOf t.entry = frameOf q) ↔
      ∃ m ∈ entries, (m.type = .framebuffer ∨ m.type = .bootloaderReclaimable) ∧
        q ∈ m.loopPages := by
  have hv := hmap.usableMemmap
  have hmap' := hmap.initPost hpost
  have hsub := hpost.loopPages_subset hmap
  have hsize := (stackSize_spec (hpost.total.trans_le hv.length_le)).1
  obtain ⟨halign, hblock⟩ := (hcarved.mem_block_iff hv hsize).mp hq
  obtain ⟨e, he, husable, hcovers⟩ := hcarved.covers hv
  have hown : q ∈ entries.flatMap MemmapEntry.loopPages := by
    have hloop := (hcovers _ hblock).loop (hmap.bounded e he) (.inl husable)
    exact List.mem_flatMap.mpr ⟨e, he, (hmap.mem_loopPages_iff he).mpr ⟨halign, hloop⟩⟩
  have hqal := halign.add hmap.hhdm
  rw [ht.hardware]
  constructor
  · rintro ⟨t, hwalk, -, -⟩
    obtain ⟨leaf, hleaf, -⟩ := Option.map_eq_some_iff.mp hwalk
    rcases ht.source_cases hleaf with ⟨c, hc, hpage, -⟩ | ⟨m, hm, p, hp, hpage, -⟩
    · have hvirt := KernelLayout.virt_mem_pages hc
      exact absurd ((pageOf_eq_iff hqal (KernelLayout.pageAligned hvirt)).mp hpage)
        (hdistinct.apart q hown _ hvirt)
    · have hpmem : p ∈ s.pmm.memmap.flatMap MemmapEntry.loopPages := List.mem_flatMap.mpr ⟨m, hm, hp⟩
      have hpal := (hmap'.pageAligned hpmem).add hmap.hhdm
      obtain rfl : p = q := hdistinct.distinct p (hsub p hpmem) q hown
        ((pageOf_eq_iff hpal hqal).mp hpage.symm)
      rcases m.type_of_mem_loopPages hp with hmu | hmtype
      · exact absurd hp (hpost.notMem_loopPages hmap hcarved hq hm hmu)
      · refine ⟨m, (hpost.mem_iff ?_).mp hm, hmtype, hp⟩
        rcases hmtype with h | h <;> rw [h] <;> decide
  · rintro ⟨m, hm, hmtype, hp⟩
    have hm' : m ∈ s.pmm.memmap := by
      refine (hpost.mem_iff ?_).mpr hm
      rcases hmtype with h | h <;> rw [h] <;> decide
    obtain ⟨a, -, -, hwalk⟩ := ht.mapped (hdistinct.mono hsub) hsilent hmap'.loose
      (List.mem_flatMap.mpr ⟨m, hm', hp⟩)
    rw [hwalk]
    exact ⟨_, rfl, decide_eq_true (writable_or_loopFlags q a.type),
      frameOf_or_flags q (loopFlags_and_frameMask a.type)⟩

theorem storageMapped_iff_pages {pmm : Pmm} {block : Word} (hhhdm : PageAligned hhdmOffset)
    (htotal : pmm.pmTotalPages.toNat ≤ 2 ^ 52) (hstack : pmm.pmStack = block + hhdmOffset)
    (hblock : ∀ q ∈ ticks pageSize block ((stackSize pmm.pmTotalPages).toNat / 4096), PageAligned q) :
    StorageMapped hhdmOffset s' pmm block ↔
      ∀ q ∈ ticks pageSize block ((stackSize pmm.pmTotalPages).toNat / 4096),
        ∃ t, hardwareWalk hhdmOffset s'.mem s'.kernelPm (q + hhdmOffset) = some t ∧
          t.writable = true ∧ frameOf t.entry = frameOf q := by
  obtain ⟨hsize, -, hle⟩ := stackSize_spec htotal
  have hge := (stackSize_spec htotal).2.1
  unfold PageAligned at hsize
  have hbyte : ∀ x, pmm.pmStack + BitVec.ofNat 64 x =
      block + BitVec.ofNat 64 (x / 4096) * pageSize + hhdmOffset + BitVec.ofNat 64 (x % 4096) := by
    intro x
    rw [hstack, ofNat_pages x]
    ac_rfl
  unfold StorageMapped
  constructor
  · intro h q hq
    obtain ⟨k, hk, rfl⟩ := mem_ticks.mp hq
    have hx := h (4096 * k) (by omega)
    have hzero : BitVec.ofNat 64 (4096 * k) = BitVec.ofNat 64 k * pageSize := by
      rw [ofNat_pages, Nat.mul_mod_right, Nat.mul_div_cancel_left k (by norm_num)]
      exact BitVec.add_zero _
    have hstart : block + hhdmOffset + BitVec.ofNat 64 k * pageSize =
        block + BitVec.ofNat 64 k * pageSize + hhdmOffset := by ac_rfl
    rwa [hstack, hzero, hstart] at hx
  · intro h x hx
    have hmem : block + BitVec.ofNat 64 (x / 4096) * pageSize ∈
        ticks pageSize block ((stackSize pmm.pmTotalPages).toNat / 4096) :=
      mem_ticks.mpr ⟨x / 4096, by omega, rfl⟩
    have hal := hblock _ hmem
    obtain ⟨t, hwalk, hwritable, hframe⟩ := h _ hmem
    have hr : x % 4096 < 4096 := Nat.mod_lt _ (by norm_num)
    refine ⟨t, ?_, hwritable, ?_⟩
    · rw [hbyte, ← hwalk]
      exact hardwareWalk_congr _ _ _ (pageOf_add_offset (hal.add hhhdm) hr)
    · rw [hframe, ofNat_pages x, ← BitVec.add_assoc, frameOf_add_offset hal hr]

/-- The free stack stays within reach after the switch of the page tables if and only if
the loops of other entries happen to map its storage. -/
theorem vmmInit_storageMapped_iff (hmap : LimineMemmap hhdmOffset entries)
    (hinit : pmmInit (some entries) hhdmOffset Pmm.boot = (0, s.pmm))
    (h : vmmInit hhdmOffset s.pmm.memmap layout eax s kernelVirt kernelPhys = .ok (0, s'))
    (hdistinct : HhdmDistinct hhdmOffset layout (entries.flatMap MemmapEntry.loopPages))
    (hsilent : s'.reports = s.reports) :
    (∃ block, Carved entries s.pmm.memmap (stackSize s.pmm.pmTotalPages) block ∧
        s.pmm.pmStack = block + hhdmOffset ∧ StorageMapped hhdmOffset s' s.pmm block) ↔
      StorageReached entries := by
  obtain ⟨hpost, hmap', root, ht⟩ := booted hmap hinit h
  have hv := hmap.usableMemmap
  have htotal := hpost.total.trans_le hv.length_le
  have hsize := (stackSize_spec htotal).1
  have hpages : ∀ {block}, Carved entries s.pmm.memmap (stackSize s.pmm.pmTotalPages) block →
      s.pmm.pmStack = block + hhdmOffset → (StorageMapped hhdmOffset s' s.pmm block ↔
        ∀ q ∈ ticks pageSize block ((stackSize s.pmm.pmTotalPages).toNat / 4096),
          ∃ m ∈ entries, (m.type = .framebuffer ∨ m.type = .bootloaderReclaimable) ∧
            q ∈ m.loopPages) := by
    intro block hcarved hstack
    rw [storageMapped_iff_pages hmap.hhdm htotal hstack fun q hq =>
      ((hcarved.mem_block_iff hv hsize).mp hq).1]
    exact forall₂_congr fun q hq =>
      storagePage_iff hmap hpost ht hdistinct hsilent hcarved hq
  unfold StorageReached
  rw [← hpost.count]
  rcases hpost.stackEntry_spec with ⟨e, hentry, hstack, hcarved⟩ | ⟨hentry, hnone⟩
  · constructor
    · rintro ⟨block, -, hstack', hmapped⟩
      obtain rfl : stackBlock entries e = block := by
        have hsub := congrArg (· - hhdmOffset) (hstack.symm.trans hstack')
        simpa using hsub
      exact ⟨e, hentry, (hpages hcarved hstack).mp hmapped⟩
    · rintro ⟨e', hentry', hreached⟩
      obtain rfl : e = e' := Option.some.inj (hentry.symm.trans hentry')
      exact ⟨_, hcarved, hstack, (hpages hcarved hstack).mpr hreached⟩
  · constructor
    · rintro ⟨block, hcarved, -, -⟩
      obtain ⟨pre, e, post, rfl, husable, hfit, -, -⟩ := hcarved.exists_entry
      exact absurd hfit (BitVec.not_le.mpr (hnone e (by simp) husable))
    · rintro ⟨e, hentry', -⟩
      rw [hentry] at hentry'
      cases hentry'

end Storage

/-- On the small machine the storage is the last page of usable memory, which no loop
maps: its first access after the switch of the page tables faults. -/
theorem vmmInit_storage_bootMemmap : ∃ s s' : Vmm Pmm,
    LimineMemmap 0xffff800000000000 bootMemmap ∧
    HhdmDistinct 0xffff800000000000 bootLayout (bootMemmap.flatMap MemmapEntry.loopPages) ∧
    pmmInit (some bootMemmap) 0xffff800000000000 Pmm.boot = (0, s.pmm) ∧
    vmmInit 0xffff800000000000 s.pmm.memmap bootLayout 0x3027 s 0xffffffff80000000 0x4000 =
      .ok (0, s') ∧
    s'.reports = s.reports ∧
    hardwareWalk 0xffff800000000000 s'.mem s'.kernelPm s.pmm.pmStack = none ∧
    ¬ ∃ block, Carved bootMemmap s.pmm.memmap (stackSize s.pmm.pmTotalPages) block ∧
      s.pmm.pmStack = block + 0xffff800000000000 ∧
      StorageMapped 0xffff800000000000 s' s.pmm block := by
  obtain ⟨s, s', hinit, hmemmap, hvmm, hsilent⟩ := vmmInit_bootMemmap
  obtain ⟨hpost, -, root, ht⟩ := booted limineMemmap_bootMemmap hinit hvmm
  have hstack : s.pmm.pmStack = 0xffff80000001f000 := by
    rw [hpost.pmStack]
    decide +kernel
  have hcalls : ∀ c ∈ initCalls 0xffff800000000000 s.pmm.memmap bootLayout 0xffffffff80000000 0x4000,
      pageOf 0xffff80000001f000 ≠ c.page := by
    rw [hmemmap]
    decide +kernel
  have hnone : hardwareWalk 0xffff800000000000 s'.mem s'.kernelPm s.pmm.pmStack = none := by
    rw [hstack]
    exact ht.unmapped hcalls
  refine ⟨s, s', limineMemmap_bootMemmap,
    hhdmDistinct_bootLayout (forall_of_all (by decide +kernel)), hinit, hvmm, hsilent, hnone, ?_⟩
  rintro ⟨block, -, -, hmapped⟩
  have htotal : 0 < 8 * s.pmm.pmTotalPages.toNat := by
    rw [hpost.count]
    decide
  obtain ⟨t, hwalk, -⟩ := hmapped 0 htotal
  rw [show s.pmm.pmStack + BitVec.ofNat 64 0 = s.pmm.pmStack from BitVec.add_zero _, hnone] at hwalk
  cases hwalk

theorem vmmInit_storageMapped_iff_bootMemmap : ∃ s s' : Vmm Pmm,
    pmmInit (some bootMemmap) 0xffff800000000000 Pmm.boot = (0, s.pmm) ∧
    vmmInit 0xffff800000000000 s.pmm.memmap bootLayout 0x3027 s 0xffffffff80000000 0x4000 =
      .ok (0, s') ∧
    ((∃ block, Carved bootMemmap s.pmm.memmap (stackSize s.pmm.pmTotalPages) block ∧
        s.pmm.pmStack = block + 0xffff800000000000 ∧
        StorageMapped 0xffff800000000000 s' s.pmm block) ↔ StorageReached bootMemmap) := by
  obtain ⟨s, s', hinit, -, hvmm, hsilent⟩ := vmmInit_bootMemmap
  exact ⟨s, s', hinit, hvmm, vmmInit_storageMapped_iff limineMemmap_bootMemmap hinit hvmm
    (hhdmDistinct_bootLayout (forall_of_all (by decide +kernel))) hsilent⟩

end Olive
