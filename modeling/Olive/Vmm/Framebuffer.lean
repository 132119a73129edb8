import Olive.Vmm.StackStorage

/-!
# What of a framebuffer stays within reach

The loop of `vmm_init` for a framebuffer rounds every address it maps up to a page. If the
framebuffer starts in the middle of a page, this page is passed over, and its bytes are
mapped only where the loop of another entry reaches them. The other pages, the last one
included, are always mapped.
-/

namespace Olive

open Library

def Translation.physical (t : Translation) (virt : Word) : Word :=
  (t.entry &&& frameMask) + virt % pageSize

def ByteMapped {σ : Type} (hhdmOffset : Word) (s : Vmm σ) (x : Word) : Prop :=
  ∃ t, hardwareWalk hhdmOffset s.mem s.kernelPm (x + hhdmOffset) = some t ∧
    t.physical (x + hhdmOffset) = x

def FramebufferMapped {σ : Type} (hhdmOffset : Word) (entries : List MemmapEntry) (s : Vmm σ) :
    Prop :=
  ∀ e ∈ entries, e.type = .framebuffer → ∀ x : Word, e.Covers x.toNat → ByteMapped hhdmOffset s x

/-! ## When a byte is mapped -/

/-- No later call is for the page of `c`. -/
def LastFor (calls : List MapCall) (c : MapCall) : Prop :=
  ∃ pre post, calls = pre ++ c :: post ∧ ∀ d ∈ post, d.page ≠ c.page

/-- For every byte of a framebuffer the last call for its HHDM page writes its frame. -/
def FramebufferCalled (hhdmOffset : Word) (entries : List MemmapEntry) (calls : List MapCall) :
    Prop :=
  ∀ e ∈ entries, e.type = .framebuffer → ∀ x : Word, e.Covers x.toNat →
    ∃ c, LastFor calls c ∧ c.page = pageOf (x + hhdmOffset) ∧ frameOf c.entry = frameOf x

theorem Translation.physical_eq_iff {t : Translation} {x hhdmOffset : Word}
    (hhhdm : PageAligned hhdmOffset) (hx : x.toNat < 2 ^ 52) :
    t.physical (x + hhdmOffset) = x ↔ frameOf t.entry = frameOf x := by
  have hf := (frameOf t.entry).isLt
  have hoff := hhdmOffset.isLt
  have hphys : (t.physical (x + hhdmOffset)).toNat =
      4096 * (frameOf t.entry).toNat + x.toNat % 4096 := by
    unfold PageAligned at hhhdm
    rw [physical, and_frameMask, BitVec.toNat_add, toNat_frameAddr, BitVec.toNat_umod,
      BitVec.toNat_add, toNat_pageSize]
    omega
  rw [← BitVec.toNat_inj, ← BitVec.toNat_inj, hphys, toNat_frameOf x]
  omega

section Tables

variable {σ : Type} [PageAllocator σ] {hhdmOffset : Word} {calls : List MapCall} {s s' : Vmm σ}
  {root : Frame} (ht : InitTables hhdmOffset calls s s' root)
include ht

theorem InitTables.byteMapped_iff {x : Word} (hhhdm : PageAligned hhdmOffset)
    (hx : x.toNat < 2 ^ 52) :
    ByteMapped hhdmOffset s' x ↔
      ∃ leaf, walk (tables hhdmOffset s'.mem) root (pageOf (x + hhdmOffset)) = some leaf ∧
        frameOf leaf = frameOf x := by
  unfold ByteMapped
  rw [ht.hardware]
  constructor
  · rintro ⟨t, hwalk, hphys⟩
    obtain ⟨leaf, hleaf, rfl⟩ := Option.map_eq_some_iff.mp hwalk
    have hframe := (Translation.physical_eq_iff hhhdm hx).mp hphys
    exact ⟨leaf, hleaf, hframe⟩
  · rintro ⟨leaf, hleaf, hframe⟩
    have hphys : (leafTranslation leaf).physical (x + hhdmOffset) = x :=
      (Translation.physical_eq_iff hhhdm hx).mpr hframe
    exact ⟨_, Option.map_eq_some_iff.mpr ⟨leaf, hleaf, rfl⟩, hphys⟩

theorem InitTables.walk_eq_some_iff (hsilent : s'.reports = s.reports) {page : Page} {leaf : Word} :
    walk (tables hhdmOffset s'.mem) root page = some leaf ↔
      ∃ c, LastFor calls c ∧ c.page = page ∧ c.entry = leaf := by
  rw [ht.exact hsilent, replay_none_iff]
  constructor
  · rintro ⟨pre, post, hsplit, hpost⟩
    obtain ⟨pre', rest, rfl, rfl, hrest⟩ := List.map_eq_append_iff.mp hsplit
    obtain ⟨c, post', rfl, hc, rfl⟩ := List.map_eq_cons_iff.mp hrest
    obtain ⟨rfl, rfl⟩ := Prod.mk.inj hc
    have hlast : ∀ d ∈ post', d.page ≠ c.page :=
      fun d hd => hpost d.write (List.mem_map.mpr ⟨d, hd, rfl⟩)
    exact ⟨c, ⟨pre', post', rfl, hlast⟩, rfl, rfl⟩
  · rintro ⟨c, ⟨pre, post, rfl, hpost⟩, rfl, rfl⟩
    refine ⟨pre.map MapCall.write, post.map MapCall.write, by simp [MapCall.write], fun w hw => ?_⟩
    obtain ⟨d, hd, rfl⟩ := List.mem_map.mp hw
    exact hpost d hd

theorem InitTables.framebufferMapped_iff_called {entries : List MemmapEntry}
    (hmap : LooseMemmap hhdmOffset entries) (hsilent : s'.reports = s.reports) :
    FramebufferMapped hhdmOffset entries s' ↔ FramebufferCalled hhdmOffset entries calls := by
  refine forall₃_congr fun e he _ => forall₂_congr fun x hx => ?_
  have hbound := hmap.bounded e he
  rw [ht.byteMapped_iff hmap.hhdm (hx.2.trans_le hbound)]
  simp only [ht.walk_eq_some_iff hsilent]
  constructor
  · rintro ⟨_, ⟨c, hc, hpage, rfl⟩, hframe⟩
    exact ⟨c, hc, hpage, hframe⟩
  · rintro ⟨c, hc, hpage, hframe⟩
    exact ⟨_, ⟨c, hc, hpage, rfl⟩, hframe⟩

end Tables

/-! ## The page that is passed over -/

/-- The page an entry begins in and the pages its loop maps. -/
def MemmapEntry.touchedPages (e : MemmapEntry) : List Word :=
  alignDown e.base pageSize :: e.loopPages

/-- Each framebuffer starts at a page boundary or in a page that the loop of another
framebuffer or of reclaimable memory reaches. -/
def FirstPagesReached (entries : List MemmapEntry) : Prop :=
  ∀ e ∈ entries, e.type = .framebuffer → e.length ≠ 0 → PageAligned e.base ∨
    ∃ m ∈ entries, (m.type = .framebuffer ∨ m.type = .bootloaderReclaimable) ∧
      m.loopStart ≤ (alignDown e.base pageSize).toNat ∧
        (alignDown e.base pageSize).toNat < m.loopEnd

theorem MemmapEntry.Covers.framebuffer_loop {e : MemmapEntry} {x : Word}
    (hcovers : e.Covers x.toNat) (hbound : e.base.toNat + e.length.toNat ≤ 2 ^ 52)
    (htype : e.type = .framebuffer)
    (hfirst : PageAligned e.base ∨ alignDown x pageSize ≠ alignDown e.base pageSize) :
    e.loopStart ≤ (alignDown x pageSize).toNat ∧ (alignDown x pageSize).toNat < e.loopEnd := by
  have hsum : (e.base + e.length).toNat = e.base.toNat + e.length.toNat := by
    rw [BitVec.toNat_add]
    omega
  have hend := toNat_alignUp (x := e.base + e.length) (by omega)
  have hstart := toNat_alignUp (x := e.base) (by omega)
  have hx := toNat_alignDown x
  have hbase := toNat_alignDown e.base
  have hpage : e.base.toNat % 4096 = 0 ∨ x.toNat / 4096 ≠ e.base.toNat / 4096 := by
    refine hfirst.imp_right fun hne heq => hne (BitVec.eq_of_toNat_eq ?_)
    rw [hx, hbase, heq]
  unfold Covers at hcovers
  unfold loopStart loopEnd
  simp only [htype]
  omega

/-- The page in which a framebuffer starts cannot be reached by the loop of a usable entry. -/
theorem LooseMemmap.not_usable_of_reached {hhdmOffset : Word} {entries : List MemmapEntry}
    (hmap : LooseMemmap hhdmOffset entries) {e m : MemmapEntry} (he : e ∈ entries)
    (hm : m ∈ entries) (htype : e.type = .framebuffer) (hlength : e.length ≠ 0)
    (hp : alignDown e.base pageSize ∈ m.loopPages) : m.type ≠ .usable := by
  intro husable
  obtain ⟨-, hlo, hhi⟩ := (hmap.mem_loopPages_iff hm).mp hp
  obtain ⟨hbase, hlen⟩ := hmap.aligned m hm (.inl husable)
  have hpos : 0 < e.length.toNat :=
    Nat.pos_of_ne_zero fun h => hlength (BitVec.eq_of_toNat_eq h)
  have hcovers : m.Covers e.base.toNat := by
    unfold MemmapEntry.loopStart at hlo
    unfold MemmapEntry.loopEnd at hhi
    simp only [husable, toNat_alignDown] at hlo hhi
    unfold PageAligned at hbase hlen
    exact ⟨by omega, by omega⟩
  have hown : e.Covers e.base.toNat := ⟨le_rfl, by omega⟩
  have hne : m ≠ e := by
    rintro rfl
    rw [htype] at husable
    cases husable
  have hsymm : Std.Symm fun a b : MemmapEntry =>
      (a.type = .usable ∨ a.type = .bootloaderReclaimable) ∨
        (b.type = .usable ∨ b.type = .bootloaderReclaimable) →
          ∀ x, ¬ (a.Covers x ∧ b.Covers x) :=
    ⟨fun a b h htypes x hx => h htypes.symm x hx.symm⟩
  exact hmap.apart.forall hm he hne (.inl (.inl husable)) _ ⟨hcovers, hown⟩

section Boot

variable {hhdmOffset kernelVirt kernelPhys : Word} {entries : List MemmapEntry}
  {layout : KernelLayout} {eax : BitVec 32} {s s' : Vmm Pmm}

theorem mem_touchedPages_of_loopPages {memmap : List MemmapEntry} {p : Word}
    (hp : p ∈ memmap.flatMap MemmapEntry.loopPages) :
    p ∈ memmap.flatMap MemmapEntry.touchedPages := by
  obtain ⟨m, hm, hp⟩ := List.mem_flatMap.mp hp
  exact List.mem_flatMap.mpr ⟨m, hm, List.mem_cons_of_mem _ hp⟩

theorem pageOf_hhdm (hhhdm : PageAligned hhdmOffset) (x : Word) :
    pageOf (x + hhdmOffset) = pageOf (alignDown x pageSize + hhdmOffset) := by
  have hr : x.toNat % 4096 < 4096 := Nat.mod_lt _ (by norm_num)
  have hmove : x + hhdmOffset =
      alignDown x pageSize + hhdmOffset + BitVec.ofNat 64 (x.toNat % 4096) := by
    conv_lhs => rw [eq_alignDown_add x]
    ac_rfl
  rw [hmove, pageOf_add_offset ((pageAligned_alignDown x).add hhhdm) hr]

theorem InitTables.byteMapped_of_loopPages {root : Frame}
    (ht : InitTables hhdmOffset
      (initCalls hhdmOffset s.pmm.memmap layout kernelVirt kernelPhys) s s' root)
    (hmap : LooseMemmap hhdmOffset s.pmm.memmap)
    (hdistinct : HhdmDistinct hhdmOffset layout (s.pmm.memmap.flatMap MemmapEntry.touchedPages))
    (hsilent : s'.reports = s.reports) {m : MemmapEntry} (hm : m ∈ s.pmm.memmap) {x : Word}
    (hx : x.toNat < 2 ^ 52) (hp : alignDown x pageSize ∈ m.loopPages) :
    ByteMapped hhdmOffset s' x := by
  have hal := pageAligned_alignDown x
  have hr : x.toNat % 4096 < 4096 := Nat.mod_lt _ (by norm_num)
  obtain ⟨a, -, -, hwalk⟩ := ht.mapped (hdistinct.mono fun p => mem_touchedPages_of_loopPages)
    hsilent hmap (List.mem_flatMap.mpr ⟨m, hm, hp⟩)
  have hframe : frameOf x = frameOf (alignDown x pageSize) := by
    rw [← frameOf_add_offset hal hr, ← eq_alignDown_add]
  rw [ht.byteMapped_iff hmap.hhdm hx, pageOf_hhdm hmap.hhdm x]
  exact ⟨_, hwalk, (frameOf_or_flags _ (loopFlags_and_frameMask a.type)).trans hframe.symm⟩

theorem InitTables.reached_of_byteMapped {root : Frame}
    (ht : InitTables hhdmOffset
      (initCalls hhdmOffset s.pmm.memmap layout kernelVirt kernelPhys) s s' root)
    (hmap : LooseMemmap hhdmOffset s.pmm.memmap)
    (hdistinct : HhdmDistinct hhdmOffset layout (s.pmm.memmap.flatMap MemmapEntry.touchedPages))
    {e : MemmapEntry} (he : e ∈ s.pmm.memmap) (hx : e.base.toNat < 2 ^ 52)
    (h : ByteMapped hhdmOffset s' e.base) :
    ∃ m ∈ s.pmm.memmap, alignDown e.base pageSize ∈ m.loopPages := by
  have hown : alignDown e.base pageSize ∈ s.pmm.memmap.flatMap MemmapEntry.touchedPages :=
    List.mem_flatMap.mpr ⟨e, he, List.mem_cons_self⟩
  have hal := (pageAligned_alignDown e.base).add hmap.hhdm
  obtain ⟨leaf, hwalk, -⟩ := (ht.byteMapped_iff hmap.hhdm hx).mp h
  rw [pageOf_hhdm hmap.hhdm] at hwalk
  rcases ht.source_cases hwalk with ⟨c, hc, hpage, -⟩ | ⟨m, hm, p, hp, hpage, -⟩
  · have hvirt := KernelLayout.virt_mem_pages hc
    exact absurd ((pageOf_eq_iff hal (KernelLayout.pageAligned hvirt)).mp hpage)
      (hdistinct.apart _ hown _ hvirt)
  · have hmem : p ∈ s.pmm.memmap.flatMap MemmapEntry.loopPages := List.mem_flatMap.mpr ⟨m, hm, hp⟩
    have hpal := (hmap.pageAligned hmem).add hmap.hhdm
    obtain rfl := hdistinct.distinct _ hown p (mem_touchedPages_of_loopPages hmem)
      ((pageOf_eq_iff hal hpal).mp hpage)
    exact ⟨m, hm, hp⟩

/-- Where HHDM addresses are distinct, a framebuffer is mapped if and only if the page in
which it starts is. -/
theorem InitTables.framebufferMapped_iff_reached {root : Frame}
    (ht : InitTables hhdmOffset
      (initCalls hhdmOffset s.pmm.memmap layout kernelVirt kernelPhys) s s' root)
    (hmap : LooseMemmap hhdmOffset entries) (hpost : InitPost entries hhdmOffset s.pmm)
    (hdistinct : HhdmDistinct hhdmOffset layout (s.pmm.memmap.flatMap MemmapEntry.touchedPages))
    (hsilent : s'.reports = s.reports) :
    FramebufferMapped hhdmOffset entries s' ↔ FirstPagesReached entries := by
  have hmap' := hmap.initPost hpost
  have hframebuffer : ∀ {m : MemmapEntry}, m.type = .framebuffer → m.type ≠ .usable := by
    intro m h
    rw [h]
    decide
  constructor
  · intro h e he htype hlength
    have hpos : 0 < e.length.toNat :=
      Nat.pos_of_ne_zero fun h => hlength (BitVec.eq_of_toNat_eq h)
    have hbound := hmap.bounded e he
    have he' := (hpost.mem_iff (hframebuffer htype)).mpr he
    have hfirst := h e he htype e.base ⟨le_rfl, by omega⟩
    obtain ⟨m, hm, hp⟩ := ht.reached_of_byteMapped hmap' hdistinct he' (by omega) hfirst
    have hmu := hmap'.not_usable_of_reached he' hm htype hlength hp
    obtain ⟨-, hlo, hhi⟩ := (hmap'.mem_loopPages_iff hm).mp hp
    exact .inr ⟨m, (hpost.mem_iff hmu).mp hm,
      (m.type_of_mem_loopPages hp).resolve_left hmu, hlo, hhi⟩
  · intro h e he htype x hx
    have hbound := hmap.bounded e he
    have hlt : x.toNat < 2 ^ 52 := hx.2.trans_le hbound
    have hlength : e.length ≠ 0 := by
      rintro hzero
      obtain ⟨hlo, hhi⟩ := hx
      rw [hzero] at hhi
      exact absurd hhi (Nat.not_lt.mpr hlo)
    have hreached : ∃ m ∈ s.pmm.memmap, alignDown x pageSize ∈ m.loopPages := by
      by_cases hfirst : PageAligned e.base ∨ alignDown x pageSize ≠ alignDown e.base pageSize
      · have hloop := hx.framebuffer_loop hbound htype hfirst
        exact ⟨e, (hpost.mem_iff (hframebuffer htype)).mpr he,
          (hmap.mem_loopPages_iff he).mpr ⟨pageAligned_alignDown x, hloop⟩⟩
      · obtain ⟨hbase, hpage⟩ := not_or.mp hfirst
        obtain ⟨m, hm, hmtype, hloop⟩ := (h e he htype hlength).resolve_left hbase
        rw [not_not.mp hpage]
        refine ⟨m, (hpost.mem_iff ?_).mpr hm,
          (hmap.mem_loopPages_iff hm).mpr ⟨pageAligned_alignDown e.base, hloop⟩⟩
        rcases hmtype with h | h <;> rw [h] <;> decide
    obtain ⟨m, hm, hp⟩ := hreached
    exact ht.byteMapped_of_loopPages hmap' hdistinct hsilent hm hlt hp

/-- The framebuffers stay within reach if and only if the last mapping of each of their
pages is the right one. Where HHDM addresses are distinct this depends on the pages in which
framebuffers start only. -/
theorem vmmInit_framebufferMapped_iff (hmap : LooseMemmap hhdmOffset entries)
    (hinit : pmmInit (some entries) hhdmOffset Pmm.boot = (0, s.pmm))
    (h : vmmInit hhdmOffset s.pmm.memmap layout eax s kernelVirt kernelPhys = .ok (0, s'))
    (hsilent : s'.reports = s.reports) :
    (FramebufferMapped hhdmOffset entries s' ↔
      FramebufferCalled hhdmOffset entries
        (initCalls hhdmOffset s.pmm.memmap layout kernelVirt kernelPhys)) ∧
    (HhdmDistinct hhdmOffset layout (s.pmm.memmap.flatMap MemmapEntry.touchedPages) →
      (FramebufferMapped hhdmOffset entries s' ↔ FirstPagesReached entries)) := by
  obtain ⟨hpost, -, root, ht⟩ := hmap.booted hinit h
  exact ⟨ht.framebufferMapped_iff_called hmap hsilent,
    fun hdistinct => ht.framebufferMapped_iff_reached hmap hpost hdistinct hsilent⟩

end Boot

/-- The small machine with a framebuffer that starts in the middle of a page. -/
def skewMemmap : List MemmapEntry :=
  [⟨0x2000, 0x2000, .bootloaderReclaimable⟩, ⟨0x4000, 0x4000, .kernelAndModules⟩,
    ⟨0x8800, 0x1000, .framebuffer⟩, ⟨0x10000, 0x10000, .usable⟩]

theorem limineMemmap_skewMemmap : LimineMemmap 0xffff800000000000 skewMemmap where
  sorted := by decide
  bounded := by
    intro e he
    have hsmall : ∀ e ∈ skewMemmap, e.base.toNat + e.length.toNat ≤ 0x20000 := by decide
    exact (hsmall e he).trans (by norm_num)
  aligned := by decide
  hhdm := by decide

theorem vmmInit_skewMemmap : ∃ s s' : Vmm Pmm,
    pmmInit (some skewMemmap) 0xffff800000000000 Pmm.boot = (0, s.pmm) ∧
    s.pmm.memmap = [⟨0x2000, 0x2000, .bootloaderReclaimable⟩, ⟨0x4000, 0x4000, .kernelAndModules⟩,
      ⟨0x8800, 0x1000, .framebuffer⟩, ⟨0x10000, 0xf000, .usable⟩] ∧
    vmmInit 0xffff800000000000 s.pmm.memmap bootLayout 0x3027 s 0xffffffff80000000 0x4000 =
      .ok (0, s') ∧
    s'.reports = s.reports :=
  limineMemmap_skewMemmap.loose.boots bootLayout 0x3027 (by decide) (by decide) (by decide)
    (forall_of_all (by decide +kernel)) (by decide +kernel)

/-- The first half page of its framebuffer is not mapped. -/
theorem vmmInit_framebuffer_skewMemmap : ∃ s s' : Vmm Pmm,
    LimineMemmap 0xffff800000000000 skewMemmap ∧
    pmmInit (some skewMemmap) 0xffff800000000000 Pmm.boot = (0, s.pmm) ∧
    vmmInit 0xffff800000000000 s.pmm.memmap bootLayout 0x3027 s 0xffffffff80000000 0x4000 =
      .ok (0, s') ∧
    s'.reports = s.reports ∧
    hardwareWalk 0xffff800000000000 s'.mem s'.kernelPm (0x8800 + 0xffff800000000000) = none ∧
    ¬ FramebufferMapped 0xffff800000000000 skewMemmap s' := by
  obtain ⟨s, s', hinit, hmemmap, hvmm, hsilent⟩ := vmmInit_skewMemmap
  obtain ⟨-, -, root, ht⟩ := limineMemmap_skewMemmap.loose.booted hinit hvmm
  have hcalls : ∀ c ∈ initCalls 0xffff800000000000 s.pmm.memmap bootLayout 0xffffffff80000000
      0x4000, pageOf (0x8800 + 0xffff800000000000) ≠ c.page := by
    rw [hmemmap]
    decide +kernel
  have hnone := ht.unmapped hcalls
  refine ⟨s, s', limineMemmap_skewMemmap, hinit, hvmm, hsilent, hnone, fun hmapped => ?_⟩
  obtain ⟨t, hwalk, -⟩ :=
    hmapped ⟨0x8800, 0x1000, .framebuffer⟩ (by decide) rfl 0x8800 (by decide)
  rw [hnone] at hwalk
  cases hwalk

theorem vmmInit_framebufferMapped_iff_bootMemmap : ∃ s s' : Vmm Pmm,
    pmmInit (some bootMemmap) 0xffff800000000000 Pmm.boot = (0, s.pmm) ∧
    vmmInit 0xffff800000000000 s.pmm.memmap bootLayout 0x3027 s 0xffffffff80000000 0x4000 =
      .ok (0, s') ∧
    FramebufferMapped 0xffff800000000000 bootMemmap s' := by
  obtain ⟨s, s', hinit, hmemmap, hvmm, hsilent⟩ := vmmInit_bootMemmap
  have hdistinct : HhdmDistinct 0xffff800000000000 bootLayout
      (s.pmm.memmap.flatMap MemmapEntry.touchedPages) := by
    rw [hmemmap]
    exact hhdmDistinct_bootLayout (forall_of_all (by decide +kernel))
  have hreached : FirstPagesReached bootMemmap := by
    intro e he htype _
    have haligned : ∀ e ∈ bootMemmap, e.type = .framebuffer → PageAligned e.base := by decide
    exact .inl (haligned e he htype)
  exact ⟨s, s', hinit, hvmm,
    ((vmmInit_framebufferMapped_iff limineMemmap_bootMemmap.loose hinit hvmm hsilent).2
      hdistinct).mpr hreached⟩

end Olive
