import Olive.Vmm.Supply

/-!
# What the mappings of `vmm_init` cover

The loops over the memory map overlap: those of framebuffers and reclaimable memory run
past the end of their entry. On a sorted map each page of an entry is still mapped last
by the loop of its own entry, so it ends with the attributes of its type. The block that
`pmm_init` has cut off for its stack belongs to no entry any more and is mapped only
where such an overlong loop happens to reach it.
-/

namespace Olive

open Library

/-- What Limine guarantees about a memory map and the offset of its HHDM. -/
structure LimineMemmap (hhdmOffset : Word) (entries : List MemmapEntry) : Prop where
  sorted : entries.Pairwise fun a b => a.base.toNat + a.length.toNat ≤ b.base.toNat
  bounded : ∀ e ∈ entries, e.base.toNat + e.length.toNat ≤ 2 ^ 52
  aligned : ∀ e ∈ entries, e.type = .usable ∨ e.type = .bootloaderReclaimable →
    PageAligned e.base ∧ PageAligned e.length
  hhdm : PageAligned hhdmOffset

/-- What is left of that where entries that are neither usable nor reclaimable may overlap. -/
structure LooseMemmap (hhdmOffset : Word) (entries : List MemmapEntry) : Prop where
  apart : entries.Pairwise fun a b =>
    (a.type = .usable ∨ a.type = .bootloaderReclaimable) ∨
      (b.type = .usable ∨ b.type = .bootloaderReclaimable) → ∀ x, ¬ (a.Covers x ∧ b.Covers x)
  bounded : ∀ e ∈ entries, e.base.toNat + e.length.toNat ≤ 2 ^ 52
  aligned : ∀ e ∈ entries, e.type = .usable ∨ e.type = .bootloaderReclaimable →
    PageAligned e.base ∧ PageAligned e.length
  hhdm : PageAligned hhdmOffset

/-- The HHDM addresses of the pages differ from each other and from the addresses of the
kernel image, in the 48 bits that are translated. -/
structure HhdmDistinct (hhdmOffset : Word) (layout : KernelLayout) (pages : List Word) : Prop where
  distinct : ∀ p ∈ pages, ∀ q ∈ pages,
    (p + hhdmOffset).toNat % 2 ^ 48 = (q + hhdmOffset).toNat % 2 ^ 48 → p = q
  apart : ∀ p ∈ pages, ∀ a ∈ layout.pages, (p + hhdmOffset).toNat % 2 ^ 48 ≠ a.toNat % 2 ^ 48

/-! ## Pages and addresses -/

theorem pageAligned_ticks {x : Word} (hx : PageAligned x) {n : ℕ} {p : Word}
    (hp : p ∈ ticks pageSize x n) : PageAligned p := by
  obtain ⟨k, -, rfl⟩ := mem_ticks.mp hp
  simp only [PageAligned, BitVec.toNat_add, BitVec.toNat_mul, toNat_pageSize] at *
  omega

theorem KernelLayout.pageAligned {layout : KernelLayout} {a : Word} (ha : a ∈ layout.pages) :
    PageAligned a := by
  simp only [pages, textPages, rodataPages, dataPages, segmentPages, List.mem_append] at ha
  rcases ha with (ha | ha) | ha <;> exact pageAligned_ticks (pageAligned_alignDown _) ha

theorem KernelLayout.virt_mem_pages {layout : KernelLayout} {kernelVirt kernelPhys : Word}
    {c : MapCall} (hc : c ∈ layout.calls kernelVirt kernelPhys) : c.virt ∈ layout.pages := by
  simp only [calls, segmentCalls, List.mem_append, List.mem_map] at hc
  simp only [pages, List.mem_append]
  rcases hc with (⟨a, ha, rfl⟩ | ⟨a, ha, rfl⟩) | ⟨a, ha, rfl⟩
  · exact .inl (.inl ha)
  · exact .inl (.inr ha)
  · exact .inr ha

/-! ## The pages of the loops -/

namespace MemmapEntry

def loopStart (e : MemmapEntry) : ℕ :=
  match e.type with
  | .framebuffer => (alignUp e.base pageSize).toNat
  | _ => e.base.toNat

/-- Where they end. The counter of the last two loops starts at 0 and is compared with
the end of the entry, so they map as many pages as lie below that end. -/
def loopEnd (e : MemmapEntry) : ℕ :=
  match e.type with
  | .usable => e.base.toNat + e.length.toNat
  | .framebuffer => (alignUp e.base pageSize).toNat + (alignUp (e.base + e.length) pageSize).toNat
  | .bootloaderReclaimable => e.base.toNat + (alignUp (e.base + e.length) pageSize).toNat
  | _ => 0

variable {e : MemmapEntry} {p : Word}

theorem base_le_loopStart (hbound : e.base.toNat + e.length.toNat ≤ 2 ^ 52) :
    e.base.toNat ≤ e.loopStart := by
  have hup := toNat_alignUp (x := e.base) (by omega)
  unfold loopStart
  split
  · omega
  · exact le_rfl

theorem Covers.loop {x : ℕ} (hbound : e.base.toNat + e.length.toNat ≤ 2 ^ 52)
    (htype : e.type = .usable ∨ e.type = .bootloaderReclaimable) (h : e.Covers x) :
    e.loopStart ≤ x ∧ x < e.loopEnd := by
  have hsum : (e.base + e.length).toNat = e.base.toNat + e.length.toNat := by
    rw [BitVec.toNat_add]
    omega
  have hup := toNat_alignUp (x := e.base + e.length) (by omega)
  unfold Covers at h
  unfold loopStart loopEnd
  rcases htype with htype | htype
  · simp only [htype]
    exact h
  · simp only [htype]
    exact ⟨h.1, by omega⟩

/-- The loop for a framebuffer reaches the pages that lie wholly inside. -/
theorem inside_loop (hbound : e.base.toNat + e.length.toNat ≤ 2 ^ 52)
    (htype : e.type = .framebuffer) (hp : PageAligned p) (hlo : e.base.toNat ≤ p.toNat)
    (hhi : p.toNat + 4096 ≤ e.base.toNat + e.length.toNat) :
    e.loopStart ≤ p.toNat ∧ p.toNat < e.loopEnd := by
  have hsum : (e.base + e.length).toNat = e.base.toNat + e.length.toNat := by
    rw [BitVec.toNat_add]
    omega
  have hup := toNat_alignUp (x := e.base + e.length) (by omega)
  have hstart := toNat_alignUp (x := e.base) (by omega)
  unfold PageAligned at hp
  unfold loopStart loopEnd
  simp only [htype]
  exact ⟨by omega, by omega⟩

theorem mem_offsets_iff {bound off : Word} (hbound : PageAligned bound) :
    off ∈ ticks pageSize 0 (bound.toNat / 4096) ↔ PageAligned off ∧ off.toNat < bound.toNat := by
  have hb := bound.isLt
  have htick : ∀ k, k < bound.toNat / 4096 →
      (0 + BitVec.ofNat 64 k * pageSize).toNat = 4096 * k := by
    intro k hk
    rw [toNat_tick] <;> rw [show (0 : Word).toNat = 0 from rfl, toNat_pageSize] <;> omega
  simp only [PageAligned] at hbound ⊢
  rw [mem_ticks]
  constructor
  · rintro ⟨k, hk, rfl⟩
    rw [htick k hk]
    omega
  · rintro ⟨halign, hlt⟩
    have hk : off.toNat / 4096 < bound.toNat / 4096 := by omega
    refine ⟨_, hk, BitVec.eq_of_toNat_eq ?_⟩
    rw [htick _ hk]
    omega

theorem mem_loopPages_iff (hbound : e.base.toNat + e.length.toNat ≤ 2 ^ 52)
    (halign : e.type = .usable ∨ e.type = .bootloaderReclaimable →
      PageAligned e.base ∧ PageAligned e.length) :
    p ∈ e.loopPages ↔ PageAligned p ∧ e.loopStart ≤ p.toNat ∧ p.toNat < e.loopEnd := by
  have hsum : (e.base + e.length).toNat = e.base.toNat + e.length.toNat := by
    rw [BitVec.toNat_add]
    omega
  have hend := toNat_alignUp (x := e.base + e.length) (by omega)
  have hendAligned := pageAligned_alignUp (e.base + e.length)
  unfold loopPages loopStart loopEnd
  cases htype : e.type with
  | usable =>
    have hcount : ((e.base + e.length).toNat - e.base.toNat) / 4096 = e.length.toNat / 4096 := by
      omega
    simp only [hcount]
    exact mem_pages_iff (halign (.inl htype)) (by omega)
  | framebuffer =>
    have hup : ∀ off : Word, PageAligned off →
        off.toNat < (alignUp (e.base + e.length) pageSize).toNat →
        (alignUp (e.base + off) pageSize).toNat = (alignUp e.base pageSize).toNat + off.toNat := by
      intro off hoff hlt
      have hadd : (e.base + off).toNat = e.base.toNat + off.toNat := by
        rw [BitVec.toNat_add]
        omega
      rw [toNat_alignUp (by omega), toNat_alignUp (by omega), hadd]
      simp only [PageAligned] at hoff
      omega
    simp only [List.mem_map, mem_offsets_iff hendAligned]
    constructor
    · rintro ⟨off, ⟨hoff, hlt⟩, rfl⟩
      rw [hup off hoff hlt]
      exact ⟨pageAligned_alignUp _, by omega, by omega⟩
    · rintro ⟨hp, hlo, hhi⟩
      have hsub : (p - alignUp e.base pageSize).toNat = p.toNat - (alignUp e.base pageSize).toNat :=
        BitVec.toNat_sub_of_le (BitVec.le_def.mpr hlo)
      have hstart := pageAligned_alignUp e.base
      have hoff : PageAligned (p - alignUp e.base pageSize) := by
        simp only [PageAligned] at *
        omega
      refine ⟨_, ⟨hoff, by omega⟩, BitVec.eq_of_toNat_eq ?_⟩
      rw [hup _ hoff (by omega)]
      omega
  | bootloaderReclaimable =>
    obtain ⟨hbase, -⟩ := halign (.inr htype)
    simp only [List.mem_map, mem_offsets_iff hendAligned]
    constructor
    · rintro ⟨off, ⟨hoff, hlt⟩, rfl⟩
      have hadd : (e.base + off).toNat = e.base.toNat + off.toNat := by
        rw [BitVec.toNat_add]
        omega
      rw [hadd]
      exact ⟨hbase.add hoff, by omega, by omega⟩
    · rintro ⟨hp, hlo, hhi⟩
      have hsub : (p - e.base).toNat = p.toNat - e.base.toNat :=
        BitVec.toNat_sub_of_le (BitVec.le_def.mpr hlo)
      refine ⟨p - e.base, ⟨?_, by omega⟩, by rw [BitVec.add_comm, BitVec.sub_add_cancel]⟩
      simp only [PageAligned] at *
      omega
  | _ => simp

end MemmapEntry

/-! ## Valid maps -/

section Loose

variable {hhdmOffset : Word} {entries : List MemmapEntry} (hmap : LooseMemmap hhdmOffset entries)
include hmap

theorem LooseMemmap.usableMemmap : UsableMemmap entries where
  aligned e he husable := hmap.aligned e he (.inl husable)
  bounded e he _ := (hmap.bounded e he).trans (by norm_num)
  disjoint := hmap.apart.imp fun h husable _ => h (.inl (.inl husable))

theorem LooseMemmap.mem_loopPages_iff {e : MemmapEntry} (he : e ∈ entries) {p : Word} :
    p ∈ e.loopPages ↔ PageAligned p ∧ e.loopStart ≤ p.toNat ∧ p.toNat < e.loopEnd :=
  MemmapEntry.mem_loopPages_iff (hmap.bounded e he) (hmap.aligned e he)

theorem LooseMemmap.pageAligned {p : Word} (hp : p ∈ entries.flatMap MemmapEntry.loopPages) :
    PageAligned p := by
  obtain ⟨e, he, hp⟩ := List.mem_flatMap.mp hp
  exact ((hmap.mem_loopPages_iff he).mp hp).1

theorem LooseMemmap.carved {entries' : List MemmapEntry} {size block : Word}
    (h : Carved entries entries' size block) (hsize : PageAligned size) :
    LooseMemmap hhdmOffset entries' := by
  obtain ⟨pre, e, post, rfl, husable, hfit, rfl, rfl⟩ := h.exists_entry
  have hlen : (e.shorten size).length.toNat = e.length.toNat - size.toNat :=
    BitVec.toNat_sub_of_le hfit
  have hbase : (e.shorten size).base = e.base := rfl
  have hcovers : ∀ x, (e.shorten size).Covers x → e.Covers x := by
    intro x hx
    unfold MemmapEntry.Covers at hx ⊢
    rw [hlen, hbase] at hx
    omega
  have he := hmap.aligned e (by simp) (.inl husable)
  refine ⟨?_, fun a ha => ?_, fun a ha htype => ?_, hmap.hhdm⟩
  · have hapart := hmap.apart
    rw [List.pairwise_append, List.pairwise_cons] at hapart ⊢
    obtain ⟨hpre, ⟨hhead, htail⟩, hcross⟩ := hapart
    refine ⟨hpre, ⟨fun b hb _ x hx => ?_, htail⟩, fun a ha b hb => ?_⟩
    · exact hhead b hb (.inl (.inl husable)) x ⟨hcovers x hx.1, hx.2⟩
    · rcases List.mem_cons.mp hb with rfl | hb
      · intro _ x hx
        exact hcross a ha e List.mem_cons_self (.inr (.inl husable)) x ⟨hx.1, hcovers x hx.2⟩
      · exact hcross a ha b (List.mem_cons_of_mem _ hb)
  · rcases List.mem_append.mp ha with ha | ha
    · exact hmap.bounded a (by simp [ha])
    · rcases List.mem_cons.mp ha with rfl | ha
      · have := hmap.bounded e (by simp)
        rw [hlen, hbase]
        omega
      · exact hmap.bounded a (by simp [ha])
  · rcases List.mem_append.mp ha with ha | ha
    · exact hmap.aligned a (by simp [ha]) htype
    · rcases List.mem_cons.mp ha with rfl | ha
      · refine ⟨he.1, ?_⟩
        simp only [PageAligned] at he hsize ⊢
        omega
      · exact hmap.aligned a (by simp [ha]) htype

theorem LooseMemmap.initPost {pmm : Pmm} (h : InitPost entries hhdmOffset pmm) :
    LooseMemmap hhdmOffset pmm.memmap := by
  rcases h.stack with ⟨block, hcarved, -⟩ | ⟨-, heq, -⟩
  · have hlen := hmap.usableMemmap.length_le
    exact hmap.carved hcarved (stackSize_spec (h.total.trans_le hlen)).1
  · exact heq.symm ▸ hmap

theorem LooseMemmap.servesFrames {pmm : Pmm} (h : InitPost entries hhdmOffset pmm) :
    ServesFrames pmm ∅ := by
  have hmap' := hmap.initPost h
  apply servesFrames_pmm
  · rw [h.live]
    exact hmap'.usableMemmap.nodup
  · intro q hq
    rw [h.live] at hq
    have halign := hmap'.usableMemmap.pageAligned hq
    obtain ⟨e, he, husable, hqe⟩ := mem_usablePages.mp hq
    have hbound := hmap'.bounded e he
    have hcovers := ((MemmapEntry.mem_pages_iff (hmap'.aligned e he (.inl husable))
      (hbound.trans (by norm_num))).mp hqe).2
    unfold MemmapEntry.Covers at hcovers
    obtain ⟨f, hf⟩ := exists_frameAddr halign (by omega)
    exact ⟨f, Set.notMem_empty f, hf⟩

theorem LooseMemmap.booted {kernelVirt kernelPhys : Word} {layout : KernelLayout}
    {eax : BitVec 32} {s s' : Vmm Pmm}
    (hinit : pmmInit (some entries) hhdmOffset Pmm.boot = (0, s.pmm))
    (h : vmmInit hhdmOffset s.pmm.memmap layout eax s kernelVirt kernelPhys = .ok (0, s')) :
    InitPost entries hhdmOffset s.pmm ∧ LooseMemmap hhdmOffset s.pmm.memmap ∧
      ∃ root, InitTables hhdmOffset
        (initCalls hhdmOffset s.pmm.memmap layout kernelVirt kernelPhys) s s' root := by
  have hpost := initPost_of_pmmInit hmap.usableMemmap hinit
  have hmap' := hmap.initPost hpost
  exact ⟨hpost, hmap', vmmInit_tables (fun e he husable => hmap'.aligned e he (.inl husable))
    (hmap.servesFrames hpost) h⟩

end Loose

section Map

variable {hhdmOffset : Word} {entries : List MemmapEntry} (hmap : LimineMemmap hhdmOffset entries)
include hmap

theorem LimineMemmap.loose : LooseMemmap hhdmOffset entries where
  apart := by
    apply hmap.sorted.imp
    intro a b hab _ x ⟨ha, hb⟩
    unfold MemmapEntry.Covers at ha hb
    omega
  bounded := hmap.bounded
  aligned := hmap.aligned
  hhdm := hmap.hhdm

theorem LimineMemmap.usableMemmap : UsableMemmap entries := hmap.loose.usableMemmap

theorem LimineMemmap.mem_loopPages_iff {e : MemmapEntry} (he : e ∈ entries) {p : Word} :
    p ∈ e.loopPages ↔ PageAligned p ∧ e.loopStart ≤ p.toNat ∧ p.toNat < e.loopEnd :=
  hmap.loose.mem_loopPages_iff he

theorem LimineMemmap.pageAligned {p : Word} (hp : p ∈ entries.flatMap MemmapEntry.loopPages) :
    PageAligned p := hmap.loose.pageAligned hp

theorem LimineMemmap.servesFrames {pmm : Pmm} (h : InitPost entries hhdmOffset pmm) :
    ServesFrames pmm ∅ := hmap.loose.servesFrames h

theorem LimineMemmap.carved {entries' : List MemmapEntry} {size block : Word}
    (h : Carved entries entries' size block) (hsize : PageAligned size) :
    LimineMemmap hhdmOffset entries' := by
  obtain ⟨-, hbounded, haligned, hhhdm⟩ := hmap.loose.carved h hsize
  refine ⟨?_, hbounded, haligned, hhhdm⟩
  obtain ⟨pre, e, post, rfl, husable, hfit, rfl, rfl⟩ := h.exists_entry
  have hlen : (e.shorten size).length.toNat = e.length.toNat - size.toNat :=
    BitVec.toNat_sub_of_le hfit
  have hbase : (e.shorten size).base = e.base := rfl
  have hsorted := hmap.sorted
  rw [List.pairwise_append, List.pairwise_cons] at hsorted ⊢
  obtain ⟨hpre, ⟨hhead, htail⟩, hcross⟩ := hsorted
  refine ⟨hpre, ⟨fun b hb => ?_, htail⟩, fun a ha b hb => ?_⟩
  · have := hhead b hb
    rw [hlen, hbase]
    omega
  · rcases List.mem_cons.mp hb with rfl | hb
    · exact hcross a ha e List.mem_cons_self
    · exact hcross a ha b (List.mem_cons_of_mem _ hb)

theorem LimineMemmap.initPost {pmm : Pmm} (h : InitPost entries hhdmOffset pmm) :
    LimineMemmap hhdmOffset pmm.memmap := by
  rcases h.stack with ⟨block, hcarved, -⟩ | ⟨-, heq, -⟩
  · have hlen := hmap.usableMemmap.length_le
    exact hmap.carved hcarved (stackSize_spec (h.total.trans_le hlen)).1
  · exact heq.symm ▸ hmap

end Map

/-! ## The leaf entries after `vmm_init` -/

section Tables

variable {σ : Type} [PageAllocator σ] {hhdmOffset kernelVirt kernelPhys : Word}
  {memmap : List MemmapEntry} {layout : KernelLayout} {s s' : Vmm σ} {root : Frame}
  (ht : InitTables hhdmOffset (initCalls hhdmOffset memmap layout kernelVirt kernelPhys) s s' root)
include ht

theorem InitTables.source_cases {page : Page} {e : Word}
    (h : walk (tables hhdmOffset s'.mem) root page = some e) :
    (∃ c ∈ layout.calls kernelVirt kernelPhys, page = c.page ∧ e = c.entry) ∨
      ∃ m ∈ memmap, ∃ p ∈ m.loopPages, page = pageOf (p + hhdmOffset) ∧
        e = p ||| loopFlags m.type := by
  obtain ⟨c, hc, hpage, he⟩ := ht.source page e h
  rcases List.mem_append.mp hc with hc | hc
  · obtain ⟨m, hm, hc⟩ := List.mem_flatMap.mp hc
    obtain ⟨p, hp, rfl⟩ := List.mem_map.mp hc
    exact .inr ⟨m, hm, p, hp, hpage, he⟩
  · exact .inl ⟨c, hc, hpage, he⟩

variable (hdistinct : HhdmDistinct hhdmOffset layout (memmap.flatMap MemmapEntry.loopPages))
  (hsilent : s'.reports = s.reports)
include hdistinct hsilent

/-- The last loop that maps a page settles its leaf entry. -/
theorem InitTables.settled (hmap : LooseMemmap hhdmOffset memmap) {pre post : List MemmapEntry}
    {e : MemmapEntry} {p : Word}
    (hsplit : memmap = pre ++ e :: post) (hp : p ∈ e.loopPages)
    (hlater : ∀ a ∈ post, p ∉ a.loopPages) :
    walk (tables hhdmOffset s'.mem) root (pageOf (p + hhdmOffset)) =
      some (p ||| loopFlags e.type) := by
  have hpages : ∀ a ∈ memmap, ∀ q ∈ a.loopPages, q ∈ memmap.flatMap MemmapEntry.loopPages :=
    fun a ha q hq => List.mem_flatMap.mpr ⟨a, ha, hq⟩
  have hmem := hpages e (by simp [hsplit]) p hp
  have hkey : ∀ q ∈ memmap.flatMap MemmapEntry.loopPages,
      pageOf (q + hhdmOffset) = pageOf (p + hhdmOffset) → q = p := by
    intro q hq heq
    have hal := (hmap.pageAligned hq).add hmap.hhdm
    have hal' := (hmap.pageAligned hmem).add hmap.hhdm
    exact hdistinct.distinct q hq p hmem ((pageOf_eq_iff hal hal').mp heq)
  rw [ht.exact hsilent, initCalls, hsplit, List.flatMap_append, List.flatMap_cons, List.map_append,
    List.map_append, List.map_append, List.append_assoc, List.append_assoc]
  apply replay_settled
  · exact ⟨_, List.mem_map.mpr ⟨_, List.mem_map.mpr ⟨p, hp, rfl⟩, rfl⟩, rfl⟩
  · rintro w hw hwk
    obtain ⟨c, hc, rfl⟩ := List.mem_map.mp hw
    obtain ⟨q, hq, rfl⟩ := List.mem_map.mp hc
    obtain rfl := hkey q (hpages e (by simp [hsplit]) q hq) hwk
    rfl
  · rintro w hw hwk
    rcases List.mem_append.mp hw with hw | hw
    · obtain ⟨c, hc, rfl⟩ := List.mem_map.mp hw
      obtain ⟨a, ha, hc⟩ := List.mem_flatMap.mp hc
      obtain ⟨q, hq, rfl⟩ := List.mem_map.mp hc
      obtain rfl := hkey q (hpages a (by simp [hsplit, ha]) q hq) hwk
      exact hlater a ha hq
    · obtain ⟨c, hc, rfl⟩ := List.mem_map.mp hw
      have hvirt := KernelLayout.virt_mem_pages hc
      have hal := (hmap.pageAligned hmem).add hmap.hhdm
      exact hdistinct.apart p hmem _ hvirt
        ((pageOf_eq_iff hal (KernelLayout.pageAligned hvirt)).mp hwk.symm)

theorem InitTables.mapped (hmap : LooseMemmap hhdmOffset memmap) {p : Word}
    (hp : p ∈ memmap.flatMap MemmapEntry.loopPages) :
    ∃ e ∈ memmap, p ∈ e.loopPages ∧
      walk (tables hhdmOffset s'.mem) root (pageOf (p + hhdmOffset)) =
        some (p ||| loopFlags e.type) := by
  obtain ⟨pre, e, post, hsplit, he, hlater⟩ := exists_last (List.mem_flatMap.mp hp)
  exact ⟨e, by simp [hsplit], he, ht.settled hdistinct hsilent hmap hsplit he hlater⟩

theorem InitTables.mapped_own (hmap : LimineMemmap hhdmOffset memmap) {e : MemmapEntry}
    (he : e ∈ memmap) {p : Word} (hp : p ∈ e.loopPages)
    (hin : p.toNat < e.base.toNat + e.length.toNat) :
    hardwareWalk hhdmOffset s'.mem s'.kernelPm (p + hhdmOffset) =
      some (leafTranslation (p ||| loopFlags e.type)) := by
  obtain ⟨pre, post, hsplit⟩ := List.append_of_mem he
  have hlater : ∀ a ∈ post, p ∉ a.loopPages := by
    intro a ha hpa
    have hmem : a ∈ memmap := by simp [hsplit, ha]
    have hsorted := hmap.sorted
    rw [hsplit, List.pairwise_append, List.pairwise_cons] at hsorted
    have hnext := hsorted.2.1.1 a ha
    have hstart := MemmapEntry.base_le_loopStart (hmap.bounded a hmem)
    have hlo := ((hmap.mem_loopPages_iff hmem).mp hpa).2.1
    omega
  rw [ht.hardware, ht.settled hdistinct hsilent hmap.loose hsplit hp hlater]
  rfl

end Tables

/-! ## Every page of the map is mapped with the attributes of its entry -/

section Coverage

variable {hhdmOffset kernelVirt kernelPhys : Word} {entries : List MemmapEntry}
  {layout : KernelLayout} {eax : BitVec 32} {s s' : Vmm Pmm}

theorem booted (hmap : LimineMemmap hhdmOffset entries)
    (hinit : pmmInit (some entries) hhdmOffset Pmm.boot = (0, s.pmm))
    (h : vmmInit hhdmOffset s.pmm.memmap layout eax s kernelVirt kernelPhys = .ok (0, s')) :
    InitPost entries hhdmOffset s.pmm ∧ LimineMemmap hhdmOffset s.pmm.memmap ∧
      ∃ root, InitTables hhdmOffset
        (initCalls hhdmOffset s.pmm.memmap layout kernelVirt kernelPhys) s s' root := by
  obtain ⟨hpost, -, htables⟩ := hmap.loose.booted hinit h
  exact ⟨hpost, hmap.initPost hpost, htables⟩

/-- After `vmm_init` each page of a usable, reclaimable or framebuffer entry is mapped in
the HHDM with the attributes of its entry, whatever other loops wrote before. So every
frame the PMM can hand out stays within reach. -/
theorem vmmInit_covers (hmap : LimineMemmap hhdmOffset entries)
    (hinit : pmmInit (some entries) hhdmOffset Pmm.boot = (0, s.pmm))
    (h : vmmInit hhdmOffset s.pmm.memmap layout eax s kernelVirt kernelPhys = .ok (0, s'))
    (hdistinct : HhdmDistinct hhdmOffset layout (s.pmm.memmap.flatMap MemmapEntry.loopPages))
    (hsilent : s'.reports = s.reports) :
    (∀ e ∈ s.pmm.memmap, e.type = .usable ∨ e.type = .bootloaderReclaimable →
      ∀ p, PageAligned p → e.Covers p.toNat →
        hardwareWalk hhdmOffset s'.mem s'.kernelPm (p + hhdmOffset) =
          some (leafTranslation (p ||| (pteBitPresent ||| pteBitReadWrite)))) ∧
    (∀ e ∈ s.pmm.memmap, e.type = .framebuffer →
      ∀ p, PageAligned p → e.base.toNat ≤ p.toNat →
        p.toNat + 4096 ≤ e.base.toNat + e.length.toNat →
        hardwareWalk hhdmOffset s'.mem s'.kernelPm (p + hhdmOffset) =
          some (leafTranslation (p ||| (pteBitPresent ||| pteBitReadWrite |||
            pteBitExecuteDisable ||| pteBitWriteThroughCaching)))) ∧
    ∀ p ∈ s.pmm.live, hardwareWalk hhdmOffset s'.mem s'.kernelPm (p + hhdmOffset) =
      some (leafTranslation (p ||| (pteBitPresent ||| pteBitReadWrite))) := by
  obtain ⟨hpost, hmap', root, ht⟩ := booted hmap hinit h
  have hwhole : ∀ e ∈ s.pmm.memmap, e.type = .usable ∨ e.type = .bootloaderReclaimable →
      ∀ p, PageAligned p → e.Covers p.toNat →
        hardwareWalk hhdmOffset s'.mem s'.kernelPm (p + hhdmOffset) =
          some (leafTranslation (p ||| (pteBitPresent ||| pteBitReadWrite))) := by
    intro e he htype p hp hcovers
    have hflags : loopFlags e.type = pteBitPresent ||| pteBitReadWrite := by
      rcases htype with htype | htype <;> rw [htype] <;> rfl
    rw [← hflags]
    have hloop := hcovers.loop (hmap'.bounded e he) htype
    exact ht.mapped_own hdistinct hsilent hmap' he ((hmap'.mem_loopPages_iff he).mpr ⟨hp, hloop⟩)
      hcovers.2
  refine ⟨hwhole, fun e he htype p hp hlo hhi => ?_, fun p hp => ?_⟩
  · have hflags : loopFlags e.type = pteBitPresent ||| pteBitReadWrite |||
        pteBitExecuteDisable ||| pteBitWriteThroughCaching := by
      rw [htype]
      rfl
    rw [← hflags]
    have hloop := MemmapEntry.inside_loop (hmap'.bounded e he) htype hp hlo hhi
    exact ht.mapped_own hdistinct hsilent hmap' he ((hmap'.mem_loopPages_iff he).mpr ⟨hp, hloop⟩)
      (by omega)
  · rw [hpost.live] at hp
    obtain ⟨e, he, husable, hpe⟩ := mem_usablePages.mp hp
    obtain ⟨halign, hcovers⟩ := (MemmapEntry.mem_pages_iff (hmap'.aligned e he (.inl husable))
      ((hmap'.bounded e he).trans (by norm_num))).mp hpe
    exact hwhole e he (.inl husable) p halign hcovers

end Coverage

/-- `pmm_init` and `vmm_init` both answer 0 where the usable pages that `pmm_init` leaves are
enough for the page tables. -/
theorem LooseMemmap.boots {hhdmOffset kernelVirt kernelPhys : Word}
    {entries memmap : List MemmapEntry} (hmap : LooseMemmap hhdmOffset entries)
    (layout : KernelLayout) (eax : BitVec 32) (hhhdm : hhdmOffset ≠ 0)
    (hmemmap : (located entries hhdmOffset).memmap = memmap)
    (hkernel : kernelVirt ≠ 0 ∧ kernelPhys ≠ 0)
    (hfree : ∀ q ∈ usablePages memmap, q ≠ 0 ∧ q + hhdmOffset ≠ 0)
    (hroom : 1 + tablesNeeded (initCalls hhdmOffset memmap layout kernelVirt kernelPhys) ≤
      (usablePages memmap).length) :
    ∃ s s' : Vmm Pmm, pmmInit (some entries) hhdmOffset Pmm.boot = (0, s.pmm) ∧
      s.pmm.memmap = memmap ∧
      vmmInit hhdmOffset s.pmm.memmap layout eax s kernelVirt kernelPhys = .ok (0, s') ∧
      s'.reports = s.reports := by
  obtain ⟨pmm, hinit, hpost⟩ := pmmInit_spec hmap.usableMemmap hhhdm
  have hleft : pmm.memmap = memmap := hpost.memmap.trans hmemmap
  have hlive := hpost.live
  rw [hleft] at hlive
  have hsupply := servesTable_pmm (hlive.symm ▸ hfree) (hlive.symm ▸ hroom)
  obtain ⟨s', hs', hsilent⟩ := @vmmInit_supplied _ _ hhdmOffset { clearedVmm with pmm := pmm }
    kernelVirt kernelPhys memmap layout eax
    (fun e he husable => (hmap.initPost hpost).aligned e (hleft ▸ he) (.inl husable))
    hkernel (hmap.servesFrames hpost) hsupply
  exact ⟨{ clearedVmm with pmm := pmm }, s', hinit, hleft, hleft.symm ▸ hs', hsilent⟩

/-- A small machine: reclaimable memory below the kernel, a framebuffer above it, and
usable memory right behind the framebuffer. -/
def bootMemmap : List MemmapEntry :=
  [⟨0x2000, 0x2000, .bootloaderReclaimable⟩, ⟨0x4000, 0x4000, .kernelAndModules⟩,
    ⟨0x8000, 0x1000, .framebuffer⟩, ⟨0x10000, 0x10000, .usable⟩]

def bootLayout : KernelLayout where
  textStart := 0xffffffff80001000
  textEnd := 0xffffffff80001800
  rodataStart := 0xffffffff80002000
  rodataEnd := 0xffffffff80002800
  dataStart := 0xffffffff80003000
  dataEnd := 0xffffffff80003800

theorem limineMemmap_bootMemmap : LimineMemmap 0xffff800000000000 bootMemmap where
  sorted := by decide
  bounded := by
    intro e he
    have hsmall : ∀ e ∈ bootMemmap, e.base.toNat + e.length.toNat ≤ 0x20000 := by decide
    exact (hsmall e he).trans (by norm_num)
  aligned := by decide
  hhdm := by decide

theorem hhdmDistinct_bootLayout {pages : List Word} (hlow : ∀ p ∈ pages, p.toNat < 2 ^ 46) :
    HhdmDistinct 0xffff800000000000 bootLayout pages := by
  have hhigh : ∀ a ∈ bootLayout.pages, 0xffff80000000 ≤ a.toNat % 2 ^ 48 := by
    have hpages : bootLayout.pages =
        [0xffffffff80001000, 0xffffffff80002000, 0xffffffff80003000] := by decide +kernel
    rw [hpages]
    simp
  have hmod : ∀ p ∈ pages, (p + 0xffff800000000000).toNat % 2 ^ 48 = p.toNat + 2 ^ 47 := by
    intro p hp
    have := hlow p hp
    rw [BitVec.toNat_add, show (0xffff800000000000 : Word).toNat = 0xffff800000000000 from rfl]
    omega
  refine ⟨fun p hp q hq heq => ?_, fun p hp a ha heq => ?_⟩
  · rw [hmod p hp, hmod q hq] at heq
    exact BitVec.eq_of_toNat_eq (by omega)
  · have := hlow p hp
    have := hhigh a ha
    rw [hmod p hp] at heq
    omega

theorem vmmInit_bootMemmap : ∃ s s' : Vmm Pmm,
    pmmInit (some bootMemmap) 0xffff800000000000 Pmm.boot = (0, s.pmm) ∧
    s.pmm.memmap = [⟨0x2000, 0x2000, .bootloaderReclaimable⟩, ⟨0x4000, 0x4000, .kernelAndModules⟩,
      ⟨0x8000, 0x1000, .framebuffer⟩, ⟨0x10000, 0xf000, .usable⟩] ∧
    vmmInit 0xffff800000000000 s.pmm.memmap bootLayout 0x3027 s 0xffffffff80000000 0x4000 =
      .ok (0, s') ∧
    s'.reports = s.reports := by
  exact limineMemmap_bootMemmap.loose.boots bootLayout 0x3027 (by decide) (by decide) (by decide)
    (forall_of_all (by decide +kernel)) (by decide +kernel)

theorem vmmInit_covers_bootMemmap : ∃ s s' : Vmm Pmm,
    pmmInit (some bootMemmap) 0xffff800000000000 Pmm.boot = (0, s.pmm) ∧
    vmmInit 0xffff800000000000 s.pmm.memmap bootLayout 0x3027 s 0xffffffff80000000 0x4000 =
      .ok (0, s') ∧
    hardwareWalk 0xffff800000000000 s'.mem s'.kernelPm (0x10000 + 0xffff800000000000) =
      some (leafTranslation (0x10000 ||| (pteBitPresent ||| pteBitReadWrite))) ∧
    hardwareWalk 0xffff800000000000 s'.mem s'.kernelPm (0x8000 + 0xffff800000000000) =
      some (leafTranslation (0x8000 ||| (pteBitPresent ||| pteBitReadWrite |||
        pteBitExecuteDisable ||| pteBitWriteThroughCaching))) := by
  obtain ⟨s, s', hinit, hmemmap, hvmm, hsilent⟩ := vmmInit_bootMemmap
  have hdistinct : HhdmDistinct 0xffff800000000000 bootLayout
      (s.pmm.memmap.flatMap MemmapEntry.loopPages) := by
    rw [hmemmap]
    exact hhdmDistinct_bootLayout (forall_of_all (by decide +kernel))
  obtain ⟨hwhole, hframe, -⟩ :=
    vmmInit_covers limineMemmap_bootMemmap hinit hvmm hdistinct hsilent
  exact ⟨s, s', hinit, hvmm,
    hwhole ⟨0x10000, 0xf000, .usable⟩ (by simp [hmemmap]) (.inl rfl) 0x10000 (by decide)
      (by decide),
    hframe ⟨0x8000, 0x1000, .framebuffer⟩ (by simp [hmemmap]) rfl 0x8000 (by decide) (by decide)
      (by decide)⟩

end Olive
