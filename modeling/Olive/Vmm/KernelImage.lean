import Olive.Vmm.Coverage

/-!
# The kernel image in the page map of the kernel

The calls for the segments come last in `vmm_init`, so whatever the loops over the memory
map wrote to the addresses of the kernel, its pages end with the attributes of their
segment. The ranges are those of the linker symbols, rounded to pages; the section `.bss`
has no symbols and is mapped as far as it lies in the last page of `.data`.
-/

namespace Olive

open Library

/-! ## The pages of a segment -/

theorem mem_segmentPages_iff {start bound a : Word} :
    a ∈ segmentPages start bound ↔ PageAligned a ∧
      (alignDown start pageSize).toNat ≤ a.toNat ∧ a.toNat < (alignUp bound pageSize).toNat := by
  have hlo := pageAligned_alignDown start
  have hhi := pageAligned_alignUp bound
  have hlt := (alignUp bound pageSize).isLt
  unfold segmentPages
  generalize alignDown start pageSize = x at *
  generalize alignUp bound pageSize = y at *
  have htick : ∀ k, k < (y.toNat - x.toNat) / 4096 →
      (x + BitVec.ofNat 64 k * pageSize).toNat = x.toNat + 4096 * k := by
    intro k hk
    rw [toNat_tick (by rw [toNat_pageSize]; omega), toNat_pageSize, Nat.mul_comm]
  unfold PageAligned at hlo hhi ⊢
  rw [mem_ticks]
  constructor
  · rintro ⟨k, hk, rfl⟩
    rw [htick k hk]
    omega
  · rintro ⟨halign, hge, hbelow⟩
    have hk : (a.toNat - x.toNat) / 4096 < (y.toNat - x.toNat) / 4096 := by omega
    refine ⟨_, hk, BitVec.eq_of_toNat_eq ?_⟩
    rw [htick _ hk]
    omega

theorem KernelLayout.exists_call {layout : KernelLayout} (kernelVirt kernelPhys : Word) {a : Word}
    (ha : a ∈ layout.pages) : ∃ flags, flags &&& frameMask = 0 ∧
      ⟨a, a - kernelVirt + kernelPhys, flags⟩ ∈ layout.calls kernelVirt kernelPhys := by
  simp only [pages, List.mem_append] at ha
  rcases ha with (ha | ha) | ha
  · exact ⟨pteBitPresent, by decide,
      List.mem_append_left _ (List.mem_append_left _ (List.mem_map_of_mem ha))⟩
  · exact ⟨pteBitPresent ||| pteBitExecuteDisable, by decide,
      List.mem_append_left _ (List.mem_append_right _ (List.mem_map_of_mem ha))⟩
  · exact ⟨pteBitPresent ||| pteBitReadWrite ||| pteBitExecuteDisable, by decide,
      List.mem_append_right _ (List.mem_map_of_mem ha)⟩

theorem KernelLayout.map_page_calls (layout : KernelLayout) (kernelVirt kernelPhys : Word) :
    (layout.calls kernelVirt kernelPhys).map MapCall.page = layout.pages.map pageOf := by
  simp only [calls, pages, segmentCalls, List.map_append, List.map_map]
  rfl

/-! ## The permissions of a leaf entry -/

section Leaf

variable (f : Frame)

theorem frameAddr_and_flag {bit : Word} (h : ∀ i < 64, bit.getLsbD i = true → i < 12 ∨ 52 ≤ i) :
    frameAddr f &&& bit = 0 := by
  apply BitVec.eq_of_getLsbD_eq
  intro i hi
  rw [BitVec.getLsbD_and, getLsbD_frameAddr]
  by_cases hbit : bit.getLsbD i = true
  · have hout : ¬ (12 ≤ i ∧ i < 52) := by
      have := h i hi hbit
      omega
    simp [hout]
  · simp [hbit]

theorem leafTranslation_frameAddr (flags : Word) :
    leafTranslation (frameAddr f ||| flags) =
      { entry := frameAddr f ||| flags
        writable := flags &&& pteBitReadWrite ≠ 0
        user := flags &&& pteBitAccessAll ≠ 0
        executeDisable := flags &&& pteBitExecuteDisable ≠ 0 } := by
  have hor : ∀ bit : Word, frameAddr f &&& bit = 0 →
      (frameAddr f ||| flags) &&& bit = flags &&& bit := by
    intro bit h
    apply BitVec.eq_of_getLsbD_eq
    intro i hi
    have hi' := congrArg (fun e => e.getLsbD i) h
    simp only [BitVec.getLsbD_and, BitVec.getLsbD_or] at hi' ⊢
    cases hbit : bit.getLsbD i <;> simp_all
  unfold leafTranslation
  rw [hor _ (frameAddr_and_flag f (by decide)), hor _ (frameAddr_and_flag f (by decide)),
    hor _ (frameAddr_and_flag f (by decide))]

end Leaf

/-! ## The last calls win -/

section Protect

variable {σ : Type} [PageAllocator σ] {hhdmOffset kernelVirt kernelPhys : Word}
  {memmap : List MemmapEntry} {layout : KernelLayout} {eax : BitVec 32} {s s' : Vmm σ}

/-- The address is mapped to the frame at `phys`, not for the user, with these permissions. -/
def MappedAs (hhdmOffset : Word) (s' : Vmm σ) (virt phys : Word) (writable executeDisable : Bool) :
    Prop :=
  ∃ t, hardwareWalk hhdmOffset s'.mem s'.kernelPm virt = some t ∧
    frameAddr (frameOf t.entry) = phys ∧ t.user = false ∧ t.writable = writable ∧
    t.executeDisable = executeDisable

theorem InitTables.kernel_settled {calls : List MapCall} {root : Frame}
    (ht : InitTables hhdmOffset (calls ++ layout.calls kernelVirt kernelPhys) s s' root)
    (hsilent : s'.reports = s.reports) (hpages : (layout.pages.map pageOf).Nodup) {c : MapCall}
    (hc : c ∈ layout.calls kernelVirt kernelPhys) :
    walk (tables hhdmOffset s'.mem) root c.page = some c.entry := by
  have hnodup : ((layout.calls kernelVirt kernelPhys).map MapCall.page).Nodup := by
    rwa [KernelLayout.map_page_calls]
  rw [ht.exact hsilent, List.map_append, ← List.append_nil
    (List.map MapCall.write (layout.calls kernelVirt kernelPhys))]
  apply replay_settled
  · exact ⟨_, List.mem_map_of_mem hc, rfl⟩
  · intro w hw hkey
    obtain ⟨c', hc', rfl⟩ := List.mem_map.mp hw
    rw [List.inj_on_of_nodup_map hnodup hc' hc hkey]
    rfl
  · simp

theorem InitTables.kernel_mappedAs {calls : List MapCall} {root : Frame} {a flags : Word}
    (ht : InitTables hhdmOffset (calls ++ layout.calls kernelVirt kernelPhys) s s' root)
    (hsilent : s'.reports = s.reports) (hpages : (layout.pages.map pageOf).Nodup)
    (hphys : PageAligned (a - kernelVirt + kernelPhys))
    (hframe : (a - kernelVirt + kernelPhys).toNat < 2 ^ 52) (hclean : flags &&& frameMask = 0)
    (huser : flags &&& pteBitAccessAll = 0)
    (hc : ⟨a, a - kernelVirt + kernelPhys, flags⟩ ∈ layout.calls kernelVirt kernelPhys) :
    MappedAs hhdmOffset s' a (a - kernelVirt + kernelPhys) (flags &&& pteBitReadWrite ≠ 0)
      (flags &&& pteBitExecuteDisable ≠ 0) := by
  obtain ⟨f, hf⟩ := exists_frameAddr hphys hframe
  have hwalk := ht.kernel_settled hsilent hpages hc
  rw [MapCall.entry, hf] at hwalk
  refine ⟨leafTranslation (frameAddr f ||| flags), ?_, ?_⟩
  · rw [ht.hardware]
    exact congrArg (Option.map leafTranslation) hwalk
  · rw [hf, leafTranslation_frameAddr]
    exact ⟨by rw [frameOf_frameAddr_or f hclean], by simp [huser], rfl, rfl⟩

/-- After `vmm_init` the text of the kernel is read and executed only, its read-only data
read only, and its data not executed, whatever the memory map made the loops before do. -/
theorem vmmInit_kernelProtected (hserves : ServesFrames s.pmm ∅)
    (h : vmmInit hhdmOffset memmap layout eax s kernelVirt kernelPhys = .ok (0, s'))
    (hsilent : s'.reports = s.reports) (hpages : (layout.pages.map pageOf).Nodup)
    (hload : PageAligned kernelVirt ∧ PageAligned kernelPhys)
    (hframes : ∀ a ∈ layout.pages, (a - kernelVirt + kernelPhys).toNat < 2 ^ 52) (a : Word)
    (ha : PageAligned a) :
    ((alignDown layout.textStart pageSize).toNat ≤ a.toNat →
      a.toNat < (alignUp layout.textEnd pageSize).toNat →
      MappedAs hhdmOffset s' a (a - kernelVirt + kernelPhys) false false) ∧
    ((alignDown layout.rodataStart pageSize).toNat ≤ a.toNat →
      a.toNat < (alignUp layout.rodataEnd pageSize).toNat →
      MappedAs hhdmOffset s' a (a - kernelVirt + kernelPhys) false true) ∧
    ((alignDown layout.dataStart pageSize).toNat ≤ a.toNat →
      a.toNat < (alignUp layout.dataEnd pageSize).toNat →
      MappedAs hhdmOffset s' a (a - kernelVirt + kernelPhys) true true) := by
  obtain ⟨calls, root, ht⟩ := vmmInit_tables_of_any hserves h
  have hphys : PageAligned (a - kernelVirt + kernelPhys) := by
    unfold PageAligned at *
    rw [BitVec.toNat_add, BitVec.toNat_sub]
    omega
  refine ⟨fun hlo hhi => ?_, fun hlo hhi => ?_, fun hlo hhi => ?_⟩
  · have hmem : a ∈ layout.textPages := mem_segmentPages_iff.mpr ⟨ha, hlo, hhi⟩
    have hframe := hframes a (List.mem_append_left _ (List.mem_append_left _ hmem))
    exact ht.kernel_mappedAs hsilent hpages hphys hframe (by decide) (by decide)
      (List.mem_append_left _ (List.mem_append_left _ (List.mem_map_of_mem hmem)))
  · have hmem : a ∈ layout.rodataPages := mem_segmentPages_iff.mpr ⟨ha, hlo, hhi⟩
    have hframe := hframes a (List.mem_append_left _ (List.mem_append_right _ hmem))
    exact ht.kernel_mappedAs hsilent hpages hphys hframe (by decide) (by decide)
      (List.mem_append_left _ (List.mem_append_right _ (List.mem_map_of_mem hmem)))
  · have hmem : a ∈ layout.dataPages := mem_segmentPages_iff.mpr ⟨ha, hlo, hhi⟩
    have hframe := hframes a (List.mem_append_right _ hmem)
    exact ht.kernel_mappedAs hsilent hpages hphys hframe (by decide) (by decide)
      (List.mem_append_right _ (List.mem_map_of_mem hmem))

end Protect

theorem vmmInit_kernelProtected_bootMemmap : ∃ s s' : Vmm Pmm,
    vmmInit 0xffff800000000000 s.pmm.memmap bootLayout 0x3027 s 0xffffffff80000000 0x4000 =
      .ok (0, s') ∧
    MappedAs 0xffff800000000000 s' 0xffffffff80001000
      (0xffffffff80001000 - 0xffffffff80000000 + 0x4000) false false ∧
    MappedAs 0xffff800000000000 s' 0xffffffff80002000
      (0xffffffff80002000 - 0xffffffff80000000 + 0x4000) false true ∧
    MappedAs 0xffff800000000000 s' 0xffffffff80003000
      (0xffffffff80003000 - 0xffffffff80000000 + 0x4000) true true := by
  obtain ⟨s, s', hinit, -, hvmm, hsilent⟩ := vmmInit_bootMemmap
  have hpost := initPost_of_pmmInit limineMemmap_bootMemmap.usableMemmap hinit
  have hframes : ∀ a ∈ bootLayout.pages, (a - 0xffffffff80000000 + 0x4000).toNat < 2 ^ 52 :=
    forall_of_all (by decide +kernel)
  have hprotected := vmmInit_kernelProtected (limineMemmap_bootMemmap.servesFrames hpost) hvmm
    hsilent (by decide +kernel) ⟨by decide, by decide⟩ hframes
  refine ⟨s, s', hvmm, ?_, ?_, ?_⟩
  · exact (hprotected 0xffffffff80001000 (by decide)).1 (by decide) (by decide)
  · exact (hprotected 0xffffffff80002000 (by decide)).2.1 (by decide) (by decide)
  · exact (hprotected 0xffffffff80003000 (by decide)).2.2 (by decide) (by decide)

/-! ## The whole image -/

/-- An image as `olive.ld` lays it out in the top 2 GiB: three segments that start at page
boundaries, and `.bss` behind `.data`, for which there are no symbols. -/
structure Image extends KernelLayout where
  bssStart : Word
  bssEnd : Word
  base_le : 0xffffffff80000000 ≤ textStart.toNat
  text : PageAligned textStart ∧ textStart.toNat ≤ textEnd.toNat
  rodata : PageAligned rodataStart ∧ textEnd.toNat ≤ rodataStart.toNat ∧
    rodataStart.toNat ≤ rodataEnd.toNat
  data : PageAligned dataStart ∧ rodataEnd.toNat ≤ dataStart.toNat ∧
    dataStart.toNat ≤ dataEnd.toNat
  bss : dataEnd.toNat ≤ bssStart.toNat ∧ bssStart.toNat ≤ bssEnd.toNat

namespace Image

variable (img : Image)

/-- The addresses of `.data` and `.bss`. -/
def InData (v : Word) : Prop :=
  (img.dataStart.toNat ≤ v.toNat ∧ v.toNat < img.dataEnd.toNat) ∨
    (img.bssStart.toNat ≤ v.toNat ∧ v.toNat < img.bssEnd.toNat)

def Contains (v : Word) : Prop :=
  (img.textStart.toNat ≤ v.toNat ∧ v.toNat < img.textEnd.toNat) ∨
    (img.rodataStart.toNat ≤ v.toNat ∧ v.toNat < img.rodataEnd.toNat) ∨ img.InData v

/-- `.data` and `.bss` end below `ALIGN_UP(__data_end, PAGE_SIZE)`. -/
def Fits : Prop := ∀ v, img.InData v → v.toNat < (alignUp img.dataEnd pageSize).toNat

variable {img}

theorem alignDown_of_aligned {x : Word} (h : PageAligned x) :
    (alignDown x pageSize).toNat = x.toNat := by
  unfold PageAligned at h
  rw [toNat_alignDown]
  omega

/-- The rounded end of a segment does not pass the boundary the next one starts at. -/
theorem alignUp_le {x y : Word} (hy : PageAligned y) (h : x.toNat ≤ y.toNat) :
    x.toNat ≤ (alignUp x pageSize).toNat ∧ (alignUp x pageSize).toNat ≤ y.toNat := by
  have hlt := y.isLt
  unfold PageAligned at hy
  rw [toNat_alignUp (by omega)]
  omega

theorem mem_pages_iff {a : Word} : a ∈ img.pages ↔ PageAligned a ∧
    ((img.textStart.toNat ≤ a.toNat ∧ a.toNat < (alignUp img.textEnd pageSize).toNat) ∨
      (img.rodataStart.toNat ≤ a.toNat ∧ a.toNat < (alignUp img.rodataEnd pageSize).toNat) ∨
      (img.dataStart.toNat ≤ a.toNat ∧ a.toNat < (alignUp img.dataEnd pageSize).toNat)) := by
  simp only [KernelLayout.pages, KernelLayout.textPages, KernelLayout.rodataPages,
    KernelLayout.dataPages, List.mem_append, mem_segmentPages_iff, alignDown_of_aligned img.text.1,
    alignDown_of_aligned img.rodata.1, alignDown_of_aligned img.data.1]
  rw [← and_or_left, ← and_or_left, or_assoc]

theorem ends (img : Image) :
    (alignUp img.textEnd pageSize).toNat ≤ img.rodataStart.toNat ∧
      (alignUp img.rodataEnd pageSize).toNat ≤ img.dataStart.toNat :=
  ⟨(alignUp_le img.rodata.1 img.rodata.2.1).2, (alignUp_le img.data.1 img.data.2.1).2⟩

theorem base_le_of_mem {a : Word} (ha : a ∈ img.pages) : 0xffffffff80000000 ≤ a.toNat := by
  have := img.base_le
  have := img.text
  have := img.rodata
  have := img.data
  have := (mem_pages_iff.mp ha).2
  omega

/-- In the top 2 GiB an aligned address is known from its page. -/
theorem page_injective {a b : Word} (ha : 0xffffffff80000000 ≤ a.toNat)
    (hb : 0xffffffff80000000 ≤ b.toNat) (h : pageOf a = pageOf b) :
    a.toNat / 4096 = b.toNat / 4096 := by
  have := a.isLt
  have := b.isLt
  have hnat := congrArg BitVec.toNat h
  rw [toNat_pageOf, toNat_pageOf] at hnat
  omega

theorem nodup_segmentPages (start bound : Word) : (segmentPages start bound).Nodup := by
  have hlo := (alignDown start pageSize).isLt
  have hhi := (alignUp bound pageSize).isLt
  apply nodup_ticks (by rw [toNat_pageSize]; omega)
  rw [toNat_pageSize]
  omega

theorem nodup_pages (img : Image) : (img.pages.map pageOf).Nodup := by
  have hinj : ∀ a ∈ img.pages, ∀ b ∈ img.pages, pageOf a = pageOf b → a = b := by
    intro a ha b hb h
    have hpage := page_injective (base_le_of_mem ha) (base_le_of_mem hb) h
    have hal := (mem_pages_iff.mp ha).1
    have hbl := (mem_pages_iff.mp hb).1
    unfold PageAligned at hal hbl
    exact BitVec.eq_of_toNat_eq (by omega)
  refine List.Nodup.map_on hinj ?_
  obtain ⟨htext, hrodata⟩ := img.ends
  have horder := img.rodata
  have horder' := img.data
  have hup := (alignUp_le img.data.1 img.data.2.1).1
  have hseg : ∀ {x y a : Word}, PageAligned x → a ∈ segmentPages x y →
      x.toNat ≤ a.toNat ∧ a.toNat < (alignUp y pageSize).toNat := by
    intro x y a hx ha
    have h := (mem_segmentPages_iff.mp ha).2
    rwa [alignDown_of_aligned hx] at h
  refine List.Nodup.append (List.Nodup.append (nodup_segmentPages _ _) (nodup_segmentPages _ _) ?_)
    (nodup_segmentPages _ _) ?_
  · intro a ha hb
    have := hseg img.text.1 ha
    have := hseg img.rodata.1 hb
    omega
  · intro a ha hb
    have := hseg img.data.1 hb
    rcases List.mem_append.mp ha with ha | ha
    · have := hseg img.text.1 ha
      omega
    · have := hseg img.rodata.1 ha
      omega

end Image

section Whole

variable {σ : Type} [PageAllocator σ] {hhdmOffset kernelVirt kernelPhys : Word}
  {memmap : List MemmapEntry} {img : Image} {eax : BitVec 32} {s s' : Vmm σ}

def KernelMapped (hhdmOffset : Word) (s' : Vmm σ) (img : Image) (kernelVirt kernelPhys : Word) :
    Prop :=
  ∀ v, img.Contains v → ∃ t, hardwareWalk hhdmOffset s'.mem s'.kernelPm v = some t ∧
    frameOf t.entry = frameOf (v - kernelVirt + kernelPhys)

theorem InitTables.kernel_byte {calls : List MapCall} {root : Frame} {v : Word}
    (ht : InitTables hhdmOffset (calls ++ img.calls kernelVirt kernelPhys) s s' root)
    (hsilent : s'.reports = s.reports) (hload : PageAligned kernelVirt ∧ PageAligned kernelPhys)
    (hv : alignDown v pageSize ∈ img.pages) :
    ∃ t, hardwareWalk hhdmOffset s'.mem s'.kernelPm v = some t ∧
      frameOf t.entry = frameOf (v - kernelVirt + kernelPhys) := by
  have hr : v.toNat % 4096 < 4096 := Nat.mod_lt _ (by norm_num)
  have hsplit := eq_alignDown_add v
  have ha := pageAligned_alignDown v
  generalize alignDown v pageSize = a at *
  obtain ⟨flags, hclean, hc⟩ := KernelLayout.exists_call kernelVirt kernelPhys hv
  have hwalk := ht.kernel_settled hsilent img.nodup_pages hc
  have hphys : PageAligned (a - kernelVirt + kernelPhys) := by
    unfold PageAligned at *
    rw [BitVec.toNat_add, BitVec.toNat_sub]
    omega
  have hmove : v - kernelVirt + kernelPhys =
      a - kernelVirt + kernelPhys + BitVec.ofNat 64 (v.toNat % 4096) := by
    conv_lhs => rw [hsplit]
    rw [BitVec.sub_eq_add_neg, BitVec.sub_eq_add_neg]
    ac_rfl
  refine ⟨leafTranslation (MapCall.entry ⟨a, a - kernelVirt + kernelPhys, flags⟩), ?_, ?_⟩
  · rw [ht.hardware, hsplit, pageOf_add_offset ha hr]
    exact congrArg (Option.map leafTranslation) hwalk
  · rw [hmove, frameOf_add_offset hphys hr]
    exact frameOf_or_flags _ hclean

theorem Image.Contains.page (hfits : img.Fits) {v : Word} (hv : img.Contains v) :
    alignDown v pageSize ∈ img.pages := by
  have htext := img.text
  have hrodata := img.rodata
  have hdata := img.data
  have hbss := img.bss
  have hdown := toNat_alignDown v
  unfold PageAligned at htext hrodata hdata
  refine Image.mem_pages_iff.mpr ⟨pageAligned_alignDown v, ?_⟩
  rcases hv with hv | hv | hv
  · have := (Image.alignUp_le img.rodata.1 img.rodata.2.1).1
    omega
  · have := (Image.alignUp_le img.data.1 img.data.2.1).1
    omega
  · have hend := hfits v hv
    unfold Image.InData at hv
    omega

theorem Image.InData.not_page {v : Word} (hv : img.InData v)
    (hout : ¬ v.toNat < (alignUp img.dataEnd pageSize).toNat) :
    ∀ a ∈ img.pages, pageOf v ≠ pageOf a := by
  intro a ha hpage
  have hbase := img.base_le
  have htext := img.text
  have hrodata := img.rodata
  have hdata := img.data
  have hbss := img.bss
  have hends := img.ends
  have hup := pageAligned_alignUp img.dataEnd
  have hlarge : img.dataStart.toNat ≤ v.toNat := by
    unfold Image.InData at hv
    omega
  have hsame := Image.page_injective (by omega) (Image.base_le_of_mem ha) hpage
  obtain ⟨hal, hcases⟩ := Image.mem_pages_iff.mp ha
  unfold PageAligned at hdata hup hal
  omega

/-- The whole kernel is mapped if `.bss` ends in the last page of `.data`, and, where the
HHDM stays away from the kernel, only then. -/
theorem vmmInit_kernelMapped_iff (hserves : ServesFrames s.pmm ∅)
    (h : vmmInit hhdmOffset memmap img.toKernelLayout eax s kernelVirt kernelPhys = .ok (0, s'))
    (hsilent : s'.reports = s.reports) (hload : PageAligned kernelVirt ∧ PageAligned kernelPhys) :
    (img.Fits → KernelMapped hhdmOffset s' img kernelVirt kernelPhys) ∧
      ((∀ e ∈ memmap, e.type = .usable → PageAligned e.base ∧ PageAligned e.length) →
        (∀ p ∈ memmap.flatMap MemmapEntry.loopPages, ∀ v, img.Contains v →
          pageOf v ≠ pageOf (p + hhdmOffset)) →
        (KernelMapped hhdmOffset s' img kernelVirt kernelPhys ↔ img.Fits)) := by
  have henough : img.Fits → KernelMapped hhdmOffset s' img kernelVirt kernelPhys := by
    intro hfits v hv
    obtain ⟨calls, root, ht⟩ := vmmInit_tables_of_any hserves h
    exact ht.kernel_byte hsilent hload (hv.page hfits)
  refine ⟨henough, fun halign hapart => ⟨fun hmapped v hv => ?_, henough⟩⟩
  by_contra hout
  obtain ⟨root, ht⟩ := vmmInit_tables halign hserves h
  have hcontains : img.Contains v := .inr (.inr hv)
  obtain ⟨t, hwalk, -⟩ := hmapped v hcontains
  rw [ht.hardware] at hwalk
  obtain ⟨e, he, -⟩ := Option.map_eq_some_iff.mp hwalk
  rcases ht.source_cases he with ⟨c, hc, hpage, -⟩ | ⟨m, hm, p, hp, hpage, -⟩
  · exact hv.not_page hout _ (KernelLayout.virt_mem_pages hc) hpage
  · exact hapart p (List.mem_flatMap.mpr ⟨m, hm, hp⟩) v hcontains hpage

end Whole

/-- The kernel of the small machine with a `.bss` of five KiB. -/
def bootImage : Image where
  toKernelLayout := bootLayout
  bssStart := 0xffffffff80003800
  bssEnd := 0xffffffff80004c00
  base_le := by decide
  text := by decide
  rodata := by decide
  data := by decide
  bss := by decide

/-- The second page of `.bss` is not mapped. -/
theorem vmmInit_bss_bootImage : ∃ s s' : Vmm Pmm,
    pmmInit (some bootMemmap) 0xffff800000000000 Pmm.boot = (0, s.pmm) ∧
    vmmInit 0xffff800000000000 s.pmm.memmap bootImage.toKernelLayout 0x3027 s 0xffffffff80000000
      0x4000 = .ok (0, s') ∧
    s'.reports = s.reports ∧ bootImage.Contains 0xffffffff80004000 ∧
    hardwareWalk 0xffff800000000000 s'.mem s'.kernelPm 0xffffffff80004000 = none ∧
    ¬ KernelMapped 0xffff800000000000 s' bootImage 0xffffffff80000000 0x4000 := by
  obtain ⟨s, s', hinit, hmemmap, hvmm, hsilent⟩ := vmmInit_bootMemmap
  obtain ⟨-, -, root, ht⟩ := booted limineMemmap_bootMemmap hinit hvmm
  have hcontains : bootImage.Contains 0xffffffff80004000 := .inr (.inr (.inr (by decide)))
  have hcalls : ∀ c ∈ initCalls 0xffff800000000000 s.pmm.memmap bootLayout 0xffffffff80000000
      0x4000, pageOf 0xffffffff80004000 ≠ c.page := by
    rw [hmemmap]
    decide +kernel
  have hnone := ht.unmapped hcalls
  refine ⟨s, s', hinit, hvmm, hsilent, hcontains, hnone, fun hmapped => ?_⟩
  obtain ⟨t, hwalk, -⟩ := hmapped _ hcontains
  rw [hnone] at hwalk
  cases hwalk

theorem vmmInit_kernelMapped_iff_bootImage : ∃ s s' : Vmm Pmm,
    vmmInit 0xffff800000000000 s.pmm.memmap bootImage.toKernelLayout 0x3027 s 0xffffffff80000000
      0x4000 = .ok (0, s') ∧
    (KernelMapped 0xffff800000000000 s' bootImage 0xffffffff80000000 0x4000 ↔ bootImage.Fits) := by
  obtain ⟨s, s', hinit, hmemmap, hvmm, hsilent⟩ := vmmInit_bootMemmap
  have hpost := initPost_of_pmmInit limineMemmap_bootMemmap.usableMemmap hinit
  have hmap' := limineMemmap_bootMemmap.initPost hpost
  have hlow : ∀ p ∈ s.pmm.memmap.flatMap MemmapEntry.loopPages, p.toNat < 2 ^ 46 := by
    rw [hmemmap]
    exact forall_of_all (by decide +kernel)
  have hboot : vmmInit 0xffff800000000000 s.pmm.memmap bootImage.toKernelLayout 0x3027 s
      0xffffffff80000000 0x4000 = .ok (0, s') := hvmm
  have hiff := (vmmInit_kernelMapped_iff (limineMemmap_bootMemmap.servesFrames hpost) hboot hsilent
    ⟨by decide, by decide⟩).2 (fun e he hu => hmap'.aligned e he (.inl hu))
  refine ⟨s, s', hboot, hiff fun p hp v hv hpage => ?_⟩
  have hsmall := hlow p hp
  have hhigh : 0xffffffff80000000 ≤ v.toNat := by
    have := bootImage.base_le
    have := bootImage.text
    have := bootImage.rodata
    have := bootImage.data
    have := bootImage.bss
    unfold Image.Contains Image.InData at hv
    omega
  have hvlt := v.isLt
  have hnat := congrArg BitVec.toNat hpage
  rw [toNat_pageOf, toNat_pageOf, BitVec.toNat_add,
    show (0xffff800000000000 : Word).toNat = 0xffff800000000000 from rfl] at hnat
  omega

end Olive
