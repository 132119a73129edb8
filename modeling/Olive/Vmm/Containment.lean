import Olive.Vmm.KernelImage
import Olive.Vmm.StackStorage

/-!
# What the mappings of `vmm_init` reach beyond the memory map

The loops for framebuffers and reclaimable memory compare an offset with an absolute end,
so they map as much memory behind the start of their entry as there is below its end.
What they reach there is mapped writable, whoever it belongs to. `vmm_init` maps nothing
but the kernel and the listed memory exactly if this excess meets listed memory only, and
the read-only segments have no writable alias exactly if it misses their frames.
-/

namespace Olive

open Library

namespace MemmapEntry

def Mapped (e : MemmapEntry) : Prop :=
  e.type = .usable ∨ e.type = .framebuffer ∨ e.type = .bootloaderReclaimable

instance (e : MemmapEntry) : Decidable e.Mapped := inferInstanceAs (Decidable (_ ∨ _))

def Meets (e : MemmapEntry) (f : Frame) : Prop :=
  ∃ x, (frameAddr f).toNat ≤ x ∧ x < (frameAddr f).toNat + 4096 ∧ e.Covers x

end MemmapEntry

/-- Every translation is one of the kernel image, or one in the HHDM of a frame that
meets memory of a mapped type. -/
def MappedOnly (hhdmOffset : Word) (entries : List MemmapEntry) (layout : KernelLayout)
    (s' : Vmm Pmm) : Prop :=
  ∀ virt t, hardwareWalk hhdmOffset s'.mem s'.kernelPm virt = some t →
    (∃ a ∈ layout.pages, pageOf virt = pageOf a) ∨
      (pageOf virt = pageOf (frameAddr (frameOf t.entry) + hhdmOffset) ∧
        ∃ m ∈ entries, m.Mapped ∧ m.Meets (frameOf t.entry))

/-- The overlong loops stay in memory of a mapped type. -/
def ReachesListed (entries : List MemmapEntry) : Prop :=
  ∀ m ∈ entries, m.type = .framebuffer ∨ m.type = .bootloaderReclaimable →
    ∀ p ∈ m.loopPages, ∃ e ∈ entries, e.Mapped ∧ e.Meets (frameOf p)

theorem pageOf_frameAddr_frameOf {p hhdmOffset : Word} (hp : PageAligned p)
    (hhhdm : PageAligned hhdmOffset) :
    pageOf (p + hhdmOffset) = pageOf (frameAddr (frameOf p) + hhdmOffset) := by
  have hplt := p.isLt
  have hhlt := hhdmOffset.isLt
  rw [pageOf_eq_iff (hp.add hhhdm) ((pageAligned_frameAddr _).add hhhdm), BitVec.toNat_add,
    BitVec.toNat_add, toNat_frameAddr, toNat_frameOf]
  unfold PageAligned at hp hhhdm
  omega

section Boot

variable {hhdmOffset kernelVirt kernelPhys : Word} {entries : List MemmapEntry}
  {layout : KernelLayout} {eax : BitVec 32} {s s' : Vmm Pmm}

theorem MemmapEntry.Covers.meets {e : MemmapEntry} {p : Word} (hp : PageAligned p)
    (hbound : e.base.toNat + e.length.toNat ≤ 2 ^ 52) (h : e.Covers p.toNat) :
    e.Meets (frameOf p) := by
  refine ⟨p.toNat, ?_, ?_, h⟩ <;>
  · unfold Covers at h
    unfold PageAligned at hp
    rw [toNat_frameAddr, toNat_frameOf]
    omega

/-- `vmm_init` maps nothing it should not if its overlong loops stay in listed memory, and
where nothing fails and no HHDM addresses coincide, only then. -/
theorem vmmInit_mappedOnly_iff (hmap : LimineMemmap hhdmOffset entries)
    (hinit : pmmInit (some entries) hhdmOffset Pmm.boot = (0, s.pmm))
    (h : vmmInit hhdmOffset s.pmm.memmap layout eax s kernelVirt kernelPhys = .ok (0, s')) :
    (ReachesListed entries → MappedOnly hhdmOffset entries layout s') ∧
      (HhdmDistinct hhdmOffset layout (s.pmm.memmap.flatMap MemmapEntry.loopPages) →
        s'.reports = s.reports →
        (MappedOnly hhdmOffset entries layout s' ↔ ReachesListed entries)) := by
  obtain ⟨hpost, hmap', root, ht⟩ := booted hmap hinit h
  have henough : ReachesListed entries → MappedOnly hhdmOffset entries layout s' := by
    intro hlisted virt t hwalk
    rw [ht.hardware] at hwalk
    obtain ⟨e, he, rfl⟩ := Option.map_eq_some_iff.mp hwalk
    rcases ht.source_cases he with ⟨c, hc, hpage, -⟩ | ⟨m, hm, p, hp, hpage, rfl⟩
    · exact .inl ⟨_, KernelLayout.virt_mem_pages hc, hpage⟩
    · have halign := ((hmap'.mem_loopPages_iff hm).mp hp).1
      have hframe : frameOf (leafTranslation (p ||| loopFlags m.type)).entry = frameOf p :=
        frameOf_or_flags p (loopFlags_and_frameMask m.type)
      rw [hframe]
      refine .inr ⟨hpage.trans (pageOf_frameAddr_frameOf halign hmap.hhdm), ?_⟩
      by_cases husable : m.type = .usable
      · obtain ⟨-, e, he, heu, hcovers⟩ := hpost.usable_cases hmap hm husable hp
        exact ⟨e, he, .inl heu, hcovers.meets halign (hmap.bounded e he)⟩
      · exact hlisted m ((hpost.mem_iff husable).mp hm)
          ((m.type_of_mem_loopPages hp).resolve_left husable) p hp
  refine ⟨henough, fun hdistinct hsilent => ⟨fun honly m hm hmtype p hp => ?_, henough⟩⟩
  have hm' : m ∈ s.pmm.memmap := by
    refine (hpost.mem_iff ?_).mpr hm
    rcases hmtype with h | h <;> rw [h] <;> decide
  have hpmem : p ∈ s.pmm.memmap.flatMap MemmapEntry.loopPages := List.mem_flatMap.mpr ⟨m, hm', hp⟩
  have hpal := (hmap'.pageAligned hpmem).add hmap.hhdm
  obtain ⟨a, -, -, hwalk⟩ := ht.mapped hdistinct hsilent hmap'.loose hpmem
  have hhard : hardwareWalk hhdmOffset s'.mem s'.kernelPm (p + hhdmOffset) =
      some (leafTranslation (p ||| loopFlags a.type)) := by
    rw [ht.hardware, hwalk]
    rfl
  rcases honly _ _ hhard with ⟨b, hb, hpage⟩ | ⟨-, e, he, hmapped, hmeets⟩
  · exact absurd ((pageOf_eq_iff hpal (KernelLayout.pageAligned hb)).mp hpage)
      (hdistinct.apart p hpmem b hb)
  · have hframe : frameOf (leafTranslation (p ||| loopFlags a.type)).entry = frameOf p :=
      frameOf_or_flags p (loopFlags_and_frameMask a.type)
    exact ⟨e, he, hmapped, hframe ▸ hmeets⟩

end Boot

/-- The reclaimable entry of the small machine ends at `0x4000`, but its loop maps two more
pages, which belong to the kernel. -/
theorem vmmInit_mapped_bootMemmap : ∃ s s' : Vmm Pmm,
    LimineMemmap 0xffff800000000000 bootMemmap ∧
    pmmInit (some bootMemmap) 0xffff800000000000 Pmm.boot = (0, s.pmm) ∧
    vmmInit 0xffff800000000000 s.pmm.memmap bootLayout 0x3027 s 0xffffffff80000000 0x4000 =
      .ok (0, s') ∧
    ¬ MappedOnly 0xffff800000000000 bootMemmap bootLayout s' := by
  obtain ⟨s, s', hinit, hmemmap, hvmm, hsilent⟩ := vmmInit_bootMemmap
  obtain ⟨-, hmap', root, ht⟩ := booted limineMemmap_bootMemmap hinit hvmm
  refine ⟨s, s', limineMemmap_bootMemmap, hinit, hvmm, fun honly => ?_⟩
  have hdistinct : HhdmDistinct 0xffff800000000000 bootLayout
      (s.pmm.memmap.flatMap MemmapEntry.loopPages) := by
    rw [hmemmap]
    exact hhdmDistinct_bootLayout (forall_of_all (by decide +kernel))
  have hmem : (0x4000 : Word) ∈ s.pmm.memmap.flatMap MemmapEntry.loopPages := by
    rw [hmemmap]
    decide +kernel
  obtain ⟨a, -, -, hwalk⟩ := ht.mapped hdistinct hsilent hmap'.loose hmem
  have hframe : frameOf (leafTranslation (0x4000 ||| loopFlags a.type)).entry = 0x4 :=
    (frameOf_or_flags _ (loopFlags_and_frameMask a.type)).trans (by decide)
  have hhard : hardwareWalk 0xffff800000000000 s'.mem s'.kernelPm (0x4000 + 0xffff800000000000) =
      some (leafTranslation (0x4000 ||| loopFlags a.type)) := by
    rw [ht.hardware, hwalk]
    rfl
  rcases honly _ _ hhard with ⟨b, hb, hpage⟩ | ⟨-, m, hm, hmapped, hmeets⟩
  · have hpages : bootLayout.pages =
        [0xffffffff80001000, 0xffffffff80002000, 0xffffffff80003000] := by decide +kernel
    rw [hpages] at hb
    revert hpage
    simp only [List.mem_cons, List.not_mem_nil, or_false] at hb
    rcases hb with rfl | rfl | rfl <;> decide
  · rw [hframe] at hmeets
    have hapart : ∀ m ∈ bootMemmap, m.Mapped →
        m.base.toNat + m.length.toNat ≤ 0x4000 ∨ 0x5000 ≤ m.base.toNat := by decide
    obtain ⟨x, hlo, hhi, hcovers⟩ := hmeets
    have hx := hapart m hm hmapped
    rw [show (frameAddr 0x4).toNat = 0x4000 by decide] at hlo hhi
    unfold MemmapEntry.Covers at hcovers
    omega

theorem vmmInit_mappedOnly_iff_bootMemmap : ∃ s s' : Vmm Pmm,
    pmmInit (some bootMemmap) 0xffff800000000000 Pmm.boot = (0, s.pmm) ∧
    vmmInit 0xffff800000000000 s.pmm.memmap bootLayout 0x3027 s 0xffffffff80000000 0x4000 =
      .ok (0, s') ∧
    (MappedOnly 0xffff800000000000 bootMemmap bootLayout s' ↔ ReachesListed bootMemmap) := by
  obtain ⟨s, s', hinit, hmemmap, hvmm, hsilent⟩ := vmmInit_bootMemmap
  have hdistinct : HhdmDistinct 0xffff800000000000 bootLayout
      (s.pmm.memmap.flatMap MemmapEntry.loopPages) := by
    rw [hmemmap]
    exact hhdmDistinct_bootLayout (forall_of_all (by decide +kernel))
  exact ⟨s, s', hinit, hvmm,
    (vmmInit_mappedOnly_iff limineMemmap_bootMemmap hinit hvmm).2 hdistinct hsilent⟩

/-! ## Writable aliases of the read-only segments -/

def framesOf (kernelVirt kernelPhys : Word) (pages : List Word) : List Frame :=
  pages.map fun a => frameOf (a - kernelVirt + kernelPhys)

def KernelLayout.readOnlyPages (layout : KernelLayout) : List Word :=
  layout.textPages ++ layout.rodataPages

/-- No leaf entry gives write access to a frame of text or read-only data. -/
def ReadOnlyKept (hhdmOffset : Word) (layout : KernelLayout) (kernelVirt kernelPhys : Word)
    (s' : Vmm Pmm) : Prop :=
  ∀ virt t, hardwareWalk hhdmOffset s'.mem s'.kernelPm virt = some t →
    frameOf t.entry ∈ framesOf kernelVirt kernelPhys layout.readOnlyPages →
    t.entry &&& pteBitReadWrite = 0

/-- The overlong loops miss the frames of text and read-only data. -/
def MissesReadOnly (entries : List MemmapEntry) (layout : KernelLayout)
    (kernelVirt kernelPhys : Word) : Prop :=
  ∀ m ∈ entries, m.type = .framebuffer ∨ m.type = .bootloaderReclaimable →
    ∀ p ∈ m.loopPages, frameOf p ∉ framesOf kernelVirt kernelPhys layout.readOnlyPages

section ReadOnly

variable {hhdmOffset kernelVirt kernelPhys : Word} {entries : List MemmapEntry}
  {img : Image} {eax : BitVec 32} {s s' : Vmm Pmm}

theorem pageAligned_phys {a : Word} (ha : PageAligned a)
    (hload : PageAligned kernelVirt ∧ PageAligned kernelPhys) :
    PageAligned (a - kernelVirt + kernelPhys) := by
  unfold PageAligned at *
  rw [BitVec.toNat_add, BitVec.toNat_sub]
  omega

theorem and_readWrite_eq_zero {phys flags : Word} (hphys : PageAligned phys)
    (hflags : flags &&& pteBitReadWrite = 0) : (phys ||| flags) &&& pteBitReadWrite = 0 := by
  have hbit : ∀ i < 64, pteBitReadWrite.getLsbD i = decide (i = 1) := by decide
  have hphys1 : phys.getLsbD 1 = false := by
    unfold PageAligned at hphys
    rw [BitVec.getLsbD, Nat.testBit_eq_decide_div_mod_eq]
    simp only [decide_eq_false_iff_not]
    omega
  apply BitVec.eq_of_getLsbD_eq
  intro i hi
  have hi' := congrArg (fun e => e.getLsbD i) hflags
  simp only [BitVec.getLsbD_and, BitVec.getLsbD_or] at hi' ⊢
  rw [hbit i hi] at hi' ⊢
  by_cases h1 : i = 1
  · subst h1
    simp_all
  · simp [h1]

theorem Image.data_frame (hload : PageAligned kernelVirt ∧ PageAligned kernelPhys) {d : Word}
    (hd : d ∈ img.dataPages) :
    frameOf (d - kernelVirt + kernelPhys) ∉ framesOf kernelVirt kernelPhys img.readOnlyPages := by
  intro hmem
  obtain ⟨a, ha, hframe⟩ := List.mem_map.mp hmem
  have hapage : a ∈ img.pages := List.mem_append_left _ ha
  have hdpage : d ∈ img.pages := List.mem_append_right _ hd
  have halo := Image.base_le_of_mem hapage
  have hdlo := Image.base_le_of_mem hdpage
  have haal := (Image.mem_pages_iff.mp hapage).1
  have hdal := (Image.mem_pages_iff.mp hdpage).1
  have halt := a.isLt
  have hdlt := d.isLt
  have heq : a = d := by
    have hnat := congrArg BitVec.toNat hframe
    obtain ⟨hv, hp⟩ := hload
    have hvlt := kernelVirt.isLt
    have hplt := kernelPhys.isLt
    unfold PageAligned at haal hdal hv hp
    rw [toNat_frameOf, toNat_frameOf, BitVec.toNat_add, BitVec.toNat_add, BitVec.toNat_sub,
      BitVec.toNat_sub] at hnat
    exact BitVec.eq_of_toNat_eq (by omega)
  subst heq
  have hnodup := List.Nodup.of_map _ img.nodup_pages
  exact List.disjoint_of_nodup_append hnodup ha hd

/-- No virtual address gives write access to text or read-only data if the overlong loops
miss their frames, and where nothing fails and no HHDM addresses coincide, only then. -/
theorem vmmInit_readOnlyKept_iff (hmap : LimineMemmap hhdmOffset entries)
    (hinit : pmmInit (some entries) hhdmOffset Pmm.boot = (0, s.pmm))
    (h : vmmInit hhdmOffset s.pmm.memmap img.toKernelLayout eax s kernelVirt kernelPhys =
      .ok (0, s'))
    (hload : PageAligned kernelVirt ∧ PageAligned kernelPhys)
    (hkernel : ∀ m ∈ entries, m.Mapped → ∀ f ∈ framesOf kernelVirt kernelPhys img.pages,
      ¬ m.Meets f) :
    (MissesReadOnly entries img.toKernelLayout kernelVirt kernelPhys →
        ReadOnlyKept hhdmOffset img.toKernelLayout kernelVirt kernelPhys s') ∧
      (HhdmDistinct hhdmOffset img.toKernelLayout (s.pmm.memmap.flatMap MemmapEntry.loopPages) →
        s'.reports = s.reports →
        (ReadOnlyKept hhdmOffset img.toKernelLayout kernelVirt kernelPhys s' ↔
          MissesReadOnly entries img.toKernelLayout kernelVirt kernelPhys)) := by
  obtain ⟨hpost, hmap', root, ht⟩ := booted hmap hinit h
  have henough : MissesReadOnly entries img.toKernelLayout kernelVirt kernelPhys →
      ReadOnlyKept hhdmOffset img.toKernelLayout kernelVirt kernelPhys s' := by
    intro hmisses virt t hwalk hframe
    rw [ht.hardware] at hwalk
    obtain ⟨e, he, rfl⟩ := Option.map_eq_some_iff.mp hwalk
    change frameOf e ∈ _ at hframe
    change e &&& pteBitReadWrite = 0
    rcases ht.source_cases he with ⟨c, hc, -, rfl⟩ | ⟨m, hm, p, hp, -, rfl⟩
    · have hal := fun {a} (ha : a ∈ img.pages) => pageAligned_phys (Image.mem_pages_iff.mp ha).1 hload
      simp only [KernelLayout.calls, segmentCalls, List.mem_append, List.mem_map] at hc
      rcases hc with (⟨a, ha, rfl⟩ | ⟨a, ha, rfl⟩) | ⟨a, ha, rfl⟩
      · have hflags : pteBitPresent &&& pteBitReadWrite = 0 := by decide
        exact and_readWrite_eq_zero
          (hal (List.mem_append_left _ (List.mem_append_left _ ha))) hflags
      · have hflags : (pteBitPresent ||| pteBitExecuteDisable) &&& pteBitReadWrite = 0 := by decide
        exact and_readWrite_eq_zero
          (hal (List.mem_append_left _ (List.mem_append_right _ ha))) hflags
      · have hflags : (pteBitPresent ||| pteBitReadWrite ||| pteBitExecuteDisable) &&&
            frameMask = 0 := by decide
        rw [MapCall.entry, frameOf_or_flags _ hflags] at hframe
        exact absurd hframe (Image.data_frame hload ha)
    · rw [frameOf_or_flags _ (loopFlags_and_frameMask m.type)] at hframe
      by_cases husable : m.type = .usable
      · obtain ⟨halign, e, he, heu, hcovers⟩ := hpost.usable_cases hmap hm husable hp
        have hpages : frameOf p ∈ framesOf kernelVirt kernelPhys img.pages := by
          obtain ⟨a, ha, hfa⟩ := List.mem_map.mp hframe
          exact List.mem_map.mpr ⟨a, List.mem_append_left _ ha, hfa⟩
        exact absurd (hcovers.meets halign (hmap.bounded e he)) (hkernel e he (.inl heu) _ hpages)
      · exact absurd hframe (hmisses m ((hpost.mem_iff husable).mp hm)
          ((m.type_of_mem_loopPages hp).resolve_left husable) p hp)
  refine ⟨henough, fun hdistinct hsilent => ⟨fun hkept m hm hmtype p hp hframe => ?_, henough⟩⟩
  have hm' : m ∈ s.pmm.memmap := by
    refine (hpost.mem_iff ?_).mpr hm
    rcases hmtype with h | h <;> rw [h] <;> decide
  obtain ⟨a, -, -, hwalk⟩ :=
    ht.mapped hdistinct hsilent hmap'.loose (List.mem_flatMap.mpr ⟨m, hm', hp⟩)
  have hhard : hardwareWalk hhdmOffset s'.mem s'.kernelPm (p + hhdmOffset) =
      some (leafTranslation (p ||| loopFlags a.type)) := by
    rw [ht.hardware, hwalk]
    rfl
  have hleaf : frameOf (leafTranslation (p ||| loopFlags a.type)).entry = frameOf p :=
    frameOf_or_flags p (loopFlags_and_frameMask a.type)
  exact writable_or_loopFlags p a.type (hkept _ _ hhard (hleaf ▸ hframe))

end ReadOnly

theorem not_meets_bootImage : ∀ m ∈ bootMemmap, m.Mapped →
    ∀ f ∈ framesOf 0xffffffff80000000 0x4000 bootImage.pages, ¬ m.Meets f := by
  intro m hm hmapped f hf hmeets
  have hapart : ∀ m ∈ bootMemmap, m.Mapped →
      m.base.toNat + m.length.toNat ≤ 0x4000 ∨ 0x8000 ≤ m.base.toNat := by decide
  have hframes : framesOf 0xffffffff80000000 0x4000 bootImage.pages = [0x5, 0x6, 0x7] := by
    decide +kernel
  rw [hframes] at hf
  have hf' : 0x5000 ≤ (frameAddr f).toNat ∧ (frameAddr f).toNat ≤ 0x7000 := by
    simp only [List.mem_cons, List.not_mem_nil, or_false] at hf
    rcases hf with rfl | rfl | rfl <;> decide
  obtain ⟨x, hlo, hhi, hcovers⟩ := hmeets
  have hx := hapart m hm hmapped
  unfold MemmapEntry.Covers at hcovers
  omega

/-- The text of the kernel was loaded to `0x5000`, which the overlong loop of the
reclaimable entry maps writable. -/
theorem vmmInit_readOnly_bootImage : ∃ s s' : Vmm Pmm,
    LimineMemmap 0xffff800000000000 bootMemmap ∧
    (∀ m ∈ bootMemmap, m.Mapped →
      ∀ f ∈ framesOf 0xffffffff80000000 0x4000 bootImage.pages, ¬ m.Meets f) ∧
    pmmInit (some bootMemmap) 0xffff800000000000 Pmm.boot = (0, s.pmm) ∧
    vmmInit 0xffff800000000000 s.pmm.memmap bootImage.toKernelLayout 0x3027 s 0xffffffff80000000
      0x4000 = .ok (0, s') ∧
    ¬ ReadOnlyKept 0xffff800000000000 bootImage.toKernelLayout 0xffffffff80000000 0x4000 s' := by
  obtain ⟨s, s', hinit, hmemmap, hvmm, hsilent⟩ := vmmInit_bootMemmap
  obtain ⟨-, hmap', root, ht⟩ := booted limineMemmap_bootMemmap hinit hvmm
  refine ⟨s, s', limineMemmap_bootMemmap, not_meets_bootImage, hinit, hvmm, fun hkept => ?_⟩
  have hdistinct : HhdmDistinct 0xffff800000000000 bootLayout
      (s.pmm.memmap.flatMap MemmapEntry.loopPages) := by
    rw [hmemmap]
    exact hhdmDistinct_bootLayout (forall_of_all (by decide +kernel))
  have hmem : (0x5000 : Word) ∈ s.pmm.memmap.flatMap MemmapEntry.loopPages := by
    rw [hmemmap]
    decide +kernel
  obtain ⟨a, -, -, hwalk⟩ := ht.mapped hdistinct hsilent hmap'.loose hmem
  have hhard : hardwareWalk 0xffff800000000000 s'.mem s'.kernelPm (0x5000 + 0xffff800000000000) =
      some (leafTranslation (0x5000 ||| loopFlags a.type)) := by
    rw [ht.hardware, hwalk]
    rfl
  have hframe : frameOf (leafTranslation (0x5000 ||| loopFlags a.type)).entry ∈
      framesOf 0xffffffff80000000 0x4000 bootImage.readOnlyPages := by
    have hleaf : frameOf (leafTranslation (0x5000 ||| loopFlags a.type)).entry = 0x5 :=
      (frameOf_or_flags _ (loopFlags_and_frameMask a.type)).trans (by decide)
    rw [hleaf]
    decide +kernel
  exact writable_or_loopFlags _ a.type (hkept _ _ hhard hframe)

theorem vmmInit_readOnlyKept_iff_bootImage : ∃ s s' : Vmm Pmm,
    pmmInit (some bootMemmap) 0xffff800000000000 Pmm.boot = (0, s.pmm) ∧
    vmmInit 0xffff800000000000 s.pmm.memmap bootImage.toKernelLayout 0x3027 s 0xffffffff80000000
      0x4000 = .ok (0, s') ∧
    (ReadOnlyKept 0xffff800000000000 bootImage.toKernelLayout 0xffffffff80000000 0x4000 s' ↔
      MissesReadOnly bootMemmap bootImage.toKernelLayout 0xffffffff80000000 0x4000) := by
  obtain ⟨s, s', hinit, hmemmap, hvmm, hsilent⟩ := vmmInit_bootMemmap
  have hdistinct : HhdmDistinct 0xffff800000000000 bootImage.toKernelLayout
      (s.pmm.memmap.flatMap MemmapEntry.loopPages) := by
    rw [hmemmap]
    exact hhdmDistinct_bootLayout (forall_of_all (by decide +kernel))
  have hboot : vmmInit 0xffff800000000000 s.pmm.memmap bootImage.toKernelLayout 0x3027 s
      0xffffffff80000000 0x4000 = .ok (0, s') := hvmm
  have hiff := vmmInit_readOnlyKept_iff limineMemmap_bootMemmap hinit hboot ⟨by decide, by decide⟩
    not_meets_bootImage
  exact ⟨s, s', hinit, hboot, hiff.2 hdistinct hsilent⟩

end Olive
