import Olive.Library.LastWrite
import Olive.Pmm.Init
import Olive.Vmm.Refinement

/-!
# The mappings `vmm_init` makes

`vmm_init` is a list of calls of `vmm_map` on a page map that starts empty: those of the
loops over the memory map, in the order of its entries, and then those of the three
segments of the kernel image. A page that is mapped at the end is mapped by one of the
calls, and if every call has obtained its tables it is mapped by the last one for it.
-/

namespace Olive

open Library

/-! ## The calls -/

structure MapCall where
  virt : Word
  phys : Word
  flags : Word
  deriving DecidableEq, Repr

namespace MapCall

def page (c : MapCall) : Page := pageOf c.virt

def entry (c : MapCall) : Word := c.phys ||| c.flags

end MapCall

/-- The physical pages the loop for an entry of the memory map maps, in its order. -/
def MemmapEntry.loopPages (e : MemmapEntry) : List Word :=
  match e.type with
  | .usable => ticks pageSize e.base (((e.base + e.length).toNat - e.base.toNat) / 4096)
  | .framebuffer =>
    (ticks pageSize 0 ((alignUp (e.base + e.length) pageSize).toNat / 4096)).map fun off =>
      alignUp (e.base + off) pageSize
  | .bootloaderReclaimable =>
    (ticks pageSize 0 ((alignUp (e.base + e.length) pageSize).toNat / 4096)).map fun off =>
      e.base + off
  | _ => []

def loopFlags : MemmapType → Word
  | .framebuffer =>
    pteBitPresent ||| pteBitReadWrite ||| pteBitExecuteDisable ||| pteBitWriteThroughCaching
  | _ => pteBitPresent ||| pteBitReadWrite

def MemmapEntry.calls (hhdmOffset : Word) (e : MemmapEntry) : List MapCall :=
  e.loopPages.map fun p => ⟨p + hhdmOffset, p, loopFlags e.type⟩

def segmentPages (start bound : Word) : List Word :=
  ticks pageSize (alignDown start pageSize)
    (((alignUp bound pageSize).toNat - (alignDown start pageSize).toNat) / 4096)

def segmentCalls (kernelVirt kernelPhys flags : Word) (pages : List Word) : List MapCall :=
  pages.map fun a => ⟨a, a - kernelVirt + kernelPhys, flags⟩

namespace KernelLayout

variable (layout : KernelLayout)

def textPages : List Word := segmentPages layout.textStart layout.textEnd
def rodataPages : List Word := segmentPages layout.rodataStart layout.rodataEnd
def dataPages : List Word := segmentPages layout.dataStart layout.dataEnd

def pages : List Word := layout.textPages ++ layout.rodataPages ++ layout.dataPages

def calls (kernelVirt kernelPhys : Word) : List MapCall :=
  segmentCalls kernelVirt kernelPhys pteBitPresent layout.textPages ++
  segmentCalls kernelVirt kernelPhys (pteBitPresent ||| pteBitExecuteDisable) layout.rodataPages ++
  segmentCalls kernelVirt kernelPhys (pteBitPresent ||| pteBitReadWrite ||| pteBitExecuteDisable)
    layout.dataPages

end KernelLayout

/-- The calls of `vmm_map` in one run of `vmm_init`. -/
def initCalls (hhdmOffset : Word) (memmap : List MemmapEntry) (layout : KernelLayout)
    (kernelVirt kernelPhys : Word) : List MapCall :=
  memmap.flatMap (MemmapEntry.calls hhdmOffset) ++ layout.calls kernelVirt kernelPhys

theorem present_loopFlags (type : MemmapType) : Present (loopFlags type) := by
  cases type <;> decide

theorem present_of_mem_initCalls {hhdmOffset kernelVirt kernelPhys : Word}
    {memmap : List MemmapEntry} {layout : KernelLayout} {c : MapCall}
    (hc : c ∈ initCalls hhdmOffset memmap layout kernelVirt kernelPhys) : Present c.flags := by
  simp only [initCalls, KernelLayout.calls, segmentCalls, MemmapEntry.calls, List.mem_append,
    List.mem_flatMap, List.mem_map] at hc
  rcases hc with ⟨e, -, p, -, rfl⟩ | (⟨a, -, rfl⟩ | ⟨a, -, rfl⟩) | ⟨a, -, rfl⟩
  · exact present_loopFlags e.type
  · exact (by decide : Present pteBitPresent)
  · exact (by decide : Present (pteBitPresent ||| pteBitExecuteDisable))
  · exact (by decide : Present (pteBitPresent ||| pteBitReadWrite ||| pteBitExecuteDisable))

/-! ## `vmm_init` as a list of calls -/

section Calls

variable {σ : Type} [PageAllocator σ]

/-- The calls on the page map of the kernel, one after the other. -/
def runCalls (hhdmOffset : Word) (s : Vmm σ) (calls : List MapCall) : Vmm σ :=
  calls.foldl (fun s c => vmmMap hhdmOffset s s.kernelPm c.virt c.phys c.flags) s

theorem runCalls_cons (hhdmOffset : Word) (s : Vmm σ) (c : MapCall) (calls : List MapCall) :
    runCalls hhdmOffset s (c :: calls) =
      runCalls hhdmOffset (vmmMap hhdmOffset s s.kernelPm c.virt c.phys c.flags) calls := rfl

theorem runCalls_append (hhdmOffset : Word) (s : Vmm σ) (xs ys : List MapCall) :
    runCalls hhdmOffset s (xs ++ ys) = runCalls hhdmOffset (runCalls hhdmOffset s xs) ys :=
  List.foldl_append

theorem runCalls_map {α : Type} (hhdmOffset : Word) (s : Vmm σ) (f : α → MapCall) (xs : List α) :
    runCalls hhdmOffset s (xs.map f) =
      xs.foldl (fun s x => vmmMap hhdmOffset s s.kernelPm (f x).virt (f x).phys (f x).flags) s :=
  List.foldl_map

omit [PageAllocator σ] in
theorem mapLoop_eq (s : Vmm σ) {start bound : Word} (hstart : PageAligned start)
    (hbound : PageAligned bound) (body : Word → Vmm σ → Vmm σ) :
    mapLoop s start bound body =
      .ok ((ticks pageSize start ((bound.toNat - start.toNat) / 4096)).foldl
        (fun s x => body x s) s) := by
  have hs := start.isLt
  have hb := bound.isLt
  simp only [PageAligned] at hstart hbound
  unfold mapLoop
  rw [forLoop_eq (n := (bound.toNat - start.toNat) / 4096)]
  · exact foldlM_ok _ _ _
  · intro k hk
    rw [toNat_pageSize]
    omega
  · rw [toNat_pageSize]
    omega
  · rw [toNat_pageSize]
    omega
  · omega

omit [PageAllocator σ] in
theorem mapLoop_ok {s s' : Vmm σ} {start bound : Word} {body : Word → Vmm σ → Vmm σ}
    (h : mapLoop s start bound body = .ok s') :
    ∃ n, s' = (ticks pageSize start n).foldl (fun s x => body x s) s := by
  obtain ⟨n, hn⟩ := forLoop_ok h
  refine ⟨n, ?_⟩
  rw [foldlM_ok] at hn
  exact (Except.ok.inj hn).symm

theorem mapEntry_eq (hhdmOffset : Word) (s : Vmm σ) {e : MemmapEntry}
    (halign : e.type = .usable → PageAligned e.base ∧ PageAligned e.length) :
    mapEntry hhdmOffset s e = .ok (runCalls hhdmOffset s (e.calls hhdmOffset)) := by
  unfold mapEntry MemmapEntry.calls MemmapEntry.loopPages loopFlags
  cases htype : e.type with
  | usable =>
    obtain ⟨hbase, hlength⟩ := halign htype
    have hend : PageAligned (e.base + e.length) := by
      simp only [PageAligned, BitVec.toNat_add] at hbase hlength ⊢
      omega
    rw [runCalls_map]
    exact mapLoop_eq s hbase hend _
  | framebuffer =>
    rw [runCalls_map, List.foldl_map]
    exact mapLoop_eq s (by decide : PageAligned 0) (pageAligned_alignUp _) _
  | bootloaderReclaimable =>
    rw [runCalls_map, List.foldl_map]
    exact mapLoop_eq s (by decide : PageAligned 0) (pageAligned_alignUp _) _
  | _ => rfl

theorem mapEntries_eq (hhdmOffset : Word) (s : Vmm σ) {memmap : List MemmapEntry}
    (halign : ∀ e ∈ memmap, e.type = .usable → PageAligned e.base ∧ PageAligned e.length) :
    memmap.foldlM (mapEntry hhdmOffset) s =
      .ok (runCalls hhdmOffset s (memmap.flatMap (MemmapEntry.calls hhdmOffset))) := by
  induction memmap generalizing s with
  | nil => rfl
  | cons e memmap ih =>
    rw [List.foldlM_cons, mapEntry_eq hhdmOffset s (halign e List.mem_cons_self),
      List.flatMap_cons, runCalls_append]
    exact ih _ fun a ha => halign a (List.mem_cons_of_mem _ ha)

theorem mapSegment_eq (hhdmOffset kernelVirt kernelPhys : Word) (s : Vmm σ)
    (start bound flags : Word) :
    mapSegment hhdmOffset kernelVirt kernelPhys s (alignDown start pageSize)
        (alignUp bound pageSize) flags =
      .ok (runCalls hhdmOffset s
        (segmentCalls kernelVirt kernelPhys flags (segmentPages start bound))) := by
  rw [segmentCalls, runCalls_map]
  exact mapLoop_eq s (pageAligned_alignDown start) (pageAligned_alignUp bound) _

theorem mapEntry_ok {hhdmOffset : Word} {s s' : Vmm σ} {e : MemmapEntry}
    (h : mapEntry hhdmOffset s e = .ok s') :
    ∃ calls : List MapCall, (∀ c ∈ calls, Present c.flags) ∧ s' = runCalls hhdmOffset s calls := by
  have hloop : ∀ {start bound : Word} {f : Word → MapCall}, (∀ off, Present (f off).flags) →
      mapLoop s start bound (fun off s =>
        vmmMap hhdmOffset s s.kernelPm (f off).virt (f off).phys (f off).flags) = .ok s' →
      ∃ calls : List MapCall, (∀ c ∈ calls, Present c.flags) ∧
        s' = runCalls hhdmOffset s calls := by
    intro start bound f hf hmap
    obtain ⟨n, hn⟩ := mapLoop_ok hmap
    refine ⟨(ticks pageSize start n).map f, fun c hc => ?_, ?_⟩
    · obtain ⟨off, -, rfl⟩ := List.mem_map.mp hc
      exact hf off
    · rw [hn, runCalls_map]
  unfold mapEntry at h
  cases htype : e.type with
  | usable =>
    rw [htype] at h
    exact hloop (f := fun off => ⟨off + hhdmOffset, off, loopFlags .usable⟩)
      (fun _ => present_loopFlags _) h
  | framebuffer =>
    rw [htype] at h
    exact hloop (f := fun off => ⟨alignUp (e.base + off) pageSize + hhdmOffset,
      alignUp (e.base + off) pageSize, loopFlags .framebuffer⟩) (fun _ => present_loopFlags _) h
  | bootloaderReclaimable =>
    rw [htype] at h
    exact hloop (f := fun off => ⟨e.base + off + hhdmOffset, e.base + off,
      loopFlags .bootloaderReclaimable⟩) (fun _ => present_loopFlags _) h
  | _ =>
    rw [htype] at h
    exact ⟨[], by simp, (Except.ok.inj h).symm⟩

theorem mapEntries_ok {hhdmOffset : Word} {s s' : Vmm σ} {memmap : List MemmapEntry}
    (h : memmap.foldlM (mapEntry hhdmOffset) s = .ok s') :
    ∃ calls : List MapCall, (∀ c ∈ calls, Present c.flags) ∧ s' = runCalls hhdmOffset s calls := by
  induction memmap generalizing s with
  | nil => exact ⟨[], by simp, (Except.ok.inj h).symm⟩
  | cons e memmap ih =>
    rw [List.foldlM_cons] at h
    cases hentry : mapEntry hhdmOffset s e with
    | error stop =>
      rw [hentry] at h
      cases h
    | ok t =>
      rw [hentry] at h
      obtain ⟨xs, hxs, rfl⟩ := mapEntry_ok hentry
      obtain ⟨ys, hys, rfl⟩ := ih h
      refine ⟨xs ++ ys, fun c hc => ?_, (runCalls_append _ _ _ _).symm⟩
      exact (List.mem_append.mp hc).elim (hxs c) (hys c)

/-- The state in which the loops of `vmm_init` start. -/
def withPml4 (hhdmOffset : Word) (eax : BitVec 32) (s : Vmm σ) : Vmm σ :=
  { s with
    pmm := (PageAllocator.requestPages s.pmm 1).2
    mem := memset s.mem ((PageAllocator.requestPages s.pmm 1).1 + hhdmOffset) 0 pageSize.toNat
    kernelPm := ⟨(PageAllocator.requestPages s.pmm 1).1 + hhdmOffset⟩
    physicalAddressWidth := (eax &&& 0xff).setWidth 64
    linearAddressWidth := ((eax >>> 8) &&& 0xff).setWidth 64 }

section Equation

variable {hhdmOffset kernelVirt kernelPhys : Word} {memmap : List MemmapEntry}
  {layout : KernelLayout} {eax : BitVec 32} {s s' : Vmm σ}

theorem vmmInit_eq
    (halign : ∀ e ∈ memmap, e.type = .usable → PageAligned e.base ∧ PageAligned e.length)
    (hkernel : kernelVirt ≠ 0 ∧ kernelPhys ≠ 0)
    (hpml4 : (PageAllocator.requestPages s.pmm 1).1 ≠ 0) :
    vmmInit hhdmOffset memmap layout eax s kernelVirt kernelPhys =
      let t := runCalls hhdmOffset (withPml4 hhdmOffset eax s)
        (initCalls hhdmOffset memmap layout kernelVirt kernelPhys)
      .ok (0, vmmSetPm hhdmOffset t t.kernelPm) := by
  have hzero : ¬ (kernelVirt = 0 ∨ kernelPhys = 0) := by tauto
  simp only [vmmInit, if_neg hzero, if_neg hpml4]
  rw [mapEntries_eq hhdmOffset _ halign]
  simp only [initCalls, KernelLayout.calls, runCalls_append, ← List.append_assoc]
  simp only [bind, Except.bind, mapSegment_eq]
  rfl

theorem vmmInit_guards
    (h : vmmInit hhdmOffset memmap layout eax s kernelVirt kernelPhys = .ok (0, s')) :
    ¬ (kernelVirt = 0 ∨ kernelPhys = 0) ∧ (PageAllocator.requestPages s.pmm 1).1 ≠ 0 := by
  by_cases hzero : kernelVirt = 0 ∨ kernelPhys = 0
  · simp only [vmmInit, if_pos hzero, Except.ok.injEq, Prod.mk.injEq] at h
    exact absurd h.1 (by decide)
  by_cases hpml4 : (PageAllocator.requestPages s.pmm 1).1 = 0
  · simp only [vmmInit, if_neg hzero, if_pos hpml4, Except.ok.injEq, Prod.mk.injEq] at h
    exact absurd h.1 (by decide)
  exact ⟨hzero, hpml4⟩

theorem vmmInit_zero
    (halign : ∀ e ∈ memmap, e.type = .usable → PageAligned e.base ∧ PageAligned e.length)
    (h : vmmInit hhdmOffset memmap layout eax s kernelVirt kernelPhys = .ok (0, s')) :
    (PageAllocator.requestPages s.pmm 1).1 ≠ 0 ∧
      ∃ t, t = runCalls hhdmOffset (withPml4 hhdmOffset eax s)
        (initCalls hhdmOffset memmap layout kernelVirt kernelPhys) ∧
      s' = vmmSetPm hhdmOffset t t.kernelPm := by
  obtain ⟨hzero, hpml4⟩ := vmmInit_guards h
  rw [vmmInit_eq halign (by tauto) hpml4] at h
  simp only [Except.ok.injEq, Prod.mk.injEq, true_and] at h
  exact ⟨hpml4, _, rfl, h.symm⟩

/-- For any map at all, the calls for the kernel image come last. -/
theorem vmmInit_calls
    (h : vmmInit hhdmOffset memmap layout eax s kernelVirt kernelPhys = .ok (0, s')) :
    (PageAllocator.requestPages s.pmm 1).1 ≠ 0 ∧
      ∃ calls : List MapCall, (∀ c ∈ calls, Present c.flags) ∧
        ∃ t, t = runCalls hhdmOffset (withPml4 hhdmOffset eax s)
          (calls ++ layout.calls kernelVirt kernelPhys) ∧
        s' = vmmSetPm hhdmOffset t t.kernelPm := by
  obtain ⟨hzero, hpml4⟩ := vmmInit_guards h
  refine ⟨hpml4, ?_⟩
  simp only [vmmInit, if_neg hzero, if_neg hpml4] at h
  cases hentries : memmap.foldlM (mapEntry hhdmOffset) (withPml4 hhdmOffset eax s) with
  | error stop =>
    simp only [withPml4] at hentries
    rw [hentries] at h
    cases h
  | ok t =>
    obtain ⟨calls, hflags, ht⟩ := mapEntries_ok hentries
    simp only [withPml4] at hentries
    rw [hentries] at h
    simp only [bind, Except.bind, mapSegment_eq] at h
    refine ⟨calls, hflags, _, rfl, ?_⟩
    simp only [KernelLayout.calls, runCalls_append, ← List.append_assoc, ← ht]
    exact (Prod.mk.inj (Except.ok.inj h)).2.symm

end Equation

/-! ## What the calls leave -/

section Run

variable {hhdmOffset : Word} {root : Frame} {s : Vmm σ}

theorem Grown.kernelPm_reports {s' : Vmm σ} {roots : Set Frame} (hinv : VmmInv hhdmOffset roots s)
    (h : Grown hhdmOffset roots s s') :
    s'.kernelPm = s.kernelPm ∧ ∃ rs, s'.reports = s.reports ++ rs := by
  have hkeep := h.induct (Q := fun t => t.kernelPm = s.kernelPm ∧ ∃ rs, t.reports = s.reports ++ rs)
    (fun t t' _ hQ hgrow => by
      obtain ⟨hpm, rs, hrs⟩ := hQ
      cases hgrow with
      | refused => exact ⟨hpm, rs ++ [belowPmlReport], by simp [Vmm.refuse, Vmm.report, hrs]⟩
      | linked => exact ⟨hpm, rs, hrs⟩)
    hinv ⟨rfl, [], by simp⟩
  exact hkeep.2

/-- What a call does to the leaf entries: nothing, or what it is for. -/
structure CallPost (hhdmOffset : Word) (root : Frame) (s : Vmm σ) (c : MapCall) (s' : Vmm σ) :
    Prop where
  inv : VmmInv hhdmOffset {root} s'
  kernelPm : s'.kernelPm = s.kernelPm
  source : ∀ page e, walk (tables hhdmOffset s'.mem) root page = some e →
    walk (tables hhdmOffset s.mem) root page = some e ∨ (page = c.page ∧ e = c.entry)
  silent : ∃ rs, s'.reports = s.reports ++ rs ∧ (rs = [] →
    walk (tables hhdmOffset s'.mem) root =
      Function.update (walk (tables hhdmOffset s.mem) root) c.page (some c.entry))

theorem vmmMap_call (hinv : VmmInv hhdmOffset {root} s) (hpm : s.kernelPm = ⟨tableAddr hhdmOffset root⟩)
    {c : MapCall} (hflags : Present c.flags) :
    CallPost hhdmOffset root s c (vmmMap hhdmOffset s s.kernelPm c.virt c.phys c.flags) := by
  have hroot : root ∈ ({root} : Set Frame) := rfl
  have hwalk := fun page => vmmMap_walk hinv hroot c.virt c.phys c.flags hroot page
  have hinv' := vmmMap_inv hinv hroot c.virt c.phys c.flags
  rw [if_pos (present_or_flags hflags)] at hwalk
  rw [hpm]
  refine ⟨hinv', ?_, fun page e he => ?_, ?_⟩
  · obtain ⟨s₁, hgrown, -, ⟨-, pt, m, -, -, -, heq⟩ | ⟨-, heq⟩⟩ :=
      vmmMap_spec hinv hroot c.virt c.phys c.flags
    · rw [heq]
      exact (hgrown.kernelPm_reports hinv).1
    · rw [heq]
      exact (hgrown.kernelPm_reports hinv).1
  · rw [hwalk page] at he
    split_ifs at he with hhere
    · exact .inr ⟨hhere.1.2, (Option.some.inj he).symm⟩
    · exact .inl he
  · obtain ⟨s₁, hgrown, -, ⟨hobt, pt, m, -, -, -, heq⟩ | ⟨-, heq⟩⟩ :=
      vmmMap_spec hinv hroot c.virt c.phys c.flags
    · obtain ⟨-, rs, hrs⟩ := hgrown.kernelPm_reports hinv
      refine ⟨rs, by rw [heq]; exact hrs, fun _ => funext fun page => ?_⟩
      rw [hwalk page, Function.update_apply]
      simp only [true_and, hobt, and_true]
      rfl
    · obtain ⟨-, rs, hrs⟩ := hgrown.kernelPm_reports hinv
      refine ⟨rs ++ [pageTableReport], by simp [heq, Vmm.report, hrs], fun h => ?_⟩
      simp at h

def MapCall.write (c : MapCall) : Page × Word := (c.page, c.entry)

/-- After a list of calls every leaf entry comes from one of them, and if nothing was
reported the last call for a page decides. -/
theorem runCalls_spec (hinv : VmmInv hhdmOffset {root} s)
    (hpm : s.kernelPm = ⟨tableAddr hhdmOffset root⟩) {calls : List MapCall}
    (hflags : ∀ c ∈ calls, Present c.flags) :
    VmmInv hhdmOffset {root} (runCalls hhdmOffset s calls) ∧
      (runCalls hhdmOffset s calls).kernelPm = s.kernelPm ∧
      (∀ page e, walk (tables hhdmOffset (runCalls hhdmOffset s calls).mem) root page = some e →
        walk (tables hhdmOffset s.mem) root page = some e ∨
          ∃ c ∈ calls, page = c.page ∧ e = c.entry) ∧
      ∃ rs, (runCalls hhdmOffset s calls).reports = s.reports ++ rs ∧ (rs = [] →
        walk (tables hhdmOffset (runCalls hhdmOffset s calls).mem) root =
          replay (walk (tables hhdmOffset s.mem) root) (calls.map MapCall.write)) := by
  induction calls generalizing s with
  | nil => exact ⟨hinv, rfl, fun _ _ h => .inl h, [], (List.append_nil _).symm, fun _ => rfl⟩
  | cons c calls ih =>
    have hcall := vmmMap_call hinv hpm (hflags c List.mem_cons_self)
    obtain ⟨hinv', hpm', hsource, rs', hrs', hwalk'⟩ := ih hcall.inv (hcall.kernelPm.trans hpm)
      fun c' hc' => hflags c' (List.mem_cons_of_mem _ hc')
    obtain ⟨rs, hrs, hwalk⟩ := hcall.silent
    rw [runCalls_cons]
    refine ⟨hinv', hpm'.trans hcall.kernelPm, fun page e he => ?_, rs ++ rs', ?_, fun hnil => ?_⟩
    · rcases hsource page e he with he | ⟨c', hc', h⟩
      · rcases hcall.source page e he with he | h
        · exact .inl he
        · exact .inr ⟨c, List.mem_cons_self, h⟩
      · exact .inr ⟨c', List.mem_cons_of_mem _ hc', h⟩
    · rw [hrs', hrs, List.append_assoc]
    · obtain ⟨rfl, rfl⟩ := List.append_eq_nil_iff.mp hnil
      rw [hwalk' rfl, hwalk rfl]
      rfl

theorem withPml4_spec (eax : BitVec 32) (hserves : ServesFrames s.pmm ∅)
    (hpml4 : (PageAllocator.requestPages s.pmm 1).1 ≠ 0) :
    ∃ root, (PageAllocator.requestPages s.pmm 1).1 = frameAddr root ∧
      VmmInv hhdmOffset {root} (withPml4 hhdmOffset eax s) ∧
      (withPml4 hhdmOffset eax s).kernelPm = ⟨tableAddr hhdmOffset root⟩ ∧
      ∀ r ∈ ({root} : Set Frame), ∀ i, tables hhdmOffset (withPml4 hhdmOffset eax s).mem r i = 0 := by
  obtain ⟨root, -, heq, hserves'⟩ := hserves.first hpml4
  have hptr : (PageAllocator.requestPages s.pmm 1).1 + hhdmOffset = tableAddr hhdmOffset root := by
    rw [heq, tableAddr]
  have hcleared : ∀ r ∈ ({root} : Set Frame), ∀ i,
      tables hhdmOffset (withPml4 hhdmOffset eax s).mem r i = 0 := by
    rintro r rfl i
    simp only [withPml4, hptr, tables_memset, Tables.clear, if_true]
  refine ⟨root, heq, .of_cleared hcleared ?_, ?_, hcleared⟩
  · rwa [insert_empty_eq] at hserves'
  · simp only [withPml4, hptr]

end Run

/-- The page map `vmm_init` leaves when it answers 0. -/
structure InitTables (hhdmOffset : Word) (calls : List MapCall) (s s' : Vmm σ) (root : Frame) :
    Prop where
  kernelPm : s'.kernelPm = ⟨tableAddr hhdmOffset root⟩
  cr3 : s'.cr3 = frameAddr root
  inv : VmmInv hhdmOffset {root} s'
  source : ∀ page e, walk (tables hhdmOffset s'.mem) root page = some e →
    ∃ c ∈ calls, page = c.page ∧ e = c.entry
  exact : s'.reports = s.reports →
    walk (tables hhdmOffset s'.mem) root = replay (fun _ => none) (calls.map MapCall.write)

theorem runCalls_tables {hhdmOffset : Word} {eax : BitVec 32} {s t : Vmm σ} {calls : List MapCall}
    (hserves : ServesFrames s.pmm ∅) (hpml4 : (PageAllocator.requestPages s.pmm 1).1 ≠ 0)
    (hflags : ∀ c ∈ calls, Present c.flags)
    (ht : t = runCalls hhdmOffset (withPml4 hhdmOffset eax s) calls) :
    ∃ root, InitTables hhdmOffset calls s (vmmSetPm hhdmOffset t t.kernelPm) root := by
  obtain ⟨root, -, hinv, hpm, hcleared⟩ := @withPml4_spec _ _ hhdmOffset s eax hserves hpml4
  have hempty : walk (tables hhdmOffset (withPml4 hhdmOffset eax s).mem) root = fun _ => none :=
    funext fun page => walk_cleared hcleared rfl page
  obtain ⟨hinv', hpm', hsource, rs, hrs, hwalk⟩ := runCalls_spec hinv hpm hflags
  rw [← ht] at hinv' hpm' hsource hrs hwalk
  rw [hempty] at hsource hwalk
  refine ⟨root, hpm'.trans hpm, ?_, ⟨hinv'.tree, hinv'.serves⟩, fun page e he => ?_, fun hsilent => ?_⟩
  · change t.kernelPm.pml4 - hhdmOffset = frameAddr root
    rw [hpm', hpm]
    exact BitVec.add_sub_cancel _ _
  · rcases hsource page e he with h | h
    · cases h
    · exact h
  · have hreports : t.reports = s.reports := hsilent
    rw [hreports] at hrs
    exact hwalk (List.append_right_eq_self.mp hrs.symm)

theorem vmmInit_tables {hhdmOffset kernelVirt kernelPhys : Word} {memmap : List MemmapEntry}
    {layout : KernelLayout} {eax : BitVec 32} {s s' : Vmm σ}
    (halign : ∀ e ∈ memmap, e.type = .usable → PageAligned e.base ∧ PageAligned e.length)
    (hserves : ServesFrames s.pmm ∅)
    (h : vmmInit hhdmOffset memmap layout eax s kernelVirt kernelPhys = .ok (0, s')) :
    ∃ root, InitTables hhdmOffset (initCalls hhdmOffset memmap layout kernelVirt kernelPhys) s s'
      root := by
  obtain ⟨hpml4, t, ht, rfl⟩ := vmmInit_zero halign h
  exact runCalls_tables hserves hpml4 (fun c hc => present_of_mem_initCalls hc) ht

/-- For any map, the page map is that of some calls followed by those for the kernel. -/
theorem vmmInit_tables_of_any {hhdmOffset kernelVirt kernelPhys : Word} {memmap : List MemmapEntry}
    {layout : KernelLayout} {eax : BitVec 32} {s s' : Vmm σ} (hserves : ServesFrames s.pmm ∅)
    (h : vmmInit hhdmOffset memmap layout eax s kernelVirt kernelPhys = .ok (0, s')) :
    ∃ calls root, InitTables hhdmOffset (calls ++ layout.calls kernelVirt kernelPhys) s s' root := by
  obtain ⟨hpml4, calls, hflags, t, ht, rfl⟩ := vmmInit_calls h
  refine ⟨calls, runCalls_tables hserves hpml4 (fun c hc => ?_) ht⟩
  rcases List.mem_append.mp hc with hc | hc
  · exact hflags c hc
  · exact @present_of_mem_initCalls hhdmOffset kernelVirt kernelPhys [] layout c
      (List.mem_append_right _ hc)

theorem InitTables.hardware {hhdmOffset : Word} {calls : List MapCall} {s s' : Vmm σ}
    {root : Frame} (h : InitTables hhdmOffset calls s s' root) (virt : Word) :
    hardwareWalk hhdmOffset s'.mem s'.kernelPm virt =
      (walk (tables hhdmOffset s'.mem) root (pageOf virt)).map leafTranslation := by
  rw [h.kernelPm]
  exact hardwareWalk_eq h.inv.tree rfl virt

theorem InitTables.unmapped {hhdmOffset : Word} {calls : List MapCall} {s s' : Vmm σ}
    {root : Frame} {virt : Word} (h : InitTables hhdmOffset calls s s' root)
    (hcalls : ∀ c ∈ calls, pageOf virt ≠ c.page) :
    hardwareWalk hhdmOffset s'.mem s'.kernelPm virt = none := by
  rw [h.hardware, Option.map_eq_none_iff, Option.eq_none_iff_forall_ne_some]
  intro e he
  obtain ⟨c, hc, hpage, -⟩ := h.source _ _ he
  exact hcalls c hc hpage

end Calls

end Olive
