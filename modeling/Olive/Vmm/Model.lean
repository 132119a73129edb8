import Olive.LibString
import Olive.Library.Loops
import Olive.Pmm.Spec

/-!
# The virtual memory manager (`vmm.c`)

Page tables are frames of physical memory, read and written through the higher
half direct map: the table in the frame `p` is the byte range of `p + _hhdm_offset`.
Memory is one flat byte array addressed this way. The page allocator behind the
tables is a parameter, because the code relies on nothing of the PMM but
`pmm_request_pages` and `pmm_free_pages`; `_hhdm_offset` is passed along.

Left out: the lock `map_lock`, since one context runs at a time, and the flush of
the TLB, since every walk reads memory.
-/

namespace Olive

open Library

/-- What `vmm.c` uses of the physical memory manager. -/
class PageAllocator (σ : Type) where
  requestPages : σ → Word → Word × σ
  freePages : σ → Word → Word → Except Stop σ

instance : PageAllocator Pmm where
  requestPages := pmmRequestPages
  freePages := pmmFreePages

/-- `pagemap_t`: the virtual address of a PML4. -/
structure Pagemap where
  pml4 : Word
  deriving DecidableEq, Repr

/-- The globals of `vmm.c`, the register CR3, and the memory and the page allocator
they work on. -/
structure Vmm (σ : Type) where
  pmm : σ
  mem : Memory 64
  kernelPm : Pagemap
  physicalAddressWidth : Word
  linearAddressWidth : Word
  cr3 : Word
  reports : List Report

def Vmm.report {σ : Type} (s : Vmm σ) (r : Report) : Vmm σ := { s with reports := s.reports ++ [r] }

def belowPmlReport : Report := ⟨.error, "Failed to allocate page for lower level page table\n", []⟩

def pageTableReport : Report :=
  ⟨.error, "Page table doesn't exist and didn't get created?", []⟩

def zeroKernelAddressReport (kernelVirt kernelPhys : Word) : Report :=
  ⟨.error, "Kernel virtual or physical addresses are zero, Virtual: 0x%.16llx, Physical: 0x%.16llx\n",
    [kernelVirt, kernelPhys]⟩

def pml4Report : Report := ⟨.error, "Failed to allocate memory for PML4\n", []⟩

/-! `PTE_BIT_...` -/

def pteBitPresent : Word := (1 : Word) <<< 0
def pteBitReadWrite : Word := (1 : Word) <<< 1
def pteBitAccessAll : Word := (1 : Word) <<< 2
def pteBitWriteThroughCaching : Word := (1 : Word) <<< 3
def pteBitExecuteDisable : Word := (1 : Word) <<< 63

def frameMask : Word := 0x000ffffffffff000

def tableIndex (virt : Word) (shift : ℕ) : Word := (virt &&& ((0x1ff : Word) <<< shift)) >>> shift

section Tables

variable {σ : Type} [PageAllocator σ] (hhdmOffset : Word)

/-- `get_below_pml(pml_pointer, index, force)`; the answer 0 is `NULL`. -/
def getBelowPml (s : Vmm σ) (pmlPointer index : Word) (force : Bool) : Word × Vmm σ :=
  let entry := s.mem.load64 (pmlPointer + index * 8)
  if entry &&& pteBitPresent ≠ 0 then ((entry &&& frameMask) + hhdmOffset, s)
  else if !force then (0, s)
  else
    let belowPml := (PageAllocator.requestPages s.pmm 1).1
    let s := { s with pmm := (PageAllocator.requestPages s.pmm 1).2 }
    if belowPml = 0 then (0, s.report belowPmlReport)
    else
      let mem := memset s.mem (belowPml + hhdmOffset) 0 pageSize.toNat
      let mem := mem.store64 (pmlPointer + index * 8)
        (belowPml ||| pteBitPresent ||| pteBitReadWrite ||| pteBitAccessAll)
      (belowPml + hhdmOffset, { s with mem := mem })

def pml4ToPt (s : Vmm σ) (pml4 virt : Word) (force : Bool) : Word × Vmm σ :=
  let (pdpt, s) := getBelowPml hhdmOffset s pml4 (tableIndex virt 39) force
  if pdpt = 0 then (0, s)
  else
    let (pd, s) := getBelowPml hhdmOffset s pdpt (tableIndex virt 30) force
    if pd = 0 then (0, s)
    else getBelowPml hhdmOffset s pd (tableIndex virt 21) force

def vmmMap (s : Vmm σ) (pm : Pagemap) (virt phys flags : Word) : Vmm σ :=
  let (pt, s) := pml4ToPt hhdmOffset s pm.pml4 virt true
  if pt = 0 then s.report pageTableReport
  else { s with mem := s.mem.store64 (pt + tableIndex virt 12 * 8) (phys ||| flags) }

def vmmUnmap (s : Vmm σ) (pm : Pagemap) (virt : Word) (freePhys : Bool) :
    Except Stop (Bool × Vmm σ) := do
  let (pt, s) := pml4ToPt hhdmOffset s pm.pml4 virt false
  if pt = 0 then .ok (false, s)
  else
    let entry := s.mem.load64 (pt + tableIndex virt 12 * 8)
    let pmm ← if freePhys then PageAllocator.freePages s.pmm (entry &&& frameMask) 1 else .ok s.pmm
    .ok (true, { s with
      pmm := pmm
      mem := s.mem.store64 (pt + tableIndex virt 12 * 8) 0 })

def virt2phys (s : Vmm σ) (pm : Pagemap) (virt : Word) : Word :=
  let pt := (pml4ToPt hhdmOffset s pm.pml4 virt false).1
  if pt = 0 then 0
  else
    let mask := (((1 : Word) <<< s.physicalAddressWidth.toNat) - 1) &&& ~~~0xfff
    (s.mem.load64 (pt + tableIndex virt 12 * 8) &&& mask) ||| (virt &&& 0xfff)

def vmmSetPm (s : Vmm σ) (pm : Pagemap) : Vmm σ := { s with cr3 := pm.pml4 - hhdmOffset }

end Tables

/-! ## `vmm_init` -/

structure KernelLayout where
  textStart : Word
  textEnd : Word
  rodataStart : Word
  rodataEnd : Word
  dataStart : Word
  dataEnd : Word

section Init

variable {σ : Type} [PageAllocator σ]

/-- `for (x = start; x < bound; x += PAGE_SIZE)` with a body that maps one page.
After 2^52 rounds the counter has taken all its values and the loop never ends. -/
def mapLoop (s : Vmm σ) (start bound : Word) (body : Word → Vmm σ → Vmm σ) :
    Except Stop (Vmm σ) :=
  forLoop pageSize bound (fun x s => .ok (body x s)) .diverges (2 ^ 52 + 1) start s

def mapEntry (hhdmOffset : Word) (s : Vmm σ) (entry : MemmapEntry) : Except Stop (Vmm σ) :=
  match entry.type with
  | .usable =>
    mapLoop s entry.base (entry.base + entry.length) fun off s =>
      vmmMap hhdmOffset s s.kernelPm (off + hhdmOffset) off (pteBitPresent ||| pteBitReadWrite)
  | .framebuffer =>
    mapLoop s 0 (alignUp (entry.base + entry.length) pageSize) fun off s =>
      let baseOffAligned := alignUp (entry.base + off) pageSize
      vmmMap hhdmOffset s s.kernelPm (baseOffAligned + hhdmOffset) baseOffAligned
        (pteBitPresent ||| pteBitReadWrite ||| pteBitExecuteDisable ||| pteBitWriteThroughCaching)
  | .bootloaderReclaimable =>
    mapLoop s 0 (alignUp (entry.base + entry.length) pageSize) fun off s =>
      vmmMap hhdmOffset s s.kernelPm (entry.base + off + hhdmOffset) (entry.base + off)
        (pteBitPresent ||| pteBitReadWrite)
  | _ => .ok s

def mapSegment (hhdmOffset kernelVirt kernelPhys : Word) (s : Vmm σ) (start bound flags : Word) :
    Except Stop (Vmm σ) :=
  mapLoop s start bound fun addr s =>
    vmmMap hhdmOffset s s.kernelPm addr (addr - kernelVirt + kernelPhys) flags

/-- `vmm_init(kernel_virt, kernel_phys)`. The arguments before `s` are the globals
`_hhdm_offset` and `_memmap` of the PMM, the symbols of the linker script and what
`cpuid` leaves in EAX for leaf 0x80000008. -/
def vmmInit (hhdmOffset : Word) (memmap : List MemmapEntry) (layout : KernelLayout)
    (eax : BitVec 32) (s : Vmm σ) (kernelVirt kernelPhys : Word) :
    Except Stop (Int × Vmm σ) :=
  if kernelVirt = 0 ∨ kernelPhys = 0 then
    .ok (1, s.report (zeroKernelAddressReport kernelVirt kernelPhys))
  else
    let s := { s with
      physicalAddressWidth := (eax &&& 0xff).setWidth 64
      linearAddressWidth := ((eax >>> 8) &&& 0xff).setWidth 64 }
    let pml4 := (PageAllocator.requestPages s.pmm 1).1
    let s := { s with
      pmm := (PageAllocator.requestPages s.pmm 1).2
      kernelPm := ⟨pml4⟩ }
    if pml4 = 0 then .ok (1, s.report pml4Report)
    else do
      let s := { s with
        kernelPm := ⟨pml4 + hhdmOffset⟩
        mem := memset s.mem (pml4 + hhdmOffset) 0 pageSize.toNat }
      let textStart := alignDown layout.textStart pageSize
      let rodataStart := alignDown layout.rodataStart pageSize
      let dataStart := alignDown layout.dataStart pageSize
      let textEnd := alignUp layout.textEnd pageSize
      let rodataEnd := alignUp layout.rodataEnd pageSize
      let dataEnd := alignUp layout.dataEnd pageSize
      let s ← memmap.foldlM (mapEntry hhdmOffset) s
      let s ← mapSegment hhdmOffset kernelVirt kernelPhys s textStart textEnd pteBitPresent
      let s ← mapSegment hhdmOffset kernelVirt kernelPhys s rodataStart rodataEnd
        (pteBitPresent ||| pteBitExecuteDisable)
      let s ← mapSegment hhdmOffset kernelVirt kernelPhys s dataStart dataEnd
        (pteBitPresent ||| pteBitReadWrite ||| pteBitExecuteDisable)
      .ok (0, vmmSetPm hhdmOffset s s.kernelPm)

end Init

end Olive
