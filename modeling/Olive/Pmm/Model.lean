import Olive.Machine

/-!
# The physical memory manager (`pmm.c`)

The free pages are kept on a stack of physical addresses. `pm_stack` is the
pointer to its storage; the storage itself is the array `slots`, indexed as
`pm_stack[i]`. The Limine memory map is a global of this module, because
`pmm_init` shortens one of its entries in place.
-/

namespace Olive

structure Pmm where
  pmStack : Word
  slots : ℕ → Word
  pmStackIdx : Word
  pmFreePages : Word
  pmUsedPages : Word
  pmTotalPages : Word
  hhdmOffset : Word
  memmap : List MemmapEntry
  reports : List Report

namespace Pmm

/-- The globals as the loader leaves them, before `pmm_init`. -/
def boot : Pmm where
  pmStack := 0
  slots := fun _ => 0
  pmStackIdx := 0
  pmFreePages := 0
  pmUsedPages := 0
  pmTotalPages := 0
  hhdmOffset := 0
  memmap := []
  reports := []

def report (s : Pmm) (r : Report) : Pmm := { s with reports := s.reports ++ [r] }

def push (s : Pmm) (page : Word) : Pmm :=
  { s with
    slots := Function.update s.slots s.pmStackIdx.toNat page
    pmStackIdx := s.pmStackIdx + 1 }

/-- The pages on the free stack, bottom first: the slots below `pm_stack_idx`. -/
def live (s : Pmm) : List Word := (List.range s.pmStackIdx.toNat).map s.slots

end Pmm

def nullMemmapReport : Report :=
  ⟨.error, "Memory map is null, ensure that the configured bootloader provides a valid memory map.\n", []⟩

def zeroHhdmReport : Report :=
  ⟨.error, "HHDM offset is zero, ensure that the configured bootloader provides a valid HHDM offset.\n", []⟩

def pushOverflowReport : Report := ⟨.error, "PM Stack overflow while pushing pages.\n", []⟩

def outOfMemoryReport (pages : Word) : Report :=
  ⟨.warn, "Unable to allocate %zu pages, out of memory.\n", [pages]⟩

def freeOverflowReport : Report := ⟨.error, "PMM Stack overflow while freeing pages.\n", []⟩

/-- The first loop of `pmm_init`: add up the pages of the usable entries. -/
def countPages (entries : List MemmapEntry) (total : Word) : Word :=
  entries.foldl (fun total entry =>
    if entry.type = .usable then total + entry.length / pageSize else total) total

/-- `pm_stack_size`, the bytes needed for one slot per counted page. -/
def stackSize (total : Word) : Word := alignUp (total * 8) pageSize

/-- The second loop of `pmm_init`, downwards from entry `i - 1`: take the stack
from the end of the last usable entry that is long enough. -/
def locateStack (pmStackSize : Word) : ℕ → Pmm → Pmm
  | 0, s => s
  | i + 1, s =>
    match s.memmap[i]? with
    | none => s
    | some entry =>
      if entry.type = .usable ∧ pmStackSize ≤ entry.length then
        { s with
          pmStack := entry.base + entry.length - pmStackSize + s.hhdmOffset
          slots := fun k => if k < pmStackSize.toNat / 8 then 0 else s.slots k
          memmap := s.memmap.set i { entry with length := entry.length - pmStackSize } }
      else locateStack pmStackSize i s

/-- The inner loop of the third pass of `pmm_init`. The function returns from
inside the loop when the stack is full; `.error` carries the state it leaves. -/
def pushEntry (entry : MemmapEntry) (j : Word) (s : Pmm) : Except Pmm Pmm :=
  if j < entry.length then
    if s.pmTotalPages ≤ s.pmStackIdx then .error (s.report pushOverflowReport)
    else pushEntry entry (j + pageSize) (s.push (entry.base + j))
  else .ok s
termination_by s.pmTotalPages.toNat - s.pmStackIdx.toNat
decreasing_by
  rename_i hfull
  rw [BitVec.le_def] at hfull
  have := s.pmTotalPages.isLt
  have hidx : (s.pmStackIdx + 1).toNat = s.pmStackIdx.toNat + 1 := by
    rw [BitVec.toNat_add, show (1 : Word).toNat = 1 from rfl]
    omega
  simp only [Pmm.push, hidx]
  omega

/-- The third loop of `pmm_init`: push all pages of the usable entries. -/
def pushEntries : List MemmapEntry → Pmm → Except Pmm Pmm
  | [], s => .ok s
  | entry :: entries, s =>
    if entry.type = .usable then (pushEntry entry 0 s).bind (pushEntries entries)
    else pushEntries entries s

/-- `pmm_init(memmap, hhdm_offset)`; `none` is the NULL memory map. -/
def pmmInit (memmap : Option (List MemmapEntry)) (hhdmOffset : Word) (s : Pmm) : Int × Pmm :=
  match memmap with
  | none => (1, s.report nullMemmapReport)
  | some entries =>
    if hhdmOffset = 0 then (1, s.report zeroHhdmReport)
    else
      let s := { s with memmap := entries, hhdmOffset := hhdmOffset }
      let s := { s with pmTotalPages := countPages s.memmap s.pmTotalPages }
      let s := locateStack (stackSize s.pmTotalPages) s.memmap.length s
      match pushEntries s.memmap s with
      | .error s => (1, s)
      | .ok s => (0, { s with pmFreePages := s.pmStackIdx })

/-- `pmm_request_pages(pages)`: the returned address and the new globals. -/
def pmmRequestPages (s : Pmm) (pages : Word) : Word × Pmm :=
  if pages = 0 ∨ s.pmStackIdx < pages then (0, s.report (outOfMemoryReport pages))
  else
    let idx := s.pmStackIdx - pages
    (s.slots idx.toNat,
      { s with
        pmStackIdx := idx
        pmUsedPages := s.pmUsedPages + pages
        pmFreePages := s.pmFreePages - pages })

/-- The loop of `pmm_free_pages` from iteration `i` on, `n` iterations left; the
flag says that it returned early because the stack was full. -/
def pushFreed (pageAddr : Word) : ℕ → Word → Pmm → Bool × Pmm
  | 0, _, s => (false, s)
  | n + 1, i, s =>
    if s.pmTotalPages ≤ s.pmStackIdx then (true, s.report freeOverflowReport)
    else pushFreed pageAddr n (i + 1) (s.push (pageAddr + i * pageSize))

def pmmFreePages (s : Pmm) (ptr pages : Word) : Except Stop Pmm := do
  assert (ptr ≠ 0) "ptr != NULL"
  assert (ptr % pageSize = 0) "(uint64_t)ptr % PAGE_SIZE == 0"
  assert (0 < pages) "pages > 0"
  match pushFreed ptr pages.toNat 0 s with
  | (true, s) => .ok s
  | (false, s) =>
    .ok { s with
      pmFreePages := s.pmFreePages + pages
      pmUsedPages := s.pmUsedPages - pages }

end Olive
