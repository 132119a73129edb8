import Olive.Heap.Model
import Olive.Library.Code
import Olive.Vmm.Model

/-!
# The kernel with its locks (`stdlock.h`, `printf.c`, `pmm.c`, `vmm.c`)

The functions that several contexts may run at a time, as programs over the shared state:
every access to a global or to memory is a step of its own, and so are taking and releasing
a spinlock and entering and leaving the PMM, which has no lock. `npf_vsnprintf` is a
parameter: the text it formats decides how often `putchar` is called, and nothing else.

Left out are the flush of the TLB, which concerns one CPU only, and `DEBUG` and `TRACE`.
-/

namespace Olive

open Library

inductive Lock where
  | mapLock
  | liballocLockVar
  | printfLock
  deriving DecidableEq, Repr

instance : Fintype Lock :=
  ⟨{.mapLock, .liballocLockVar, .printfLock}, by intro l; cases l <;> decide⟩

/-- The code between entry and exit of `pmm_request_pages` and `pmm_free_pages`. -/
inductive Section where
  | pmm
  deriving DecidableEq, Repr

/-- What the contexts share. `ftCtx` says that `ft_ctx` is not `NULL`, and
`interruptFlag` is the bit IF of the CPU. -/
structure Kernel extends Heap where
  errorCount : Word
  possibleOverruns : Word
  ftCtx : Bool
  console : List Char
  interruptFlag : Bool

abbrev Program := Code Lock Section Kernel

inductive Arg where
  | num (w : Word)
  | str (s : String)
  deriving DecidableEq, Repr

/-- `npf_vsnprintf`: the text of a format string and its arguments. -/
abbrev Formatter := String → List Arg → List Char

namespace Locked

def spinlockAcquire (lock : Lock) : Program Unit := Code.lock lock
def spinlockRelease (lock : Lock) : Program Unit := Code.unlock lock

/-- `hcf()`: with interrupts masked, `hlt` never returns. -/
def hcf {α : Type} : Program α := do
  Code.modify fun k => { k with interruptFlag := false }
  Code.stop

/-- `idt_load`: the `sti` at its end. -/
def idtLoad : Program Unit := Code.modify fun k => { k with interruptFlag := true }

/-! ## `printf.c` -/

def putchar (ch : Char) : Program Char := do
  spinlockAcquire .printfLock
  Code.modify fun k => if k.ftCtx then { k with console := k.console ++ [ch] } else k
  spinlockRelease .printfLock
  return ch

/-- The loop of `puts` from the character at `str` on; the list ends where the NUL is. -/
def putsLoop : List Char → ℤ → Program ℤ
  | [], length => return length
  | ch :: str, length => do
    let _ ← putchar ch
    putsLoop str (length + 1)

def puts (str : List Char) : Program ℤ := do
  spinlockAcquire .printfLock
  let length ← putsLoop str 0
  let _ ← putchar '\n'
  spinlockRelease .printfLock
  return length + 1

def putchars : List Char → Program Unit
  | [] => return ()
  | ch :: chs => do
    let _ ← putchar ch
    putchars chs

section Printf

variable (npf : Formatter)

/-- `vfprintf(NULL, fmt, args)`: a text that does not fit into `buffer` is dropped. -/
def vfprintf (fmt : String) (args : List Arg) : Program Int := do
  let length := (npf fmt args).length
  if length < 1024 then
    putchars (npf fmt args)
    return length
  else return length

def printf (fmt : String) (args : List Arg) : Program Int := vfprintf npf fmt args

def log (level fmt : String) (args : List Arg) : Program Unit := do
  let _ ← printf npf "[%s]: " [.str level]
  let _ ← printf npf fmt args
  return ()

/-- A line of the modules that are modelled without locks. -/
def report (r : Report) : Program Unit :=
  match r.level with
  | .warn => log npf "WARN" r.text (r.args.map .num)
  | .error => log npf "ERROR" r.text (r.args.map .num)

def assert (x : Bool) (text : String) : Program Unit :=
  if x then return ()
  else do
    log npf "ERROR" "Assertion failed: %s" [.str text]
    hcf

/-! ## `pmm.c` -/

def pmmRequestPages (pages : Word) : Program Word := do
  Code.entry .pmm
  let short ← Code.get fun k => decide (pages = 0 ∨ k.pmm.pmStackIdx < pages)
  if short then
    report npf (outOfMemoryReport pages)
    Code.exit .pmm
    return 0
  else
    Code.modify fun k => { k with pmm.pmStackIdx := k.pmm.pmStackIdx - pages }
    let ptr ← Code.get fun k => k.pmm.slots k.pmm.pmStackIdx.toNat
    Code.modify fun k => { k with pmm.pmUsedPages := k.pmm.pmUsedPages + pages }
    Code.modify fun k => { k with pmm.pmFreePages := k.pmm.pmFreePages - pages }
    Code.exit .pmm
    return ptr

/-- The loop of `pmm_free_pages` from iteration `i` on, `n` iterations left; the answer
says that it returns early because the stack is full. -/
def pushFreed (pageAddr : Word) : ℕ → Word → Program Bool
  | 0, _ => return false
  | n + 1, i => do
    let full ← Code.get fun k => decide (k.pmm.pmTotalPages ≤ k.pmm.pmStackIdx)
    if full then
      report npf freeOverflowReport
      return true
    else
      Code.modify fun k => { k with pmm := k.pmm.push (pageAddr + i * pageSize) }
      pushFreed pageAddr n (i + 1)

def pmmFreePages (ptr pages : Word) : Program Unit := do
  Code.entry .pmm
  assert npf (ptr ≠ 0) "ptr != NULL"
  assert npf (ptr % pageSize = 0) "(uint64_t)ptr % PAGE_SIZE == 0"
  assert npf (0 < pages) "pages > 0"
  let full ← pushFreed npf ptr pages.toNat 0
  if full then Code.exit .pmm
  else
    Code.modify fun k => { k with pmm.pmFreePages := k.pmm.pmFreePages + pages }
    Code.modify fun k => { k with pmm.pmUsedPages := k.pmm.pmUsedPages - pages }
    Code.exit .pmm

/-! ## `vmm.c` -/

def getBelowPml (pmlPointer index : Word) (force : Bool) : Program Word := do
  let present ← Code.get fun k =>
    decide (k.mem.load64 (pmlPointer + index * 8) &&& pteBitPresent ≠ 0)
  if present then
    Code.get fun k => (k.mem.load64 (pmlPointer + index * 8) &&& frameMask) + k.pmm.hhdmOffset
  else if !force then return 0
  else
    let belowPml ← pmmRequestPages npf 1
    if belowPml = 0 then
      report npf belowPmlReport
      return 0
    else
      Code.modify fun k =>
        { k with mem := memset k.mem (belowPml + k.pmm.hhdmOffset) 0 pageSize.toNat }
      Code.modify fun k => { k with
        mem := k.mem.store64 (pmlPointer + index * 8)
          (belowPml ||| pteBitPresent ||| pteBitReadWrite ||| pteBitAccessAll) }
      Code.get fun k => belowPml + k.pmm.hhdmOffset

def pml4ToPt (pml4 virt : Word) (force : Bool) : Program Word := do
  let pdpt ← getBelowPml npf pml4 (tableIndex virt 39) force
  if pdpt = 0 then return 0
  else
    let pd ← getBelowPml npf pdpt (tableIndex virt 30) force
    if pd = 0 then return 0
    else
      let pt ← getBelowPml npf pd (tableIndex virt 21) force
      if pt = 0 then return 0 else return pt

def vmmMap (pm : Pagemap) (virt phys flags : Word) : Program Unit := do
  spinlockAcquire .mapLock
  let pt ← pml4ToPt npf pm.pml4 virt true
  if pt = 0 then
    report npf pageTableReport
    spinlockRelease .mapLock
  else
    Code.modify fun k =>
      { k with mem := k.mem.store64 (pt + tableIndex virt 12 * 8) (phys ||| flags) }
    spinlockRelease .mapLock

def vmmUnmap (pm : Pagemap) (virt : Word) (freePhys : Bool) : Program Bool := do
  spinlockAcquire .mapLock
  let pt ← pml4ToPt npf pm.pml4 virt false
  if pt = 0 then
    spinlockRelease .mapLock
    return false
  else
    if freePhys then
      let entry ← Code.get fun k => k.mem.load64 (pt + tableIndex virt 12 * 8)
      pmmFreePages npf (entry &&& frameMask) 1
    Code.modify fun k => { k with mem := k.mem.store64 (pt + tableIndex virt 12 * 8) 0 }
    spinlockRelease .mapLock
    return true

/-! ## `liballoc_wrappers.c` -/

def liballocLock : Program Unit := spinlockAcquire .liballocLockVar

def liballocUnlock : Program Unit := spinlockRelease .liballocLockVar

def liballocAlloc (pages : BitVec 32) : Program Word := do
  let ptr ← pmmRequestPages npf (pages.signExtend 64)
  Code.get fun k => ptr + k.pmm.hhdmOffset

def liballocFree (ptr : Word) (pages : BitVec 32) : Program Unit :=
  pmmFreePages npf ptr (pages.signExtend 64)

end Printf

end Locked

end Olive
