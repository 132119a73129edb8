import Olive.Library.ByteMemory
import Olive.Heap.Wrappers

/-!
# The kernel heap (`liballoc.c`)

The heap is a list of major blocks, each a run of pages that starts with a
`liballoc_major` header and holds a list of minor blocks. All headers live in byte
memory and are read and written there, so a header that overlaps another one, or a
list that runs in a circle, behaves as it does on the machine.

`kmalloc` is one loop over the major blocks with five numbered cases. It is kept
as a machine with two program points: the head of the loop with case 1, and cases
2 to 5. A block is requested at the end of case 1 and of case 5 only. The lock is
left out, and so is the caller's address that the warning about size 0 prints.
-/

namespace Olive

open Library

/-- The globals of `liballoc.c` together with the memory and the PMM behind them. -/
structure Heap where
  pmm : Pmm
  mem : Memory 64
  memRoot : Word
  bestBet : Word
  allocated : Word
  inuse : Word
  warningCount : Word
  reports : List Report

def Heap.boot (pmm : Pmm) (mem : Memory 64) : Heap where
  pmm := pmm
  mem := mem
  memRoot := 0
  bestBet := 0
  allocated := 0
  inuse := 0
  warningCount := 0
  reports := []

def Heap.report (h : Heap) (r : Report) : Heap := { h with reports := h.reports ++ [r] }

def Heap.warn (h : Heap) (r : Report) : Heap :=
  { h.report r with warningCount := h.warningCount + 1 }

def liballocAllocNullReport (st : BitVec 32) : Report :=
  ⟨.warn, "liballoc: liballoc_alloc( %i ) return NULL\n", [st.setWidth 64]⟩

def allocZeroReport : Report := ⟨.warn, "liballoc: alloc( 0 ) called from %x\n", []⟩

def memRootReport : Report :=
  ⟨.error, "liballoc: initial l_memRoot initialization failed\n", [0]⟩

def casesExhaustedReport : Report := ⟨.warn, "All cases exhausted. No memory available.\n", []⟩

def mallocNullReport (size : Word) : Report :=
  ⟨.warn, "liballoc: PREFIX(malloc)( %i ) returning NULL.\n", [size]⟩

/-! ## Headers -/

def liballocMagic : BitVec 32 := 0xc001c0de

def sizeofMajor : Word := 40

def sizeofMinor : Word := 40

def lPageSize : BitVec 32 := 4096

def lPageCount : BitVec 32 := 16

/-! The addresses of the fields of the major block at `maj`. -/

def majPrev (maj : Word) : Word := maj
def majNext (maj : Word) : Word := maj + 8
def majPages (maj : Word) : Word := maj + 16
def majSize (maj : Word) : Word := maj + 20
def majUsage (maj : Word) : Word := maj + 24
def majFirst (maj : Word) : Word := maj + 32

/-! The addresses of the fields of the minor block at `min`. -/

def minPrev (min : Word) : Word := min
def minNext (min : Word) : Word := min + 8
def minBlock (min : Word) : Word := min + 16
def minMagic (min : Word) : Word := min + 24
def minSize (min : Word) : Word := min + 28
def minReqSize (min : Word) : Word := min + 32

/-- A 32-bit field as the `uintptr_t` it is used as. -/
def loadUInt (m : Memory 64) (a : Word) : Word := (m.load32 a).setWidth 64

/-- Store to a 32-bit field what is left of a 64-bit value. -/
def storeUInt (m : Memory 64) (a v : Word) : Memory 64 := m.store32 a (v.setWidth 32)

/-! ## New major blocks -/

/-- The page count `allocate_new_page` asks for; all sums are cut to 32 bits. -/
def newPageCount (size : BitVec 32) : BitVec 32 :=
  let st := (size.setWidth 64 + sizeofMajor).setWidth 32
  let st := (st.setWidth 64 + sizeofMinor).setWidth 32
  let st := if st % lPageSize = 0 then st / lPageSize else st / lPageSize + 1
  if st < lPageCount then lPageCount else st

def initMajor (st : BitVec 32) (maj : Word) (m : Memory 64) : Memory 64 :=
  let m := m.store64 (majPrev maj) 0
  let m := m.store64 (majNext maj) 0
  let m := m.store32 (majPages maj) st
  let m := m.store32 (majSize maj) (st * lPageSize)
  let m := storeUInt m (majUsage maj) sizeofMajor
  m.store64 (majFirst maj) 0

def allocateNewPage (size : BitVec 32) (h : Heap) : Word × Heap :=
  let st := newPageCount size
  let maj := (liballocAlloc h.pmm st).1
  let h := { h with pmm := (liballocAlloc h.pmm st).2 }
  if maj = 0 then (0, h.warn (liballocAllocNullReport st))
  else
    let m := initMajor st maj h.mem
    (maj, { h with mem := m, allocated := h.allocated + loadUInt m (majSize maj) })

/-! ## Placing a minor block -/

/-- `ALIGN(p)`: the pointer to hand out, and the memory with the distance noted
in front of it. -/
def align (p : Word) (m : Memory 64) : Word × Memory 64 :=
  let p := p + 16
  let diff := p &&& 15
  let diff := if diff = 0 then 0 else 16 - diff
  let p := p + diff
  (p, m.store (p - 16) 1 (diff + 16).toNat)

/-- Where a major block has room: it is empty (case 2), before its first minor
block (case 3), after its last one (case 4.1), or behind `min` (case 4.2). -/
inductive Place where
  | empty
  | front
  | last (min : Word)
  | gap (min : Word)
  deriving DecidableEq, Repr

/-- The loop of case 4 from the minor block `min` on. -/
def findMinor (size maj : Word) (m : Memory 64) : ℕ → Word → Except Stop (Option Place)
  | 0, _ => .error .diverges
  | fuel + 1, min =>
    if min = 0 then .ok none
    else
      let next := m.load64 (minNext min)
      let room := (if next = 0 then maj + loadUInt m (majSize maj) else next) - min - sizeofMinor -
        loadUInt m (minSize min)
      if size + sizeofMinor ≤ room then .ok (some (if next = 0 then .last min else .gap min))
      else findMinor size maj m fuel next

/-- The tests of cases 2, 3 and 4. -/
def findPlace (size maj : Word) (m : Memory 64) (fuel : ℕ) : Except Stop (Option Place) :=
  let first := m.load64 (majFirst maj)
  if first = 0 then .ok (some .empty)
  else if size + sizeofMinor ≤ first - maj - sizeofMajor then .ok (some .front)
  else findMinor size maj m fuel first

def fillMinor (size reqSize maj min : Word) (m : Memory 64) : Memory 64 :=
  let m := m.store32 (minMagic min) liballocMagic
  let m := m.store64 (minBlock min) maj
  let m := storeUInt m (minSize min) size
  storeUInt m (minReqSize min) reqSize

/-- The links and fields of the new minor block, and its address. -/
def linkMinor (size reqSize maj : Word) (m : Memory 64) : Place → Word × Memory 64
  | .empty =>
    let min := maj + sizeofMajor
    let m := m.store64 (majFirst maj) min
    let m := m.store64 (minPrev min) 0
    let m := m.store64 (minNext min) 0
    (min, fillMinor size reqSize maj min m)
  | .front =>
    let m := m.store64 (minPrev (m.load64 (majFirst maj))) (maj + sizeofMajor)
    let m := m.store64 (minNext (m.load64 (minPrev (m.load64 (majFirst maj)))))
      (m.load64 (majFirst maj))
    let m := m.store64 (majFirst maj) (m.load64 (minPrev (m.load64 (majFirst maj))))
    let min := m.load64 (majFirst maj)
    let m := m.store64 (minPrev min) 0
    (min, fillMinor size reqSize maj min m)
  | .last last =>
    let m := m.store64 (minNext last) (last + sizeofMinor + loadUInt m (minSize last))
    let m := m.store64 (minPrev (m.load64 (minNext last))) last
    let min := m.load64 (minNext last)
    let m := m.store64 (minNext min) 0
    (min, fillMinor size reqSize maj min m)
  | .gap prev =>
    let min := prev + sizeofMinor + loadUInt m (minSize prev)
    let m := m.store64 (minNext min) (m.load64 (minNext prev))
    let m := m.store64 (minPrev min) prev
    let m := fillMinor size reqSize maj min m
    let m := m.store64 (minPrev (m.load64 (minNext prev))) min
    (min, m.store64 (minNext prev) min)

/-- Set up the minor block, account for it and return the pointer to its payload. -/
def install (size reqSize maj : Word) (place : Place) (h : Heap) : Word × Heap :=
  let (min, m) := linkMinor size reqSize maj h.mem place
  let m := storeUInt m (majUsage maj) (loadUInt m (majUsage maj) + (size + sizeofMinor))
  let (p, m) := align (min + sizeofMinor) m
  (p, { h with mem := m, inuse := h.inuse + size })

/-! ## The search loop -/

/-- Where the loop stands: at its head, or before case 2. -/
inductive Pc where
  | head
  | place
  deriving DecidableEq, Repr

/-- The local variables of `kmalloc`'s loop and the heap they refer to. -/
structure Cursor where
  pc : Pc
  maj : Word
  bestSize : Word
  startedBet : Bool
  heap : Heap

/-- What the loop does next. `needsBlock` stops before `allocate_new_page`, and
says where the loop goes on if that succeeds. -/
inductive Next where
  | breaks (h : Heap)
  | returns (p : Word) (h : Heap)
  | continues (c : Cursor)
  | needsBlock (c : Cursor) (pc : Pc)

def majFree (m : Memory 64) (maj : Word) : Word :=
  (m.load32 (majSize maj) - m.load32 (majUsage maj)).setWidth 64

/-- The best block so far, `diff` bytes of which are free. -/
def noteBest (diff : Word) (c : Cursor) : Cursor :=
  if c.bestSize < diff then
    { c with heap := { c.heap with bestBet := c.maj }, bestSize := diff }
  else c

/-- The ends of case 1 and of case 5: on to the next major block, back to the first
one if the search started behind it, or on to a new one. -/
def leaveMajor (c : Cursor) (pc : Pc) : Next :=
  let next := c.heap.mem.load64 (majNext c.maj)
  if next ≠ 0 then .continues { c with pc := .head, maj := next }
  else if c.startedBet then
    .continues { c with pc := .head, maj := c.heap.memRoot, startedBet := false }
  else .needsBlock c pc

/-- The head of the loop and case 1. -/
def headStep (size : Word) (c : Cursor) : Next :=
  if c.maj = 0 then .breaks c.heap
  else
    let diff := majFree c.heap.mem c.maj
    let c := noteBest diff c
    if diff < size + sizeofMinor then leaveMajor c .place else .continues { c with pc := .place }

/-- Cases 2 to 5. -/
def placeStep (size reqSize : Word) (fuel : ℕ) (c : Cursor) : Except Stop Next := do
  match ← findPlace size c.maj c.heap.mem fuel with
  | some place =>
    let (p, h) := install size reqSize c.maj place c.heap
    .ok (.returns p h)
  | none => .ok (leaveMajor c .head)

def kmallocStep (size reqSize : Word) (fuel : ℕ) (c : Cursor) : Except Stop Next :=
  match c.pc with
  | .head => .ok (headStep size c)
  | .place => placeStep size reqSize fuel c

/-- `maj->next = allocate_new_page(size)`; if that is `NULL` the loop is left with
the heap in `.error`, else the block is linked back and `maj = maj->next`. -/
def attach (size : Word) (c : Cursor) (pc : Pc) : Except Heap Cursor :=
  let new := (allocateNewPage (size.setWidth 32) c.heap).1
  let h := (allocateNewPage (size.setWidth 32) c.heap).2
  let m := h.mem.store64 (majNext c.maj) new
  if m.load64 (majNext c.maj) = 0 then .error { h with mem := m }
  else
    let m := m.store64 (majPrev (m.load64 (majNext c.maj))) c.maj
    .ok { c with pc := pc, maj := m.load64 (majNext c.maj), heap := { h with mem := m } }

def kmallocFails (size : Word) (h : Heap) : Word × Heap :=
  (0, (h.report casesExhaustedReport).report (mallocNullReport size))

def kmallocLoop (size reqSize : Word) : ℕ → Cursor → Except Stop (Word × Heap)
  | 0, _ => .error .diverges
  | fuel + 1, c => do
    match ← kmallocStep size reqSize fuel c with
    | .returns p h => .ok (p, h)
    | .breaks h => .ok (kmallocFails size h)
    | .continues c => kmallocLoop size reqSize fuel c
    | .needsBlock c pc =>
      match attach size c pc with
      | .ok c => kmallocLoop size reqSize fuel c
      | .error h => .ok (kmallocFails size h)

/-- The block the search starts with: the best one of the last search if it is
large enough, else the first. -/
def startCursor (size : Word) (h : Heap) : Cursor :=
  let bestSize := if h.bestBet ≠ 0 then majFree h.mem h.bestBet else 0
  if h.bestBet ≠ 0 ∧ size + sizeofMinor < bestSize then
    ⟨.head, h.bestBet, bestSize, true, h⟩
  else ⟨.head, h.memRoot, bestSize, false, h⟩

def kmallocSized (fuel : ℕ) (size reqSize : Word) (h : Heap) : Except Stop (Word × Heap) :=
  if h.memRoot = 0 then
    let root := (allocateNewPage (size.setWidth 32) h).1
    let h := { (allocateNewPage (size.setWidth 32) h).2 with memRoot := root }
    if root = 0 then .ok (0, h.report memRootReport)
    else kmallocLoop size reqSize fuel (startCursor size h)
  else kmallocLoop size reqSize fuel (startCursor size h)

/-- The size `kmalloc` works with: the requested one and the room for alignment. -/
def paddedSize (reqSize : Word) : Word := reqSize + 32

def kmalloc (fuel : ℕ) (reqSize : Word) (h : Heap) : Except Stop (Word × Heap) :=
  if paddedSize reqSize = 0 then kmallocSized fuel (paddedSize 1) 1 (h.warn allocZeroReport)
  else kmallocSized fuel (paddedSize reqSize) reqSize h

end Olive
