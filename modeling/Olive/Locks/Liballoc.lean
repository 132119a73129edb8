import Olive.Locks.Model

/-!
# The heap with its lock (`liballoc.c`)

One round of the search loop of `kmalloc`, and each of the other pieces of code that touch
nothing but the heap, is one access to the shared state: they all run under
`liballoc_lock_var`. What prints, locks or enters the PMM is written out. Loops over
headers take a bound on their rounds, beyond which they stop without returning. `caller`
is `__builtin_return_address(0)`, and `here` the one of the calls a function makes.
-/

namespace Olive

open Library

def liballocDead : BitVec 32 := 0xdeaddead

/-- `UNALIGN(ptr)`: the byte in front of the payload is a signed `char`. -/
def unalign (ptr : Word) (m : Memory 64) : Word :=
  let diff := (m (ptr - 16)).signExtend 64
  if diff < 32 then ptr - diff else ptr

/-- `kfree` gives the minor block up and takes it out of its list. -/
def unlinkMinor (min maj : Word) (m : Memory 64) : Memory 64 :=
  let m := storeUInt m (majUsage maj)
    (loadUInt m (majUsage maj) - (loadUInt m (minSize min) + sizeofMinor))
  let m := m.store32 (minMagic min) liballocDead
  let m := if m.load64 (minNext min) ≠ 0 then
    m.store64 (minPrev (m.load64 (minNext min))) (m.load64 (minPrev min)) else m
  let m := if m.load64 (minPrev min) ≠ 0 then
    m.store64 (minNext (m.load64 (minPrev min))) (m.load64 (minNext min)) else m
  if m.load64 (minPrev min) = 0 then m.store64 (majFirst maj) (m.load64 (minNext min)) else m

/-- `kfree` takes a major block without minor blocks out of the heap. -/
def unlinkMajor (maj : Word) (h : Heap) : Heap :=
  let h := if h.memRoot = maj then { h with memRoot := h.mem.load64 (majNext maj) } else h
  let h := if h.bestBet = maj then { h with bestBet := 0 } else h
  let m := h.mem
  let m := if m.load64 (majPrev maj) ≠ 0 then
    m.store64 (majNext (m.load64 (majPrev maj))) (m.load64 (majNext maj)) else m
  let m := if m.load64 (majNext maj) ≠ 0 then
    m.store64 (majPrev (m.load64 (majNext maj))) (m.load64 (majPrev maj)) else m
  { h with mem := m, allocated := h.allocated - loadUInt m (majSize maj) }

/-- `kfree` makes a major block the best one if it has more room; both sizes are `int`. -/
def updateBest (maj : Word) (h : Heap) : Heap :=
  if h.bestBet ≠ 0 then
    let bestSize := h.mem.load32 (majSize h.bestBet) - h.mem.load32 (majUsage h.bestBet)
    let majSize := h.mem.load32 (majSize maj) - h.mem.load32 (majUsage maj)
    if bestSize.slt majSize then { h with bestBet := maj } else h
  else h

def copyWords : ℕ → Word → Word → Memory 64 → Memory 64
  | 0, _, _, m => m
  | n + 1, dst, src, m => copyWords n (dst + 4) (src + 4) (m.store32 dst (m.load32 src))

def copyBytes : ℕ → Word → Word → Memory 64 → Memory 64
  | 0, _, _, m => m
  | n + 1, dst, src, m => copyBytes n (dst + 1) (src + 1) (m.store dst 1 (m src).toNat)

def liballocMemcpy (s1 s2 : Word) (n : ℕ) (m : Memory 64) : Memory 64 :=
  let words := BitVec.ofNat 64 (n / 4 * 4)
  copyBytes (n % 4) (s1 + words) (s2 + words) (copyWords (n / 4) s1 s2 m)

structure Search where
  pc : Pc
  maj : Word
  bestSize : Word
  startedBet : Bool

def Search.cursor (v : Search) (h : Heap) : Cursor := ⟨v.pc, v.maj, v.bestSize, v.startedBet, h⟩

def Cursor.search (c : Cursor) : Search := ⟨c.pc, c.maj, c.bestSize, c.startedBet⟩

def Next.heap : Next → Heap
  | .breaks h => h
  | .returns _ h => h
  | .continues c => c.heap
  | .needsBlock c _ => c.heap

/-- A round of the loop of `kmalloc`, up to the next request for a block. -/
def kmallocRound (size reqSize : Word) (fuel : ℕ) (v : Search) (h : Heap) : Except Stop Next × Heap :=
  match kmallocStep size reqSize fuel (v.cursor h) with
  | .error e => (.error e, h)
  | .ok next => (.ok next, next.heap)

namespace Locked

def modifyHeap (f : Heap → Heap) : Program Unit := Code.modify fun k => { k with toHeap := f k.toHeap }

def modifyMem (f : Memory 64 → Memory 64) : Program Unit :=
  Code.modify fun k => { k with mem := f k.mem }

section Liballoc

variable (npf : Formatter)

def allocateNewPage (size : BitVec 32) : Program Word := do
  let st := newPageCount size
  let maj ← liballocAlloc npf st
  if maj = 0 then
    modifyHeap fun h => { h with warningCount := h.warningCount + 1 }
    report npf (liballocAllocNullReport st)
    return 0
  else
    modifyMem (initMajor st maj)
    modifyHeap fun h => { h with allocated := h.allocated + loadUInt h.mem (majSize maj) }
    return maj

def kmallocFails (size : Word) : Program Word := do
  liballocUnlock
  report npf casesExhaustedReport
  report npf (mallocNullReport size)
  return 0

def kmallocLoop (size reqSize : Word) : ℕ → Search → Program Word
  | 0, _ => Code.stop
  | fuel + 1, v => do
    let next ← Code.access fun k =>
      let (next, h) := kmallocRound size reqSize fuel v k.toHeap
      (next, { k with toHeap := h })
    match next with
    | .error _ => Code.stop
    | .ok (.returns p _) =>
      liballocUnlock
      return p
    | .ok (.breaks _) => kmallocFails npf size
    | .ok (.continues c) => kmallocLoop size reqSize fuel c.search
    | .ok (.needsBlock c pc) =>
      let new ← allocateNewPage npf (size.setWidth 32)
      modifyMem fun m => m.store64 (majNext c.maj) new
      let next ← Code.get fun k => k.mem.load64 (majNext c.maj)
      if next = 0 then kmallocFails npf size
      else
        modifyMem fun m => m.store64 (majPrev (m.load64 (majNext c.maj))) c.maj
        let maj ← Code.get fun k => k.mem.load64 (majNext c.maj)
        kmallocLoop size reqSize fuel { c.search with pc := pc, maj := maj }

def kmallocSearch (fuel : ℕ) (size reqSize : Word) : Program Word := do
  let v ← Code.get fun k => (startCursor size k.toHeap).search
  kmallocLoop npf size reqSize fuel v

def kmalloc (caller : Word) : ℕ → Word → Program Word
  | 0, _ => Code.stop
  | fuel + 1, reqSize => do
    let size := paddedSize reqSize
    liballocLock
    if size = 0 then
      modifyHeap fun h => { h with warningCount := h.warningCount + 1 }
      log npf "WARN" "liballoc: alloc( 0 ) called from %x\n" [.num caller]
      liballocUnlock
      kmalloc caller fuel 1
    else
      let root ← Code.get fun k => k.memRoot
      if root = 0 then
        let root ← allocateNewPage npf (size.setWidth 32)
        modifyHeap fun h => { h with memRoot := root }
        if root = 0 then
          liballocUnlock
          report npf memRootReport
          return 0
        else kmallocSearch npf fuel size reqSize
      else kmallocSearch npf fuel size reqSize

/-- What `kfree` and `krealloc` print about a pointer to no minor block: the level of the
first line, and what stands in front of the second. -/
def reportMagic (level pre : String) (min ptr caller : Word) : Program Unit := do
  Code.modify fun k => { k with errorCount := k.errorCount + 1 }
  let magic ← Code.get fun k => k.mem.load32 (minMagic min)
  if magic &&& 0xffffff = liballocMagic &&& 0xffffff ∨
      magic &&& 0xffff = liballocMagic &&& 0xffff ∨ magic &&& 0xff = liballocMagic &&& 0xff then
    Code.modify fun k => { k with possibleOverruns := k.possibleOverruns + 1 }
    log npf level "liballoc: Possible 1-3 byte overrun for magic %x != %x\n"
      [.num (magic.setWidth 64), .num (liballocMagic.setWidth 64)]
  if magic = liballocDead then
    log npf "ERROR" (pre ++ "liballoc: multiple PREFIX(free)() attempt on %x from %x.\n")
      [.num ptr, .num caller]
  else
    log npf "ERROR" (pre ++ "liballoc: Bad PREFIX(free)( %x ) called from %x\n")
      [.num ptr, .num caller]

def kfree (caller ptr : Word) : Program Unit := do
  if ptr = 0 then
    modifyHeap fun h => { h with warningCount := h.warningCount + 1 }
    log npf "WARN" "liballoc:PREFIX(free)( NULL ) called from %x\n" [.num caller]
  else
    let ptr ← Code.get fun k => unalign ptr k.mem
    liballocLock
    let min := ptr - sizeofMinor
    let magic ← Code.get fun k => k.mem.load32 (minMagic min)
    if magic ≠ liballocMagic then
      reportMagic npf "WARN" "" min ptr caller
      liballocUnlock
    else
      let maj ← Code.get fun k => k.mem.load64 (minBlock min)
      modifyHeap fun h => { h with inuse := h.inuse - loadUInt h.mem (minSize min) }
      modifyMem (unlinkMinor min maj)
      let first ← Code.get fun k => k.mem.load64 (majFirst maj)
      if first = 0 then
        modifyHeap (unlinkMajor maj)
        let pages ← Code.get fun k => k.mem.load32 (majPages maj)
        liballocFree npf maj pages
      else modifyHeap (updateBest maj)
      liballocUnlock

/-- `kcalloc(nobj, size)`: the product is kept in an `int`, and `liballoc_memset` counts
the bytes in an `unsigned int`, which never reaches a size from 2^32 on. -/
def kcalloc (fuel : ℕ) (caller nobj size : Word) : Program Word := do
  let realSize : Word := ((nobj * size).setWidth 32).signExtend 64
  let p ← kmalloc npf caller fuel realSize
  if 2 ^ 32 ≤ realSize.toNat then Code.stop
  else
    modifyMem fun m => memset m p 0 realSize.toNat
    return p

def krealloc (fuel : ℕ) (caller here p size : Word) : Program Word := do
  if size = 0 then
    kfree npf here p
    return 0
  else if p = 0 then kmalloc npf here fuel size
  else
    let ptr ← Code.get fun k => unalign p k.mem
    liballocLock
    let min := ptr - sizeofMinor
    let magic ← Code.get fun k => k.mem.load32 (minMagic min)
    if magic ≠ liballocMagic then
      reportMagic npf "ERROR" "liballoc: " min ptr caller
      liballocUnlock
      return 0
    else
      let realSize ← Code.get fun k => loadUInt k.mem (minReqSize min)
      if size ≤ realSize then
        modifyMem fun m => storeUInt m (minReqSize min) size
        liballocUnlock
        return p
      else
        liballocUnlock
        let ptr ← kmalloc npf here fuel size
        modifyMem (liballocMemcpy ptr p realSize.toNat)
        kfree npf here p
        return ptr

end Liballoc

end Locked

inductive Call where
  | putchar (ch : Char)
  | printf (fmt : String) (args : List Arg)
  | vmmMap (pm : Pagemap) (virt phys flags : Word)
  | vmmUnmap (pm : Pagemap) (virt : Word) (freePhys : Bool)
  | kmalloc (fuel : ℕ) (caller reqSize : Word)
  | kcalloc (fuel : ℕ) (caller nobj size : Word)
  | krealloc (fuel : ℕ) (caller here p size : Word)
  | kfree (caller ptr : Word)
  | idtLoad

def Call.program (npf : Formatter) : Call → Program Unit
  | .putchar ch => do
    let _ ← Locked.putchar ch
    return ()
  | .printf fmt args => do
    let _ ← Locked.printf npf fmt args
    return ()
  | .vmmMap pm virt phys flags => Locked.vmmMap npf pm virt phys flags
  | .vmmUnmap pm virt freePhys => do
    let _ ← Locked.vmmUnmap npf pm virt freePhys
    return ()
  | .kmalloc fuel caller reqSize => do
    let _ ← Locked.kmalloc npf caller fuel reqSize
    return ()
  | .kcalloc fuel caller nobj size => do
    let _ ← Locked.kcalloc npf fuel caller nobj size
    return ()
  | .krealloc fuel caller here p size => do
    let _ ← Locked.krealloc npf fuel caller here p size
    return ()
  | .kfree caller ptr => Locked.kfree npf caller ptr
  | .idtLoad => Locked.idtLoad

end Olive
