import Olive.LibString
import Olive.Library.Stack

/-!
# Interrupt entry and exit (`idt.c`, `idt.asm`)

`idt_init` fills the gates of the IDT. When an interrupt arrives the CPU saves the
interrupted context on the stack and runs the code at the gate: `isr_N` makes the number
of words on the stack the same for all vectors, and `_int_stub` saves the remaining
registers, calls `idt_handler` and restores them. The code is modelled as the list of its
instructions; the handler is any function of the state.
-/

namespace Olive

open Library

/-! ## The gates -/

structure IdtEntry where
  offsetLow : BitVec 16
  selector : BitVec 16
  ist : BitVec 8
  flags : BitVec 8
  offsetMiddle : BitVec 16
  offsetHigh : BitVec 32
  zero : BitVec 32
  deriving DecidableEq, Repr

/-- `idt_entries`, of length `IDT_ENTRY_COUNT` -/
abbrev Idt := Fin 256 → IdtEntry

def idtEntries : Idt := fun _ => ⟨0, 0, 0, 0, 0, 0, 0⟩

def idtSetGate (idt : Idt) (num : Fin 256) (base : Word) (sel : BitVec 16) (flags : BitVec 8) : Idt :=
  Function.update idt num {
    offsetLow := (base &&& 0xffff).setWidth 16
    offsetMiddle := ((base >>> 16) &&& 0xffff).setWidth 16
    offsetHigh := ((base >>> 32) &&& 0xffffffff).setWidth 32
    selector := sel
    ist := 0
    flags := flags
    zero := 0 }

/-- `idt_init()`: the gates of the exceptions and of the IRQs, `isr_table` being the
addresses of `isr_0`, `isr_1`, ... -/
def idtInit (isrTable : Fin 256 → Word) : Idt :=
  let idt := (List.range 32).foldl
    (fun idt i => idtSetGate idt (Fin.ofNat 256 i) (isrTable (Fin.ofNat 256 i)) 0x08 0x8e) idtEntries
  (List.range' 0x20 16).foldl
    (fun idt i => idtSetGate idt (Fin.ofNat 256 i) (isrTable (Fin.ofNat 256 i)) 0x08 0x8e) idt

namespace IdtEntry

def Present (e : IdtEntry) : Prop := e.flags.getLsbD 7 = true

instance (e : IdtEntry) : Decidable e.Present := inferInstanceAs (Decidable (_ = _))

def offset (e : IdtEntry) : Word := e.offsetHigh ++ e.offsetMiddle ++ e.offsetLow

end IdtEntry

/-! ## The CPU -/

inductive Reg where
  | rax | rbx | rcx | rdx | rsi | rdi | rbp
  | r8 | r9 | r10 | r11 | r12 | r13 | r14 | r15
  deriving DecidableEq, Repr

structure Cpu where
  regs : Reg → Word
  rip : Word
  cs : BitVec 16
  rflags : Word
  rsp : Word
  ss : BitVec 16
  ds : BitVec 16
  cr2 : Word
  cr3 : Word
  mem : Memory 64

/-! Bits of RFLAGS -/

def rflagsTf : Word := (1 : Word) <<< 8
def rflagsIf : Word := (1 : Word) <<< 9
def rflagsDf : Word := (1 : Word) <<< 10
def rflagsNt : Word := (1 : Word) <<< 14
def rflagsRf : Word := (1 : Word) <<< 16
def rflagsVm : Word := (1 : Word) <<< 17

inductive Instr where
  | push (r : Reg)
  | pushImm (v : Word)
  | pop (r : Reg)
  | movRaxCr3
  | movRaxCr2
  | movRaxDs
  | addRsp (n : Word)
  | cli
  | cld
  deriving DecidableEq, Repr

namespace Cpu

def push (c : Cpu) (v : Word) : Cpu :=
  { c with mem := c.mem.store64 (c.rsp - 8) v, rsp := c.rsp - 8 }

def set (c : Cpu) (r : Reg) (v : Word) : Cpu := { c with regs := Function.update c.regs r v }

def exec (c : Cpu) : Instr → Cpu
  | .push r => c.push (c.regs r)
  | .pushImm v => c.push v
  | .pop r => { c.set r (c.mem.load64 c.rsp) with rsp := c.rsp + 8 }
  | .movRaxCr3 => c.set .rax c.cr3
  | .movRaxCr2 => c.set .rax c.cr2
  | .movRaxDs => c.set .rax (c.ds.setWidth 64)
  | .addRsp n => { c with rsp := c.rsp + n }
  | .cli => { c with rflags := c.rflags &&& ~~~rflagsIf }
  | .cld => { c with rflags := c.rflags &&& ~~~rflagsDf }

def run (c : Cpu) (code : List Instr) : Cpu := code.foldl exec c

/-- The vectors for which the CPU pushes an error code. -/
def pushesErr (v : Fin 256) : Bool := v ∈ [8, 10, 11, 12, 13, 14, 17, 21, 29, 30]

/-- What the CPU pushes when it delivers an interrupt in 64-bit mode. -/
def context (c : Cpu) (v : Fin 256) (err : Word) : List Word :=
  [c.ss.setWidth 64, c.rsp, c.rflags, c.cs.setWidth 64, c.rip] ++ if pushesErr v then [err] else []

/-- The CPU delivers the vector `v` through its gate, on the stack with the given top. An
interrupt gate clears IF, and TF, NT, RF and VM are cleared for the handler, too. -/
def deliver (c : Cpu) (gate : IdtEntry) (v : Fin 256) (err stack : Word) : Cpu :=
  { (c.context v err).foldl push { c with rsp := stack } with
    rip := gate.offset
    cs := gate.selector
    rflags := c.rflags &&& ~~~(rflagsTf ||| rflagsIf ||| rflagsNt ||| rflagsRf ||| rflagsVm) }

def iretq (c : Cpu) : Cpu :=
  { c with
    rip := c.mem.load64 c.rsp
    cs := (c.mem.load64 (c.rsp + 8)).setWidth 16
    rflags := c.mem.load64 (c.rsp + 16)
    rsp := c.mem.load64 (c.rsp + 24)
    ss := (c.mem.load64 (c.rsp + 32)).setWidth 16 }

end Cpu

/-! ## The stubs -/

def pushaq : List Instr :=
  [.push .rax, .push .rbx, .push .rcx, .push .rdx, .push .rsi, .push .rdi, .push .rbp,
    .push .r8, .push .r9, .push .r10, .push .r11, .push .r12, .push .r13, .push .r14, .push .r15,
    .movRaxCr3, .push .rax, .movRaxCr2, .push .rax, .movRaxDs, .push .rax]

def popaq : List Instr :=
  [.pop .rax, .pop .rax, .pop .rax,
    .pop .r15, .pop .r14, .pop .r13, .pop .r12, .pop .r11, .pop .r10, .pop .r9, .pop .r8,
    .pop .rbp, .pop .rdi, .pop .rsi, .pop .rdx, .pop .rcx, .pop .rbx, .pop .rax]

def isrNoerr (v : Fin 256) : List Instr := [.cli, .pushImm 0, .pushImm (BitVec.ofNat 64 v)]

def isrErr (v : Fin 256) : List Instr := [.cli, .pushImm (BitVec.ofNat 64 v)]

/-- `isr_0`, ..., `isr_255`, up to the jump to `_int_stub` -/
def isr (v : Fin 256) : List Instr :=
  if v ∈ [8, 10, 11, 12, 13, 14, 17, 30] then isrErr v else isrNoerr v

namespace Cpu

def isrWords (v : Fin 256) : List Word :=
  if v ∈ [8, 10, 11, 12, 13, 14, 17, 30] then [BitVec.ofNat 64 v] else [0, BitVec.ofNat 64 v]

/-- From the arrival of an interrupt to the first instruction of `idt_handler`, which
returns to the address `ret` in `_int_stub`. -/
def enter (c : Cpu) (gate : IdtEntry) (v : Fin 256) (err stack ret : Word) : Cpu :=
  ((c.deliver gate v err stack).run (isr v ++ pushaq ++ [.cld])).push ret

/-- From the return of `idt_handler` to the interrupted code. -/
def leave (c : Cpu) : Cpu := (c.run (popaq ++ [.addRsp 16])).iretq

end Cpu

structure IntFrame where
  ds : Word
  cr2 : Word
  cr3 : Word
  r15 : Word
  r14 : Word
  r13 : Word
  r12 : Word
  r11 : Word
  r10 : Word
  r9 : Word
  r8 : Word
  rbp : Word
  rdi : Word
  rsi : Word
  rdx : Word
  rcx : Word
  rbx : Word
  rax : Word
  vector : Word
  err : Word
  rip : Word
  cs : Word
  rflags : Word
  rsp : Word
  ss : Word
  deriving DecidableEq, Repr

namespace IntFrame

/-- The frame with the given words in the order of the fields. -/
def ofFields (field : ℕ → Word) : IntFrame where
  ds := field 0
  cr2 := field 1
  cr3 := field 2
  r15 := field 3
  r14 := field 4
  r13 := field 5
  r12 := field 6
  r11 := field 7
  r10 := field 8
  r9 := field 9
  r8 := field 10
  rbp := field 11
  rdi := field 12
  rsi := field 13
  rdx := field 14
  rcx := field 15
  rbx := field 16
  rax := field 17
  vector := field 18
  err := field 19
  rip := field 20
  cs := field 21
  rflags := field 22
  rsp := field 23
  ss := field 24

/-- The packed struct at an address. -/
def read (m : Memory 64) (a : Word) : IntFrame :=
  ofFields fun k => m.load64 (a + BitVec.ofNat 64 (8 * k))

def reg (f : IntFrame) : Reg → Word
  | .rax => f.rax
  | .rbx => f.rbx
  | .rcx => f.rcx
  | .rdx => f.rdx
  | .rsi => f.rsi
  | .rdi => f.rdi
  | .rbp => f.rbp
  | .r8 => f.r8
  | .r9 => f.r9
  | .r10 => f.r10
  | .r11 => f.r11
  | .r12 => f.r12
  | .r13 => f.r13
  | .r14 => f.r14
  | .r15 => f.r15

end IntFrame

end Olive
