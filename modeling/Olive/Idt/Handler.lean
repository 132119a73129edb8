import Olive.Idt.Model
import Olive.Locks.Model

/-!
# The interrupt handler (`idt_handler` of `idt.c`)

What `idt_handler` prints goes through `printf` and its lock. A fatal exception is reported
in detail and halts the CPU; the other exceptions, and IRQs without a registered handler,
are reported in a line each. `DEBUG` and `TRACE` are left out.
-/

namespace Olive

open Library

structure ExceptionInfo where
  message : String
  mnemonic : String
  fatal : Bool
  deriving DecidableEq, Repr

def reservedException : ExceptionInfo := ⟨"Reserved", "-", false⟩

def exceptionInfo : List ExceptionInfo :=
  [⟨"Division By Zero", "#DE", true⟩,
    ⟨"Debug", "#DB", false⟩,
    ⟨"Non-maskable Interrupt", "-", true⟩,
    ⟨"Breakpoint", "#BP", false⟩,
    ⟨"Overflow", "#OF", true⟩,
    ⟨"Bound Range Exceeded", "#BR", true⟩,
    ⟨"Invalid Opcode", "#UD", true⟩,
    ⟨"Device Not Available", "#NM", true⟩,
    ⟨"Double Fault", "#DF", true⟩,
    ⟨"Coprocessor Segment Overrun", "-", true⟩,
    ⟨"Invalid TSS", "#TS", true⟩,
    ⟨"Segment Not Present", "#NP", true⟩,
    ⟨"Stack Segment Fault", "#SS", true⟩,
    ⟨"General Protection Fault", "#GP", true⟩,
    ⟨"Page Fault", "#PF", true⟩,
    reservedException,
    ⟨"x87 FPU Error", "#MF", true⟩,
    ⟨"Alignment Check", "#AC", true⟩,
    ⟨"Machine Check", "#MC", true⟩,
    ⟨"SIMD Floating-Point Exception", "#XM/#XF", false⟩,
    ⟨"Virtualization Exception", "#VE", false⟩,
    ⟨"Control Protection Exception", "#CP", false⟩,
    reservedException, reservedException, reservedException,
    reservedException, reservedException, reservedException,
    ⟨"Hypervisor Injection Exception", "#HV", false⟩,
    ⟨"VMM Communication Exception", "#VC", false⟩,
    ⟨"Security Exception", "#SX", true⟩,
    reservedException]

def exceptionInfoAt (vector : Word) : ExceptionInfo :=
  exceptionInfo.getD vector.toNat reservedException

/-- A line of a report: the format string and its arguments. -/
abbrev Line := String × List Arg

def registerDump (frame : IntFrame) : List Line :=
  [("--- INTERRUPT INFORMATION ---\n", []),
    (" - %s (%s) @ 0x%.16llx on CPU %s\n",
      [.str (exceptionInfoAt frame.vector).mnemonic, .str (exceptionInfoAt frame.vector).message,
        .num frame.rip, .str "<unknown>"]),
    (" - Register Dump:\n", []),
    ("\tRAX: 0x%.16llx  RBX:    0x%.16llx  RCX: 0x%.16llx\n",
      [.num frame.rax, .num frame.rbx, .num frame.rcx]),
    ("\tRDX: 0x%.16llx  RSI:    0x%.16llx  RDI: 0x%.16llx\n",
      [.num frame.rdx, .num frame.rsi, .num frame.rdi]),
    ("\tRBP: 0x%.16llx  RSP:    0x%.16llx  -----------------------\n",
      [.num frame.rbp, .num frame.rsp]),
    ("\tR8:  0x%.16llx  R9:     0x%.16llx  R10: 0x%.16llx\n",
      [.num frame.r8, .num frame.r9, .num frame.r10]),
    ("\tR11: 0x%.16llx  R12:    0x%.16llx  R13: 0x%.16llx\n",
      [.num frame.r11, .num frame.r12, .num frame.r13]),
    ("\tR14: 0x%.16llx  R15:    0x%.16llx  -----------------------\n",
      [.num frame.r14, .num frame.r15]),
    ("\tRIP: 0x%.16llx  RFLAGS: 0x%.16llx  -----------------------\n",
      [.num frame.rip, .num frame.rflags]),
    ("\tCR2: 0x%.16llx  CR3:    0x%.16llx  -----------------------\n",
      [.num frame.cr2, .num frame.cr3]),
    ("\tCS:  0x%.16llx  SS:     0x%.16llx  -----------------------\n",
      [.num frame.cs, .num frame.ss]),
    ("\tERR: 0x%.16llx  VECTOR: 0x%.16llx  -----------------------\n",
      [.num frame.err, .num frame.vector])]

def errorCodeLine (err : Word) : Line := ("\tError Code: 0x%.16llx\n", [.num err])

def bitLine (err bit : Word) (yes no : String) : Line :=
  ("\t - %s\n", [.str (if err &&& bit ≠ 0 then yes else no)])

/-- The error code of the exceptions about a segment, with the format of its last line. -/
def selectorDetails (title last : String) (err : Word) : List Line :=
  [(title, []), errorCodeLine err,
    bitLine err 1 "External event caused error" "Descriptor caused error",
    ("\t - Index: 0x%.16llx\n", [.num ((err >>> 3) &&& 0x1fff)]),
    (last, [.str (if err &&& 4 ≠ 0 then "LDT segment" else "GDT segment")])]

def exceptionDetails (vector err : Word) : List Line :=
  if vector = 8 then [(" - Double Fault: No additional error information.\n", [])]
  else if vector = 10 then selectorDetails " - Invalid TSS Details:\n" "\t - %s\n" err
  else if vector = 11 then selectorDetails " - Segment Not Present Details:\n" "\t - %s\n" err
  else if vector = 12 then selectorDetails " - Stack-Segment Fault Details:\n" "\t - %s" err
  else if vector = 13 then selectorDetails " - General Protection Fault Details:\n" "\t - %s\n" err
  else if vector = 14 then
    [(" - Page Fault Details:\n", []), errorCodeLine err,
      bitLine err 1 "Protection violation" "Non-present page",
      bitLine err 2 "Write access" "Read access",
      bitLine err 4 "User mode" "Supervisor mode",
      bitLine err 8 "Reserved bit set" "No reserved bit violation",
      bitLine err 16 "Instruction fetch" "Data access"]
  else if vector = 17 then
    [(" - Alignment Check Details:\n", []), errorCodeLine err,
      bitLine err 1 "User mode" "Supervisor mode"]
  else if vector = 21 then [(" - Control Protection Exception Details:\n", []), errorCodeLine err]
  else if vector = 29 then [(" - VMM Communication Exception Details:\n", []), errorCodeLine err]
  else if vector = 30 then [(" - Security Exception Details:\n", []), errorCodeLine err]
  else [(" - No detailed information for this exception.\n", [])]

namespace Locked

variable (npf : Formatter)

def fatalLines : List Line → Program Unit
  | [] => return ()
  | (fmt, args) :: lines => do
    log npf "FATAL" fmt args
    fatalLines lines

/-- The loop of `_backtrace` from frame `i` on, for at most as many frames as `fuel`. -/
def backtraceLoop : ℕ → ℕ → Word → Program Unit
  | 0, _, _ => Code.stop
  | fuel + 1, i, frame => do
    let more ← Code.get fun k => decide (frame ≠ 0 ∧ k.mem.load64 frame ≠ 0)
    if more then
      let rip ← Code.get fun k => k.mem.load64 (frame + 8)
      log npf "FATAL" " - [%06d] %-24s @ %.16llx\n"
        [.num (BitVec.ofNat 64 i), .str "<unkown>", .num rip]
      let next ← Code.get fun k => k.mem.load64 frame
      backtraceLoop fuel (i + 1) next
    else return ()

/-- `_backtrace(caller)`, `rbp` being the frame pointer of its own frame. -/
def backtrace (fuel : ℕ) (rbp caller : Word) : Program Unit := do
  log npf "FATAL" "--- BACKTRACE START ----\n" []
  let none ← Code.get fun k => decide (rbp ≠ 0 ∧ k.mem.load64 rbp = 0)
  if none then log npf "FATAL" "No stack trace available-\n" []
  else
    if caller ≠ 0 then
      log npf "FATAL" " - [caller] %-24s @ %.16llx\n" [.str "<unkown>", .num caller]
    backtraceLoop npf fuel 0 rbp
    log npf "FATAL" "-----------------------\n" []

/-- `idt_handler(frame)`, with the contents of `irq_handlers`. -/
def idtHandler (irqHandlers : Word → Option (IntFrame → Program Unit)) (fuel : ℕ) (rbp : Word)
    (frame : IntFrame) : Program Unit := do
  if frame.vector < 32 then
    log npf "FATAL" "\n" []
    if (exceptionInfoAt frame.vector).fatal then
      fatalLines npf (registerDump frame)
      fatalLines npf (exceptionDetails frame.vector frame.err)
      log npf "FATAL" "-------------------------------\n" []
      backtrace npf fuel rbp frame.rip
      hcf
    else if frame.vector = 3 then log npf "ALERT" "BREAKPOINT @ 0x%p\n" [.num frame.rip]
    else
      log npf "WARN" "Non-fatal exception: %s\n" [.str (exceptionInfoAt frame.vector).message]
  else if 0x20 ≤ frame.vector ∧ frame.vector < 0x30 then
    match irqHandlers (frame.vector - 0x20) with
    | some handler => handler frame
    | none =>
      log npf "WARN" "No handler registered for IRQ %d, interrupt ignored\n"
        [.num (frame.vector - 0x20)]
  else if frame.vector = 0x80 then
    log npf "WARN" "Received system call interrupt, processing skipped\n" []
  else
    log npf "WARN" "Received unknown interrupt vector: %d, no action taken\n" [.num frame.vector]

end Locked

end Olive
