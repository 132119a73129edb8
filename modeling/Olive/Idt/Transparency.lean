import Olive.Idt.Model

/-!
# Interrupts are transparent

The words an interrupt leaves on the stack, from the first one the CPU pushes to the last
one of `pushaq`, are read by `idt_handler` as `int_frame_t`, and what it leaves in them is
what the interrupted code resumes with. The frame is right as long as `isr_N` and the CPU
agree on who pushes the error code, which they do for all vectors but 21 and 29.
-/

namespace Olive

open Library

/-! ## The gates -/

section Gates

variable {isrTable : Fin 256 → Word}

theorem offset_idtSetGate (idt : Idt) (num : Fin 256) (base : Word) (sel : BitVec 16)
    (flags : BitVec 8) : (idtSetGate idt num base sel flags num).offset = base := by
  have hlow : ∀ i < 16, (0xffff#64).getLsbD i = true := by decide
  have hhigh : ∀ i < 32, (0xffffffff#64).getLsbD i = true := by decide
  rw [idtSetGate, Function.update_self, IdtEntry.offset]
  apply BitVec.eq_of_getLsbD_eq
  intro i hi
  rw [BitVec.getLsbD_append, BitVec.getLsbD_append]
  simp only [BitVec.getLsbD_setWidth, BitVec.getLsbD_and, BitVec.getLsbD_ushiftRight]
  by_cases h16 : i < 16
  · simp [h16, hlow i h16]
  · by_cases h32 : i < 32
    · simp [h16, show i - 16 < 16 by omega, hlow (i - 16) (by omega), show 16 + (i - 16) = i by omega]
    · simp [h16, show ¬ i - 16 < 16 by omega, show i - 16 - 16 < 32 by omega,
        hhigh (i - 16 - 16) (by omega), show 32 + (i - 16 - 16) = i by omega]

theorem foldl_idtSetGate (is : List ℕ) (idt : Idt) (v : Fin 256) :
    (is.foldl (fun idt i => idtSetGate idt (Fin.ofNat 256 i) (isrTable (Fin.ofNat 256 i)) 0x08 0x8e)
        idt) v =
      if ∃ i ∈ is, Fin.ofNat 256 i = v then idtSetGate idtEntries v (isrTable v) 0x08 0x8e v
      else idt v := by
  induction is generalizing idt with
  | nil => simp
  | cons i is ih =>
    rw [List.foldl_cons, ih]
    by_cases hlater : ∃ j ∈ is, Fin.ofNat 256 j = v
    · rw [if_pos hlater, if_pos]
      obtain ⟨j, hj, hjv⟩ := hlater
      exact ⟨j, List.mem_cons_of_mem _ hj, hjv⟩
    · rw [if_neg hlater]
      by_cases hhere : Fin.ofNat 256 i = v
      · rw [if_pos ⟨i, List.mem_cons_self, hhere⟩, hhere, idtSetGate, idtSetGate,
          Function.update_self, Function.update_self]
      · rw [if_neg, idtSetGate, Function.update_of_ne (Ne.symm hhere)]
        rintro ⟨j, hj, hjv⟩
        rcases List.mem_cons.mp hj with rfl | hj
        · exact hhere hjv
        · exact hlater ⟨j, hj, hjv⟩

theorem idtInit_eq (v : Fin 256) :
    idtInit isrTable v =
      if v < 48 then idtSetGate idtEntries v (isrTable v) 0x08 0x8e v else idtEntries v := by
  have hirq : (∃ i ∈ List.range' 0x20 16, Fin.ofNat 256 i = v) ↔ 32 ≤ v ∧ v < 48 := by
    revert v
    decide +kernel
  have hexception : (∃ i ∈ List.range 32, Fin.ofNat 256 i = v) ↔ v < 32 := by
    revert v
    decide +kernel
  rw [idtInit, foldl_idtSetGate, foldl_idtSetGate]
  simp only [hirq, hexception]
  by_cases h32 : v < 32
  · have hlt : v < 48 := by omega
    simp [h32, hlt]
  · by_cases h48 : v < 48
    · have hle : 32 ≤ v := by omega
      simp [h48, hle]
    · simp [h32, h48]

theorem idtInit_gate (v : Fin 256) :
    ((idtInit isrTable v).Present ↔ v < 48) ∧
      ((idtInit isrTable v).Present → (idtInit isrTable v).offset = isrTable v) := by
  rw [idtInit_eq]
  by_cases hv : v < 48
  · rw [if_pos hv, offset_idtSetGate, idtSetGate, Function.update_self]
    simp [hv, IdtEntry.Present]
  · rw [if_neg hv]
    simp [hv, IdtEntry.Present, idtEntries]

end Gates

/-! ## The words on the stack -/

namespace Cpu

variable (c : Cpu)

theorem foldl_push (vs : List Word) :
    vs.foldl push c = { c with
      mem := (pushWords c.mem c.rsp vs).1
      rsp := (pushWords c.mem c.rsp vs).2 } := by
  induction vs generalizing c with
  | nil => rfl
  | cons v vs ih => exact ih (c.push v)

def savedWords : List Word :=
  [c.regs .rax, c.regs .rbx, c.regs .rcx, c.regs .rdx, c.regs .rsi, c.regs .rdi, c.regs .rbp,
    c.regs .r8, c.regs .r9, c.regs .r10, c.regs .r11, c.regs .r12, c.regs .r13, c.regs .r14,
    c.regs .r15, c.cr3, c.cr2, c.ds.setWidth 64]

theorem run_append (xs ys : List Instr) : c.run (xs ++ ys) = (c.run xs).run ys := List.foldl_append

theorem run_isr (v : Fin 256) :
    c.run (isr v) = { (isrWords v).foldl push c with rflags := c.rflags &&& ~~~rflagsIf } := by
  unfold isr isrWords
  split_ifs <;> rfl

theorem run_pushaq : c.run (pushaq ++ [.cld]) =
    { (c.savedWords.foldl push c).set .rax (c.ds.setWidth 64) with
      rflags := c.rflags &&& ~~~rflagsDf } := by
  simp only [run, pushaq, List.cons_append, List.nil_append, List.foldl_cons, List.foldl_nil, exec,
    savedWords, push, set, Function.update_self, Function.update_idem]

/-- All words on the stack at the call of `idt_handler`, the first one pushed first. -/
def stackWords (v : Fin 256) (err : Word) : List Word :=
  c.context v err ++ (isrWords v ++ c.savedWords)

variable {c} {gate : IdtEntry} {v : Fin 256} {err stack ret : Word}

theorem enter_eq :
    (c.enter gate v err stack ret).mem =
        (pushWords c.mem stack (c.stackWords v err ++ [ret])).1 ∧
      (c.enter gate v err stack ret).rsp =
        (pushWords c.mem stack (c.stackWords v err ++ [ret])).2 := by
  simp only [enter, List.append_assoc, run_append _ _ (pushaq ++ [.cld]), run_isr, run_pushaq,
    deliver, foldl_push, stackWords, pushWords_append, pushWords_cons, pushWords_nil, push, set]
  exact ⟨rfl, rfl⟩

theorem load64_enter {k : ℕ} (hk : k < (c.stackWords v err).reverse.length) :
    (c.enter gate v err stack ret).mem.load64
        ((c.enter gate v err stack ret).rsp + 8 + BitVec.ofNat 64 (8 * k)) =
      (c.stackWords v err).reverse[k] := by
  have hlen : (c.stackWords v err ++ [ret]).length ≤ 27 := by
    simp only [stackWords, context, isrWords, savedWords, List.length_append]
    split_ifs <;> simp
  have haddr : (c.enter gate v err stack ret).rsp + 8 + BitVec.ofNat 64 (8 * k) =
      (pushWords c.mem stack (c.stackWords v err ++ [ret])).2 + BitVec.ofNat 64 (8 * (k + 1)) := by
    rw [enter_eq.2, BitVec.add_assoc, Nat.mul_succ, BitVec.ofNat_add, BitVec.add_comm (8 : Word)]
    rfl
  rw [haddr, enter_eq.1, load64_pushWords (by omega) (by simpa using hk)]
  simp

end Cpu

/-! ## Entry and exit -/

theorem IntFrame.ofFields_congr {f g : ℕ → Word} (h : ∀ k < 25, f k = g k) :
    IntFrame.ofFields f = IntFrame.ofFields g := by
  simp only [IntFrame.ofFields]
  simp [h]

namespace Cpu

/-- The frame `idt_handler` should see: the interrupted values, the vector, and the error
code or 0. -/
def frame (c : Cpu) (v : Fin 256) (err : Word) : IntFrame where
  ds := c.ds.setWidth 64
  cr2 := c.cr2
  cr3 := c.cr3
  r15 := c.regs .r15
  r14 := c.regs .r14
  r13 := c.regs .r13
  r12 := c.regs .r12
  r11 := c.regs .r11
  r10 := c.regs .r10
  r9 := c.regs .r9
  r8 := c.regs .r8
  rbp := c.regs .rbp
  rdi := c.regs .rdi
  rsi := c.regs .rsi
  rdx := c.regs .rdx
  rcx := c.regs .rcx
  rbx := c.regs .rbx
  rax := c.regs .rax
  vector := BitVec.ofNat 64 v
  err := if pushesErr v then err else 0
  rip := c.rip
  cs := c.cs.setWidth 64
  rflags := c.rflags
  rsp := c.rsp
  ss := c.ss.setWidth 64

/-- The frame it sees if the stub pushes a word for an error code the CPU has pushed. -/
def shiftedFrame (c : Cpu) (v : Fin 256) (err : Word) : IntFrame :=
  { c.frame v err with
    err := 0
    rip := err
    cs := c.rip
    rflags := c.cs.setWidth 64
    rsp := c.rflags
    ss := c.rsp }

variable {c : Cpu} {gate : IdtEntry} {v : Fin 256} {err stack ret : Word}

/-- The CPU pushes an error code where `isr_N` expects one, and for two more vectors. -/
theorem pushesErr_iff (v : Fin 256) :
    pushesErr v = true ↔ v ∈ [8, 10, 11, 12, 13, 14, 17, 30] ∨ v = 21 ∨ v = 29 := by
  revert v
  decide +kernel

theorem notMem_of_missing {v : Fin 256} (h : v = 21 ∨ v = 29) :
    v ∉ [8, 10, 11, 12, 13, 14, 17, 30] := by
  rcases h with rfl | rfl <;> decide

theorem length_stackWords (c : Cpu) (v : Fin 256) (err : Word) :
    25 ≤ (c.stackWords v err).length := by
  have hpushes := pushesErr_iff v
  simp only [stackWords, context, isrWords, savedWords, List.length_append]
  by_cases hin : v ∈ [8, 10, 11, 12, 13, 14, 17, 30]
  · simp [hin, hpushes]
  · split_ifs <;> simp

theorem read_enter :
    IntFrame.read (c.enter gate v err stack ret).mem ((c.enter gate v err stack ret).rsp + 8) =
      if v = 21 ∨ v = 29 then c.shiftedFrame v err else c.frame v err := by
  have hlen : 25 ≤ (c.stackWords v err).reverse.length :=
    (length_stackWords c v err).trans_eq List.length_reverse.symm
  have hread : IntFrame.read (c.enter gate v err stack ret).mem
      ((c.enter gate v err stack ret).rsp + 8) =
      IntFrame.ofFields fun k => (c.stackWords v err).reverse[k]?.getD 0 := by
    apply IntFrame.ofFields_congr
    intro k hk
    rw [load64_enter (by omega), List.getElem?_eq_getElem (by omega)]
    rfl
  have hpushes := pushesErr_iff v
  rw [hread]
  by_cases hmissing : v = 21 ∨ v = 29
  · have herr : pushesErr v = true := hpushes.mpr (.inr hmissing)
    rw [if_pos hmissing]
    simp only [stackWords, context, isrWords, if_neg (notMem_of_missing hmissing), if_pos herr]
    simp [shiftedFrame, frame, IntFrame.ofFields, savedWords]
  · rw [if_neg hmissing]
    by_cases hin : v ∈ [8, 10, 11, 12, 13, 14, 17, 30]
    · have herr : pushesErr v = true := hpushes.mpr (.inl hin)
      simp only [stackWords, context, isrWords, if_pos hin, if_pos herr, frame]
      simp [IntFrame.ofFields, savedWords]
    · have herr : ¬ pushesErr v = true := by
        rw [hpushes]
        tauto
      simp only [stackWords, context, isrWords, if_neg hin, if_neg herr, frame]
      simp [IntFrame.ofFields, savedWords]

end Cpu

/-- The interrupted code goes on with the values of the frame. -/
structure Resumes (u : Cpu) (f : IntFrame) : Prop where
  regs : ∀ r, u.regs r = f.reg r
  rip : u.rip = f.rip
  cs : u.cs = f.cs.setWidth 16
  rflags : u.rflags = f.rflags
  rsp : u.rsp = f.rsp
  ss : u.ss = f.ss.setWidth 16

theorem leave_resumes (t : Cpu) : Resumes t.leave (IntFrame.read t.mem t.rsp) := by
  constructor
  · intro r
    cases r <;>
      simp [Cpu.leave, Cpu.run, popaq, Cpu.exec, Cpu.set, Cpu.iretq, IntFrame.read,
        IntFrame.ofFields, IntFrame.reg, BitVec.add_assoc]
  all_goals
    simp [Cpu.leave, Cpu.run, popaq, Cpu.exec, Cpu.set, Cpu.iretq, IntFrame.read,
      IntFrame.ofFields, BitVec.add_assoc]

/-- A C function that returns has taken its return address off the stack. -/
def Returns (handler : Cpu → Option Cpu) : Prop :=
  ∀ c t, handler c = some t → t.rsp = c.rsp + 8

/-- The interrupted context after the interrupt, if the handler returns. -/
def intStub (handler : Cpu → Option Cpu) (c : Cpu) (gate : IdtEntry) (v : Fin 256)
    (err stack ret : Word) : Option Cpu :=
  (handler (c.enter gate v err stack ret)).map Cpu.leave

/-- The vector leads to its stub, the argument of the handler is the interrupted context,
and after every handler that returns the context goes on with what its argument holds. -/
structure Transparent (isrTable : Fin 256 → Word) (v : Fin 256) (c : Cpu) (err stack ret : Word) :
    Prop where
  vectored : (idtInit isrTable v).offset = isrTable v
  frame : IntFrame.read (c.enter (idtInit isrTable v) v err stack ret).mem
      ((c.enter (idtInit isrTable v) v err stack ret).rsp + 8) = c.frame v err
  resumes : ∀ handler, Returns handler →
    ∀ t, handler (c.enter (idtInit isrTable v) v err stack ret) = some t →
      ∃ u, intStub handler c (idtInit isrTable v) v err stack ret = some u ∧
        Resumes u (IntFrame.read t.mem ((c.enter (idtInit isrTable v) v err stack ret).rsp + 8))

/-- A frame shifted by one word is the right one only if all of these words are zero. -/
theorem shiftedFrame_eq_iff {c : Cpu} {v : Fin 256} {err : Word} (hv : v = 21 ∨ v = 29) :
    c.shiftedFrame v err = c.frame v err ↔
      err = 0 ∧ c.rip = 0 ∧ c.cs = 0 ∧ c.rflags = 0 ∧ c.rsp = 0 ∧ c.ss = 0 := by
  have herr : Cpu.pushesErr v = true := (Cpu.pushesErr_iff v).mpr (.inr hv)
  have hzero : ∀ s : BitVec 16, s.setWidth 64 = (0 : Word) ↔ s = 0 := by
    intro s
    constructor
    · intro h
      have hnat := congrArg BitVec.toNat h
      rw [BitVec.toNat_setWidth] at hnat
      have := s.isLt
      rw [Nat.mod_eq_of_lt (by omega)] at hnat
      exact BitVec.eq_of_toNat_eq hnat
    · rintro rfl
      rfl
  simp only [Cpu.shiftedFrame, Cpu.frame, if_pos herr, IntFrame.mk.injEq, true_and]
  constructor
  · rintro ⟨rfl, hrip, hcs, hrflags, hrsp, hss⟩
    rw [← hrip] at hcs
    rw [← hcs] at hrflags
    rw [← hrflags] at hrsp
    rw [← hrsp] at hss
    exact ⟨rfl, hrip.symm, (hzero _).mp hcs.symm, hrflags.symm, hrsp.symm, (hzero _).mp hss.symm⟩
  · rintro ⟨rfl, hrip, hcs, hrflags, hrsp, hss⟩
    rw [hrip, hcs, hrflags, hrsp, hss]
    exact ⟨rfl, rfl, rfl, rfl, rfl, rfl⟩

/-- For every gate `idt_init` installs and every interrupted context, the interrupt is
transparent if and only if the vector is not 21 and not 29, apart from a context whose
words on the stack are all zero, which no CPU is ever in. -/
theorem intStub_transparent_iff (isrTable : Fin 256 → Word) (v : Fin 256)
    (hgate : (idtInit isrTable v).Present) (c : Cpu) (err stack ret : Word) :
    Transparent isrTable v c err stack ret ↔
      (v ≠ 21 ∧ v ≠ 29) ∨
        (err = 0 ∧ c.rip = 0 ∧ c.cs = 0 ∧ c.rflags = 0 ∧ c.rsp = 0 ∧ c.ss = 0) := by
  have hframe : IntFrame.read (c.enter (idtInit isrTable v) v err stack ret).mem
      ((c.enter (idtInit isrTable v) v err stack ret).rsp + 8) = c.frame v err ↔
      (v ≠ 21 ∧ v ≠ 29) ∨
        (err = 0 ∧ c.rip = 0 ∧ c.cs = 0 ∧ c.rflags = 0 ∧ c.rsp = 0 ∧ c.ss = 0) := by
    rw [Cpu.read_enter]
    by_cases hmissing : v = 21 ∨ v = 29
    · rw [if_pos hmissing, shiftedFrame_eq_iff hmissing]
      tauto
    · rw [if_neg hmissing]
      simp only [true_iff]
      exact .inl (not_or.mp hmissing)
  constructor
  · intro h
    exact hframe.mp h.frame
  · intro h
    refine ⟨(idtInit_gate v).2 hgate, hframe.mpr h, fun handler hreturns t ht => ?_⟩
    refine ⟨t.leave, by rw [intStub, ht]; rfl, ?_⟩
    rw [← hreturns _ _ ht]
    exact leave_resumes t

def kernelCpu : Cpu where
  regs := fun _ => 0
  rip := 0xffffffff80001234
  cs := 0x08
  rflags := 0x202
  rsp := 0xffff800000010000
  ss := 0x10
  ds := 0x10
  cr2 := 0
  cr3 := 0x1000
  mem := fun _ => 0

/-- A control protection exception with the error code 1: the handler reads 0 for the error
code and 1 for RIP, and if it returns, the kernel goes on at the address 1. -/
theorem intStub_controlProtection :
    ((idtInit fun _ => 0) 21).Present ∧
    (∀ gate stack ret, IntFrame.read (kernelCpu.enter gate 21 1 stack ret).mem
        ((kernelCpu.enter gate 21 1 stack ret).rsp + 8) = kernelCpu.shiftedFrame 21 1) ∧
    kernelCpu.shiftedFrame 21 1 ≠ kernelCpu.frame 21 1 ∧
    (kernelCpu.shiftedFrame 21 1).err = 0 ∧ (kernelCpu.shiftedFrame 21 1).rip = 1 := by
  refine ⟨(idtInit_gate 21).1.mpr (by decide), fun gate stack ret => ?_, ?_, rfl, rfl⟩
  · rw [Cpu.read_enter]
    exact if_pos (.inl rfl)
  · intro h
    have hrip := congrArg IntFrame.rip h
    revert hrip
    decide

theorem intStub_transparent_iff_breakpoint :
    Transparent (fun _ => 0) 3 kernelCpu 0 0xffff800000020000 0xffffffff80005678 :=
  (intStub_transparent_iff (fun _ => 0) 3 ((idtInit_gate 3).1.mpr (by decide)) kernelCpu 0
    0xffff800000020000 0xffffffff80005678).mpr (.inl (by decide))

end Olive
