import Olive.Idt.Handler
import Olive.Library.Walks
import Olive.Locks.Sequential

/-!
# The backtrace of a fatal exception

`_backtrace` follows the saved frame pointers until it finds one that is `NULL`. It reads
them from memory, which may be corrupt just when it runs, and it does not keep track of where
it has been: it ends if and only if no frame occurs twice in the chain.
-/

namespace Olive

open Library

/-- The loop stops at this frame: there is none, or its saved frame pointer is `NULL`. -/
def LastFrame (m : Memory 64) (frame : Word) : Prop := frame = 0 ∨ m.load64 frame = 0

instance (m : Memory 64) : DecidablePred (LastFrame m) :=
  fun _ => inferInstanceAs (Decidable (_ ∨ _))

instance : Finite Word := Finite.of_injective BitVec.toFin fun _ _ => BitVec.toFin_inj.mp

def printedFrames (m : Memory 64) (fuel : ℕ) (frame : Word) : Option (List Word) :=
  walk m.load64 (LastFrame m) fuel frame

/-! ## The lines of a backtrace -/

def startLine : Line := ("--- BACKTRACE START ----\n", [])

def noTraceLine : Line := ("No stack trace available-\n", [])

def endLine : Line := ("-----------------------\n", [])

def callerLines (caller : Word) : List Line :=
  if caller ≠ 0 then [(" - [caller] %-24s @ %.16llx\n", [.str "<unkown>", .num caller])] else []

/-- The line for a frame with the return address `rip`; `%06d` reads the low half of the
first argument. -/
def frameLine (i rip : Word) : Line :=
  (" - [%06d] %-24s @ %.16llx\n", [.num i, .str "<unkown>", .num rip])

/-- The lines for frames with the numbers from `i` on. -/
def frameLines (m : Memory 64) : ℕ → List Word → List Line
  | _, [] => []
  | i, frame :: frames =>
    frameLine (BitVec.ofNat 64 i) (m.load64 (frame + 8)) :: frameLines m (i + 1) frames

namespace Locked

variable (npf : Formatter) (k : Kernel)

theorem fatalLines_eval (lines : List Line) :
    ∃ console, (fatalLines npf lines).eval k = some ((), { k with console := console }) := by
  induction lines generalizing k with
  | nil => exact ⟨k.console, rfl⟩
  | cons line lines ih =>
    obtain ⟨c, hc⟩ := log_eval npf k "FATAL" line.1 line.2
    obtain ⟨c', hc'⟩ := ih { k with console := c }
    exact ⟨c', (Code.eval_bind_of_eq hc _).trans hc'⟩

theorem fatalLines_append_eval (lines lines' : List Line) :
    (fatalLines npf (lines ++ lines')).eval k =
      ((fatalLines npf lines).eval k).bind fun r => (fatalLines npf lines').eval r.2 := by
  induction lines generalizing k with
  | nil => rfl
  | cons line lines ih =>
    obtain ⟨c, hc⟩ := log_eval npf k "FATAL" line.1 line.2
    have hhead : ∀ rest, (fatalLines npf (line :: rest)).eval k =
        (fatalLines npf rest).eval { k with console := c } :=
      fun rest => Code.eval_bind_of_eq hc _
    rw [List.cons_append, hhead, hhead]
    exact ih { k with console := c }

/-- The loop prints the lines of the frames that the walk passes, and ends if the walk does.
The induction is on the fuel; a line that is printed leaves the memory as it is. -/
theorem backtraceLoop_eval (fuel i : ℕ) (frame : Word) :
    (backtraceLoop npf fuel i frame).eval k =
      (printedFrames k.mem fuel frame).bind fun frames =>
        (fatalLines npf (frameLines k.mem i frames)).eval k := by
  induction fuel generalizing i frame k with
  | zero => rfl
  | succ fuel ih =>
    by_cases hlast : LastFrame k.mem frame
    · have hmore : ¬ (frame ≠ 0 ∧ k.mem.load64 frame ≠ 0) := by
        rintro ⟨hframe, hnext⟩
        exact hlast.elim hframe hnext
      rw [printedFrames, walk_of_halt fuel hlast, backtraceLoop,
        Code.eval_bind_of_eq (Code.eval_get k _), decide_eq_false hmore]
      rfl
    · have hmore : frame ≠ 0 ∧ k.mem.load64 frame ≠ 0 := not_or.mp hlast
      obtain ⟨c, hc⟩ := log_eval npf k "FATAL" " - [%06d] %-24s @ %.16llx\n"
        [.num (BitVec.ofNat 64 i), .str "<unkown>", .num (k.mem.load64 (frame + 8))]
      have hline : ∀ frames, (fatalLines npf (frameLines k.mem i (frame :: frames))).eval k =
          (fatalLines npf (frameLines k.mem (i + 1) frames)).eval { k with console := c } :=
        fun frames => Code.eval_bind_of_eq hc _
      have hbody : (backtraceLoop npf (fuel + 1) i frame).eval k =
          (backtraceLoop npf fuel (i + 1) (k.mem.load64 frame)).eval { k with console := c } := by
        rw [backtraceLoop, Code.eval_bind_of_eq (Code.eval_get k _), decide_eq_true hmore,
          if_pos rfl, Code.eval_bind_of_eq (Code.eval_get k _), Code.eval_bind_of_eq hc,
          Code.eval_bind_of_eq (Code.eval_get _ _)]
      rw [hbody, ih, printedFrames, printedFrames, walk_of_not_halt fuel hlast, Option.bind_map]
      exact congrArg (Option.bind _) (funext fun frames => (hline frames).symm)

theorem fatalLines_singleton_eval (line : Line) :
    (fatalLines npf [line]).eval k = (log npf "FATAL" line.1 line.2).eval k := by
  obtain ⟨c, hc⟩ := log_eval npf k "FATAL" line.1 line.2
  rw [hc]
  exact Code.eval_bind_of_eq hc _

variable (rbp caller : Word)

theorem backtrace_eval_noTrace (fuel : ℕ) (h : rbp ≠ 0 ∧ k.mem.load64 rbp = 0) :
    (backtrace npf fuel rbp caller).eval k = (fatalLines npf [startLine, noTraceLine]).eval k := by
  obtain ⟨c, hc⟩ := log_eval npf k "FATAL" startLine.1 startLine.2
  have hrest := fatalLines_singleton_eval npf { k with console := c } noTraceLine
  have hlines : (fatalLines npf [startLine, noTraceLine]).eval k =
      (fatalLines npf [noTraceLine]).eval { k with console := c } := Code.eval_bind_of_eq hc _
  rw [hlines, hrest, backtrace]
  refine (Code.eval_bind_of_eq hc _).trans ?_
  rw [Code.eval_bind_of_eq (Code.eval_get _ _), decide_eq_true h]
  rfl

theorem callerLines_eval (m : Program Unit) :
    (if caller ≠ 0 then do
        log npf "FATAL" " - [caller] %-24s @ %.16llx\n" [.str "<unkown>", .num caller]
        m
      else m).eval k =
      ((fatalLines npf (callerLines caller)).eval k).bind fun r => m.eval r.2 := by
  unfold callerLines
  split_ifs
  · rw [fatalLines_singleton_eval, Code.eval_bind]
  · rfl

theorem backtrace_eval (fuel : ℕ) (h : ¬ (rbp ≠ 0 ∧ k.mem.load64 rbp = 0)) :
    (backtrace npf fuel rbp caller).eval k =
      (printedFrames k.mem fuel rbp).bind fun frames =>
        (fatalLines npf (startLine :: (callerLines caller ++
          (frameLines k.mem 0 frames ++ [endLine])))).eval k := by
  obtain ⟨c, hc⟩ := log_eval npf k "FATAL" startLine.1 startLine.2
  obtain ⟨c', hc'⟩ := fatalLines_eval npf { k with console := c } (callerLines caller)
  have hlines : ∀ lines, (fatalLines npf (startLine :: (callerLines caller ++ lines))).eval k =
      (fatalLines npf lines).eval { k with console := c' } := by
    intro lines
    have hstart : (fatalLines npf (startLine :: (callerLines caller ++ lines))).eval k =
        (fatalLines npf (callerLines caller ++ lines)).eval { k with console := c } :=
      Code.eval_bind_of_eq hc _
    rw [hstart, fatalLines_append_eval, hc']
    rfl
  have hloop : (do backtraceLoop npf fuel 0 rbp; log npf "FATAL" endLine.1 endLine.2).eval
      { k with console := c' } = (printedFrames k.mem fuel rbp).bind fun frames =>
        (fatalLines npf (frameLines k.mem 0 frames ++ [endLine])).eval
          { k with console := c' } := by
    rw [Code.eval_bind, backtraceLoop_eval, Option.bind_assoc]
    simp only [fatalLines_append_eval, fatalLines_singleton_eval]
  simp only [hlines]
  rw [← hloop, backtrace]
  refine (Code.eval_bind_of_eq hc _).trans ?_
  rw [Code.eval_bind_of_eq (Code.eval_get _ _), decide_eq_false h]
  refine (callerLines_eval npf { k with console := c } caller _).trans ?_
  rw [hc']
  rfl

/-! ## What the report of a fatal exception does -/

def fatalReport (fuel : ℕ) (frame : IntFrame) : Program Unit := do
  log npf "FATAL" "\n" []
  fatalLines npf (registerDump frame)
  fatalLines npf (exceptionDetails frame.vector frame.err)
  log npf "FATAL" "-------------------------------\n" []
  backtrace npf fuel rbp frame.rip

theorem idtHandler_fatal (irqHandlers : Word → Option (IntFrame → Program Unit)) (fuel : ℕ)
    {frame : IntFrame} (hvector : frame.vector < 32)
    (hfatal : (exceptionInfoAt frame.vector).fatal = true) :
    idtHandler npf irqHandlers fuel rbp frame = (do fatalReport npf rbp fuel frame; hcf) := by
  rw [idtHandler, if_pos hvector, if_pos hfatal, fatalReport]
  simp only [bind_assoc]

theorem fatalReport_eval {fuel : ℕ} {frame : IntFrame}
    (h : ∀ console, ∃ k', (backtrace npf fuel rbp frame.rip).eval { k with console := console } =
      some ((), k')) :
    ∃ k', (fatalReport npf rbp fuel frame).eval k = some ((), k') := by
  obtain ⟨c₁, h₁⟩ := log_eval npf k "FATAL" "\n" []
  obtain ⟨c₂, h₂⟩ := fatalLines_eval npf { k with console := c₁ } (registerDump frame)
  obtain ⟨c₃, h₃⟩ := fatalLines_eval npf { k with console := c₂ }
    (exceptionDetails frame.vector frame.err)
  obtain ⟨c₄, h₄⟩ := log_eval npf { k with console := c₃ } "FATAL"
    "-------------------------------\n" []
  rw [fatalReport, Code.eval_bind_of_eq h₁, Code.eval_bind_of_eq h₂, Code.eval_bind_of_eq h₃,
    Code.eval_bind_of_eq h₄]
  exact h c₄

/-! ## When the backtrace ends -/

theorem backtrace_ends (h : WalkEnds k.mem.load64 (LastFrame k.mem) rbp) :
    ∃ fuel, ∀ console, ∃ k',
      (backtrace npf fuel rbp caller).eval { k with console := console } = some ((), k') := by
  obtain ⟨fuel, frames, hframes⟩ := walkEnds_iff_exists_walk.mp h
  refine ⟨fuel, fun console => ?_⟩
  by_cases hnone : rbp ≠ 0 ∧ k.mem.load64 rbp = 0
  · rw [backtrace_eval_noTrace npf { k with console := console } rbp caller fuel hnone]
    obtain ⟨c, hc⟩ := fatalLines_eval npf { k with console := console } [startLine, noTraceLine]
    exact ⟨_, hc⟩
  · have heval := backtrace_eval npf { k with console := console } rbp caller fuel hnone
    rw [printedFrames, hframes] at heval
    obtain ⟨c, hc⟩ := fatalLines_eval npf { k with console := console }
      (startLine :: (callerLines caller ++ (frameLines k.mem 0 frames ++ [endLine])))
    exact ⟨_, heval.trans hc⟩

theorem walkEnds_of_backtrace {fuel : ℕ} {k' : Kernel}
    (h : (backtrace npf fuel rbp caller).eval k = some ((), k')) :
    WalkEnds k.mem.load64 (LastFrame k.mem) rbp := by
  by_cases hnone : rbp ≠ 0 ∧ k.mem.load64 rbp = 0
  · exact ⟨0, .inr hnone.2⟩
  · rw [backtrace_eval npf k rbp caller fuel hnone] at h
    obtain ⟨frames, hframes, -⟩ := Option.bind_eq_some_iff.mp h
    exact walkEnds_of_walk hframes

/-! ## The steps of the backtrace -/

section Leads

variable {mayTake : Lock → Prop} {mayStop : Prop} {c : Holding Lock Section}
  (htake : mayTake .printfLock) (hc : MayPrint c)
include htake hc

theorem fatalLines_leads (lines : List Line) :
    (fatalLines npf lines).Leads (lockDiscipline mayTake mayStop) c c := by
  induction lines with
  | nil => exact Code.leads_pure ()
  | cons line lines ih => exact (log_leads npf htake hc _ _ _).bind fun _ => ih

theorem backtraceLoop_leads (hstop : mayStop) (fuel i : ℕ) (frame : Word) :
    (backtraceLoop npf fuel i frame).Leads (lockDiscipline mayTake mayStop) c c := by
  induction fuel generalizing i frame with
  | zero => exact Code.leads_stop hstop
  | succ fuel ih =>
    refine (Code.leads_get _).bind fun _ => Code.Leads.ite (fun _ => ?_) fun _ => Code.leads_pure ()
    refine (Code.leads_get _).bind fun _ => (log_leads npf htake hc _ _ _).bind fun _ => ?_
    exact (Code.leads_get _).bind fun _ => ih _ _

theorem backtrace_leads (hstop : mayStop) (fuel : ℕ) :
    (backtrace npf fuel rbp caller).Leads (lockDiscipline mayTake mayStop) c c := by
  have hlog : ∀ fmt args,
      (log npf "FATAL" fmt args).Leads (lockDiscipline mayTake mayStop) c c :=
    fun fmt args => log_leads npf htake hc _ fmt args
  have hloop := (backtraceLoop_leads npf htake hc hstop fuel 0 rbp).bind fun _ =>
    hlog "-----------------------\n" []
  refine (hlog _ _).bind fun _ => (Code.leads_get _).bind fun _ => ?_
  refine Code.Leads.ite (fun _ => hlog _ _) fun _ => ?_
  exact Code.Leads.ite (fun _ => (hlog _ _).bind fun _ => hloop) fun _ => hloop

theorem fatalReport_leads (hstop : mayStop) (fuel : ℕ) (frame : IntFrame) :
    (fatalReport npf rbp fuel frame).Leads (lockDiscipline mayTake mayStop) c c := by
  refine (log_leads npf htake hc _ _ _).bind fun _ => ?_
  refine (fatalLines_leads npf htake hc _).bind fun _ => ?_
  refine (fatalLines_leads npf htake hc _).bind fun _ => ?_
  refine (log_leads npf htake hc _ _ _).bind fun _ => ?_
  exact backtrace_leads npf rbp frame.rip htake hc hstop fuel

end Leads

/-! ## What a backtrace is for -/

/-- The frames that follow each other from `frame` on, but for the last one, whose saved frame
pointer is `NULL`. -/
inductive FrameChain (m : Memory 64) : Word → List Word → Word → Prop
  | last {frame : Word} (hframe : frame ≠ 0) (hend : m.load64 frame = 0) :
      FrameChain m frame [] frame
  | cons {frame : Word} {frames : List Word} {last : Word} (hframe : frame ≠ 0)
      (hrest : FrameChain m (m.load64 frame) frames last) :
      FrameChain m frame (frame :: frames) last

/-- One line for each frame, with its return address, numbered from 0; `%06d` prints a
signed number of 32 bits. -/
structure Numbered (m : Memory 64) (frames : List Word) (lines : List Line) : Prop where
  length : lines.length = frames.length
  line : ∀ (i : ℕ) frame, frames[i]? = some frame →
    ∃ n : Word, lines[i]? = some (frameLine n (m.load64 (frame + 8))) ∧ (n.setWidth 32).toInt = i

def backtraceReport (caller : Word) : List Line → List Line
  | [] => [startLine, noTraceLine]
  | line :: lines => startLine :: (callerLines caller ++ (line :: lines ++ [endLine]))

/-- By its own steps a thread that runs `_backtrace` comes to its end, and one that handles a
fatal exception comes to `hcf`; for frames at increasing addresses the report is printed. -/
structure BacktraceDone (w : World Lock Kernel) (rbp : Word) : Prop where
  returns : ∀ npf caller, ∃ fuel w',
    (backtrace npf fuel rbp caller).Steps w .none w' .none (.ret ())
  halts : ∀ npf irqHandlers (frame : IntFrame), frame.vector < 32 →
    (exceptionInfoAt frame.vector).fatal = true →
      ∃ fuel w', (idtHandler npf irqHandlers fuel rbp frame).Steps w .none w' .none hcf
  prints : ∀ caller frames last, FrameChain w.shared.mem rbp frames last →
    (frames ++ [last]).Pairwise (· < ·) →
      ∃ fuel lines, Numbered w.shared.mem frames lines ∧ ∀ npf, ∃ w',
        (backtrace npf fuel rbp caller).Steps w .none w' .none (.ret ()) ∧
          (fatalLines npf (backtraceReport caller lines)).eval w.shared = some ((), w'.shared)

section Chain

variable {m : Memory 64} {frame last : Word} {frames : List Word}

theorem FrameChain.ne_zero (h : FrameChain m frame frames last) : frame ≠ 0 := by
  cases h with
  | last hframe _ => exact hframe
  | cons hframe _ => exact hframe

theorem FrameChain.printedFrames (h : FrameChain m frame frames last) :
    printedFrames m (frames.length + 1) frame = some frames := by
  induction h with
  | last hframe hend => exact walk_of_halt 0 (.inr hend)
  | cons hframe hrest ih =>
    have hpassed : ¬ LastFrame m _ := not_or.mpr ⟨hframe, hrest.ne_zero⟩
    exact (walk_of_not_halt _ hpassed).trans (by rw [List.length_cons]; exact congrArg _ ih)

theorem getElem?_frameLines (i j : ℕ) :
    (frameLines m i frames)[j]? =
      frames[j]?.map fun frame => frameLine (BitVec.ofNat 64 (i + j)) (m.load64 (frame + 8)) := by
  induction frames generalizing i j with
  | nil => rfl
  | cons frame frames ih =>
    cases j with
    | zero => rfl
    | succ j =>
      have hnumber : i + 1 + j = i + (j + 1) := by omega
      rw [frameLines, List.getElem?_cons_succ, List.getElem?_cons_succ, ih, hnumber]

theorem length_frameLines (i : ℕ) : (frameLines m i frames).length = frames.length := by
  induction frames generalizing i with
  | nil => rfl
  | cons frame frames ih => exact congrArg (· + 1) (ih (i + 1))

/-- The counter of the loop numbers the frames as long as it fits an `int`. -/
theorem numbered_frameLines (h : frames.length ≤ 2 ^ 31) :
    Numbered m frames (frameLines m 0 frames) := by
  refine ⟨length_frameLines 0, fun i frame hi => ⟨BitVec.ofNat 64 i, ?_, ?_⟩⟩
  · rw [getElem?_frameLines, hi, Nat.zero_add]
    rfl
  · have hlt : i < frames.length := (List.getElem?_eq_some_iff.mp hi).1
    have hmod : ((BitVec.ofNat 64 i).setWidth 32).toNat = i := by
      rw [BitVec.toNat_setWidth, BitVec.toNat_ofNat]
      omega
    rw [BitVec.toInt_eq_toNat_of_lt (by rw [hmod]; omega), hmod]

theorem Numbered.length_le {lines : List Line} (h : Numbered m frames lines) :
    frames.length ≤ 2 ^ 31 := by
  by_contra hlong
  have hlt : 2 ^ 31 < frames.length := Nat.not_le.mp hlong
  obtain ⟨n, -, hn⟩ := h.line (2 ^ 31) frames[2 ^ 31] (List.getElem?_eq_getElem hlt)
  have hbound := BitVec.toInt_lt (x := n.setWidth 32)
  rw [hn] at hbound
  norm_num at hbound

end Chain

section Done

variable {w : World Lock Kernel} {rbp : Word}

/-- While another context holds `printf_lock`, the first line of the report waits. -/
theorem BacktraceDone.printfLock_free (h : BacktraceDone w rbp) :
    w.locked .printfLock = false := by
  by_contra hlocked
  obtain ⟨fuel, w', hsteps⟩ := h.returns (fun _ _ => ['.']) 0
  have hfirst : ∃ k, backtrace (fun _ _ => ['.']) fuel rbp 0 = .acquire .printfLock k := ⟨_, rfl⟩
  obtain ⟨k, hk⟩ := hfirst
  have hwaits : (backtrace (fun _ _ => ['.']) fuel rbp 0).step w .none = none := by
    rw [hk, Code.step, if_pos (by simpa using hlocked)]
  obtain ⟨-, -, hret⟩ := hsteps.stuck hwaits
  rw [hk] at hret
  cases hret

theorem BacktraceDone.walkEnds (h : BacktraceDone w rbp) :
    WalkEnds w.shared.mem.load64 (LastFrame w.shared.mem) rbp := by
  obtain ⟨fuel, w', hsteps⟩ := h.returns (fun _ _ => []) 0
  exact walkEnds_of_backtrace _ _ _ _ hsteps.eval_eq

theorem ownFlags_printfLock (hfree : w.locked .printfLock = false) :
    Code.OwnFlags (lockDiscipline (· = .printfLock) True) w .none := by
  refine ⟨?_, List.nodup_nil⟩
  rintro l rfl
  simp [hfree, Holding.none]

theorem backtrace_steps (hfree : w.locked .printfLock = false) {npf : Formatter} {fuel : ℕ}
    {caller : Word} {k' : Kernel}
    (heval : (backtrace npf fuel rbp caller).eval w.shared = some ((), k')) :
    ∃ w', (backtrace npf fuel rbp caller).Steps w .none w' .none (.ret ()) ∧ w'.shared = k' := by
  have hleads : (backtrace npf fuel rbp caller).Leads
      (lockDiscipline (· = .printfLock) True) .none .none :=
    @backtrace_leads npf rbp caller (· = .printfLock) True .none rfl mayPrint_none trivial fuel
  obtain ⟨w', hs, -, hsteps⟩ := hleads.steps (ownFlags_printfLock hfree) heval
  have hend := hsteps pure
  rw [bind_pure] at hend
  exact ⟨w', hend, hs⟩

theorem FrameChain.backtrace_eval {frames : List Word} {last : Word}
    (h : FrameChain w.shared.mem rbp frames last) (npf : Formatter) (caller : Word) :
    (backtrace npf (frames.length + 1) rbp caller).eval w.shared =
      (fatalLines npf (backtraceReport caller (frameLines w.shared.mem 0 frames))).eval
        w.shared := by
  have hprinted := h.printedFrames
  cases h with
  | last hframe hend => exact backtrace_eval_noTrace npf _ _ _ _ ⟨hframe, hend⟩
  | cons hframe hrest =>
    have hmore : ¬ (rbp ≠ 0 ∧ w.shared.mem.load64 rbp = 0) := fun hnone => hrest.ne_zero hnone.2
    rw [Locked.backtrace_eval npf _ _ _ _ hmore, hprinted]
    rfl

/-- A backtrace does what it is for if and only if `printf_lock` is free, no frame occurs
twice in the chain, and there are not more frames than an `int` can count. -/
theorem backtraceDone_iff :
    BacktraceDone w rbp ↔ w.locked .printfLock = false ∧
      PassesOnce w.shared.mem.load64 (LastFrame w.shared.mem) rbp ∧
      ∀ frames last, FrameChain w.shared.mem rbp frames last →
        (frames ++ [last]).Pairwise (· < ·) → frames.length ≤ 2 ^ 31 := by
  rw [← walkEnds_iff_passesOnce]
  constructor
  · intro h
    refine ⟨h.printfLock_free, h.walkEnds, fun frames last hchain hsorted => ?_⟩
    obtain ⟨-, lines, hnumbered, -⟩ := h.prints 0 frames last hchain hsorted
    exact hnumbered.length_le
  · rintro ⟨hfree, hwalk, hcount⟩
    have hends : ∀ npf caller, ∃ fuel, ∀ console, ∃ k',
        (backtrace npf fuel rbp caller).eval { w.shared with console := console } =
          some ((), k') :=
      fun npf caller => backtrace_ends npf w.shared rbp caller hwalk
    refine ⟨fun npf caller => ?_, fun npf irqHandlers frame hvector hfatal => ?_,
      fun caller frames last hchain hsorted => ?_⟩
    · obtain ⟨fuel, hfuel⟩ := hends npf caller
      obtain ⟨k', heval⟩ := hfuel w.shared.console
      obtain ⟨w', hsteps, -⟩ := backtrace_steps hfree heval
      exact ⟨fuel, w', hsteps⟩
    · obtain ⟨fuel, hfuel⟩ := hends npf frame.rip
      obtain ⟨k', heval⟩ := fatalReport_eval npf w.shared rbp hfuel
      have hleads : (fatalReport npf rbp fuel frame).Leads
          (lockDiscipline (· = .printfLock) True) .none .none :=
        @fatalReport_leads npf rbp (· = .printfLock) True .none rfl mayPrint_none trivial fuel frame
      obtain ⟨w', -, -, hsteps⟩ := hleads.steps (ownFlags_printfLock hfree) heval
      refine ⟨fuel, w', ?_⟩
      rw [idtHandler_fatal npf rbp irqHandlers fuel hvector hfatal]
      exact hsteps fun _ => hcf
    · refine ⟨frames.length + 1, _, numbered_frameLines (hcount frames last hchain hsorted),
        fun npf => ?_⟩
      obtain ⟨c, hc⟩ := fatalLines_eval npf w.shared
        (backtraceReport caller (frameLines w.shared.mem 0 frames))
      obtain ⟨w', hsteps, hs⟩ :=
        backtrace_steps hfree ((hchain.backtrace_eval npf caller).trans hc)
      exact ⟨w', hsteps, by rw [hs, hc]⟩

end Done

/-- The frames of `_backtrace` and `idt_handler`, and above them the frame of the interrupted
function, whose saved frame pointer was overwritten with its own address. -/
def loopedStack : World Lock Kernel where
  shared := { bootKernel with
    mem := ((bootKernel.mem.store64 0xffff800000010e00 0xffff800000010f00).store64
      0xffff800000010f00 0xffff800000011000).store64 0xffff800000011000 0xffff800000011000 }
  locked _ := false

/-- The backtrace never ends. -/
theorem not_backtraceDone_loopedStack : ¬ BacktraceDone loopedStack 0xffff800000010e00 := by
  intro h
  have hlast : ∀ f ∈ [0xffff800000010e00, 0xffff800000010f00, 0xffff800000011000],
      ¬ LastFrame loopedStack.shared.mem f := forall_of_all (by decide +kernel)
  have hnext : ∀ f ∈ [0xffff800000010e00, 0xffff800000010f00, 0xffff800000011000],
      loopedStack.shared.mem.load64 f ∈
        [(0xffff800000010e00 : Word), 0xffff800000010f00, 0xffff800000011000] :=
    forall_of_all (by decide +kernel)
  exact not_walkEnds hlast hnext List.mem_cons_self h.walkEnds

end Locked

end Olive
