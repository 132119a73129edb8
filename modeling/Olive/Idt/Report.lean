import Olive.Idt.Backtrace
import Olive.Printf.Buffer
import Olive.Printf.Checked

/-!
# The report of a fatal exception

`vfprintf` drops a text that does not fit into its buffer. No line of the report of a fatal
exception is lost in this way, whatever the registers hold. The report gets as far as the frames
of the backtrace go on: behind the last of them `idt_handler` halts the CPU.
-/

namespace Olive

open Library

/-! ## Lines that are printed in full -/

/-- The whole line reaches `putchar`: it fits into the buffer of `vfprintf`. -/
def Line.Printed (line : Line) : Prop :=
  ∃ t, formatted (line.1.toList ++ [nul]) line.2 = .ok t ∧
    ∀ buffer, vfprintfChars buffer (line.1.toList ++ [nul]) line.2 = .ok ((t.length : ℤ), t)

/-- What is decided in advance: the format is a standard one, and its text fits into the buffer. -/
def Checked (fmt : String) (ps : List Piece) (kinds : List ArgKind) : Prop :=
  formatChars ps = fmt.toList ∧ (∀ p ∈ ps, p.Standard) ∧ ∃ n ∈ formatBound ps kinds, n < 1024

instance (fmt : String) (ps : List Piece) (kinds : List ArgKind) : Decidable (Checked fmt ps kinds) :=
  inferInstanceAs (Decidable (_ ∧ _ ∧ _))

section Report

variable {fmt : String} {args : List Arg}

theorem Checked.printed {ps : List Piece} {kinds : List ArgKind} (h : Checked fmt ps kinds)
    (hargs : List.Forall₂ ArgKind.Admits kinds args) : Line.Printed (fmt, args) := by
  obtain ⟨hfmt, hps, n, hn, hlt⟩ := h
  obtain ⟨t, ht, hlen, hsupports⟩ := formatMeaning_of_bound hn hargs
  have htext : formatted (fmt.toList ++ [nul]) args = .ok t := by
    rw [← hfmt]
    exact formatted_meaning hps hsupports ht (by omega)
  refine ⟨t, htext, fun buffer => ?_⟩
  rw [vfprintfChars_eq, htext]
  simp only [Except.map]
  rw [if_pos (by omega)]

/-- `0x%.16llx` behind each label. -/
def wordPieces (labels : List String) (tail : String) : List Piece :=
  labels.flatMap (fun label => label.toList.map Piece.plain ++
    [.directive { precision := some (.literal 16), length := .largeLongLong, conv := .int .x }]) ++
  tail.toList.map Piece.plain

/-- `%s` between the texts. -/
def stringPieces (head tail : String) : List Piece :=
  head.toList.map Piece.plain ++ .directive { conv := .s } :: tail.toList.map Piece.plain

theorem admits_nums (ws : List Word) :
    List.Forall₂ ArgKind.Admits (List.replicate ws.length .num) (ws.map .num) := by
  induction ws with
  | nil => exact .nil
  | cons w ws ih => exact .cons trivial ih

theorem exceptionInfoAt_length (vector : Word) :
    (exceptionInfoAt vector).mnemonic.toList.length ≤ 40 ∧
      (exceptionInfoAt vector).message.toList.length ≤ 40 := by
  have hall : ∀ info ∈ reservedException :: exceptionInfo,
      info.mnemonic.toList.length ≤ 40 ∧ info.message.toList.length ≤ 40 := by
    decide
  apply hall
  unfold exceptionInfoAt
  rw [List.getD_eq_getElem?_getD]
  cases hinfo : exceptionInfo[vector.toNat]? with
  | none => exact List.mem_cons_self
  | some info => exact List.mem_cons_of_mem _ (List.mem_of_getElem? hinfo)

theorem printed_words (labels : List String) (tail : String) (ws : List Word)
    (hlen : ws.length = labels.length)
    (h : Checked fmt (wordPieces labels tail) (List.replicate labels.length .num)) :
    Line.Printed (fmt, ws.map .num) := by
  apply h.printed
  rw [← hlen]
  exact admits_nums ws

theorem printed_string (head tail : String) {s : String} (hs : s.toList.length ≤ 40)
    (h : Checked fmt (stringPieces head tail) [.str 40]) : Line.Printed (fmt, [.str s]) :=
  h.printed (.cons hs .nil)

theorem registerDump_printed (frame : IntFrame) : ∀ line ∈ registerDump frame, line.Printed := by
  obtain ⟨hmnemonic, hmessage⟩ := exceptionInfoAt_length frame.vector
  have hunknown : "<unknown>".toList.length ≤ 40 := by
    decide
  have htitle : Checked " - %s (%s) @ 0x%.16llx on CPU %s\n" (stringPieces " - " " (" ++
      stringPieces "" ")" ++ wordPieces [" @ 0x"] " on CPU " ++ stringPieces "" "\n")
      [.str 40, .str 40, .num, .str 40] := by
    decide
  simp only [registerDump, List.forall_mem_cons, List.not_mem_nil, false_implies, implies_true,
    and_true]
  refine ⟨?_, ?_, ?_, ?_, ?_, ?_, ?_, ?_, ?_, ?_, ?_, ?_, ?_⟩
  · exact printed_words [] "--- INTERRUPT INFORMATION ---\n" [] rfl (by decide)
  · exact htitle.printed (.cons hmnemonic (.cons hmessage (.cons trivial (.cons hunknown .nil))))
  · exact printed_words [] " - Register Dump:\n" [] rfl (by decide)
  · exact printed_words ["\tRAX: 0x", "  RBX:    0x", "  RCX: 0x"] "\n" [_, _, _] rfl
      (by decide)
  · exact printed_words ["\tRDX: 0x", "  RSI:    0x", "  RDI: 0x"] "\n" [_, _, _] rfl
      (by decide)
  · exact printed_words ["\tRBP: 0x", "  RSP:    0x"] "  -----------------------\n" [_, _] rfl
      (by decide)
  · exact printed_words ["\tR8:  0x", "  R9:     0x", "  R10: 0x"] "\n" [_, _, _] rfl
      (by decide)
  · exact printed_words ["\tR11: 0x", "  R12:    0x", "  R13: 0x"] "\n" [_, _, _] rfl
      (by decide)
  · exact printed_words ["\tR14: 0x", "  R15:    0x"] "  -----------------------\n" [_, _] rfl
      (by decide)
  · exact printed_words ["\tRIP: 0x", "  RFLAGS: 0x"] "  -----------------------\n" [_, _] rfl
      (by decide)
  · exact printed_words ["\tCR2: 0x", "  CR3:    0x"] "  -----------------------\n" [_, _] rfl
      (by decide)
  · exact printed_words ["\tCS:  0x", "  SS:     0x"] "  -----------------------\n" [_, _] rfl
      (by decide)
  · exact printed_words ["\tERR: 0x", "  VECTOR: 0x"] "  -----------------------\n" [_, _] rfl
      (by decide)

theorem errorCodeLine_printed (err : Word) : (errorCodeLine err).Printed :=
  printed_words ["\tError Code: 0x"] "\n" [err] rfl (by decide)

theorem bitLine_printed (err bit : Word) {yes no : String} (hyes : yes.toList.length ≤ 40)
    (hno : no.toList.length ≤ 40) : (bitLine err bit yes no).Printed := by
  apply printed_string "\t - " "\n" _ (by decide)
  split_ifs
  · exact hyes
  · exact hno

theorem selectorDetails_printed {title last : String} (htitle : Line.Printed (title, []))
    (hlast : ∀ s : String, s.toList.length ≤ 40 → Line.Printed (last, [.str s])) (err : Word) :
    ∀ line ∈ selectorDetails title last err, line.Printed := by
  simp only [selectorDetails, List.forall_mem_cons, List.not_mem_nil, false_implies, implies_true,
    and_true]
  refine ⟨htitle, errorCodeLine_printed err, bitLine_printed err 1 (by decide) (by decide), ?_, ?_⟩
  · exact printed_words ["\t - Index: 0x"] "\n" [_] rfl (by decide)
  · apply hlast
    split_ifs
    · decide
    · decide

theorem exceptionDetails_printed (vector err : Word) :
    ∀ line ∈ exceptionDetails vector err, line.Printed := by
  have hlast : ∀ s : String, s.toList.length ≤ 40 → Line.Printed ("\t - %s\n", [.str s]) :=
    fun s hs => printed_string "\t - " "\n" hs (by decide)
  have hcode := errorCodeLine_printed err
  unfold exceptionDetails
  split_ifs
  · rw [List.forall_mem_singleton]
    exact printed_words [] " - Double Fault: No additional error information.\n" [] rfl
      (by decide)
  · apply selectorDetails_printed _ hlast
    exact printed_words [] " - Invalid TSS Details:\n" [] rfl (by decide)
  · apply selectorDetails_printed _ hlast
    exact printed_words [] " - Segment Not Present Details:\n" [] rfl (by decide)
  · apply selectorDetails_printed _ fun s hs => printed_string "\t - " "" hs (by decide)
    exact printed_words [] " - Stack-Segment Fault Details:\n" [] rfl (by decide)
  · apply selectorDetails_printed _ hlast
    exact printed_words [] " - General Protection Fault Details:\n" [] rfl (by decide)
  · simp only [List.forall_mem_cons, List.not_mem_nil, false_implies, implies_true, and_true]
    refine ⟨?_, hcode, ?_, ?_, ?_, ?_, ?_⟩
    · exact printed_words [] " - Page Fault Details:\n" [] rfl (by decide)
    · exact bitLine_printed err 1 (by decide) (by decide)
    · exact bitLine_printed err 2 (by decide) (by decide)
    · exact bitLine_printed err 4 (by decide) (by decide)
    · exact bitLine_printed err 8 (by decide) (by decide)
    · exact bitLine_printed err 16 (by decide) (by decide)
  · rw [List.forall_mem_cons, List.forall_mem_cons, List.forall_mem_singleton]
    refine ⟨?_, hcode, bitLine_printed err 1 (by decide) (by decide)⟩
    exact printed_words [] " - Alignment Check Details:\n" [] rfl (by decide)
  · rw [List.forall_mem_cons, List.forall_mem_singleton]
    refine ⟨?_, hcode⟩
    exact printed_words [] " - Control Protection Exception Details:\n" [] rfl (by decide)
  · rw [List.forall_mem_cons, List.forall_mem_singleton]
    refine ⟨?_, hcode⟩
    exact printed_words [] " - VMM Communication Exception Details:\n" [] rfl (by decide)
  · rw [List.forall_mem_cons, List.forall_mem_singleton]
    refine ⟨?_, hcode⟩
    exact printed_words [] " - Security Exception Details:\n" [] rfl (by decide)
  · rw [List.forall_mem_singleton]
    exact printed_words [] " - No detailed information for this exception.\n" [] rfl
      (by decide)

/-- `%-24s` with the name of a function, and its address. -/
def symbolPieces : List Piece :=
  .directive { flags := [.minus], width := some (.literal 24), conv := .s } :: wordPieces [" @ "] "\n"

theorem callerLines_printed (caller : Word) : ∀ line ∈ callerLines caller, line.Printed := by
  have hline : Checked " - [caller] %-24s @ %.16llx\n"
      ((" - [caller] ".toList.map .plain) ++ symbolPieces) [.str 40, .num] := by
    decide
  have hname : "<unkown>".toList.length ≤ 40 := by
    decide
  unfold callerLines
  split_ifs
  · rw [List.forall_mem_singleton]
    exact hline.printed (.cons hname (.cons trivial .nil))
  · exact fun line hline => absurd hline List.not_mem_nil

theorem frameLine_printed (i rip : Word) : (frameLine i rip).Printed := by
  have hline : Checked " - [%06d] %-24s @ %.16llx\n" ((" - [".toList.map .plain) ++
      .directive { flags := [.zero], width := some (.literal 6), conv := .int .d } ::
        ("] ".toList.map .plain ++ symbolPieces)) [.num, .str 40, .num] := by
    decide
  have hname : "<unkown>".toList.length ≤ 40 := by
    decide
  exact hline.printed (.cons trivial (.cons hname (.cons trivial .nil)))

theorem frameLines_printed (m : Memory 64) (i : ℕ) (frames : List Word) :
    ∀ line ∈ frameLines m i frames, line.Printed := by
  induction frames generalizing i with
  | nil => exact fun line hline => absurd hline List.not_mem_nil
  | cons frame frames ih =>
    rw [frameLines, List.forall_mem_cons]
    exact ⟨frameLine_printed _ _, ih (i + 1)⟩

theorem startLine_printed : startLine.Printed :=
  printed_words [] "--- BACKTRACE START ----\n" [] rfl (by decide)

theorem noTraceLine_printed : noTraceLine.Printed :=
  printed_words [] "No stack trace available-\n" [] rfl (by decide)

theorem endLine_printed : endLine.Printed :=
  printed_words [] "-----------------------\n" [] rfl (by decide)

/-- There is no trace, or the chain of frames ends among the first `fuel`. -/
def TraceEnds (m : Memory 64) (fuel : ℕ) (rbp : Word) : Prop :=
  (rbp ≠ 0 ∧ m.load64 rbp = 0) ∨ (printedFrames m fuel rbp).isSome

instance (m : Memory 64) (fuel : ℕ) (rbp : Word) : Decidable (TraceEnds m fuel rbp) :=
  inferInstanceAs (Decidable (_ ∨ _))

/-- The lines of `_backtrace(caller)`, with the last one if it gets there. -/
def backtraceLines (m : Memory 64) (fuel : ℕ) (rbp caller : Word) : List Line :=
  if rbp ≠ 0 ∧ m.load64 rbp = 0 then [startLine, noTraceLine]
  else startLine :: (callerLines caller ++
    (frameLines m 0 (passed m.load64 (LastFrame m) fuel rbp) ++
      if TraceEnds m fuel rbp then [endLine] else []))

def reportLines (m : Memory 64) (fuel : ℕ) (rbp : Word) (frame : IntFrame) : List Line :=
  ("\n", []) :: (registerDump frame ++ (exceptionDetails frame.vector frame.err ++
    ("-------------------------------\n", []) :: backtraceLines m fuel rbp frame.rip))

theorem backtraceLines_printed (m : Memory 64) (fuel : ℕ) (rbp caller : Word) :
    ∀ line ∈ backtraceLines m fuel rbp caller, line.Printed := by
  unfold backtraceLines
  split_ifs with hnone hends
  · rw [List.forall_mem_cons, List.forall_mem_singleton]
    exact ⟨startLine_printed, noTraceLine_printed⟩
  · rw [List.forall_mem_cons, List.forall_mem_append, List.forall_mem_append, List.forall_mem_singleton]
    exact ⟨startLine_printed, callerLines_printed caller, frameLines_printed m 0 _, endLine_printed⟩
  · rw [List.append_nil, List.forall_mem_cons, List.forall_mem_append]
    exact ⟨startLine_printed, callerLines_printed caller, frameLines_printed m 0 _⟩

theorem emptyLine_printed : Line.Printed ("\n", []) := printed_words [] "\n" [] rfl (by decide)

theorem ruleLine_printed : Line.Printed ("-------------------------------\n", []) :=
  printed_words [] "-------------------------------\n" [] rfl (by decide)

theorem reportLines_printed (m : Memory 64) (fuel : ℕ) (rbp : Word) (frame : IntFrame) :
    ∀ line ∈ reportLines m fuel rbp frame, line.Printed := by
  unfold reportLines
  rw [List.forall_mem_cons, List.forall_mem_append, List.forall_mem_append, List.forall_mem_cons]
  exact ⟨emptyLine_printed, registerDump_printed frame, exceptionDetails_printed frame.vector frame.err,
    ruleLine_printed, backtraceLines_printed m fuel rbp frame.rip⟩

end Report

/-! ## The report on the console -/

/-- A text goes to the console if there is one. -/
def Kernel.print (k : Kernel) (t : List Char) : Kernel :=
  if k.ftCtx then { k with console := k.console ++ t } else k

section Console

variable (k : Kernel)

theorem Kernel.print_nil : k.print [] = k := by
  unfold Kernel.print
  rw [List.append_nil, ite_self]

theorem Kernel.print_append (s t : List Char) : k.print (s ++ t) = (k.print s).print t := by
  unfold Kernel.print
  by_cases hft : k.ftCtx = true
  · simp only [if_pos hft, List.append_assoc]
  · simp only [if_neg hft]

theorem Kernel.print_mem (t : List Char) : (k.print t).mem = k.mem := by
  unfold Kernel.print
  split_ifs
  · rfl
  · rfl

/-- `LOG(FATAL, ...)`, as a line on the console. -/
def Line.fatalText (line : Line) : List Char :=
  nanoprintf "[%s]: " [.str "FATAL"] ++ nanoprintf line.1 line.2

theorem Line.Printed.formatted_eq {line : Line} (h : line.Printed) :
    formatted (line.1.toList ++ [nul]) line.2 = .ok (nanoprintf line.1 line.2) ∧
      (nanoprintf line.1 line.2).length < 1024 := by
  obtain ⟨t, ht, hprinted⟩ := h
  have htext : nanoprintf line.1 line.2 = t := by
    unfold nanoprintf
    rw [ht]
  have hbuffer := hprinted fun _ => nul
  rw [vfprintfChars_eq, ht] at hbuffer
  rw [htext]
  refine ⟨ht, ?_⟩
  by_contra hlong
  simp only [Except.map, if_neg hlong] at hbuffer
  cases hbuffer
  exact hlong (by decide)

namespace Locked

theorem putchars_eval_print (t : List Char) : (putchars t).eval k = some ((), k.print t) := by
  induction t generalizing k with
  | nil =>
    rw [Kernel.print_nil]
    rfl
  | cons ch t ih =>
    have hchar : (putchar ch).eval k = some (ch, k.print [ch]) := rfl
    rw [← List.singleton_append, Kernel.print_append, ← ih]
    exact Code.eval_bind_of_eq hchar _

theorem printf_eval_print {fmt : String} {args : List Arg}
    (hlen : (nanoprintf fmt args).length < 1024) : (printf nanoprintf fmt args).eval k =
      some (((nanoprintf fmt args).length : ℤ), k.print (nanoprintf fmt args)) := by
  simp only [printf, vfprintf, if_pos hlen]
  exact Code.eval_bind_of_eq (putchars_eval_print k _) _

theorem log_eval_print {line : Line} (h : line.Printed) :
    (log nanoprintf "FATAL" line.1 line.2).eval k = some ((), k.print line.fatalText) := by
  have hlevel : (nanoprintf "[%s]: " [.str "FATAL"]).length < 1024 :=
    (Line.Printed.formatted_eq (printed_string "[" "]: " (by decide) (by decide))).2
  unfold log Line.fatalText
  rw [Kernel.print_append, Code.eval_bind_of_eq (printf_eval_print k hlevel),
    Code.eval_bind_of_eq (printf_eval_print _ h.formatted_eq.2)]
  rfl

theorem fatalLines_eval_print {lines : List Line} (h : ∀ line ∈ lines, line.Printed) :
    (fatalLines nanoprintf lines).eval k = some ((), k.print (lines.flatMap Line.fatalText)) := by
  induction lines generalizing k with
  | nil =>
    rw [List.flatMap_nil, Kernel.print_nil]
    rfl
  | cons line lines ih =>
    rw [List.flatMap_cons, Kernel.print_append,
      ← ih (k.print line.fatalText) fun line' h' => h line' (List.mem_cons_of_mem _ h')]
    exact Code.eval_bind_of_eq (log_eval_print k (h line List.mem_cons_self)) _

/-- The loop prints the frames that the walk passes, and stops with the fuel if the walk has not
ended by then. The induction is on the fuel; a line that is printed leaves the memory as it is. -/
theorem backtraceLoop_outcome (fuel i : ℕ) (frame : Word) :
    (backtraceLoop nanoprintf fuel i frame).outcome k =
      (if (printedFrames k.mem fuel frame).isSome then some () else none,
        k.print ((frameLines k.mem i (passed k.mem.load64 (LastFrame k.mem) fuel frame)).flatMap
          Line.fatalText)) := by
  induction fuel generalizing i frame k with
  | zero => exact Prod.ext rfl (Kernel.print_nil k).symm
  | succ fuel ih =>
    by_cases hlast : LastFrame k.mem frame
    · have hmore : ¬ (frame ≠ 0 ∧ k.mem.load64 frame ≠ 0) := by
        rintro ⟨hframe, hnext⟩
        exact hlast.elim hframe hnext
      rw [printedFrames, walk_of_halt fuel hlast, passed_of_halt fuel hlast, backtraceLoop,
        Code.outcome_bind_of_eq (Code.eval_get k _), decide_eq_false hmore]
      exact Prod.ext rfl (Kernel.print_nil k).symm
    · have hmore : frame ≠ 0 ∧ k.mem.load64 frame ≠ 0 := not_or.mp hlast
      have hline := log_eval_print k
        (frameLine_printed (BitVec.ofNat 64 i) (k.mem.load64 (frame + 8)))
      rw [printedFrames, walk_of_not_halt fuel hlast, passed_of_not_halt fuel hlast, backtraceLoop,
        Code.outcome_bind_of_eq (Code.eval_get k _), decide_eq_true hmore, if_pos rfl,
        Code.outcome_bind_of_eq (Code.eval_get k _)]
      refine (Code.outcome_bind_of_eq hline _).trans ?_
      rw [Code.outcome_bind_of_eq (Code.eval_get _ _), ih, printedFrames]
      simp only [Kernel.print_mem, Option.isSome_map, frameLines, List.flatMap_cons,
        Kernel.print_append]

theorem callerLines_outcome (caller : Word) (m : Program Unit) :
    (if caller ≠ 0 then do
        log nanoprintf "FATAL" " - [caller] %-24s @ %.16llx\n" [.str "<unkown>", .num caller]
        m
      else m).outcome k = m.outcome (k.print ((callerLines caller).flatMap Line.fatalText)) := by
  have hprinted := callerLines_printed caller
  unfold callerLines at hprinted ⊢
  split_ifs at hprinted ⊢
  · rw [Code.outcome_bind_of_eq (log_eval_print k (hprinted _ List.mem_cons_self)),
      List.flatMap_singleton]
  · rw [List.flatMap_nil, Kernel.print_nil]

theorem backtrace_outcome (fuel : ℕ) (rbp caller : Word) :
    (backtrace nanoprintf fuel rbp caller).outcome k =
      (if TraceEnds k.mem fuel rbp then some () else none,
        k.print ((backtraceLines k.mem fuel rbp caller).flatMap Line.fatalText)) := by
  have hstart := log_eval_print k startLine_printed
  rw [backtrace]
  refine (Code.outcome_bind_of_eq hstart _).trans ?_
  rw [Code.outcome_bind_of_eq (Code.eval_get _ _), Kernel.print_mem]
  unfold backtraceLines
  by_cases hnone : rbp ≠ 0 ∧ k.mem.load64 rbp = 0
  · have hends : TraceEnds k.mem fuel rbp := Or.inl hnone
    rw [decide_eq_true hnone, if_pos hnone, if_pos hends, List.flatMap_cons, Kernel.print_append,
      List.flatMap_singleton]
    change (log nanoprintf "FATAL" noTraceLine.1 noTraceLine.2).outcome _ = _
    exact Code.outcome_of_eval (log_eval_print _ noTraceLine_printed)
  · have hiff : TraceEnds k.mem fuel rbp ↔ (printedFrames k.mem fuel rbp).isSome = true :=
      or_iff_right hnone
    rw [decide_eq_false hnone, if_neg hnone, List.flatMap_cons, List.flatMap_append,
      List.flatMap_append, Kernel.print_append, Kernel.print_append, Kernel.print_append]
    refine (callerLines_outcome _ caller _).trans ?_
    rw [Code.outcome_bind, backtraceLoop_outcome]
    simp only [Kernel.print_mem, hiff]
    by_cases hsome : (printedFrames k.mem fuel rbp).isSome = true
    · rw [if_pos hsome, if_pos hsome, List.flatMap_singleton]
      change (log nanoprintf "FATAL" endLine.1 endLine.2).outcome _ = _
      exact Code.outcome_of_eval (log_eval_print _ endLine_printed)
    · rw [if_neg hsome, if_neg hsome, List.flatMap_nil, Kernel.print_nil]
      rfl

theorem fatalReport_outcome (fuel : ℕ) (rbp : Word) (frame : IntFrame) :
    (fatalReport nanoprintf rbp fuel frame).outcome k =
      (if TraceEnds k.mem fuel rbp then some () else none,
        k.print ((reportLines k.mem fuel rbp frame).flatMap Line.fatalText)) := by
  rw [fatalReport, Code.outcome_bind_of_eq (log_eval_print k emptyLine_printed),
    Code.outcome_bind_of_eq (fatalLines_eval_print _ (registerDump_printed frame)),
    Code.outcome_bind_of_eq (fatalLines_eval_print _ (exceptionDetails_printed frame.vector frame.err)),
    Code.outcome_bind_of_eq (log_eval_print _ ruleLine_printed), backtrace_outcome]
  unfold reportLines
  simp only [Kernel.print_mem, List.flatMap_cons, List.flatMap_append, Kernel.print_append]

end Locked

theorem exists_traceEnds {m : Memory 64} {rbp : Word} (h : WalkEnds m.load64 (LastFrame m) rbp) :
    ∃ n, ∀ fuel ≥ n, TraceEnds m fuel rbp := by
  obtain ⟨n, frames, hframes⟩ := walkEnds_iff_exists_walk.mp h
  refine ⟨n, fun fuel hle => Or.inr ?_⟩
  rw [printedFrames, walk_mono hframes hle]
  rfl

/-- By its own steps a thread that handles a fatal exception gets as far as to have printed the
report with the first frames of the chain, however many, and to `hcf` if the chain ends with
them. Each format suits its arguments, and no text is too long for `vfprintf`, whatever the
registers and the memory hold. -/
theorem idtHandler_reported {w : World Lock Kernel} (hfree : w.locked .printfLock = false)
    (irqHandlers : Word → Option (IntFrame → Program Unit)) (rbp : Word) {frame : IntFrame}
    (hvector : frame.vector < 32) (hfatal : (exceptionInfoAt frame.vector).fatal = true) :
    (∀ fuel, ∃ w' c, (Locked.idtHandler nanoprintf irqHandlers fuel rbp frame).Steps w .none w' c
          (if TraceEnds w.shared.mem fuel rbp then Locked.hcf else .stop) ∧
        w'.shared = w.shared.print
          ((reportLines w.shared.mem fuel rbp frame).flatMap Line.fatalText) ∧
        ∀ line ∈ reportLines w.shared.mem fuel rbp frame,
          formatted (line.1.toList ++ [nul]) line.2 = .ok (nanoprintf line.1 line.2) ∧
            (nanoprintf line.1 line.2).length < 1024) ∧
      (WalkEnds w.shared.mem.load64 (LastFrame w.shared.mem) rbp →
        ∃ n, ∀ fuel ≥ n, TraceEnds w.shared.mem fuel rbp) := by
  refine ⟨fun fuel => ?_, exists_traceEnds⟩
  have hlines : ∀ line ∈ reportLines w.shared.mem fuel rbp frame,
      formatted (line.1.toList ++ [nul]) line.2 = .ok (nanoprintf line.1 line.2) ∧
        (nanoprintf line.1 line.2).length < 1024 :=
    fun line hline => (reportLines_printed _ fuel rbp frame line hline).formatted_eq
  have hleads : (Locked.fatalReport nanoprintf rbp fuel frame).Leads
      (lockDiscipline (· = .printfLock) True) .none .none :=
    @Locked.fatalReport_leads nanoprintf rbp (· = .printfLock) True .none rfl mayPrint_none trivial fuel
      frame
  have houtcome := Locked.fatalReport_outcome w.shared fuel rbp frame
  rw [Locked.idtHandler_fatal nanoprintf rbp irqHandlers fuel hvector hfatal]
  by_cases hends : TraceEnds w.shared.mem fuel rbp
  · rw [if_pos hends] at houtcome
    have heval := Code.eval_eq_outcome (Locked.fatalReport nanoprintf rbp fuel frame) w.shared
    rw [houtcome] at heval
    obtain ⟨w', hs, -, hsteps⟩ := hleads.steps (Locked.ownFlags_printfLock hfree) heval
    rw [if_pos hends]
    exact ⟨w', .none, hsteps fun _ => Locked.hcf, hs, hlines⟩
  · rw [if_neg hends] at houtcome
    obtain ⟨w', c, hs, hsteps⟩ :=
      hleads.steps_stop (Locked.ownFlags_printfLock hfree) (by rw [houtcome])
    rw [houtcome] at hs
    rw [if_neg hends]
    exact ⟨w', c, hsteps fun _ => Locked.hcf, hs, hlines⟩

/-- A page fault in a function that was called by another one. -/
def pageFault : IntFrame := IntFrame.ofFields fun k => if k = 18 then 14 else 0

/-- The memory of `pageFault`, with a console. -/
def pageFaultWorld : World Lock Kernel where
  shared := { bootKernel with
    ftCtx := true
    mem := (bootKernel.mem.store64 0x7000 0x8000).store64 0x7008 0xffffffff80001234 }
  locked _ := false

theorem idtHandler_reported_pageFault : ∃ w' c,
    (Locked.idtHandler nanoprintf (fun _ => none) 2 0x7000 pageFault).Steps pageFaultWorld .none w' c
        Locked.hcf ∧
      w'.shared.console = (reportLines pageFaultWorld.shared.mem 2 0x7000 pageFault).flatMap
        Line.fatalText := by
  obtain ⟨hreports, -⟩ := @idtHandler_reported pageFaultWorld rfl (fun _ => none) 0x7000 pageFault
    (by decide) (by decide)
  obtain ⟨w', c, hsteps, hshared, -⟩ := hreports 2
  have hends : TraceEnds pageFaultWorld.shared.mem 2 0x7000 := by
    decide +kernel
  rw [if_pos hends] at hsteps
  exact ⟨w', c, hsteps, by rw [hshared]; rfl⟩

end Console

end Olive
