import Olive.Locks.Model

/-!
# `nanoprintf.h`

`npf_vsnprintf` as `printf.c` configures it: field widths, precisions and the large length
modifiers, no floats, no `%b` and no `%n`. A pointer into a string is the list of the
characters from there to the end of the array, and `va_list` is the list of the arguments
still to come. Where the C standard leaves the behaviour undefined, the result is an error.
-/

namespace Olive

/-- What has no defined behaviour: a pointer that leaves its array, an overflow of a signed
integer, and `va_arg` without an argument of its type. -/
inductive Undefined where
  | outOfBounds
  | overflow
  | vaArg
  deriving DecidableEq, Repr

def asInt (x : ℤ) : Except Undefined ℤ :=
  if -2 ^ 31 ≤ x ∧ x < 2 ^ 31 then .ok x else .error .overflow

def nul : Char := Char.ofNat 0

def conversionBufferSize : ℕ := 23

inductive FmtSpecOpt where
  | none | literal | star
  deriving DecidableEq, Repr

inductive LengthModifier where
  | none | short | longDouble | char | long
  | largeLongLong | largeIntmax | largeSizet | largePtrdifft
  deriving DecidableEq, Repr

inductive Conversion where
  | percent | char | string | signedInt | octal | hexInt | unsignedInt | pointer
  deriving DecidableEq, Repr

/-- `npf_format_spec_t`; a `char` that is 0 for "none" is an `Option`. -/
structure FormatSpec where
  prepend : Option Char := none
  altForm : Bool := false
  fieldWidthOpt : FmtSpecOpt := .none
  fieldWidth : ℤ := 0
  leftJustified : Bool := false
  leadingZeroPad : Bool := false
  precOpt : FmtSpecOpt := .none
  prec : ℤ := 0
  lengthModifier : LengthModifier := .none
  convSpec : Conversion := .percent
  caseAdjust : ℕ := 'a'.toNat - 'A'.toNat
  deriving DecidableEq, Repr

/-! ## `npf_parse_format_spec` -/

section Parse

/-- A loop that reads on as long as `step` takes the character. -/
def parseWhile (step : FormatSpec → Char → Option (Except Undefined FormatSpec)) :
    List Char → FormatSpec → Except Undefined (FormatSpec × List Char)
  | [], _ => .error .outOfBounds
  | ch :: cur, fs =>
    match step fs ch with
    | some next => next.bind (parseWhile step cur)
    | none => .ok (fs, ch :: cur)

/-- `switch (*cur)` for the flags -/
def parseFlag (fs : FormatSpec) : Char → Option (Except Undefined FormatSpec)
  | '-' => some (.ok { fs with leftJustified := true, leadingZeroPad := false })
  | '0' => some (.ok { fs with leadingZeroPad := !fs.leftJustified })
  | '+' => some (.ok { fs with prepend := some '+' })
  | ' ' => some (.ok (if fs.prepend = none then { fs with prepend := some ' ' } else fs))
  | '#' => some (.ok { fs with altForm := true })
  | _ => none

def widthDigit (fs : FormatSpec) (ch : Char) : Option (Except Undefined FormatSpec) :=
  if ch.isDigit then
    some ((asInt (fs.fieldWidth * 10 + (ch.toNat - '0'.toNat : ℕ))).map fun w =>
      { fs with fieldWidthOpt := .literal, fieldWidth := w })
  else none

def precDigit (fs : FormatSpec) (ch : Char) : Option (Except Undefined FormatSpec) :=
  if ch.isDigit then
    some ((asInt (fs.prec * 10 + (ch.toNat - '0'.toNat : ℕ))).map fun p => { fs with prec := p })
  else none

def parseFieldWidth (fs : FormatSpec) (cur : List Char) :
    Except Undefined (FormatSpec × List Char) :=
  match cur with
  | [] => .error .outOfBounds
  | '*' :: cur => .ok ({ fs with fieldWidthOpt := .star }, cur)
  | cur => parseWhile widthDigit cur { fs with fieldWidthOpt := .none, fieldWidth := 0 }

def parsePrec (fs : FormatSpec) (cur : List Char) : Except Undefined (FormatSpec × List Char) :=
  let fs := { fs with prec := 0, precOpt := .none }
  match cur with
  | [] => .error .outOfBounds
  | '.' :: cur =>
    match cur with
    | [] => .error .outOfBounds
    | '*' :: cur => .ok ({ fs with precOpt := .star }, cur)
    | '-' :: cur => parseWhile precDigit cur fs
    | cur => parseWhile precDigit cur { fs with precOpt := .literal }
  | cur => .ok (fs, cur)

def parseLengthModifier (fs : FormatSpec) (cur : List Char) :
    Except Undefined (FormatSpec × List Char) :=
  match cur with
  | [] => .error .outOfBounds
  | 'h' :: cur =>
    match cur with
    | [] => .error .outOfBounds
    | 'h' :: cur => .ok ({ fs with lengthModifier := .char }, cur)
    | cur => .ok ({ fs with lengthModifier := .short }, cur)
  | 'l' :: cur =>
    match cur with
    | [] => .error .outOfBounds
    | 'l' :: cur => .ok ({ fs with lengthModifier := .largeLongLong }, cur)
    | cur => .ok ({ fs with lengthModifier := .long }, cur)
  | 'j' :: cur => .ok ({ fs with lengthModifier := .largeIntmax }, cur)
  | 'z' :: cur => .ok ({ fs with lengthModifier := .largeSizet }, cur)
  | 't' :: cur => .ok ({ fs with lengthModifier := .largePtrdifft }, cur)
  | cur => .ok ({ fs with lengthModifier := .none }, cur)

/-- What the numeric conversions have in common. -/
def numeric (fs : FormatSpec) (conv : Conversion) : FormatSpec :=
  { fs with
    convSpec := conv
    leadingZeroPad := if fs.precOpt ≠ .none then false else fs.leadingZeroPad }

/-- `switch (*cur++)` for the conversion specifier; `none` for `return 0`. -/
def parseConvSpec (fs : FormatSpec) : Char → Option FormatSpec
  | '%' => some { fs with convSpec := .percent, precOpt := .none }
  | 'c' => some { fs with convSpec := .char, precOpt := .none }
  | 's' => some { fs with convSpec := .string, leadingZeroPad := false }
  | 'i' => some (numeric fs .signedInt)
  | 'd' => some (numeric fs .signedInt)
  | 'o' => some (numeric fs .octal)
  | 'u' => some (numeric fs .unsignedInt)
  | 'X' => some (numeric { fs with caseAdjust := 0 } .hexInt)
  | 'x' => some (numeric fs .hexInt)
  | 'p' => some { fs with convSpec := .pointer, precOpt := .none }
  | _ => none

/-- `npf_parse_format_spec(format, out_spec)`: the number of characters that the specifier
takes, 0 if there is none. All that is read of `out_spec` behind a call has been written by
it. A number that does not fit into an `int` would become another one, and lead the caller in
front of the format or back into it. -/
def npfParseFormatSpec (format : List Char) : Except Undefined (ℕ × FormatSpec) := do
  let (fs, cur) ← parseWhile parseFlag format.tail {}
  let (fs, cur) ← parseFieldWidth fs cur
  let (fs, cur) ← parsePrec fs cur
  let (fs, cur) ← parseLengthModifier fs cur
  match cur with
  | [] => .error .outOfBounds
  | ch :: cur =>
    match parseConvSpec fs ch with
    | none => return (0, fs)
    | some fs =>
      if format.length - cur.length < 2 ^ 31 then return (format.length - cur.length, fs)
      else .error .outOfBounds

end Parse

/-! ## The conversion of an argument -/

section Convert

/-- The loop of `npf_itoa_rev`; the buffer has `room` bytes left. -/
def itoaLoop (sign : ℤ) : ℕ → ℤ → Except Undefined (List Char)
  | 0, _ => .error .outOfBounds
  | room + 1, i =>
    let ch := Char.ofNat ('0'.toNat + (sign * i.tmod 10).toNat)
    if i.tdiv 10 = 0 then .ok [ch]
    else (itoaLoop sign room (i.tdiv 10)).map (ch :: ·)

/-- `npf_itoa_rev(buf, i)`: the characters it writes, of which it returns the number. -/
def npfItoaRev (room : ℕ) (i : ℤ) : Except Undefined (List Char) :=
  itoaLoop (if 0 ≤ i then 1 else -1) room i

def npfUtoaRev (base caseAdj : ℕ) : ℕ → ℕ → Except Undefined (List Char)
  | 0, _ => .error .outOfBounds
  | room + 1, i =>
    let d := i % base
    let ch := Char.ofNat (if d < 10 then '0'.toNat + d else 'A'.toNat + caseAdj + (d - 10))
    if i / base = 0 then .ok [ch]
    else (npfUtoaRev base caseAdj room (i / base)).map (ch :: ·)

/-- `va_arg(args, T)` for an integer or a pointer; the caller takes the bits of `T`. -/
def vaArg : List Arg → Except Undefined (Word × List Arg)
  | .num w :: args => .ok (w, args)
  | _ => .error .vaArg

/-- `va_arg(args, char *)`: the array the pointer leads to. -/
def vaArgString : List Arg → Except Undefined (List Char × List Arg)
  | .str s :: args => .ok (s.toList ++ [nul], args)
  | _ => .error .vaArg

/-- `NPF_EXTRACT` for a signed conversion. -/
def extractSigned (w : Word) : LengthModifier → ℤ
  | .none => (w.setWidth 32).toInt
  | .short => (w.setWidth 16).toInt
  | .longDouble => (w.setWidth 32).toInt
  | .char => (w.setWidth 8).toInt
  | .long => w.toInt
  | .largeLongLong => w.toInt
  | .largeIntmax => w.toInt
  | .largeSizet => w.toInt
  | .largePtrdifft => w.toInt

/-- `NPF_EXTRACT` for an unsigned conversion. -/
def extractUnsigned (w : Word) : LengthModifier → ℕ
  | .none => (w.setWidth 32).toNat
  | .short => (w.setWidth 16).toNat
  | .longDouble => (w.setWidth 32).toNat
  | .char => (w.setWidth 8).toNat
  | .long => w.toNat
  | .largeLongLong => w.toNat
  | .largeIntmax => w.toNat
  | .largeSizet => w.toNat
  | .largePtrdifft => w.toNat

def starWidth (fs : FormatSpec) (args : List Arg) : Except Undefined (FormatSpec × List Arg) :=
  if fs.fieldWidthOpt = .star then do
    let (w, args) ← vaArg args
    let fs := { fs with fieldWidthOpt := .literal, fieldWidth := (w.setWidth 32).toInt }
    if fs.fieldWidth < 0 then
      (asInt (-fs.fieldWidth)).map fun width =>
        ({ fs with fieldWidth := width, leftJustified := true }, args)
    else pure (fs, args)
  else pure (fs, args)

def starPrec (fs : FormatSpec) (args : List Arg) : Except Undefined (FormatSpec × List Arg) :=
  if fs.precOpt = .star then do
    let (w, args) ← vaArg args
    let prec := (w.setWidth 32).toInt
    pure ({ fs with prec := prec, precOpt := if 0 ≤ prec then .literal else .none }, args)
  else pure (fs, args)

/-- The text of an argument, as the conversion leaves it: `cbuf` holds `cbuf_len`
characters, in reverse order unless they are those of a string. -/
structure Converted where
  fs : FormatSpec
  args : List Arg
  cbuf : List Char
  signC : Option Char := none
  need0x : Option Char := none
  zero : Bool := false

/-- The loop that counts the characters of a string: it passes over the ones it returns. -/
def countString (fs : FormatSpec) : List Char → ℤ → Except Undefined (List Char)
  | s, cbufLen =>
    if fs.precOpt = .none ∨ cbufLen < fs.prec then
      match s with
      | [] => .error .outOfBounds
      | ch :: s =>
        if ch = nul then .ok []
        else do
          let cbufLen ← asInt (cbufLen + 1)
          let rest ← countString fs s cbufLen
          return ch :: rest
    else .ok []

/-- `val` and the precision are both 0, the latter explicitly: no digit is printed. -/
def noDigits (fs : FormatSpec) (val : ℤ) : Prop :=
  val = 0 ∧ fs.precOpt = .literal ∧ fs.prec = 0

instance (fs : FormatSpec) (val : ℤ) : Decidable (noDigits fs val) :=
  inferInstanceAs (Decidable (_ ∧ _ ∧ _))

/-- `cbuf[cbuf_len++] = ch` -/
def storeChar (cbuf : List Char) (ch : Char) : Except Undefined (List Char) :=
  if cbuf.length < conversionBufferSize then .ok (cbuf ++ [ch]) else .error .outOfBounds

/-- `NPF_FMT_SPEC_CONV_SIGNED_INT` -/
def convertSigned (fs : FormatSpec) (args : List Arg) : Except Undefined Converted := do
  let (w, args) ← vaArg args
  let val := extractSigned w fs.lengthModifier
  let signC := if val < 0 then some '-' else fs.prepend
  let cbuf ← (if noDigits fs val then .ok [] else npfItoaRev conversionBufferSize val)
  return { fs := fs, args := args, cbuf := cbuf, signC := signC, zero := val = 0 }

def baseOf : Conversion → ℕ
  | .octal => 8
  | .hexInt => 16
  | _ => 10

/-- `NPF_FMT_SPEC_CONV_OCTAL`, `NPF_FMT_SPEC_CONV_HEX_INT` and
`NPF_FMT_SPEC_CONV_UNSIGNED_INT` -/
def convertUnsigned (fs : FormatSpec) (args : List Arg) : Except Undefined Converted := do
  let (w, args) ← vaArg args
  let val := extractUnsigned w fs.lengthModifier
  let cbuf ← (if noDigits fs val then .ok []
    else npfUtoaRev (baseOf fs.convSpec) fs.caseAdjust conversionBufferSize val)
  -- octal special case, print a single '0'
  let fs := if noDigits fs val ∧ fs.convSpec = .octal ∧ fs.altForm then { fs with prec := 1 } else fs
  let cbuf ← (if val ≠ 0 ∧ fs.altForm ∧ fs.convSpec = .octal then storeChar cbuf '0' else .ok cbuf)
  let need0x := if val ≠ 0 ∧ fs.altForm ∧ fs.convSpec = .hexInt
    then some (Char.ofNat ('X'.toNat + fs.caseAdjust)) else none
  return { fs := fs, args := args, cbuf := cbuf, need0x := need0x, zero := val = 0 }

/-- `switch (fs.conv_spec)` -/
def convert (fs : FormatSpec) (args : List Arg) : Except Undefined Converted :=
  match fs.convSpec with
  | .percent => .ok { fs := fs, args := args, cbuf := ['%'] }
  | .char => do
    let (w, args) ← vaArg args
    return { fs := fs, args := args, cbuf := [Char.ofNat (w.setWidth 8).toNat] }
  | .string => do
    let (s, args) ← vaArgString args
    let cbuf ← countString fs s 0
    return { fs := fs, args := args, cbuf := cbuf }
  | .signedInt => convertSigned fs args
  | .octal => convertUnsigned fs args
  | .hexInt => convertUnsigned fs args
  | .unsignedInt => convertUnsigned fs args
  | .pointer => do
    let (w, args) ← vaArg args
    let cbuf ← npfUtoaRev 16 ('a'.toNat - 'A'.toNat) conversionBufferSize w.toNat
    return { fs := fs, args := args, cbuf := cbuf, need0x := some 'x' }

/-- `pad_c` -/
def padChar (fs : FormatSpec) (zero : Bool) : Option Char :=
  if fs.fieldWidthOpt = .literal then
    if fs.leadingZeroPad then
      if fs.convSpec ≠ .string ∧ fs.convSpec ≠ .char ∧ fs.convSpec ≠ .percent then
        if fs.precOpt = .literal ∧ fs.prec = 0 ∧ zero then some ' ' else some '0'
      else none
    else some ' '
  else none

/-- `prec_pad` and `field_pad` -/
def pads (v : Converted) : Except Undefined (ℤ × ℤ) := do
  let precPad ← (if v.fs.convSpec ≠ .string
    then (asInt (v.fs.prec - v.cbuf.length)).map (max 0) else .ok 0)
  let fieldPad ← asInt (v.fs.fieldWidth - v.cbuf.length - if v.signC.isSome then 1 else 0)
  let fieldPad ← (if v.need0x.isSome then asInt (fieldPad - 2) else .ok fieldPad)
  let fieldPad ← asInt (fieldPad - precPad)
  return (precPad, max 0 fieldPad)

/-- All that `npf_vpprintf` does with a specifier before it puts characters. -/
def convertField (fs : FormatSpec) (args : List Arg) : Except Undefined (Converted × ℤ × ℤ) := do
  let (fs, args) ← starWidth fs args
  let (fs, args) ← starPrec fs args
  let v ← convert fs args
  let pad ← pads v
  return (v, pad)

end Convert

/-! ## `npf_vpprintf` -/

section Print

/-- `npf_cnt_putc_ctx_t`, without the function -/
structure CntPutcCtx (σ : Type) where
  ctx : σ
  n : ℤ

variable {σ : Type} (pc : Char → σ → σ)

def npfPutcCnt (ch : Char) (s : CntPutcCtx σ) : Except Undefined (CntPutcCtx σ) := do
  let n ← asInt (s.n + 1)
  return { ctx := pc ch s.ctx, n := n }

/-- `while (pad-- > 0) NPF_PUTC(ch);` -/
def putTimes (ch : Char) : ℕ → CntPutcCtx σ → Except Undefined (CntPutcCtx σ)
  | 0, s => .ok s
  | pad + 1, s => (npfPutcCnt pc ch s).bind (putTimes ch pad)

def putChars : List Char → CntPutcCtx σ → Except Undefined (CntPutcCtx σ)
  | [], s => .ok s
  | ch :: chs, s => (npfPutcCnt pc ch s).bind (putChars chs)

/-- `if (sign_c) NPF_PUTC(sign_c);` -/
def putSign : Option Char → CntPutcCtx σ → Except Undefined (CntPutcCtx σ)
  | none, s => .ok s
  | some ch, s => npfPutcCnt pc ch s

/-- `if (need_0x) { NPF_PUTC('0'); NPF_PUTC(need_0x); }` -/
def put0x : Option Char → CntPutcCtx σ → Except Undefined (CntPutcCtx σ)
  | none, s => .ok s
  | some ch, s => (npfPutcCnt pc '0' s).bind (npfPutcCnt pc ch)

/-- What is put in front of the payload; `sign_c` is 0 behind a sign that has been put. -/
def putFront (v : Converted) (fieldPad : ℤ) (s : CntPutcCtx σ) :
    Except Undefined (Option Char × CntPutcCtx σ) :=
  match padChar v.fs v.zero with
  | some padC =>
    if v.fs.leftJustified then (put0x pc v.need0x s).map (v.signC, ·)
    else if padC = '0' then do
      let s ← putSign pc v.signC s
      let s ← put0x pc v.need0x s
      (putTimes pc padC fieldPad.toNat s).map (none, ·)
    else do
      let s ← putTimes pc padC fieldPad.toNat s
      (put0x pc v.need0x s).map (v.signC, ·)
  | none => (put0x pc v.need0x s).map (v.signC, ·)

def putPayload (v : Converted) (signC : Option Char) (precPad : ℤ) (s : CntPutcCtx σ) :
    Except Undefined (CntPutcCtx σ) :=
  if v.fs.convSpec = .string then putChars pc v.cbuf s
  else do
    let s ← putSign pc signC s
    let s ← putTimes pc '0' precPad.toNat s
    putChars pc v.cbuf.reverse s

/-- The padding of a field that is justified on the left. -/
def putBehind (v : Converted) (fieldPad : ℤ) (s : CntPutcCtx σ) :
    Except Undefined (CntPutcCtx σ) :=
  match padChar v.fs v.zero with
  | some padC => if v.fs.leftJustified then putTimes pc padC fieldPad.toNat s else .ok s
  | none => .ok s

def putField (v : Converted) (precPad fieldPad : ℤ) (s : CntPutcCtx σ) :
    Except Undefined (CntPutcCtx σ) := do
  let (signC, s) ← putFront pc v fieldPad s
  let s ← putPayload pc v signC precPad s
  putBehind pc v fieldPad s

/-- `fs_len`, and the specifier at `cur` -/
def specifierAt (ch : Char) (rest : List Char) : Except Undefined (ℕ × FormatSpec) :=
  if ch ≠ '%' then .ok (0, {}) else npfParseFormatSpec (ch :: rest)

def vpprintfLoop (cur : List Char) (args : List Arg) (s : CntPutcCtx σ) :
    Except Undefined (CntPutcCtx σ) :=
  match cur with
  | [] => .error .outOfBounds
  | ch :: rest =>
    if ch = nul then .ok s
    else do
      let (fsLen, fs) ← specifierAt ch rest
      if _h : fsLen = 0 then do
        let s ← npfPutcCnt pc ch s
        vpprintfLoop rest args s
      else do
        let (v, precPad, fieldPad) ← convertField fs args
        let s ← putField pc v precPad fieldPad s
        vpprintfLoop ((ch :: rest).drop fsLen) v.args s
termination_by cur.length
decreasing_by
  · simp
  · simp only [List.length_drop, List.length_cons]
    omega

/-- `npf_vpprintf(pc, pc_ctx, format, args)`: what it returns, and the context behind it. -/
def npfVpprintf (ctx : σ) (format : List Char) (args : List Arg) : Except Undefined (ℤ × σ) :=
  (vpprintfLoop pc format args { ctx := ctx, n := 0 }).map fun s => (s.n, s.ctx)

end Print

/-! ## `npf_vsnprintf` -/

/-- `npf_bufputc_ctx_t`; `dst` gives the characters from the start of the buffer on. -/
structure BufputcCtx where
  dst : ℕ → Char
  len : ℕ
  cur : ℕ

def npfBufputc (ch : Char) (bpc : BufputcCtx) : BufputcCtx :=
  if bpc.cur < bpc.len then { bpc with dst := Function.update bpc.dst bpc.cur ch, cur := bpc.cur + 1 }
  else bpc

def npfBufputcNop (_ : Char) (bpc : BufputcCtx) : BufputcCtx := bpc

/-- `npf_vsnprintf(buffer, bufsz, format, vlist)`: what it returns, and the buffer behind it.
Nothing is written if `buffer` is `NULL`. -/
def npfVsnprintf (buffer : Option (ℕ → Char)) (bufsz : ℕ) (format : List Char) (vlist : List Arg) :
    Except Undefined (ℤ × Option (ℕ → Char)) :=
  match buffer with
  | none => (npfVpprintf npfBufputcNop ⟨fun _ => nul, bufsz, 0⟩ format vlist).map fun r => (r.1, none)
  | some dst => do
    let (n, ctx) ← npfVpprintf npfBufputc ⟨dst, bufsz, 0⟩ format vlist
    let ctx := npfBufputc nul ctx
    let dst := if bufsz ≠ 0 then Function.update ctx.dst (bufsz - 1) nul else ctx.dst
    return (n, some dst)

end Olive
