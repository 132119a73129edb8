import Olive.Printf.Bounds

/-!
# The language of the formats

A format is a list of plain characters and of directives: flags, a field width, a precision, a
length modifier and a conversion. The parser reads back what a directive writes down.
-/

namespace Olive

/-! ## Directives -/

inductive Flag where
  | minus | zero | plus | space | alt
  deriving DecidableEq, Repr

/-- A field width or a precision: a number, or `*` for an argument. -/
inductive Amount where
  | literal (n : ℕ)
  | star
  deriving DecidableEq, Repr

inductive IntSpecifier where
  | d | i | o | u | x | upperX
  deriving DecidableEq, Repr

inductive Specifier where
  | int (conv : IntSpecifier)
  | c | s | p | percent
  deriving DecidableEq, Repr

structure Directive where
  flags : List Flag := []
  width : Option Amount := none
  precision : Option Amount := none
  length : LengthModifier := .none
  conv : Specifier
  deriving DecidableEq, Repr

def Flag.char : Flag → Char
  | .minus => '-'
  | .zero => '0'
  | .plus => '+'
  | .space => ' '
  | .alt => '#'

def IntSpecifier.char : IntSpecifier → Char
  | .d => 'd'
  | .i => 'i'
  | .o => 'o'
  | .u => 'u'
  | .x => 'x'
  | .upperX => 'X'

def Specifier.char : Specifier → Char
  | .int conv => conv.char
  | .c => 'c'
  | .s => 's'
  | .p => 'p'
  | .percent => '%'

def Amount.text : Amount → List Char
  | .literal n => Nat.toDigits 10 n
  | .star => ['*']

def widthText : Option Amount → List Char
  | none => []
  | some a => a.text

def precisionText : Option Amount → List Char
  | none => []
  | some a => '.' :: a.text

def LengthModifier.text : LengthModifier → List Char
  | .none => []
  | .short => ['h']
  | .longDouble => ['L']
  | .char => ['h', 'h']
  | .long => ['l']
  | .largeLongLong => ['l', 'l']
  | .largeIntmax => ['j']
  | .largeSizet => ['z']
  | .largePtrdifft => ['t']

namespace Directive

variable (d : Directive)

/-- How the directive is written. -/
def text : List Char :=
  '%' :: (d.flags.map Flag.char ++ (widthText d.width ++ (precisionText d.precision ++
    (d.length.text ++ [d.conv.char]))))

/-- The directive can be written so that it is read as meant: a width of 0 would be a flag,
numbers fit into an `int`, the number of characters among them, and `L` is configured off. -/
structure Writable : Prop where
  short : d.text.length < 2 ^ 31
  width : ∀ n, d.width = some (.literal n) → 0 < n ∧ n < 2 ^ 31
  precision : ∀ n, d.precision = some (.literal n) → n < 2 ^ 31
  length : d.length ≠ .longDouble

/-- A condition on the number that an amount is written as. -/
instance decidableLiteral (P : ℕ → Prop) [DecidablePred P] (a : Option Amount) :
    Decidable (∀ n, a = some (.literal n) → P n) :=
  match a with
  | none => .isTrue fun _ h => by cases h
  | some .star => .isTrue fun _ h => by cases h
  | some (.literal n) => decidable_of_iff (P n) ⟨fun h m hm => by cases hm; exact h, fun h => h n rfl⟩

instance : Decidable d.Writable :=
  decidable_of_iff (d.text.length < 2 ^ 31 ∧
      (∀ n, d.width = some (.literal n) → 0 < n ∧ n < 2 ^ 31) ∧
      (∀ n, d.precision = some (.literal n) → n < 2 ^ 31) ∧ d.length ≠ .longDouble)
    ⟨fun ⟨hshort, hwidth, hprecision, hlength⟩ => ⟨hshort, hwidth, hprecision, hlength⟩,
      fun ⟨hshort, hwidth, hprecision, hlength⟩ => ⟨hshort, hwidth, hprecision, hlength⟩⟩

end Directive

inductive Piece where
  | plain (ch : Char)
  | directive (d : Directive)
  deriving DecidableEq, Repr

def Piece.text : Piece → List Char
  | .plain ch => [ch]
  | .directive d => d.text

def formatChars (ps : List Piece) : List Char := ps.flatMap Piece.text

/-! ## What the parser makes of it -/

def Flag.apply (fs : FormatSpec) : Flag → FormatSpec
  | .minus => { fs with leftJustified := true, leadingZeroPad := false }
  | .zero => { fs with leadingZeroPad := !fs.leftJustified }
  | .plus => { fs with prepend := some '+' }
  | .space => if fs.prepend = none then { fs with prepend := some ' ' } else fs
  | .alt => { fs with altForm := true }

def setWidth (fs : FormatSpec) : Option Amount → FormatSpec
  | none => { fs with fieldWidthOpt := .none, fieldWidth := 0 }
  | some (.literal n) => { fs with fieldWidthOpt := .literal, fieldWidth := n }
  | some .star => { fs with fieldWidthOpt := .star }

def setPrecision (fs : FormatSpec) : Option Amount → FormatSpec
  | none => { fs with prec := 0, precOpt := .none }
  | some (.literal n) => { fs with prec := n, precOpt := .literal }
  | some .star => { fs with prec := 0, precOpt := .star }

def IntSpecifier.apply (fs : FormatSpec) : IntSpecifier → FormatSpec
  | .d => numeric fs .signedInt
  | .i => numeric fs .signedInt
  | .o => numeric fs .octal
  | .u => numeric fs .unsignedInt
  | .x => numeric fs .hexInt
  | .upperX => numeric { fs with caseAdjust := 0 } .hexInt

def Specifier.apply (fs : FormatSpec) : Specifier → FormatSpec
  | .int conv => conv.apply fs
  | .c => { fs with convSpec := .char, precOpt := .none }
  | .s => { fs with convSpec := .string, leadingZeroPad := false }
  | .p => { fs with convSpec := .pointer, precOpt := .none }
  | .percent => { fs with convSpec := .percent, precOpt := .none }

/-- The specifier that stands for the directive. -/
def Directive.spec (d : Directive) : FormatSpec :=
  d.conv.apply { setPrecision (setWidth (d.flags.foldl Flag.apply {}) d.width) d.precision with
    lengthModifier := d.length }

section Parse

variable {fs : FormatSpec} {ch : Char} {rest : List Char}

theorem parseFlag_char (fs : FormatSpec) (flag : Flag) :
    parseFlag fs flag.char = some (.ok (flag.apply fs)) := by
  cases flag with
  | minus => rfl
  | zero => rfl
  | plus => rfl
  | space => rfl
  | alt => rfl

theorem parseWhile_flags (flags : List Flag) (hch : ∀ fs, parseFlag fs ch = none) :
    parseWhile parseFlag (flags.map Flag.char ++ ch :: rest) fs =
      .ok (flags.foldl Flag.apply fs, ch :: rest) := by
  induction flags generalizing fs with
  | nil =>
    rw [List.map_nil, List.nil_append, parseWhile, hch]
    rfl
  | cons flag flags ih =>
    rw [List.map_cons, List.cons_append, parseWhile, parseFlag_char]
    exact ih

theorem le_ofDigitChars (ds : List Char) (n : ℕ) : n ≤ Nat.ofDigitChars 10 ds n := by
  induction ds generalizing n with
  | nil => exact le_of_eq Nat.ofDigitChars_nil.symm
  | cons d ds ih =>
    rw [Nat.ofDigitChars_cons]
    exact le_trans (by omega) (ih _)

theorem parseWhile_digits {step : FormatSpec → Char → Option (Except Undefined FormatSpec)}
    (get : FormatSpec → ℤ) (set : FormatSpec → ℤ → FormatSpec)
    (hstep : ∀ fs ch, step fs ch = if ch.isDigit then
      some ((asInt (get fs * 10 + (ch.toNat - '0'.toNat : ℕ))).map (set fs)) else none)
    (hget : ∀ fs v, get (set fs v) = v) (hset : ∀ fs v w, set (set fs v) w = set fs w)
    {d : Char} {ds : List Char} {n : ℕ} (hd : d.isDigit) (hds : ∀ c ∈ ds, c.isDigit)
    (hn : get fs = n) (hlt : Nat.ofDigitChars 10 (d :: ds) n < 2 ^ 31) (hch : ¬ ch.isDigit) :
    parseWhile step (d :: ds ++ ch :: rest) fs =
      .ok (set fs (Nat.ofDigitChars 10 (d :: ds) n : ℕ), ch :: rest) := by
  induction ds generalizing d fs n with
  | nil =>
    rw [Nat.ofDigitChars_cons, Nat.ofDigitChars_nil] at hlt ⊢
    rw [List.cons_append, parseWhile, hstep, if_pos hd, hn, asInt_of_range (by omega) (by omega)]
    change parseWhile step (ch :: rest) (set fs (n * 10 + (d.toNat - '0'.toNat : ℕ))) = _
    rw [parseWhile, hstep, if_neg hch]
    push_cast
    rw [mul_comm]
  | cons d' ds ih =>
    rw [Nat.ofDigitChars_cons] at hlt ⊢
    have hle := le_ofDigitChars (d' :: ds) (10 * n + (d.toNat - '0'.toNat))
    rw [List.cons_append, parseWhile, hstep, if_pos hd, hn, asInt_of_range (by omega) (by omega)]
    change parseWhile step (d' :: ds ++ ch :: rest)
      (set fs (n * 10 + (d.toNat - '0'.toNat : ℕ))) = _
    have hnext : get (set fs (n * 10 + (d.toNat - '0'.toNat : ℕ))) =
        (10 * n + (d.toNat - '0'.toNat) : ℕ) := by
      rw [hget]
      push_cast
      rw [mul_comm]
    rw [ih (hds d' List.mem_cons_self) (fun c hc => hds c (List.mem_cons_of_mem d' hc)) hnext hlt,
      hset]

theorem toDigits_cons (n : ℕ) : ∃ d ds, Nat.toDigits 10 n = d :: ds ∧ d.isDigit ∧
    ∀ c ∈ ds, c.isDigit := by
  have hdigit : ∀ c ∈ Nat.toDigits 10 n, c.isDigit :=
    fun c hc => Nat.isDigit_of_mem_toDigits (by decide) (by decide) hc
  cases htext : Nat.toDigits 10 n with
  | nil => exact absurd htext Nat.toDigits_ne_nil
  | cons d ds =>
    rw [htext] at hdigit
    exact ⟨d, ds, rfl, hdigit d List.mem_cons_self, fun c hc => hdigit c (List.mem_cons_of_mem d hc)⟩

theorem parseWhile_toDigits {step : FormatSpec → Char → Option (Except Undefined FormatSpec)}
    (get : FormatSpec → ℤ) (set : FormatSpec → ℤ → FormatSpec)
    (hstep : ∀ fs ch, step fs ch = if ch.isDigit then
      some ((asInt (get fs * 10 + (ch.toNat - '0'.toNat : ℕ))).map (set fs)) else none)
    (hget : ∀ fs v, get (set fs v) = v) (hset : ∀ fs v w, set (set fs v) w = set fs w)
    {n : ℕ} (hzero : get fs = 0) (hlt : n < 2 ^ 31) (hch : ¬ ch.isDigit) :
    parseWhile step (Nat.toDigits 10 n ++ ch :: rest) fs = .ok (set fs n, ch :: rest) := by
  obtain ⟨d, ds, htext, hd, hds⟩ := toDigits_cons n
  have hvalue : Nat.ofDigitChars 10 (d :: ds) 0 = n := by
    rw [← htext, Nat.ofDigitChars_ten_toDigits]
  rw [htext, parseWhile_digits get set hstep hget hset hd hds (n := 0) hzero (by rwa [hvalue]) hch,
    hvalue]

theorem parseFieldWidth_text {width : Option Amount}
    (hwidth : ∀ n, width = some (.literal n) → 0 < n ∧ n < 2 ^ 31)
    (hdigit : ¬ ch.isDigit) (hstar : ch ≠ '*') :
    parseFieldWidth fs (widthText width ++ ch :: rest) = .ok (setWidth fs width, ch :: rest) := by
  cases width with
  | none =>
    change parseFieldWidth fs (ch :: rest) = _
    unfold parseFieldWidth
    split
    · contradiction
    · rename_i h
      cases h
      exact absurd rfl hstar
    · rw [parseWhile, widthDigit, if_neg hdigit]
      rfl
  | some a =>
    cases a with
    | star => rfl
    | literal n =>
      obtain ⟨d, ds, htext, hd, hds⟩ := toDigits_cons n
      have hparse : parseWhile widthDigit (Nat.toDigits 10 n ++ ch :: rest)
          { fs with fieldWidthOpt := .none, fieldWidth := 0 } =
            .ok (setWidth fs (some (.literal n)), ch :: rest) :=
        parseWhile_toDigits FormatSpec.fieldWidth
          (fun fs v => { fs with fieldWidthOpt := .literal, fieldWidth := v })
          (fun _ _ => rfl) (fun _ _ => rfl) (fun _ _ _ => rfl) rfl (hwidth n rfl).2 hdigit
      change parseFieldWidth fs (Nat.toDigits 10 n ++ ch :: rest) = _
      rw [htext] at hparse ⊢
      unfold parseFieldWidth
      split
      · contradiction
      · rename_i h
        cases h
        exact absurd hd (by decide)
      · exact hparse

theorem parsePrec_text {precision : Option Amount}
    (hprecision : ∀ n, precision = some (.literal n) → n < 2 ^ 31)
    (hdigit : ¬ ch.isDigit) (hdot : ch ≠ '.') :
    parsePrec fs (precisionText precision ++ ch :: rest) =
      .ok (setPrecision fs precision, ch :: rest) := by
  cases precision with
  | none =>
    change parsePrec fs (ch :: rest) = _
    unfold parsePrec
    split
    · contradiction
    · rename_i h
      cases h
      exact absurd rfl hdot
    · rfl
  | some a =>
    cases a with
    | star => rfl
    | literal n =>
      obtain ⟨d, ds, htext, hd, hds⟩ := toDigits_cons n
      have hparse : parseWhile precDigit (Nat.toDigits 10 n ++ ch :: rest)
          { fs with prec := 0, precOpt := .literal } =
            .ok (setPrecision fs (some (.literal n)), ch :: rest) :=
        parseWhile_toDigits FormatSpec.prec (fun fs v => { fs with prec := v })
          (fun _ _ => rfl) (fun _ _ => rfl) (fun _ _ _ => rfl) rfl (hprecision n rfl) hdigit
      change parsePrec fs ('.' :: (Nat.toDigits 10 n ++ ch :: rest)) = _
      rw [htext] at hparse ⊢
      unfold parsePrec
      dsimp only
      split
      · contradiction
      · rename_i h
        cases h
        split
        · contradiction
        · rename_i h
          cases h
          exact absurd hd (by decide)
        · rename_i h
          cases h
          exact absurd hd (by decide)
        · exact hparse
      · rename_i h
        exact absurd rfl (h _)

theorem parseLengthModifier_text {length : LengthModifier} (hlength : length ≠ .longDouble)
    (conv : Specifier) : parseLengthModifier fs (length.text ++ conv.char :: rest) =
      .ok ({ fs with lengthModifier := length }, conv.char :: rest) := by
  cases length with
  | longDouble => exact absurd rfl hlength
  | none => rcases conv with (_ | _ | _ | _ | _ | _) | _ | _ | _ | _ <;> rfl
  | short => rcases conv with (_ | _ | _ | _ | _ | _) | _ | _ | _ | _ <;> rfl
  | char => rfl
  | long => rcases conv with (_ | _ | _ | _ | _ | _) | _ | _ | _ | _ <;> rfl
  | largeLongLong => rfl
  | largeIntmax => rfl
  | largeSizet => rfl
  | largePtrdifft => rfl

theorem parseConvSpec_char (fs : FormatSpec) (conv : Specifier) :
    parseConvSpec fs conv.char = some (conv.apply fs) := by
  rcases conv with (_ | _ | _ | _ | _ | _) | _ | _ | _ | _ <;> rfl

theorem parseLast_char (fs : FormatSpec) (conv : Specifier) {n : ℕ} (hn : n < 2 ^ 31)
    (rest : List Char) :
    parseLast (n + rest.length) (fs, conv.char :: rest) = .ok (n, conv.apply fs) := by
  unfold parseLast
  dsimp only
  rw [parseConvSpec_char]
  dsimp only
  rw [Nat.add_sub_cancel, if_pos hn]

/-- A character that can follow the numbers: no digit, no flag, no `*` and no `.`. -/
structure Follows (ch : Char) : Prop where
  digit : ¬ ch.isDigit
  star : ch ≠ '*'
  dot : ch ≠ '.'
  flag : ∀ fs, parseFlag fs ch = none

theorem follows_length (length : LengthModifier) (conv : Specifier) (rest : List Char) :
    ∃ ch tail, length.text ++ conv.char :: rest = ch :: tail ∧ Follows ch := by
  cases length with
  | none =>
    refine ⟨conv.char, rest, rfl, ?_⟩
    rcases conv with (_ | _ | _ | _ | _ | _) | _ | _ | _ | _ <;>
      exact ⟨by decide, by decide, by decide, fun _ => rfl⟩
  | short => exact ⟨'h', _, rfl, by decide, by decide, by decide, fun _ => rfl⟩
  | longDouble => exact ⟨'L', _, rfl, by decide, by decide, by decide, fun _ => rfl⟩
  | char => exact ⟨'h', _, rfl, by decide, by decide, by decide, fun _ => rfl⟩
  | long => exact ⟨'l', _, rfl, by decide, by decide, by decide, fun _ => rfl⟩
  | largeLongLong => exact ⟨'l', _, rfl, by decide, by decide, by decide, fun _ => rfl⟩
  | largeIntmax => exact ⟨'j', _, rfl, by decide, by decide, by decide, fun _ => rfl⟩
  | largeSizet => exact ⟨'z', _, rfl, by decide, by decide, by decide, fun _ => rfl⟩
  | largePtrdifft => exact ⟨'t', _, rfl, by decide, by decide, by decide, fun _ => rfl⟩

/-- Behind the field width there is neither a digit nor a `*`. -/
theorem precisionText_head (precision : Option Amount) (tail : List Char) (hch : Follows ch) :
    ∃ c tail', precisionText precision ++ ch :: tail = c :: tail' ∧ ¬ c.isDigit ∧ c ≠ '*' ∧
      ∀ fs, parseFlag fs c = none := by
  cases precision with
  | none => exact ⟨ch, tail, rfl, hch.digit, hch.star, hch.flag⟩
  | some a => exact ⟨'.', _, rfl, by decide, by decide, fun _ => rfl⟩

theorem digitChar_ne_zero {n : ℕ} (hn : 0 < n) (hlt : n < 10) : n.digitChar ≠ '0' := by
  interval_cases n <;> decide

theorem head_toDigits_ne {b n : ℕ} (hb : 1 < b) (hle : b ≤ 10) (hn : 0 < n) :
    (Nat.toDigits b n).head? ≠ some '0' := by
  induction n using Nat.strong_induction_on with
  | _ n ih =>
    rw [Nat.toDigits_eq_if hb]
    split_ifs with hlt
    · intro h
      exact digitChar_ne_zero hn (Nat.lt_of_lt_of_le hlt hle) (Option.some.inj h)
    · rw [List.head?_append_of_ne_nil _ Nat.toDigits_ne_nil]
      exact ih (n / b) (Nat.div_lt_self hn hb) (Nat.div_pos (Nat.le_of_not_lt hlt) (by omega))

theorem parseFlag_digit {d : Char} (hd : d.isDigit) (hzero : d ≠ '0') (fs : FormatSpec) :
    parseFlag fs d = none := by
  unfold parseFlag
  split
  · exact absurd hd (by decide)
  · exact absurd rfl hzero
  · exact absurd hd (by decide)
  · exact absurd hd (by decide)
  · exact absurd hd (by decide)
  · rfl

theorem widthText_head {width : Option Amount}
    (hwidth : ∀ n, width = some (.literal n) → 0 < n ∧ n < 2 ^ 31) (tail : List Char)
    (hch : ∀ fs, parseFlag fs ch = none) :
    ∃ c tail', widthText width ++ ch :: tail = c :: tail' ∧ ∀ fs, parseFlag fs c = none := by
  cases width with
  | none => exact ⟨ch, tail, rfl, hch⟩
  | some a =>
    cases a with
    | star => exact ⟨'*', _, rfl, fun _ => rfl⟩
    | literal n =>
      obtain ⟨d, ds, htext, hd, hds⟩ := toDigits_cons n
      refine ⟨d, ds ++ ch :: tail, ?_, ?_⟩
      · change Nat.toDigits 10 n ++ ch :: tail = _
        rw [htext]
        rfl
      · apply parseFlag_digit hd
        rintro rfl
        apply head_toDigits_ne (by decide) le_rfl (hwidth n rfl).1
        rw [htext]
        rfl

end Parse

/-- The parser reads back a directive, and takes as many characters as it has. -/
theorem Directive.Writable.parse {d : Directive} (hd : d.Writable) (rest : List Char) :
    npfParseFormatSpec (d.text ++ rest) = .ok (d.text.length, d.spec) := by
  obtain ⟨c₃, t₃, h₃, hc₃⟩ := follows_length d.length d.conv rest
  obtain ⟨c₂, t₂, h₂, hdigit₂, hstar₂, hflag₂⟩ := precisionText_head d.precision t₃ hc₃
  obtain ⟨c₁, t₁, h₁, hflag₁⟩ := widthText_head hd.width t₂ hflag₂
  have hwhole : d.text ++ rest = '%' :: (d.flags.map Flag.char ++ c₁ :: t₁) := by
    rw [← h₁, ← h₂, ← h₃]
    unfold Directive.text
    simp only [List.cons_append, List.append_assoc, List.nil_append]
  have hfront : parseFront (d.flags.map Flag.char ++ c₁ :: t₁) = .ok
      ({ setPrecision (setWidth (d.flags.foldl Flag.apply {}) d.width) d.precision with
        lengthModifier := d.length }, d.conv.char :: rest) := by
    unfold parseFront
    rw [parseWhile_flags d.flags hflag₁]
    change (parseFieldWidth _ (c₁ :: t₁) >>= _) = _
    rw [← h₁, parseFieldWidth_text hd.width hdigit₂ hstar₂]
    change (parsePrec _ (c₂ :: t₂) >>= _) = _
    rw [← h₂, parsePrec_text hd.precision hc₃.digit hc₃.dot]
    change parseLengthModifier _ (c₃ :: t₃) = _
    rw [← h₃, parseLengthModifier_text hd.length]
  have hlen : (d.flags.map Flag.char ++ c₁ :: t₁).length + 1 = d.text.length + rest.length := by
    rw [← List.length_append, hwhole, List.length_cons]
  rw [hwhole, npfParseFormatSpec_eq, hfront, hlen]
  exact parseLast_char _ d.conv hd.short rest

end Olive
