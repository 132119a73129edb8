import Olive.Printf.Language

/-!
# What a directive means

The meaning is that of the C standard: an argument becomes a body, perhaps with a sign or `0x`
in front, and a field width is filled with spaces on one side or with zeros between the two.
-/

namespace Olive

open Library

/-! ## Fields -/

/-- A field with the prefix `pre` and the given body. -/
def justify (left zeros : Bool) (width : ℕ) (pre body : List Char) : List Char :=
  let pad := width - (pre.length + body.length)
  if left then pre ++ body ++ List.replicate pad ' '
  else if zeros then pre ++ List.replicate pad '0' ++ body
  else List.replicate pad ' ' ++ pre ++ body

theorem length_justify (left zeros : Bool) (width : ℕ) (pre body : List Char) :
    (justify left zeros width pre body).length = max width (pre.length + body.length) := by
  unfold justify
  dsimp only
  split_ifs
  · simp only [List.length_append, List.length_replicate]
    omega
  · simp only [List.length_append, List.length_replicate]
    omega
  · simp only [List.length_append, List.length_replicate]
    omega

/-- The digits of a number; the value 0 with the precision 0 has none. -/
def digits (base v : ℕ) (precision : Option ℕ) : List Char :=
  if v = 0 ∧ precision = some 0 then []
  else List.leftpad (precision.getD 0) '0' (Nat.toDigits base v)

/-- The alternative form of an octal number starts with a 0. -/
def octalAlt (alt : Bool) (ds : List Char) : List Char :=
  if alt ∧ ds.head? ≠ some '0' then '0' :: ds else ds

def takeInt : List Arg → Option (ℤ × List Arg)
  | .num w :: args => some ((w.setWidth 32).toInt, args)
  | _ => none

def takeWord : List Arg → Option (Word × List Arg)
  | .num w :: args => some (w, args)
  | _ => none

/-- A string argument, up to its NUL. -/
def takeString : List Arg → Option (List Char × List Arg)
  | .str s :: args => some (s.toList.takeWhile (· ≠ nul), args)
  | _ => none

/-- A negative precision is taken as if it were omitted. -/
def effectivePrecision (precision : Option ℤ) : Option ℕ := precision.bind Int.toNat?

namespace Directive

variable (d : Directive)

def leftFlag : Bool := decide (Flag.minus ∈ d.flags)
def zeroFlag : Bool := decide (Flag.zero ∈ d.flags)
def altFlag : Bool := decide (Flag.alt ∈ d.flags)

/-- What stands in front of a number that is not negative. -/
def signFlag : Option Char :=
  if Flag.plus ∈ d.flags then some '+' else if Flag.space ∈ d.flags then some ' ' else none

/-- Whether the field is justified on the left, its width, and the arguments that are left. -/
def fieldWidth (args : List Arg) : Option (Bool × ℕ × List Arg) :=
  match d.width with
  | none => some (d.leftFlag, 0, args)
  | some (.literal n) => some (d.leftFlag, n, args)
  | some .star => (takeInt args).map fun a => (d.leftFlag || decide (a.1 < 0), a.1.natAbs, a.2)

def precisionArg (args : List Arg) : Option (Option ℤ × List Arg) :=
  match d.precision with
  | none => some (none, args)
  | some (.literal n) => some (some n, args)
  | some .star => (takeInt args).map fun a => (some a.1, a.2)

def integer (precision : Option ℕ) (w : Word) : IntSpecifier → List Char × List Char
  | .d => signed (extractSigned w d.length)
  | .i => signed (extractSigned w d.length)
  | .u => ([], digits 10 (extractUnsigned w d.length) precision)
  | .o => ([], octalAlt d.altFlag (digits 8 (extractUnsigned w d.length) precision))
  | .x => (if d.altFlag ∧ extractUnsigned w d.length ≠ 0 then ['0', 'x'] else [],
      digits 16 (extractUnsigned w d.length) precision)
  | .upperX => (if d.altFlag ∧ extractUnsigned w d.length ≠ 0 then ['0', 'X'] else [],
      (digits 16 (extractUnsigned w d.length) precision).map Char.toUpper)
where
  signed (v : ℤ) : List Char × List Char :=
    (if v < 0 then ['-'] else d.signFlag.toList, digits 10 v.natAbs precision)

/-- The prefix and the body of the field, and the arguments that are left. The standard leaves
open how a pointer is written. -/
def body (precision : Option ℕ) (args : List Arg) :
    Option ((List Char × List Char) × List Arg) :=
  match d.conv with
  | .int conv => (takeWord args).map fun a => (d.integer precision a.1 conv, a.2)
  | .c => (takeWord args).map fun a => (([], [Char.ofNat (a.1.setWidth 8).toNat]), a.2)
  | .s => (takeString args).map fun a => (([], precision.elim a.1 a.1.take), a.2)
  | .p => (takeWord args).map fun a => ((['0', 'x'], digits 16 a.1.toNat precision), a.2)
  | .percent => some (([], ['%']), args)

/-- The text of the directive, and the arguments that are left. -/
def meaning (args : List Arg) : Option (List Char × List Arg) :=
  (d.fieldWidth args).bind fun w => (d.precisionArg w.2.2).bind fun p =>
    (d.body (effectivePrecision p.1) p.2).map fun b =>
      (justify w.1 (d.zeroFlag && (effectivePrecision p.1).isNone) w.2.1 b.1.1 b.1.2, b.2)

/-- The directives whose meaning the C standard defines, apart from the wide characters of `%lc`
and `%ls`. -/
structure Standard : Prop extends d.Writable where
  percent : d.conv = .percent → d.flags = [] ∧ d.width = none
  zero : Flag.zero ∈ d.flags → ∃ conv, d.conv = .int conv
  alt : Flag.alt ∈ d.flags → d.conv = .int .o ∨ d.conv = .int .x ∨ d.conv = .int .upperX
  counted : d.precision ≠ none → (∃ conv, d.conv = .int conv) ∨ d.conv = .s
  sized : d.length ≠ .none → ∃ conv, d.conv = .int conv

/-- The conversion is one for integers. -/
instance decidableInt (conv : Specifier) : Decidable (∃ c, conv = .int c) :=
  match conv with
  | .int c => .isTrue ⟨c, rfl⟩
  | .c => .isFalse fun ⟨_, h⟩ => by cases h
  | .s => .isFalse fun ⟨_, h⟩ => by cases h
  | .p => .isFalse fun ⟨_, h⟩ => by cases h
  | .percent => .isFalse fun ⟨_, h⟩ => by cases h

instance : Decidable d.Standard :=
  decidable_of_iff (d.Writable ∧ (d.conv = .percent → d.flags = [] ∧ d.width = none) ∧
      (Flag.zero ∈ d.flags → ∃ conv, d.conv = .int conv) ∧
      (Flag.alt ∈ d.flags → d.conv = .int .o ∨ d.conv = .int .x ∨ d.conv = .int .upperX) ∧
      (d.precision ≠ none → (∃ conv, d.conv = .int conv) ∨ d.conv = .s) ∧
      (d.length ≠ .none → ∃ conv, d.conv = .int conv))
    ⟨fun ⟨h, hpercent, hzero, halt, hcounted, hsized⟩ => ⟨h, hpercent, hzero, halt, hcounted, hsized⟩,
      fun ⟨h, hpercent, hzero, halt, hcounted, hsized⟩ => ⟨h, hpercent, hzero, halt, hcounted, hsized⟩⟩

/-- The arguments for `*` with which `npf_vpprintf` does what the standard says. The flag `0` is
not to depend on their signs: behind a negative width the field would be filled with zeros on
the right, and with a negative precision with spaces. And `fs.prec - cbuf_len` is not to
overflow. -/
def Supports (args : List Arg) : Prop :=
  ∀ w ∈ d.fieldWidth args, ∀ p ∈ d.precisionArg w.2.2,
    (Flag.zero ∈ d.flags →
      (w.1 || (effectivePrecision p.1).isSome) = (d.leftFlag || d.precision.isSome)) ∧
    (d.conv ≠ .s → ∀ n ∈ p.1, -2 ^ 31 + (conversionBufferSize : ℤ) ≤ n)

instance (args : List Arg) : Decidable (d.Supports args) :=
  inferInstanceAs (Decidable (∀ w ∈ d.fieldWidth args, ∀ p ∈ d.precisionArg w.2.2, _ ∧ _))

end Directive

/-! ## Formats -/

/-- The pieces of a standard format; `%` is written as a directive. -/
def Piece.Standard : Piece → Prop
  | .plain ch => ch ≠ '%' ∧ ch ≠ nul
  | .directive d => d.Standard

instance (p : Piece) : Decidable p.Standard :=
  match p with
  | .plain _ => inferInstanceAs (Decidable (_ ∧ _))
  | .directive d => inferInstanceAs (Decidable d.Standard)

/-- The text of a format and its arguments; arguments that are left do not matter. -/
def formatMeaning : List Piece → List Arg → Option (List Char)
  | [], _ => some []
  | .plain ch :: ps, args => (formatMeaning ps args).map (ch :: ·)
  | .directive d :: ps, args =>
    (d.meaning args).bind fun m => (formatMeaning ps m.2).map (m.1 ++ ·)

/-- Every directive supports the arguments that it gets. -/
def FormatSupports : List Piece → List Arg → Prop
  | [], _ => True
  | .plain _ :: ps, args => FormatSupports ps args
  | .directive d :: ps, args => d.Supports args ∧ ∀ m ∈ d.meaning args, FormatSupports ps m.2

/-- It is decided from the first directive to the last. -/
instance FormatSupports.decidable : ∀ ps args, Decidable (FormatSupports ps args)
  | [], _ => .isTrue trivial
  | .plain _ :: ps, args => FormatSupports.decidable ps args
  | .directive d :: ps, args =>
    have := fun m : List Char × List Arg => FormatSupports.decidable ps m.2
    inferInstanceAs (Decidable (d.Supports args ∧ ∀ m ∈ d.meaning args, FormatSupports ps m.2))

/-! ## The specifier behind the arguments for `*` -/

section Resolve

theorem foldl_flags (d : Directive) : d.flags.foldl Flag.apply {} =
    { prepend := d.signFlag, altForm := d.altFlag, leftJustified := d.leftFlag,
      leadingZeroPad := d.zeroFlag && !d.leftFlag } := by
  unfold Directive.signFlag Directive.altFlag Directive.leftFlag Directive.zeroFlag
  induction d.flags using List.reverseRecOn with
  | nil => rfl
  | append_singleton flags flag ih =>
    rw [List.foldl_append, ih]
    cases flag with
    | minus => simp [Flag.apply]
    | zero => simp [Flag.apply]
    | plus => simp [Flag.apply]
    | space =>
      by_cases hplus : Flag.plus ∈ flags
      · simp [Flag.apply, hplus]
      · by_cases hspace : Flag.space ∈ flags
        · simp [Flag.apply, hplus, hspace]
        · simp [Flag.apply, hplus, hspace]
    | alt => simp [Flag.apply]

def IntSpecifier.conversion : IntSpecifier → Conversion
  | .d => .signedInt
  | .i => .signedInt
  | .o => .octal
  | .u => .unsignedInt
  | .x => .hexInt
  | .upperX => .hexInt

def Specifier.conversion : Specifier → Conversion
  | .int conv => conv.conversion
  | .c => .char
  | .s => .string
  | .p => .pointer
  | .percent => .percent

/-- The specifier of a directive whose width and precision are known. -/
def Directive.resolved (d : Directive) (left : Bool) (width : ℕ) (precision : Option ℤ) :
    FormatSpec where
  prepend := d.signFlag
  altForm := d.altFlag
  fieldWidthOpt := if d.width.isSome then .literal else .none
  fieldWidth := width
  leftJustified := left
  leadingZeroPad := d.zeroFlag && !(d.leftFlag || d.precision.isSome)
  precOpt := if (effectivePrecision precision).isSome then .literal else .none
  prec := precision.getD 0
  lengthModifier := d.length
  convSpec := d.conv.conversion
  caseAdjust := if d.conv = .int .upperX then 0 else 'a'.toNat - 'A'.toNat

variable {d : Directive} {args args₁ args₂ : List Arg} {left : Bool} {width : ℕ}
  {precision : Option ℤ}

theorem vaArg_of_takeInt {a : ℤ × List Arg} (h : takeInt args = some a) :
    ∃ w, vaArg args = .ok (w, a.2) ∧ (w.setWidth 32).toInt = a.1 := by
  unfold takeInt at h
  split at h
  · cases h
    exact ⟨_, rfl, rfl⟩
  · cases h

theorem vaArg_of_takeWord {a : Word × List Arg} (h : takeWord args = some a) :
    vaArg args = .ok a := by
  unfold takeWord at h
  split at h
  · cases h
    rfl
  · cases h

def FormatSpec.withWidth (fs : FormatSpec) (opt : FmtSpecOpt) (width : ℤ) (left : Bool) :
    FormatSpec :=
  { fs with fieldWidthOpt := opt, fieldWidth := width, leftJustified := left }

theorem Directive.spec_withWidth (d : Directive) : d.spec = d.spec.withWidth
    (setWidth {} d.width).fieldWidthOpt (setWidth {} d.width).fieldWidth d.leftFlag := by
  unfold Directive.spec
  rw [foldl_flags]
  rcases d.conv with (_ | _ | _ | _ | _ | _) | _ | _ | _ | _ <;> rcases d.precision with _ | _ | _ <;>
    rcases d.width with _ | _ | _ <;> rfl

theorem starWidth_spec (h : d.fieldWidth args = some (left, width, args₁)) (hlt : width < 2 ^ 31) :
    starWidth d.spec args = .ok
      (d.spec.withWidth (if d.width.isSome then .literal else .none) width left, args₁) := by
  have hspec := d.spec_withWidth
  unfold Directive.fieldWidth at h
  unfold starWidth
  cases hw : d.width with
  | none =>
    rw [hw] at h hspec
    cases h
    rw [hspec]
    rfl
  | some a =>
    rw [hw] at h hspec
    cases a with
    | literal n =>
      cases h
      rw [hspec]
      rfl
    | star =>
      cases harg : takeInt args with
      | none =>
        rw [harg] at h
        cases h
      | some a =>
        rw [harg] at h
        cases h
        obtain ⟨w, hva, hvalue⟩ := vaArg_of_takeInt harg
        rw [hspec]
        change (vaArg args >>= _) = _
        rw [hva]
        simp only [bind, Except.bind, hvalue]
        by_cases hneg : a.1 < 0
        · have habs : -a.1 = (a.1.natAbs : ℤ) := by
            omega
          rw [if_pos hneg, habs, asInt_of_range (by omega) (by omega), decide_eq_true hneg,
            Bool.or_true]
          rfl
        · have habs : (a.1.natAbs : ℤ) = a.1 := by
            omega
          rw [if_neg hneg, habs, decide_eq_false hneg, Bool.or_false]
          rfl

theorem Directive.withWidth_eq (d : Directive) (opt : FmtSpecOpt) (width : ℤ) (left : Bool) :
    d.spec.withWidth opt width left = d.conv.apply {
      prepend := d.signFlag
      altForm := d.altFlag
      fieldWidthOpt := opt
      fieldWidth := width
      leftJustified := left
      leadingZeroPad := d.zeroFlag && !d.leftFlag
      precOpt := (setPrecision {} d.precision).precOpt
      prec := (setPrecision {} d.precision).prec
      lengthModifier := d.length } := by
  unfold Directive.spec
  rw [foldl_flags]
  rcases d.conv with (_ | _ | _ | _ | _ | _) | _ | _ | _ | _ <;> rcases d.precision with _ | _ | _ <;>
    rcases d.width with _ | _ | _ <;> rfl

theorem resolved_eq (hd : d.Standard) {opt precOpt : FmtSpecOpt}
    (hopt : opt = if d.width.isSome then .literal else .none)
    (hprecOpt : precOpt = if (effectivePrecision precision).isSome then .literal else .none) :
    { d.spec.withWidth opt width left with prec := precision.getD 0, precOpt := precOpt } =
      d.resolved left width precision := by
  have hzero : (¬ ∃ conv, d.conv = .int conv) → d.zeroFlag = false :=
    fun h => decide_eq_false fun hzero => h (hd.zero hzero)
  rw [d.withWidth_eq]
  unfold Directive.resolved
  rw [hopt, hprecOpt]
  cases hconv : d.conv with
  | int conv =>
    cases conv <;> rcases d.precision with _ | _ | _ <;>
      simp [Specifier.apply, IntSpecifier.apply, Specifier.conversion, IntSpecifier.conversion,
        setPrecision, numeric]
  | c => simp [Specifier.apply, Specifier.conversion, hzero, hconv]
  | s => simp [Specifier.apply, Specifier.conversion, hzero, hconv]
  | p => simp [Specifier.apply, Specifier.conversion, hzero, hconv]
  | percent => simp [Specifier.apply, Specifier.conversion, hzero, hconv]

/-- The precision of the specifier, where the conversion does not drop it. -/
theorem prec_withWidth (hd : d.Standard) (opt : FmtSpecOpt) (width : ℤ) (left : Bool) :
    (d.spec.withWidth opt width left).precOpt = (setPrecision {} d.precision).precOpt ∧
      (d.spec.withWidth opt width left).prec = (setPrecision {} d.precision).prec := by
  have hnone : (¬ ∃ conv, d.conv = .int conv) → d.conv ≠ .s → d.precision = none := by
    intro hint hs
    by_contra hsome
    exact (hd.counted hsome).elim hint hs
  rw [d.withWidth_eq]
  cases hconv : d.conv with
  | int conv => cases conv <;> exact ⟨rfl, rfl⟩
  | s => exact ⟨rfl, rfl⟩
  | c => simp [Specifier.apply, setPrecision, hnone, hconv]
  | p => simp [Specifier.apply, setPrecision, hnone, hconv]
  | percent => simp [Specifier.apply, setPrecision, hnone, hconv]

theorem FormatSpec.eta_prec {fs : FormatSpec} {prec : ℤ} {opt : FmtSpecOpt} (hprec : fs.prec = prec)
    (hopt : fs.precOpt = opt) : { fs with prec := prec, precOpt := opt } = fs := by
  rw [← hprec, ← hopt]

theorem isSome_effectivePrecision (n : ℤ) : (effectivePrecision (some n)).isSome = decide (0 ≤ n) := by
  cases n with
  | ofNat n => exact (decide_eq_true (Int.natCast_nonneg n)).symm
  | negSucc n => exact (decide_eq_false (Int.negSucc_not_nonneg n).mp).symm

theorem starPrec_spec (hd : d.Standard) (h : d.precisionArg args₁ = some (precision, args₂))
    {opt : FmtSpecOpt} (hopt : opt = if d.width.isSome then .literal else .none) :
    starPrec (d.spec.withWidth opt width left) args₁ =
      .ok (d.resolved left width precision, args₂) := by
  obtain ⟨hprecOpt, hprec⟩ := prec_withWidth hd opt width left
  have hresolved : ∀ precOpt,
      precOpt = (if (effectivePrecision precision).isSome then .literal else .none) →
      { d.spec.withWidth opt width left with prec := precision.getD 0, precOpt := precOpt } =
        d.resolved left width precision := fun precOpt => resolved_eq hd hopt
  unfold Directive.precisionArg at h
  unfold starPrec
  rw [hprecOpt]
  cases hp : d.precision with
  | none =>
    rw [hp] at h hprec hprecOpt
    cases h
    rw [← hresolved .none rfl]
    exact congrArg (fun fs => Except.ok (fs, args₁)) (FormatSpec.eta_prec hprec hprecOpt).symm
  | some a =>
    rw [hp] at h hprec hprecOpt
    cases a with
    | literal n =>
      cases h
      rw [← hresolved .literal rfl]
      exact congrArg (fun fs => Except.ok (fs, args₁)) (FormatSpec.eta_prec hprec hprecOpt).symm
    | star =>
      obtain ⟨a, harg, hresult⟩ := Option.map_eq_some_iff.mp h
      cases hresult
      obtain ⟨w, hva, hvalue⟩ := vaArg_of_takeInt harg
      have hopt' : (if 0 ≤ a.1 then FmtSpecOpt.literal else .none) =
          if (effectivePrecision (some a.1)).isSome then .literal else .none := by
        simp only [isSome_effectivePrecision, decide_eq_true_eq]
      change (vaArg args₁ >>= _) = _
      rw [hva, ← hresolved _ hopt']
      simp only [bind, Except.bind, hvalue]
      rfl

end Resolve

end Olive
