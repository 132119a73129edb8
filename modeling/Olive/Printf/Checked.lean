import Olive.Printf.Refinement

/-!
# Formats that are checked in advance

From what is known of the arguments before a run, that they are numbers or strings of a bounded
length, it can be decided that a format has a meaning, and how long the text can be.
-/

namespace Olive

open Library

inductive ArgKind where
  | num
  | str (len : ℕ)
  deriving DecidableEq, Repr

def ArgKind.Admits : ArgKind → Arg → Prop
  | .num, .num _ => True
  | .str len, .str s => s.toList.length ≤ len
  | _, _ => False

/-- A bound for the text of a number; it has 22 digits at most. -/
def numberBound (precision : Option ℕ) : ℕ := max (precision.getD 0) 22 + 3

def takeNum : List ArgKind → Option (List ArgKind)
  | .num :: kinds => some kinds
  | _ => none

def takeStr : List ArgKind → Option (ℕ × List ArgKind)
  | .str len :: kinds => some (len, kinds)
  | _ => none

namespace Directive

variable (d : Directive)

def literalPrecision : Option ℕ :=
  match d.precision with
  | some (.literal n) => some n
  | _ => none

/-- A bound for the prefix and the body, and what is known of the arguments that are left. -/
def bodyBound (kinds : List ArgKind) : Option (ℕ × List ArgKind) :=
  match d.conv with
  | .int _ => (takeNum kinds).map fun kinds => (numberBound d.literalPrecision, kinds)
  | .c => (takeNum kinds).map fun kinds => (1, kinds)
  | .s => takeStr kinds
  | .p => (takeNum kinds).map fun kinds => (numberBound d.literalPrecision, kinds)
  | .percent => some (1, kinds)

/-- A bound for the field; one that depends on an argument has none. -/
def bound (kinds : List ArgKind) : Option (ℕ × List ArgKind) :=
  match d.width, d.precision with
  | some .star, _ => none
  | _, some .star => none
  | some (.literal n), _ => (d.bodyBound kinds).map fun b => (max n b.1, b.2)
  | none, _ => d.bodyBound kinds

end Directive

def formatBound : List Piece → List ArgKind → Option ℕ
  | [], _ => some 0
  | .plain _ :: ps, kinds => (formatBound ps kinds).map (· + 1)
  | .directive d :: ps, kinds =>
    (d.bound kinds).bind fun b => (formatBound ps b.2).map (b.1 + ·)

section Bound

variable {base val n : ℕ} {d : Directive} {precision : Option ℕ} {kinds kinds' : List ArgKind}
  {args : List Arg} {ps : List Piece}

theorem length_digits_le (hbase : 8 ≤ base) (hval : val < 2 ^ 64) (precision : Option ℕ) :
    (digits base val precision).length ≤ max (precision.getD 0) 22 := by
  have hlen : (Nat.toDigits base val).length ≤ 22 := by
    rw [Nat.length_toDigits_le_iff (by omega) (by decide)]
    calc val < 2 ^ 64 := hval
      _ ≤ 8 ^ 22 := by decide
      _ ≤ base ^ 22 := Nat.pow_le_pow_left hbase 22
  unfold digits
  split_ifs
  · exact Nat.zero_le _
  · rw [List.length_leftpad]
    omega

theorem length_octalAlt_le (alt : Bool) (ds : List Char) :
    (octalAlt alt ds).length ≤ ds.length + 1 := by
  unfold octalAlt
  split_ifs
  · exact le_rfl
  · exact Nat.le_succ _

theorem takeWord_of_takeNum (h : takeNum kinds = some kinds')
    (hargs : List.Forall₂ ArgKind.Admits kinds args) :
    ∃ a, takeWord args = some a ∧ List.Forall₂ ArgKind.Admits kinds' a.2 := by
  unfold takeNum at h
  split at h
  · cases h
    obtain ⟨a, rest, ha, hrest, rfl⟩ := List.forall₂_cons_left_iff.mp hargs
    cases a with
    | num w => exact ⟨(w, rest), rfl, hrest⟩
    | str s => exact ha.elim
  · cases h

theorem takeString_of_takeStr {len : ℕ} (h : takeStr kinds = some (len, kinds'))
    (hargs : List.Forall₂ ArgKind.Admits kinds args) :
    ∃ a, takeString args = some a ∧ a.1.length ≤ len ∧ List.Forall₂ ArgKind.Admits kinds' a.2 := by
  unfold takeStr at h
  split at h
  · cases h
    obtain ⟨a, rest, ha, hrest, rfl⟩ := List.forall₂_cons_left_iff.mp hargs
    cases a with
    | num w => exact ha.elim
    | str s => exact ⟨_, rfl, ((List.takeWhile_sublist _).length_le).trans ha, hrest⟩
  · cases h

theorem length_number_le {pre body : List Char} (hbase : 8 ≤ base) (hval : val < 2 ^ 64)
    (hpre : pre.length ≤ 2) (hbody : body.length ≤ (digits base val precision).length + 1) :
    pre.length + body.length ≤ numberBound precision := by
  have hlen := length_digits_le hbase hval precision
  unfold numberBound
  omega

theorem length_ite_le {p : Prop} [Decidable p] {pre : List Char} (h : pre.length ≤ 2) :
    (if p then pre else []).length ≤ 2 := by
  split_ifs
  · exact h
  · exact Nat.zero_le _

theorem length_signed_le (precision : Option ℕ) (w : Word) :
    (Directive.integer.signed d precision (extractSigned w d.length)).1.length +
        (Directive.integer.signed d precision (extractSigned w d.length)).2.length ≤
      numberBound precision := by
  have habs := natAbs_extractSigned_le w d.length
  apply length_number_le (show 8 ≤ 10 by decide) (by omega) _ (Nat.le_succ _)
  unfold Directive.integer.signed
  dsimp only
  split_ifs
  · decide
  · cases d.signFlag with
    | none => exact Nat.zero_le _
    | some ch => exact Nat.le_succ _

theorem length_integer_le (precision : Option ℕ) (w : Word) (conv : IntSpecifier) :
    (d.integer precision w conv).1.length + (d.integer precision w conv).2.length ≤
      numberBound precision := by
  have hval := extractUnsigned_lt w d.length
  cases conv with
  | d => exact length_signed_le precision w
  | i => exact length_signed_le precision w
  | u => exact length_number_le (by decide) hval (Nat.zero_le _) (Nat.le_succ _)
  | o => exact length_number_le (by decide) hval (Nat.zero_le _) (length_octalAlt_le _ _)
  | x => exact length_number_le (by decide) hval (length_ite_le le_rfl) (Nat.le_succ _)
  | upperX =>
    apply length_number_le (show 8 ≤ 16 by decide) hval (length_ite_le le_rfl)
    exact (List.length_map Char.toUpper).le.trans (Nat.le_succ _)

theorem body_of_bodyBound (h : d.bodyBound kinds = some (n, kinds'))
    (hargs : List.Forall₂ ArgKind.Admits kinds args) :
    ∃ pre body rest, d.body d.literalPrecision args = some ((pre, body), rest) ∧
      pre.length + body.length ≤ n ∧ List.Forall₂ ArgKind.Admits kinds' rest := by
  -- all conversions of a number take one argument, and differ in the bound only
  have hnum : ∀ (bound : ℕ) (f : Word → List Char × List Char),
      (∀ w, (f w).1.length + (f w).2.length ≤ bound) →
      (takeNum kinds).map (fun kinds => (bound, kinds)) = some (n, kinds') →
      ∃ pre body rest, (takeWord args).map (fun a => (f a.1, a.2)) = some ((pre, body), rest) ∧
        pre.length + body.length ≤ n ∧ List.Forall₂ ArgKind.Admits kinds' rest := by
    intro bound f hf h
    obtain ⟨ks, hks, hresult⟩ := Option.map_eq_some_iff.mp h
    cases hresult
    obtain ⟨a, ha, hrest⟩ := takeWord_of_takeNum hks hargs
    exact ⟨_, _, _, congrArg (Option.map _) ha, hf a.1, hrest⟩
  unfold Directive.bodyBound at h
  unfold Directive.body
  cases hconv : d.conv with
  | int conv =>
    rw [hconv] at h
    exact hnum _ (fun w => d.integer d.literalPrecision w conv)
      (fun w => length_integer_le _ w conv) h
  | c =>
    rw [hconv] at h
    exact hnum _ (fun w => ([], [Char.ofNat (w.setWidth 8).toNat])) (fun _ => le_rfl) h
  | s =>
    rw [hconv] at h
    obtain ⟨a, ha, hlen, hrest⟩ := takeString_of_takeStr h hargs
    refine ⟨_, _, _, congrArg (Option.map _) ha, ?_, hrest⟩
    rw [List.length_nil, Nat.zero_add]
    cases d.literalPrecision with
    | none => exact hlen
    | some p => exact ((List.take_sublist p _).length_le).trans hlen
  | p =>
    rw [hconv] at h
    exact hnum _ (fun w => (['0', 'x'], digits 16 w.toNat d.literalPrecision))
      (fun w => length_number_le (by decide) w.isLt le_rfl (Nat.le_succ _)) h
  | percent =>
    rw [hconv] at h
    cases h
    exact ⟨_, _, _, rfl, le_rfl, hargs⟩

theorem fieldWidth_of_literal (kinds : List ArgKind) (args : List Arg)
    (hstar : d.width ≠ some .star) : ∃ width,
    d.fieldWidth args = some (d.leftFlag, width, args) ∧
      d.bound kinds = if d.precision = some .star then none
        else (d.bodyBound kinds).map fun b => (max width b.1, b.2) := by
  unfold Directive.fieldWidth Directive.bound
  cases hw : d.width with
  | none =>
    refine ⟨0, rfl, ?_⟩
    rcases d.precision with _ | p | _
    · simp
    · simp
    · rfl
  | some a =>
    cases a with
    | star => exact absurd hw hstar
    | literal n =>
      refine ⟨n, rfl, ?_⟩
      rcases d.precision with _ | p | _
      · simp
      · simp
      · rfl

theorem precisionArg_of_literal (args : List Arg) (hstar : d.precision ≠ some .star) :
    ∃ p, d.precisionArg args = some (p, args) ∧ effectivePrecision p = d.literalPrecision ∧
      d.literalPrecision.isSome = d.precision.isSome ∧ ∀ n ∈ p, 0 ≤ n := by
  unfold Directive.precisionArg Directive.literalPrecision
  cases hp : d.precision with
  | none => exact ⟨none, rfl, rfl, rfl, fun n hn => by cases hn⟩
  | some a =>
    cases a with
    | star => exact absurd hp hstar
    | literal n =>
      refine ⟨some n, rfl, rfl, rfl, fun m hm => ?_⟩
      cases hm
      exact Int.natCast_nonneg n

theorem not_star_of_bound (h : d.bound kinds = some (n, kinds')) :
    d.width ≠ some .star ∧ d.precision ≠ some .star := by
  have hwidth : d.width ≠ some .star := by
    intro hstar
    unfold Directive.bound at h
    rw [hstar] at h
    cases h
  refine ⟨hwidth, fun hstar => ?_⟩
  obtain ⟨width, -, hbound⟩ := fieldWidth_of_literal kinds [] hwidth
  rw [hbound, if_pos hstar] at h
  cases h

theorem supports_of_bound (h : d.bound kinds = some (n, kinds')) (args : List Arg) :
    d.Supports args := by
  obtain ⟨hwidthStar, hprecStar⟩ := not_star_of_bound h
  obtain ⟨width, hwidth, -⟩ := fieldWidth_of_literal kinds args hwidthStar
  obtain ⟨p, hp, heffective, hsome, hnonneg⟩ := precisionArg_of_literal args hprecStar
  intro w hw q hq
  obtain rfl := Option.some.inj (hwidth.symm.trans hw)
  obtain rfl := Option.some.inj (hp.symm.trans hq)
  refine ⟨fun _ => ?_, fun _ n hn => ?_⟩
  · rw [heffective, hsome]
  · have hpos := hnonneg n hn
    have hsize : conversionBufferSize = 23 := rfl
    omega

theorem meaning_of_bound (h : d.bound kinds = some (n, kinds'))
    (hargs : List.Forall₂ ArgKind.Admits kinds args) :
    ∃ t rest, d.meaning args = some (t, rest) ∧ t.length ≤ n ∧
      List.Forall₂ ArgKind.Admits kinds' rest := by
  obtain ⟨hwidthStar, hprecStar⟩ := not_star_of_bound h
  obtain ⟨width, hwidth, hbound⟩ := fieldWidth_of_literal kinds args hwidthStar
  obtain ⟨p, hp, heffective, -⟩ := precisionArg_of_literal args hprecStar
  rw [hbound, if_neg hprecStar] at h
  obtain ⟨⟨n', ks⟩, hbody, hresult⟩ := Option.map_eq_some_iff.mp h
  cases hresult
  obtain ⟨pre, body, rest, hmeaning, hlen, hrest⟩ := body_of_bodyBound hbody hargs
  unfold Directive.meaning
  rw [hwidth]
  refine ⟨justify d.leftFlag (d.zeroFlag && d.literalPrecision.isNone) width pre body, rest, ?_, ?_,
    hrest⟩
  · rw [Option.bind_some, hp, Option.bind_some, heffective, hmeaning]
    rfl
  · rw [length_justify]
    exact max_le_max le_rfl hlen

/-- A format with a bound has a meaning for all arguments of the right kinds. -/
theorem formatMeaning_of_bound (h : formatBound ps kinds = some n)
    (hargs : List.Forall₂ ArgKind.Admits kinds args) :
    ∃ t, formatMeaning ps args = some t ∧ t.length ≤ n ∧ FormatSupports ps args := by
  induction ps generalizing kinds args n with
  | nil =>
    cases h
    exact ⟨[], rfl, le_rfl, trivial⟩
  | cons p ps ih =>
    cases p with
    | plain ch =>
      obtain ⟨m, hm, rfl⟩ := Option.map_eq_some_iff.mp h
      obtain ⟨t, ht, hlen, hsupports⟩ := ih hm hargs
      exact ⟨ch :: t, congrArg (Option.map _) ht, Nat.succ_le_succ hlen, hsupports⟩
    | directive d =>
      obtain ⟨⟨m₁, kinds₁⟩, hfield, h⟩ := Option.bind_eq_some_iff.mp h
      obtain ⟨m₂, hm₂, rfl⟩ := Option.map_eq_some_iff.mp h
      obtain ⟨t₁, rest, ht₁, hlen₁, hrest⟩ := meaning_of_bound hfield hargs
      obtain ⟨t₂, ht₂, hlen₂, hsupports⟩ := ih hm₂ hrest
      refine ⟨t₁ ++ t₂, ?_, ?_, supports_of_bound hfield args, fun m hm => ?_⟩
      · unfold formatMeaning
        rw [ht₁, Option.bind_some, ht₂]
        rfl
      · rw [List.length_append]
        exact Nat.add_le_add hlen₁ hlen₂
      · obtain rfl := Option.some.inj (ht₁.symm.trans hm)
        exact hsupports

end Bound

end Olive
