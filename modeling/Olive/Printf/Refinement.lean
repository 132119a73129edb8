import Olive.Printf.Meaning

/-!
# `npf_vpprintf` prints what the format means

For the directives that the C standard defines, the conversion of the argument and the padding
around it give the text that the directive means.
-/

namespace Olive

open Library

/-! ## The field around the payload -/

section Field

variable {v : Converted} {width : ℕ} {precPad fieldPad : ℤ}

def prefixText (v : Converted) : List Char := v.signC.toList ++ prefix0x v.need0x

theorem prefixText_comm (hpre : v.signC = none ∨ v.need0x = none) :
    prefix0x v.need0x ++ v.signC.toList = prefixText v := by
  unfold prefixText
  rcases hpre with h | h
  · rw [h]
    exact List.append_nil _
  · rw [h]
    exact (List.append_nil _).symm

theorem payloadSign_eq (hstring : v.fs.convSpec = .string → v.signC = none) :
    payloadSign v = v.signC.toList := by
  unfold payloadSign
  split_ifs with h
  · rw [hstring h]
    rfl
  · rfl

theorem fieldText_eq (hwidth : v.fs.fieldWidthOpt = .literal ∨
      v.fs.fieldWidthOpt = .none ∧ width = 0)
    (hleft : v.fs.leftJustified = true → v.fs.leadingZeroPad = false)
    (hzero : v.fs.leadingZeroPad = true → v.fs.convSpec ≠ .string ∧ v.fs.convSpec ≠ .char ∧
      v.fs.convSpec ≠ .percent ∧ v.fs.precOpt ≠ .literal)
    (hpre : v.signC = none ∨ v.need0x = none)
    (hstring : v.fs.convSpec = .string → v.signC = none)
    (hpad : fieldPad.toNat = width - ((prefixText v).length + (payloadText v precPad).length)) :
    fieldText v precPad fieldPad = justify v.fs.leftJustified v.fs.leadingZeroPad width
      (prefixText v) (payloadText v precPad) := by
  have hsign := payloadSign_eq hstring
  have hcomm := prefixText_comm hpre
  unfold fieldText justify
  rw [← hpad]
  rcases hwidth with hopt | ⟨hopt, hnone⟩
  · by_cases hz : v.fs.leadingZeroPad = true
    · have hl : v.fs.leftJustified = false := by
        cases hl : v.fs.leftJustified with
        | false => rfl
        | true => exact absurd hz (by simp [hleft hl])
      obtain ⟨hs, hc, hp, hprec⟩ := hzero hz
      have hpadChar : padChar v.fs v.zero = some '0' := by
        simp [padChar, hopt, hz, hs, hc, hp, hprec]
      simp only [hpadChar, hl, hz, prefixText]
      rfl
    · have hpadChar : padChar v.fs v.zero = some ' ' := by
        simp [padChar, hopt, hz]
      rw [hpadChar, hsign]
      by_cases hl : v.fs.leftJustified = true
      · simp only [if_pos hl, hcomm]
      · have hspace : (' ' : Char) ≠ '0' := by
          decide
        simp only [if_neg hl, if_neg hspace, if_neg hz, List.append_assoc, ← hcomm]
  · have hpadChar : padChar v.fs v.zero = none := by
      simp [padChar, hopt]
    have hzeroPad : fieldPad.toNat = 0 := by
      rw [hpad, hnone, Nat.zero_sub]
    rw [hpadChar, hsign, hzeroPad, ← hcomm]
    split_ifs
    · simp
    · simp
    · simp

/-- `prec_pad`, without overflow. -/
def precPadOf (v : Converted) : ℤ :=
  if v.fs.convSpec = .string then 0 else max 0 (v.fs.prec - v.cbuf.length)

theorem length_payloadText (v : Converted) :
    ((payloadText v (precPadOf v)).length : ℤ) = precPadOf v + v.cbuf.length := by
  unfold payloadText precPadOf
  split_ifs with hs
  · rw [zero_add]
  · rw [List.length_append, List.length_replicate, List.length_reverse, Nat.cast_add,
      Int.toNat_of_nonneg (le_max_left _ _)]

theorem pads_eq (hw : v.fs.fieldWidth = width) (hwidth : width < 2 ^ 31)
    (hprec : v.fs.convSpec ≠ .string → -2 ^ 31 ≤ v.fs.prec - v.cbuf.length)
    (hprec' : v.fs.prec < 2 ^ 31)
    (hlen : (prefixText v).length + (payloadText v (precPadOf v)).length < 2 ^ 31) :
    ∃ fieldPad, pads v = .ok (precPadOf v, fieldPad) ∧ fieldPad.toNat =
      width - ((prefixText v).length + (payloadText v (precPadOf v)).length) := by
  have hpayload := length_payloadText v
  have hprefix : ((prefixText v).length : ℤ) =
      (if v.signC.isSome then 1 else 0) + if v.need0x.isSome then 2 else 0 := by
    unfold prefixText
    cases v.signC <;> cases v.need0x <;> rfl
  have hnonneg : 0 ≤ precPadOf v := by
    unfold precPadOf
    split_ifs
    · exact le_rfl
    · exact le_max_left _ _
  have hcbuf : (v.cbuf.length : ℤ) < 2 ^ 31 := by
    omega
  have hprecPad : (if v.fs.convSpec ≠ .string
      then (asInt (v.fs.prec - v.cbuf.length)).map (max 0) else .ok 0) = .ok (precPadOf v) := by
    unfold precPadOf
    by_cases hs : v.fs.convSpec = .string
    · rw [if_neg (not_not_intro hs), if_pos hs]
    · have hlow := hprec hs
      rw [if_pos hs, if_neg hs, asInt_of_range (by omega) (by omega)]
      rfl
  have hsign : 0 ≤ (if v.signC.isSome then 1 else 0 : ℤ) := by
    split_ifs <;> decide
  generalize hsignLen : (if v.signC.isSome then 1 else 0 : ℤ) = sign at hprefix hsign
  refine ⟨max 0 (width - (prefixText v).length - (payloadText v (precPadOf v)).length), ?_, ?_⟩
  · unfold pads
    rw [hprecPad, hw, hsignLen]
    by_cases h0x : v.need0x.isSome
    · rw [if_pos h0x] at hprefix
      have hpad : (width : ℤ) - v.cbuf.length - sign - 2 - precPadOf v =
          width - (prefixText v).length - (payloadText v (precPadOf v)).length := by
        omega
      simp (disch := omega) only [if_pos h0x, asInt_of_range, bind, Except.bind, hpad]
      rfl
    · rw [if_neg h0x] at hprefix
      have hpad : (width : ℤ) - v.cbuf.length - sign - precPadOf v =
          width - (prefixText v).length - (payloadText v (precPadOf v)).length := by
        omega
      simp (disch := omega) only [if_neg h0x, asInt_of_range, bind, Except.bind, hpad]
      rfl
  · omega

end Field

/-! ## The payload of the numbers -/

section Numbers

variable {v : Converted} {val base caseAdj : ℕ} {precision : Option ℕ} {ds : List Char}

theorem payloadText_digits (hs : v.fs.convSpec ≠ .string) (hcbuf : v.cbuf.reverse = ds)
    {n : ℕ} (hprec : v.fs.prec.toNat = n) :
    payloadText v (precPadOf v) = List.leftpad n '0' ds := by
  have hlen : v.cbuf.length = ds.length := by
    rw [← hcbuf, List.length_reverse]
  unfold payloadText precPadOf List.leftpad
  rw [if_neg hs, if_neg hs, hcbuf, hlen,
    show (max 0 (v.fs.prec - ds.length)).toNat = n - ds.length by omega]

theorem digits_of_zero (hval : val = 0) (hprec : precision = some 0) :
    digits base val precision = [] := if_pos ⟨hval, hprec⟩

theorem digits_of_not (h : ¬(val = 0 ∧ precision = some 0)) :
    digits base val precision = List.leftpad (precision.getD 0) '0' (Nat.toDigits base val) := if_neg h

theorem octalAlt_of_head (h : ds.head? = some '0') (alt : Bool) : octalAlt alt ds = ds :=
  if_neg fun hne => hne.2 h

theorem octalAlt_zero (alt : Bool) (h : precision ≠ some 0) :
    octalAlt alt (digits 8 0 precision) = digits 8 0 precision := by
  apply octalAlt_of_head
  rw [digits_of_not fun hzero => h hzero.2, Nat.toDigits_zero, List.leftpad]
  cases precision.getD 0 - ['0'].length with
  | zero => rfl
  | succ n => rfl

/-- A 0 in front of the digits, which only counts if there is none already. -/
theorem octalAlt_digits (hval : val ≠ 0) (precision : Option ℕ) :
    octalAlt true (digits 8 val precision) =
      List.leftpad (precision.getD 0) '0' ('0' :: Nat.toDigits 8 val) := by
  have hhead := head_toDigits_ne (b := 8) (by decide) (by decide) (Nat.pos_of_ne_zero hval)
  rw [digits_of_not fun h => hval h.1, List.leftpad, List.leftpad, List.length_cons]
  by_cases hlong : precision.getD 0 ≤ (Nat.toDigits 8 val).length
  · rw [Nat.sub_eq_zero_of_le hlong, Nat.sub_eq_zero_of_le (by omega), List.replicate_zero,
      List.nil_append, List.nil_append]
    exact if_pos ⟨rfl, hhead⟩
  · obtain ⟨k, hk⟩ : ∃ k, precision.getD 0 - (Nat.toDigits 8 val).length = k + 1 :=
      ⟨precision.getD 0 - (Nat.toDigits 8 val).length - 1, by omega⟩
    rw [hk, show precision.getD 0 - ((Nat.toDigits 8 val).length + 1) = k by omega,
      octalAlt_of_head (by rw [List.replicate_succ]; rfl), List.replicate_succ', List.append_assoc]
    rfl

end Numbers

/-! ## The conversions -/

section Conversions

/-- The converted argument `v` stands for the given prefix and body. -/
structure Converts (fs : FormatSpec) (rest : List Arg) (pre body : List Char) (v : Converted) :
    Prop where
  same : ∃ p : ℤ, p < 2 ^ 31 ∧ v.fs = { fs with prec := p }
  low : fs.convSpec ≠ .string → -2 ^ 31 ≤ v.fs.prec - v.cbuf.length
  args : v.args = rest
  one : v.signC = none ∨ v.need0x = none
  string : fs.convSpec = .string → v.signC = none
  pre : prefixText v = pre
  body : payloadText v (precPadOf v) = body

/-- The specifier has the given precision; without one, a negative number may be left. -/
structure HasPrecision (fs : FormatSpec) (precision : Option ℕ) : Prop where
  opt : fs.precOpt = if precision.isSome then .literal else .none
  given : ∀ n, precision = some n → fs.prec = n
  omitted : precision = none → fs.prec ≤ 0
  lt : fs.prec < 2 ^ 31
  low : fs.convSpec ≠ .string → -2 ^ 31 + (conversionBufferSize : ℤ) ≤ fs.prec

variable {fs : FormatSpec} {args : List Arg} {a : Word × List Arg} {precision : Option ℕ}

theorem HasPrecision.toNat_prec (h : HasPrecision fs precision) :
    fs.prec.toNat = precision.getD 0 := by
  cases hp : precision with
  | none =>
    have hle := h.omitted hp
    change _ = 0
    omega
  | some n => rw [h.given n hp, Int.toNat_natCast, Option.getD_some]

theorem HasPrecision.same (h : HasPrecision fs precision) :
    ∃ p : ℤ, p < 2 ^ 31 ∧ fs = { fs with prec := p } := ⟨fs.prec, h.lt, rfl⟩

/-- No conversion leaves the buffer, so that `fs.prec - cbuf_len` does not overflow. -/
theorem HasPrecision.low_sub (h : HasPrecision fs precision) {cbuf : List Char}
    (hcbuf : cbuf.length ≤ conversionBufferSize) (hs : fs.convSpec ≠ .string) :
    -2 ^ 31 ≤ fs.prec - cbuf.length := by
  have hlow := h.low hs
  omega

theorem HasPrecision.converts (h : HasPrecision fs precision) (hs : fs.convSpec ≠ .string)
    {v : Converted} {rest : List Arg} {pre body : List Char} (hfs : v.fs = fs) (hargs : v.args = rest)
    (hcbuf : v.cbuf.length ≤ conversionBufferSize) (hone : v.signC = none ∨ v.need0x = none)
    (hpre : prefixText v = pre) (hbody : payloadText v (precPadOf v) = body) :
    Converts fs rest pre body v where
  same := hfs ▸ h.same
  low := hfs ▸ h.low_sub hcbuf
  args := hargs
  one := hone
  string hstring := absurd hstring hs
  pre := hpre
  body := hbody

theorem HasPrecision.noDigits_iff (h : HasPrecision fs precision) {i : ℤ} :
    noDigits fs i ↔ i = 0 ∧ precision = some 0 := by
  unfold noDigits
  rw [h.opt]
  cases hp : precision with
  | none => simp
  | some n =>
    rw [h.given n hp]
    simp

theorem convertSigned_meaning (h : HasPrecision fs precision) (hconv : fs.convSpec = .signedInt)
    (ha : takeWord args = some a) : ∃ v, convertSigned fs args = .ok v ∧
      Converts fs a.2 (if extractSigned a.1 fs.lengthModifier < 0 then ['-'] else fs.prepend.toList)
        (digits 10 (extractSigned a.1 fs.lengthModifier).natAbs precision) v := by
  have habs := natAbs_extractSigned_le a.1 fs.lengthModifier
  have hdigits := npfItoaRev_bounds habs
  have hiff := h.noDigits_iff (i := extractSigned a.1 fs.lengthModifier)
  have hs : fs.convSpec ≠ .string := by
    rw [hconv]
    decide
  generalize hval : extractSigned a.1 fs.lengthModifier = val at habs hdigits hiff ⊢
  have hlen : (revDigits 10 val.natAbs).length ≤ conversionBufferSize := by
    apply length_revDigits_le (by decide) (by decide)
    exact Nat.lt_of_le_of_lt habs (by decide)
  obtain ⟨cbuf, hcbuf, hcbufLen, hbody⟩ : ∃ cbuf,
      (if noDigits fs val then .ok [] else npfItoaRev conversionBufferSize val) = .ok cbuf ∧
      cbuf.length ≤ conversionBufferSize ∧
      List.leftpad (precision.getD 0) '0' cbuf.reverse = digits 10 val.natAbs precision := by
    by_cases hnone : noDigits fs val
    · obtain ⟨hzero, hprec⟩ := hiff.mp hnone
      refine ⟨[], if_pos hnone, Nat.zero_le _, ?_⟩
      rw [digits_of_zero (Int.natAbs_eq_zero.mpr hzero) hprec, hprec]
      rfl
    · refine ⟨_, (if_neg hnone).trans hdigits, by rwa [List.length_map], ?_⟩
      rw [map_revDigits (f := id) (by decide) (digitText_decimal 0), List.map_id, digits_of_not]
      rwa [Int.natAbs_eq_zero, ← hiff]
  refine ⟨⟨fs, a.2, cbuf, if val < 0 then some '-' else fs.prepend, none, decide (val = 0)⟩, ?_, ?_⟩
  · unfold convertSigned
    rw [vaArg_of_takeWord ha]
    simp only [bind, Except.bind, hval, hcbuf]
    rfl
  · refine h.converts hs rfl rfl hcbufLen (Or.inr rfl) ?_ ?_
    · unfold prefixText
      split_ifs
      · rfl
      · exact List.append_nil _
    · rw [← hbody]
      exact payloadText_digits hs rfl h.toNat_prec

def unsignedDigits (fs : FormatSpec) (val : ℕ) : List Char :=
  if noDigits fs val then []
  else (revDigits (baseOf fs.convSpec) val).map (digitText fs.caseAdjust)

theorem length_unsignedDigits_lt {val : ℕ} (hlt : val < 2 ^ 64) :
    (unsignedDigits fs val).length < conversionBufferSize := by
  unfold unsignedDigits
  split_ifs
  · decide
  · rw [List.length_map]
    exact (npfUtoaRev_bounds fs.caseAdjust (eight_le_baseOf fs.convSpec) hlt).2

theorem convertUnsigned_eq (ha : takeWord args = some a) {val : ℕ}
    (hval : extractUnsigned a.1 fs.lengthModifier = val) :
    convertUnsigned fs args = .ok
      ⟨if noDigits fs val ∧ fs.convSpec = .octal ∧ fs.altForm then { fs with prec := 1 } else fs, a.2,
        if val ≠ 0 ∧ fs.altForm ∧ fs.convSpec = .octal then unsignedDigits fs val ++ ['0']
        else unsignedDigits fs val, none,
        if val ≠ 0 ∧ fs.altForm ∧ fs.convSpec = .hexInt
        then some (Char.ofNat ('X'.toNat + fs.caseAdjust)) else none, decide (val = 0)⟩ := by
  have hlt : val < 2 ^ 64 := by
    rw [← hval]
    exact extractUnsigned_lt a.1 fs.lengthModifier
  obtain ⟨hdigits, -⟩ := npfUtoaRev_bounds fs.caseAdjust (eight_le_baseOf fs.convSpec) hlt
  have hcbuf : (if noDigits fs val then .ok []
      else npfUtoaRev (baseOf fs.convSpec) fs.caseAdjust conversionBufferSize val) =
        .ok (unsignedDigits fs val) := by
    unfold unsignedDigits
    split_ifs
    · rfl
    · exact hdigits
  have hstore : storeChar (unsignedDigits fs val) '0' = .ok (unsignedDigits fs val ++ ['0']) :=
    if_pos (length_unsignedDigits_lt hlt)
  unfold convertUnsigned
  rw [vaArg_of_takeWord ha]
  simp only [bind, Except.bind, hval, hcbuf]
  by_cases hspecial : noDigits fs val ∧ fs.convSpec = .octal ∧ fs.altForm = true
  · simp only [if_pos hspecial]
    by_cases hoctal : val ≠ 0 ∧ fs.altForm = true ∧ fs.convSpec = .octal
    · simp only [if_pos hoctal, hstore]
      rfl
    · simp only [if_neg hoctal]
      rfl
  · simp only [if_neg hspecial]
    by_cases hoctal : val ≠ 0 ∧ fs.altForm = true ∧ fs.convSpec = .octal
    · simp only [if_pos hoctal, hstore]
      rfl
    · simp only [if_neg hoctal]
      rfl

theorem payload_unsigned (h : HasPrecision fs precision) (hs : fs.convSpec ≠ .string) {val : ℕ}
    {f : Char → Char} (hzero : f '0' = '0')
    (hf : ∀ d < baseOf fs.convSpec, digitText fs.caseAdjust d = f d.digitChar)
    {v : Converted} (hv : v.fs = fs) (hcbuf : v.cbuf = unsignedDigits fs val) :
    payloadText v (precPadOf v) = (digits (baseOf fs.convSpec) val precision).map f := by
  have hbase : 1 < baseOf fs.convSpec := by
    have := eight_le_baseOf fs.convSpec
    omega
  have hpayload : payloadText v (precPadOf v) =
      List.leftpad (precision.getD 0) '0' (unsignedDigits fs val).reverse :=
    payloadText_digits (hv ▸ hs) (by rw [hcbuf]) (hv ▸ h.toNat_prec)
  rw [hpayload]
  have hiff := h.noDigits_iff (i := (val : ℤ))
  unfold unsignedDigits
  by_cases hnone : noDigits fs val
  · obtain ⟨hval, hprec⟩ := hiff.mp hnone
    rw [if_pos hnone, digits_of_zero (Int.natCast_eq_zero.mp hval) hprec, hprec]
    rfl
  · have hnot : ¬(val = 0 ∧ precision = some 0) := by
      rwa [← Int.natCast_eq_zero, ← hiff]
    rw [if_neg hnone, map_revDigits hbase hf, digits_of_not hnot, List.leftpad, List.leftpad,
      List.map_append, List.map_replicate, hzero, List.length_map]

theorem convertUnsigned_meaning (h : HasPrecision fs precision) (hs : fs.convSpec ≠ .string)
    (hoctal : fs.convSpec ≠ .octal) (ha : takeWord args = some a) {val : ℕ}
    (hval : extractUnsigned a.1 fs.lengthModifier = val) {f : Char → Char} (hzero : f '0' = '0')
    (hf : ∀ d < baseOf fs.convSpec, digitText fs.caseAdjust d = f d.digitChar) :
    ∃ v, convertUnsigned fs args = .ok v ∧ Converts fs a.2
      (if val ≠ 0 ∧ fs.altForm ∧ fs.convSpec = .hexInt
        then ['0', Char.ofNat ('X'.toNat + fs.caseAdjust)] else [])
      ((digits (baseOf fs.convSpec) val precision).map f) v := by
  have heq := convertUnsigned_eq ha hval
  rw [if_neg fun hspecial => hoctal hspecial.2.1, if_neg fun hspecial => hoctal hspecial.2.2] at heq
  have hlen := @length_unsignedDigits_lt fs _ (hval ▸ extractUnsigned_lt a.1 fs.lengthModifier)
  refine ⟨_, heq, h.converts hs rfl rfl hlen.le (Or.inl rfl) ?_ ?_⟩
  · unfold prefixText
    split_ifs
    · rfl
    · rfl
  · exact payload_unsigned h hs hzero hf rfl rfl

theorem convertHex_meaning (h : HasPrecision fs precision) (hconv : fs.convSpec = .hexInt)
    (ha : takeWord args = some a) {x : Char} (hx : Char.ofNat ('X'.toNat + fs.caseAdjust) = x)
    {f : Char → Char} (hzero : f '0' = '0')
    (hf : ∀ d < 16, digitText fs.caseAdjust d = f d.digitChar) :
    ∃ v, convertUnsigned fs args = .ok v ∧ Converts fs a.2
      (if fs.altForm ∧ extractUnsigned a.1 fs.lengthModifier ≠ 0 then ['0', x] else [])
      ((digits 16 (extractUnsigned a.1 fs.lengthModifier) precision).map f) v := by
  have hbase : baseOf fs.convSpec = 16 := by
    rw [hconv]
    rfl
  obtain ⟨v, hv, hmeaning⟩ := convertUnsigned_meaning h (by rw [hconv]; decide) (by rw [hconv]; decide)
    ha rfl hzero (by rwa [hbase])
  refine ⟨v, hv, ?_⟩
  rw [hbase, hx] at hmeaning
  have hpre : (fs.altForm = true ∧ extractUnsigned a.1 fs.lengthModifier ≠ 0) ↔
      extractUnsigned a.1 fs.lengthModifier ≠ 0 ∧ fs.altForm = true ∧ fs.convSpec = .hexInt :=
    ⟨fun hne => ⟨hne.2, hne.1, hconv⟩, fun hne => ⟨hne.2.1, hne.1⟩⟩
  rwa [if_congr hpre rfl rfl]

theorem convertOctal_meaning (h : HasPrecision fs precision) (hconv : fs.convSpec = .octal)
    (hadjust : fs.caseAdjust = 'a'.toNat - 'A'.toNat) (ha : takeWord args = some a) {val : ℕ}
    (hval : extractUnsigned a.1 fs.lengthModifier = val) :
    ∃ v, convertUnsigned fs args = .ok v ∧ Converts fs a.2 []
      (octalAlt fs.altForm (digits 8 val precision)) v := by
  have heq := convertUnsigned_eq ha hval
  have hs : fs.convSpec ≠ .string := by
    rw [hconv]
    decide
  have hbase : baseOf fs.convSpec = 8 := by
    rw [hconv]
    rfl
  have hf : ∀ d < baseOf fs.convSpec, digitText fs.caseAdjust d = id d.digitChar := by
    intro d hd
    rw [hadjust]
    exact digitText_lower d (by omega)
  rw [if_neg (c := val ≠ 0 ∧ fs.altForm = true ∧ fs.convSpec = .hexInt)
    fun hhex => by simp [hconv] at hhex] at heq
  have hdigits : digits 8 val precision = (digits (baseOf fs.convSpec) val precision).map id := by
    rw [hbase, List.map_id]
  have hlen := @length_unsignedDigits_lt fs _ (hval ▸ extractUnsigned_lt a.1 fs.lengthModifier)
  have hiff := h.noDigits_iff (i := (val : ℤ))
  rw [Int.natCast_eq_zero] at hiff
  by_cases hzero : val = 0
  · rw [if_neg (c := val ≠ 0 ∧ fs.altForm = true ∧ fs.convSpec = .octal) fun hne => hne.1 hzero] at heq
    by_cases hspecial : noDigits fs val ∧ fs.convSpec = .octal ∧ fs.altForm = true
    · -- the octal special case: nothing is in the buffer, and the precision is 1
      have hnone := hspecial.1
      have hcbuf : unsignedDigits fs val = [] := if_pos hnone
      rw [if_pos hspecial, hcbuf] at heq
      refine ⟨_, heq, ⟨1, by decide, rfl⟩, fun _ => by simp, rfl, Or.inl rfl, fun _ => rfl, rfl, ?_⟩
      rw [hspecial.2.2, digits_of_zero hzero (hiff.mp hnone).2]
      exact payloadText_digits (n := 1) hs rfl rfl
    · rw [if_neg hspecial] at heq
      refine ⟨_, heq, h.converts hs rfl rfl hlen.le (Or.inl rfl) rfl ?_⟩
      have hbody : octalAlt fs.altForm (digits 8 val precision) = digits 8 val precision := by
        cases halt : fs.altForm with
        | false => exact if_neg fun hne => Bool.false_ne_true hne.1
        | true =>
          rw [hzero]
          apply octalAlt_zero
          intro hprec
          exact hspecial ⟨hiff.mpr ⟨hzero, hprec⟩, hconv, halt⟩
      rw [hbody, hdigits]
      exact payload_unsigned h hs rfl hf rfl rfl
  · have hnone : ¬ noDigits fs val := fun hnone => hzero (hiff.mp hnone).1
    rw [if_neg fun hspecial => hnone hspecial.1] at heq
    cases halt : fs.altForm with
    | false =>
      rw [if_neg fun hne => by simp [halt] at hne] at heq
      refine ⟨_, heq, h.converts hs rfl rfl hlen.le (Or.inl rfl) rfl ?_⟩
      rw [hdigits]
      exact payload_unsigned h hs rfl hf rfl rfl
    | true =>
      rw [if_pos ⟨hzero, halt, hconv⟩] at heq
      have hstored : (unsignedDigits fs val ++ ['0']).length ≤ conversionBufferSize := by
        rw [List.length_append]
        exact hlen
      refine ⟨_, heq, h.converts hs rfl rfl hstored (Or.inl rfl) rfl ?_⟩
      rw [octalAlt_digits hzero]
      apply payloadText_digits hs _ h.toNat_prec
      rw [List.reverse_append, unsignedDigits, if_neg hnone, map_revDigits (by omega) hf, List.map_id,
        hbase]
      rfl

/-- What a precision leaves of a text, `n` characters of which are passed. -/
def shortened (precision : Option ℕ) (n : ℕ) (t : List Char) : List Char :=
  precision.elim t fun p => t.take (p - n)

theorem shortened_nil (precision : Option ℕ) (n : ℕ) : shortened precision n [] = [] := by
  cases precision with
  | none => rfl
  | some p => exact List.take_nil

theorem shortened_cons {n : ℕ} (hmore : ∀ p, precision = some p → n < p) (ch : Char)
    (t : List Char) : shortened precision n (ch :: t) = ch :: shortened precision (n + 1) t := by
  cases precision with
  | none => rfl
  | some p =>
    have hp := hmore p rfl
    change (ch :: t).take (p - n) = ch :: t.take (p - (n + 1))
    rw [show p - n = p - (n + 1) + 1 by omega, List.take_succ_cons]

theorem shortened_done {n p : ℕ} (hp : precision = some p) (hle : p ≤ n) (t : List Char) :
    shortened precision n t = [] := by
  rw [hp]
  change t.take (p - n) = []
  rw [Nat.sub_eq_zero_of_le hle, List.take_zero]

theorem HasPrecision.more_iff (h : HasPrecision fs precision) {n : ℕ} :
    (fs.precOpt = .none ∨ (n : ℤ) < fs.prec) ↔ ∀ p, precision = some p → n < p := by
  rw [h.opt]
  cases hp : precision with
  | none => simp
  | some p =>
    rw [h.given p hp]
    simp

/-- The characters of a string that a precision leaves. -/
theorem countString_eq (h : HasPrecision fs precision) (s : List Char) (n : ℕ)
    (hlt : n + (shortened precision n (s.takeWhile (· ≠ nul))).length < 2 ^ 31) :
    countString fs (s ++ [nul]) n = .ok (shortened precision n (s.takeWhile (· ≠ nul))) := by
  induction s generalizing n with
  | nil =>
    rw [List.nil_append, countString, List.takeWhile_nil, shortened_nil, if_pos rfl, ite_self]
  | cons ch s ih =>
    rw [List.cons_append, countString]
    by_cases hmore : fs.precOpt = .none ∨ (n : ℤ) < fs.prec
    · rw [if_pos hmore]
      by_cases hnul : ch = nul
      · rw [if_pos hnul, List.takeWhile_cons_of_neg (by simpa using hnul), shortened_nil]
      · rw [List.takeWhile_cons_of_pos (by simpa using hnul),
          shortened_cons (h.more_iff.mp hmore)] at hlt ⊢
        rw [List.length_cons] at hlt
        rw [if_neg hnul, asInt_of_range (by omega) (by omega)]
        change (countString fs (s ++ [nul]) (n + 1 : ℕ) >>= _) = _
        rw [ih (n + 1) (by omega)]
        rfl
    · rw [if_neg hmore]
      rw [h.more_iff] at hmore
      push Not at hmore
      obtain ⟨p, hp, hle⟩ := hmore
      rw [shortened_done hp hle]

theorem vaArgString_of_takeString {a : List Char × List Arg} (h : takeString args = some a) :
    ∃ s, vaArgString args = .ok (s ++ [nul], a.2) ∧ s.takeWhile (· ≠ nul) = a.1 := by
  unfold takeString at h
  split at h
  · cases h
    exact ⟨_, rfl, rfl⟩
  · cases h

theorem Converts.single (h : HasPrecision fs none) (hs : fs.convSpec ≠ .string)
    (rest : List Arg) (ch : Char) :
    Converts fs rest [] [ch] { fs := fs, args := rest, cbuf := [ch] } :=
  h.converts hs rfl rfl (show 1 ≤ 23 by decide) (Or.inl rfl) rfl
    (payloadText_digits (n := 0) hs rfl h.toNat_prec)

theorem convertString_meaning (h : HasPrecision fs precision) (hconv : fs.convSpec = .string)
    {a : List Char × List Arg} (ha : takeString args = some a)
    (hlt : (precision.elim a.1 a.1.take).length < 2 ^ 31) :
    ∃ v, convert fs args = .ok v ∧ Converts fs a.2 [] (precision.elim a.1 a.1.take) v := by
  obtain ⟨s, hva, hs⟩ := vaArgString_of_takeString ha
  have hcount := countString_eq h s 0
  rw [hs, Nat.zero_add, Nat.cast_zero] at hcount
  change _ → _ = Except.ok (precision.elim a.1 a.1.take) at hcount
  refine ⟨{ fs := fs, args := a.2, cbuf := precision.elim a.1 a.1.take }, ?_, h.same,
    fun hne => absurd hconv hne, rfl, Or.inl rfl, fun _ => rfl, rfl, ?_⟩
  · unfold convert
    rw [hconv]
    dsimp only
    rw [hva]
    simp only [bind, Except.bind, hcount hlt]
    rfl
  · exact if_pos hconv

theorem convertPointer_meaning (h : HasPrecision fs none) (hconv : fs.convSpec = .pointer)
    (ha : takeWord args = some a) : ∃ v, convert fs args = .ok v ∧
      Converts fs a.2 ['0', 'x'] (digits 16 a.1.toNat none) v := by
  obtain ⟨hdigits, hlen⟩ :=
    npfUtoaRev_bounds ('a'.toNat - 'A'.toNat) (show 8 ≤ 16 by decide) a.1.isLt
  have hs : fs.convSpec ≠ .string := by
    rw [hconv]
    decide
  refine ⟨⟨fs, a.2, (revDigits 16 a.1.toNat).map (digitText ('a'.toNat - 'A'.toNat)), none, some 'x',
    false⟩, ?_, h.converts hs rfl rfl (by rw [List.length_map]; exact hlen.le) (Or.inl rfl) rfl ?_⟩
  · unfold convert
    rw [hconv]
    dsimp only
    rw [vaArg_of_takeWord ha]
    simp only [bind, Except.bind, hdigits]
    rfl
  · rw [digits_of_not (by simp)]
    apply payloadText_digits hs _ h.toNat_prec
    rw [map_revDigits (f := id) (by decide) digitText_lower, List.map_id]

end Conversions

/-! ## The field of a directive -/

section Field

variable {d : Directive} {args args₁ args₂ rest : List Arg} {left : Bool} {width : ℕ}
  {precision : Option ℤ} {pre body : List Char}

theorem resolved_hasPrecision (hd : d.Standard)
    (h : d.precisionArg args₁ = some (precision, args₂)) (left : Bool) (width : ℕ)
    (hlow : d.conv ≠ .s → ∀ n ∈ precision, -2 ^ 31 + (conversionBufferSize : ℤ) ≤ n) :
    HasPrecision (d.resolved left width precision) (effectivePrecision precision) where
  opt := rfl
  given n hn := by
    obtain ⟨m, rfl, hm⟩ := Option.bind_eq_some_iff.mp hn
    exact Int.mem_toNat?.mp hm
  omitted hn := by
    cases precision with
    | none => exact le_rfl
    | some m =>
      have hneg := isSome_effectivePrecision m
      rw [hn] at hneg
      exact (not_le.mp (of_decide_eq_false hneg.symm)).le
  lt := by
    cases precision with
    | none => exact show (0 : ℤ) < 2 ^ 31 by decide
    | some m =>
      unfold Directive.precisionArg at h
      cases hp : d.precision with
      | none => simp [hp] at h
      | some a =>
        rw [hp] at h
        cases a with
        | literal n =>
          cases h
          have hlt := hd.precision n hp
          change (n : ℤ) < 2 ^ 31
          omega
        | star =>
          obtain ⟨a, harg, hresult⟩ := Option.map_eq_some_iff.mp h
          cases hresult
          obtain ⟨w, -, hvalue⟩ := vaArg_of_takeInt harg
          exact hvalue ▸ BitVec.toInt_lt (x := w.setWidth 32)
  low hs := by
    cases precision with
    | none => exact show -2 ^ 31 + (conversionBufferSize : ℤ) ≤ 0 by decide
    | some m =>
      apply hlow _ m rfl
      intro hconv
      apply hs
      unfold Directive.resolved
      rw [hconv]
      rfl

theorem convertInteger_meaning {conv : IntSpecifier} {prec : Option ℕ} {a : Word × List Arg}
    (h : HasPrecision (d.resolved left width precision) prec) (hconv : d.conv = .int conv)
    (ha : takeWord args = some a) : ∃ v, convert (d.resolved left width precision) args = .ok v ∧
      Converts (d.resolved left width precision) a.2 (d.integer prec a.1 conv).1
        (d.integer prec a.1 conv).2 v := by
  have hspec : (d.resolved left width precision).convSpec = conv.conversion := by
    unfold Directive.resolved
    rw [hconv]
    rfl
  have hadjust : d.conv ≠ .int .upperX →
      (d.resolved left width precision).caseAdjust = 'a'.toNat - 'A'.toNat := fun h => if_neg h
  unfold convert
  rw [hspec]
  cases conv with
  | d => exact convertSigned_meaning h hspec ha
  | i => exact convertSigned_meaning h hspec ha
  | o => exact convertOctal_meaning h hspec (hadjust (by simp [hconv])) ha rfl
  | u =>
    have hmeaning := convertUnsigned_meaning h (by rw [hspec]; decide) (by rw [hspec]; decide) ha rfl
      (f := id) rfl (by
        rw [hspec, hadjust (by simp [hconv])]
        exact digitText_decimal _)
    rwa [hspec, List.map_id, if_neg fun hne => by simp [IntSpecifier.conversion] at hne] at hmeaning
  | x =>
    have hadjust := hadjust (by simp [hconv])
    have hmeaning := convertHex_meaning h hspec ha (x := 'x') (f := id) (by rw [hadjust]; rfl) rfl (by
      rw [hadjust]
      exact digitText_lower)
    rwa [List.map_id] at hmeaning
  | upperX =>
    have hadjust : (d.resolved left width precision).caseAdjust = 0 := if_pos hconv
    apply convertHex_meaning h hspec ha
    · rw [hadjust]
      rfl
    · decide
    · rw [hadjust]
      exact digitText_upper

theorem convert_resolved (hd : d.Standard) (hp : d.precisionArg args₁ = some (precision, args₂))
    (h : HasPrecision (d.resolved left width precision) (effectivePrecision precision))
    (hb : d.body (effectivePrecision precision) args₂ = some ((pre, body), rest))
    (hlt : body.length < 2 ^ 31) :
    ∃ v, convert (d.resolved left width precision) args₂ = .ok v ∧
      Converts (d.resolved left width precision) rest pre body v := by
  have hspec : (d.resolved left width precision).convSpec = d.conv.conversion := rfl
  have hnone : (¬ ∃ conv, d.conv = .int conv) → d.conv ≠ .s → precision = none := by
    intro hint hs
    have hnone : d.precision = none := by
      by_contra hsome
      exact (hd.counted hsome).elim hint hs
    unfold Directive.precisionArg at hp
    rw [hnone] at hp
    cases hp
    rfl
  unfold Directive.body at hb
  cases hconv : d.conv with
  | int conv =>
    rw [hconv] at hb
    obtain ⟨a, ha, hresult⟩ := Option.map_eq_some_iff.mp hb
    obtain ⟨hfield, rfl⟩ := Prod.mk.inj hresult
    have hmeaning := convertInteger_meaning h hconv ha
    rwa [hfield] at hmeaning
  | c =>
    obtain rfl := hnone (by simp [hconv]) (by simp [hconv])
    rw [hconv] at hb hspec
    obtain ⟨a, ha, hresult⟩ := Option.map_eq_some_iff.mp hb
    cases hresult
    refine ⟨_, ?_, Converts.single h (by rw [hspec]; decide) a.2 _⟩
    unfold convert
    rw [hspec]
    change (vaArg args₂ >>= _) = _
    rw [vaArg_of_takeWord ha]
    rfl
  | s =>
    rw [hconv] at hb hspec
    obtain ⟨a, ha, hresult⟩ := Option.map_eq_some_iff.mp hb
    cases hresult
    exact convertString_meaning h hspec ha hlt
  | p =>
    obtain rfl := hnone (by simp [hconv]) (by simp [hconv])
    rw [hconv] at hb hspec
    obtain ⟨a, ha, hresult⟩ := Option.map_eq_some_iff.mp hb
    cases hresult
    exact convertPointer_meaning h hspec ha
  | percent =>
    obtain rfl := hnone (by simp [hconv]) (by simp [hconv])
    rw [hconv] at hb hspec
    cases hb
    refine ⟨_, ?_, Converts.single h (by rw [hspec]; decide) args₂ '%'⟩
    unfold convert
    rw [hspec]
    rfl

theorem resolved_widthOpt (h : d.fieldWidth args = some (left, width, args₁))
    (precision : Option ℤ) :
    (d.resolved left width precision).fieldWidthOpt = .literal ∨
      (d.resolved left width precision).fieldWidthOpt = .none ∧ width = 0 := by
  unfold Directive.fieldWidth at h
  unfold Directive.resolved
  cases hw : d.width with
  | none =>
    rw [hw] at h
    cases h
    exact Or.inr ⟨rfl, rfl⟩
  | some a => exact Or.inl rfl

/-- Zeros fill the field of a number on the right that has no precision. -/
theorem resolved_zero (hd : d.Standard) (hzero : Flag.zero ∈ d.flags →
      (left || (effectivePrecision precision).isSome) = (d.leftFlag || d.precision.isSome)) :
    (d.resolved left width precision).leadingZeroPad =
        (d.zeroFlag && !(left || (effectivePrecision precision).isSome)) ∧
      ((d.resolved left width precision).leadingZeroPad = true →
        (∃ conv : IntSpecifier, d.conv.conversion = conv.conversion) ∧
          left = false ∧ effectivePrecision precision = none) := by
  have hpad : (d.resolved left width precision).leadingZeroPad =
      (d.zeroFlag && !(left || (effectivePrecision precision).isSome)) := by
    unfold Directive.resolved
    dsimp only
    by_cases hflag : Flag.zero ∈ d.flags
    · rw [hzero hflag]
    · rw [show d.zeroFlag = false from decide_eq_false hflag]
      rfl
  refine ⟨hpad, fun h => ?_⟩
  rw [hpad, Bool.and_eq_true, Bool.not_eq_true', Bool.or_eq_false_iff, Option.isSome_eq_false_iff,
    Option.isNone_iff_eq_none] at h
  obtain ⟨conv, hconv⟩ := hd.zero (of_decide_eq_true h.1)
  exact ⟨⟨conv, congrArg Specifier.conversion hconv⟩, h.2⟩

/-- What the field is filled with: zeros do not count on the left. -/
theorem justify_zeros (left zero : Bool) (prec : Option ℕ) :
    justify left (zero && !(left || prec.isSome)) width pre body =
      justify left (zero && prec.isNone) width pre body := by
  cases left with
  | true => rfl
  | false =>
    cases prec with
    | none => rfl
    | some n => rfl

theorem convertField_spec (hd : d.Standard) (hsupports : d.Supports args) {t : List Char}
    (h : d.meaning args = some (t, rest)) (hlt : t.length < 2 ^ 31) :
    ∃ v precPad fieldPad, convertField d.spec args = .ok (v, precPad, fieldPad) ∧
      v.args = rest ∧ fieldText v precPad fieldPad = t := by
  unfold Directive.meaning at h
  obtain ⟨⟨left, width, args₁⟩, hwidth, h⟩ := Option.bind_eq_some_iff.mp h
  obtain ⟨⟨precision, args₂⟩, hprecision, h⟩ := Option.bind_eq_some_iff.mp h
  obtain ⟨⟨⟨pre, body⟩, rest'⟩, hbody, h⟩ := Option.map_eq_some_iff.mp h
  cases h
  obtain ⟨hzero, hlow⟩ := hsupports _ hwidth _ hprecision
  have hmax := length_justify left (d.zeroFlag && (effectivePrecision precision).isNone) width pre body
  dsimp only at hlt hzero hlow hprecision hbody
  have hwidthLt : width < 2 ^ 31 := by
    omega
  have hbodyLt : pre.length + body.length < 2 ^ 31 := by
    omega
  have hprec := resolved_hasPrecision hd hprecision left width hlow
  obtain ⟨v, hv, hconverts⟩ := convert_resolved hd hprecision hprec hbody (by omega)
  obtain ⟨p, hp, hfs⟩ := hconverts.same
  have hfw : v.fs.fieldWidth = width := by
    rw [hfs]
    rfl
  have hspec : v.fs.convSpec = (d.resolved left width precision).convSpec := by
    rw [hfs]
  obtain ⟨fieldPad, hpads, hpad⟩ := pads_eq hfw hwidthLt (fun hs => hconverts.low (hspec ▸ hs))
    (by rw [hfs]; exact hp) (by rwa [hconverts.pre, hconverts.body])
  refine ⟨v, precPadOf v, fieldPad, ?_, hconverts.args, ?_⟩
  · unfold convertField
    rw [starWidth_spec hwidth hwidthLt]
    change (starPrec _ args₁ >>= _) = _
    rw [starPrec_spec hd hprecision rfl]
    change (convert _ args₂ >>= _) = _
    rw [hv]
    change (pads v >>= _) = _
    rw [hpads]
    rfl
  · obtain ⟨hzeros, hfill⟩ := @resolved_zero d left width precision hd hzero
    have htext := fieldText_eq (by rw [hfs]; exact resolved_widthOpt hwidth precision)
      (fun hleft => ?_) (fun hz => ?_) hconverts.one (fun hs => hconverts.string (hspec ▸ hs)) hpad
    · rw [htext, hconverts.pre, hconverts.body, hfs]
      change justify left (d.resolved left width precision).leadingZeroPad width pre body = _
      rw [hzeros]
      exact justify_zeros left d.zeroFlag _
    · rw [hfs] at hleft ⊢
      change left = true at hleft
      change (d.resolved left width precision).leadingZeroPad = false
      rw [hzeros, hleft]
      exact Bool.and_false _
    · rw [hfs] at hz ⊢
      obtain ⟨⟨conv, hconv⟩, -, hnone⟩ := hfill hz
      change d.conv.conversion ≠ _ ∧ d.conv.conversion ≠ _ ∧ d.conv.conversion ≠ _ ∧
        (if (effectivePrecision precision).isSome then FmtSpecOpt.literal else .none) ≠ _
      rw [hconv, hnone]
      cases conv <;> decide

end Field

/-! ## The whole format -/

section Format

variable {σ : Type} (pc : Char → σ → σ) {ps : List Piece} {args : List Arg} {t : List Char}

theorem vpprintfLoop_meaning (hps : ∀ p ∈ ps, p.Standard) (hsupports : FormatSupports ps args)
    (h : formatMeaning ps args = some t) {n : ℤ} (hn : 0 ≤ n) (hlt : n + t.length < 2 ^ 31) (ctx : σ) :
    vpprintfLoop pc (formatChars ps ++ [nul]) args ⟨ctx, n⟩ =
      .ok ⟨t.foldl (fun ctx ch => pc ch ctx) ctx, n + t.length⟩ := by
  induction ps generalizing args t n ctx with
  | nil =>
    cases h
    rw [List.length_nil, Nat.cast_zero, add_zero]
    exact vpprintfLoop_nul pc
  | cons p ps ih =>
    have hrest : ∀ p ∈ ps, p.Standard := fun p hp => hps p (List.mem_cons_of_mem _ hp)
    have hp := hps p List.mem_cons_self
    cases p with
    | plain ch =>
      obtain ⟨t', ht', rfl⟩ := Option.map_eq_some_iff.mp h
      rw [List.length_cons, Nat.cast_succ] at hlt
      have hspec : specifierAt ch (formatChars ps ++ [nul]) = .ok (0, {}) := if_pos hp.1
      change vpprintfLoop pc (ch :: (formatChars ps ++ [nul])) args ⟨ctx, n⟩ = _
      rw [vpprintfLoop_char pc hp.2 hspec, putc_bind, asInt_of_range (by omega) (by omega),
        List.length_cons, Nat.cast_succ, add_comm (t'.length : ℤ), ← add_assoc]
      exact ih hrest hsupports ht' (by omega) (by omega) (pc ch ctx)
    | directive d =>
      obtain ⟨⟨t₁, args₁⟩, hfield, h⟩ := Option.bind_eq_some_iff.mp h
      obtain ⟨t₂, ht₂, rfl⟩ := Option.map_eq_some_iff.mp h
      rw [List.length_append, Nat.cast_add] at hlt
      dsimp only at hlt ht₂
      obtain ⟨v, precPad, fieldPad, hconvert, hargs, htext⟩ :=
        convertField_spec hp hsupports.1 hfield (by omega)
      have hparse := hp.toWritable.parse (formatChars ps ++ [nul])
      have hlen : d.text.length ≠ 0 := Nat.succ_ne_zero _
      change vpprintfLoop pc ((d.text ++ formatChars ps) ++ [nul]) args ⟨ctx, n⟩ = _
      rw [List.append_assoc]
      apply (vpprintfLoop_field pc (show '%' ≠ nul by decide)
        ((if_neg (not_not_intro rfl)).trans hparse) hlen).trans
      rw [hconvert]
      change (putField pc v precPad fieldPad ⟨ctx, n⟩ >>= _) = _
      rw [putField_eq, htext, puts_of_lt pc ctx hn (by omega)]
      change vpprintfLoop pc ((d.text ++ (formatChars ps ++ [nul])).drop d.text.length) v.args _ = _
      rw [List.drop_left, hargs, List.foldl_append, List.length_append, Nat.cast_add, ← add_assoc]
      exact ih hrest (hsupports.2 _ hfield) ht₂ (by omega) (by omega) _

theorem formatted_meaning (hps : ∀ p ∈ ps, p.Standard) (hsupports : FormatSupports ps args)
    (h : formatMeaning ps args = some t) (hlt : t.length < 2 ^ 31) :
    formatted (formatChars ps ++ [nul]) args = .ok t := by
  unfold formatted npfVpprintf
  rw [vpprintfLoop_meaning _ hps hsupports h le_rfl (by omega)]
  simp only [Except.map]
  rw [List.foldl_append_eq_append, List.nil_append, ← List.flatMap_def, List.flatMap_singleton']

theorem nanoprintf_meaning {fmt : String} (hfmt : formatChars ps = fmt.toList)
    (hps : ∀ p ∈ ps, p.Standard) (hsupports : FormatSupports ps args)
    (h : formatMeaning ps args = some t) (hlt : t.length < 2 ^ 31) : nanoprintf fmt args = t := by
  unfold nanoprintf
  rw [← hfmt, formatted_meaning hps hsupports h hlt]

/-- For a format of plain characters and standard directives that support their arguments,
`npf_vpprintf` hands its callback the text that the format means, and returns how long that
text is. -/
theorem npfVpprintf_meaning (hps : ∀ p ∈ ps, p.Standard) (hsupports : FormatSupports ps args)
    (h : formatMeaning ps args = some t) (hlt : t.length < 2 ^ 31) (ctx : σ) :
    npfVpprintf pc ctx (formatChars ps ++ [nul]) args =
      .ok ((t.length : ℤ), t.foldl (fun ctx ch => pc ch ctx) ctx) := by
  unfold npfVpprintf
  rw [vpprintfLoop_meaning pc hps hsupports h le_rfl (by omega) ctx, zero_add]
  rfl

theorem npfVpprintf_meaning_stars : npfVpprintf (fun ch t => t ++ [ch]) []
    (formatChars ("0x".toList.map .plain ++
      [.directive { precision := some (.literal 16), length := .largeLongLong, conv := .int .x },
        .plain ':', .plain ' ',
        .directive { flags := [.plus], width := some .star, conv := .int .d }, .plain '|',
        .directive { flags := [.minus], width := some (.literal 8), precision := some .star,
                     conv := .s }, .plain '|']) ++ [nul])
      [.num 0x7ffe4000, .num (-5), .num 42, .num (-1), .str "PML4"] =
      .ok (35, "0x000000007ffe4000: +42  |PML4    |".toList) := by
  apply npfVpprintf_meaning (t := "0x000000007ffe4000: +42  |PML4    |".toList)
  · decide
  · decide
  · decide
  · decide

/-- `"%0*d"` does not support a negative width: the standard says `"42   "`. -/
example :
    let d : Directive := { flags := [.zero], width := some .star, conv := .int .d }
    (convertField d.spec [.num (-5), .num 42]).map (fun f => fieldText f.1 f.2.1 f.2.2) =
        .ok "42000".toList ∧
      d.meaning [.num (-5), .num 42] = some ("42   ".toList, []) := by
  decide

end Format

end Olive
