import Olive.Printf.Digits
import Olive.Printf.Buffer

/-!
# Memory safety of `npf_vpprintf`

Whatever the arguments are, and the format, as long as an `int` can count its characters: no
character behind the NUL of the format or of a string is read, and the conversion buffer is
never overrun. What can go wrong is that an argument is missing or a width overflows.
-/

namespace Olive

open Library

/-- The computation does not leave an array. -/
def InBounds {α : Type} (x : Except Undefined α) : Prop := x ≠ .error .outOfBounds

section Rules

variable {α β : Type} {x : Except Undefined α}

theorem inBounds_ok (a : α) : InBounds (.ok a : Except Undefined α) := by
  intro h
  cases h

theorem InBounds.bind {f : α → Except Undefined β} (hx : InBounds x)
    (hf : ∀ a, x = .ok a → InBounds (f a)) : InBounds (x >>= f) := by
  cases x with
  | error e =>
    intro h
    apply hx
    cases e with
    | outOfBounds => rfl
    | overflow => cases h
    | vaArg => cases h
  | ok a => exact hf a rfl

theorem InBounds.map {f : α → β} (hx : InBounds x) : InBounds (x.map f) := by
  cases x with
  | error e =>
    intro h
    apply hx
    cases e with
    | outOfBounds => rfl
    | overflow => cases h
    | vaArg => cases h
  | ok a => exact inBounds_ok (f a)

theorem InBounds.ite {p : Prop} [Decidable p] {y : Except Undefined α} (hx : InBounds x)
    (hy : InBounds y) : InBounds (if p then x else y) := by
  split_ifs
  · exact hx
  · exact hy

theorem inBounds_asInt (i : ℤ) : InBounds (asInt i) := by
  unfold asInt InBounds
  split_ifs <;> simp

end Rules

/-! ## The specifier -/

section Parse

variable {cur : List Char} {fs : FormatSpec}

/-- A part of the parser that starts at `cur`: it stops at or before the NUL. -/
structure StopsIn (cur : List Char) (r : Except Undefined (FormatSpec × List Char)) : Prop where
  inBounds : InBounds r
  suffix : ∀ fs rest, r = .ok (fs, rest) → rest <:+ cur
  nul_mem : ∀ fs rest, r = .ok (fs, rest) → nul ∈ rest

theorem stopsIn_ok {rest : List Char} (hrest : rest <:+ cur) (hnul : nul ∈ rest) :
    StopsIn cur (.ok (fs, rest)) where
  inBounds := inBounds_ok _
  suffix _ _ h := by
    cases h
    exact hrest
  nul_mem _ _ h := by
    cases h
    exact hnul

theorem StopsIn.of_suffix {cur' : List Char} {r : Except Undefined (FormatSpec × List Char)}
    (h : StopsIn cur' r) (hcur : cur' <:+ cur) : StopsIn cur r where
  inBounds := h.inBounds
  suffix fs rest hr := (h.suffix fs rest hr).trans hcur
  nul_mem := h.nul_mem

theorem StopsIn.error {e : Undefined} (he : e ≠ .outOfBounds) :
    StopsIn cur (.error e) where
  inBounds h := by
    cases h
    exact he rfl
  suffix _ _ h := by cases h
  nul_mem _ _ h := by cases h

theorem parseWhile_stopsIn {step : FormatSpec → Char → Option (Except Undefined FormatSpec)}
    (hnul : nul ∈ cur) (hstep : ∀ fs, step fs nul = none)
    (hin : ∀ fs ch r, step fs ch = some r → InBounds r) : StopsIn cur (parseWhile step cur fs) := by
  induction cur generalizing fs with
  | nil => exact absurd hnul List.not_mem_nil
  | cons ch cur ih =>
    rw [parseWhile]
    cases hch : step fs ch with
    | none => exact stopsIn_ok List.suffix_rfl hnul
    | some next =>
      have hnul' : nul ∈ cur := by
        apply (List.mem_cons.mp hnul).resolve_left
        rintro rfl
        rw [hstep] at hch
        cases hch
      have hnext := hin fs ch next hch
      cases next with
      | error e => exact StopsIn.error fun he => hnext (by rw [he])
      | ok fs' => exact (ih hnul').of_suffix (List.suffix_cons ch cur)

theorem parseFlag_inBounds {ch : Char} {r : Except Undefined FormatSpec}
    (h : parseFlag fs ch = some r) : InBounds r := by
  unfold parseFlag at h
  split at h <;> cases h <;> exact inBounds_ok _

theorem widthDigit_inBounds {ch : Char} {r : Except Undefined FormatSpec}
    (h : widthDigit fs ch = some r) : InBounds r := by
  unfold widthDigit at h
  split_ifs at h
  cases h
  exact (inBounds_asInt _).map

theorem precDigit_inBounds {ch : Char} {r : Except Undefined FormatSpec}
    (h : precDigit fs ch = some r) : InBounds r := by
  unfold precDigit at h
  split_ifs at h
  cases h
  exact (inBounds_asInt _).map

theorem mem_of_mem_cons {ch : Char} (h : nul ∈ ch :: cur) (hch : nul ≠ ch) : nul ∈ cur :=
  (List.mem_cons.mp h).resolve_left hch

theorem parseFieldWidth_stopsIn (hnul : nul ∈ cur) : StopsIn cur (parseFieldWidth fs cur) := by
  unfold parseFieldWidth
  split
  · exact absurd hnul List.not_mem_nil
  · rename_i cur
    exact stopsIn_ok (List.suffix_cons '*' cur) (mem_of_mem_cons hnul (by decide))
  · exact parseWhile_stopsIn hnul (fun _ => rfl) fun _ _ _ => widthDigit_inBounds

theorem parsePrec_stopsIn (hnul : nul ∈ cur) : StopsIn cur (parsePrec fs cur) := by
  unfold parsePrec
  split
  · exact absurd hnul List.not_mem_nil
  · rename_i cur
    have hnul' : nul ∈ cur := mem_of_mem_cons hnul (by decide)
    refine StopsIn.of_suffix ?_ (List.suffix_cons '.' cur)
    split
    · exact absurd hnul' List.not_mem_nil
    · rename_i cur
      exact stopsIn_ok (List.suffix_cons '*' cur) (mem_of_mem_cons hnul' (by decide))
    · rename_i cur
      have hnul'' : nul ∈ cur := mem_of_mem_cons hnul' (by decide)
      refine StopsIn.of_suffix ?_ (List.suffix_cons '-' cur)
      exact parseWhile_stopsIn hnul'' (fun _ => rfl) fun _ _ _ => precDigit_inBounds
    · exact parseWhile_stopsIn hnul' (fun _ => rfl) fun _ _ _ => precDigit_inBounds
  · exact stopsIn_ok List.suffix_rfl hnul

theorem parseLengthModifier_stopsIn (hnul : nul ∈ cur) :
    StopsIn cur (parseLengthModifier fs cur) := by
  unfold parseLengthModifier
  split
  · exact absurd hnul List.not_mem_nil
  · rename_i cur
    have hnul' : nul ∈ cur := mem_of_mem_cons hnul (by decide)
    refine StopsIn.of_suffix ?_ (List.suffix_cons 'h' cur)
    split
    · exact absurd hnul' List.not_mem_nil
    · rename_i cur
      exact stopsIn_ok (List.suffix_cons 'h' cur) (mem_of_mem_cons hnul' (by decide))
    · exact stopsIn_ok List.suffix_rfl hnul'
  · rename_i cur
    have hnul' : nul ∈ cur := mem_of_mem_cons hnul (by decide)
    refine StopsIn.of_suffix ?_ (List.suffix_cons 'l' cur)
    split
    · exact absurd hnul' List.not_mem_nil
    · rename_i cur
      exact stopsIn_ok (List.suffix_cons 'l' cur) (mem_of_mem_cons hnul' (by decide))
    · exact stopsIn_ok List.suffix_rfl hnul'
  · rename_i cur
    exact stopsIn_ok (List.suffix_cons 'j' cur) (mem_of_mem_cons hnul (by decide))
  · rename_i cur
    exact stopsIn_ok (List.suffix_cons 'z' cur) (mem_of_mem_cons hnul (by decide))
  · rename_i cur
    exact stopsIn_ok (List.suffix_cons 't' cur) (mem_of_mem_cons hnul (by decide))
  · exact stopsIn_ok List.suffix_rfl hnul

theorem StopsIn.bind {r : Except Undefined (FormatSpec × List Char)}
    {next : FormatSpec × List Char → Except Undefined (FormatSpec × List Char)}
    (h : StopsIn cur r) (hnext : ∀ p, nul ∈ p.2 → StopsIn p.2 (next p)) :
    StopsIn cur (r >>= next) := by
  cases hr : r with
  | error e =>
    apply StopsIn.error
    rintro rfl
    exact h.inBounds hr
  | ok p => exact (hnext p (h.nul_mem p.1 p.2 hr)).of_suffix (h.suffix p.1 p.2 hr)

/-- The parts of the parser in front of the conversion specifier. -/
def parseFront (cur : List Char) : Except Undefined (FormatSpec × List Char) :=
  parseWhile parseFlag cur {} >>= fun p => parseFieldWidth p.1 p.2 >>= fun p =>
    parsePrec p.1 p.2 >>= fun p => parseLengthModifier p.1 p.2

theorem parseFront_stopsIn (hnul : nul ∈ cur) : StopsIn cur (parseFront cur) := by
  have hflags : StopsIn cur (parseWhile parseFlag cur {}) :=
    parseWhile_stopsIn hnul (fun _ => rfl) fun _ _ _ => parseFlag_inBounds
  apply hflags.bind
  intro p hp
  apply (parseFieldWidth_stopsIn hp).bind
  intro p hp
  apply (parsePrec_stopsIn hp).bind
  exact fun p hp => parseLengthModifier_stopsIn hp

def parseLast (len : ℕ) (p : FormatSpec × List Char) : Except Undefined (ℕ × FormatSpec) :=
  match p.2 with
  | [] => .error .outOfBounds
  | ch :: cur =>
    match parseConvSpec p.1 ch with
    | none => .ok (0, p.1)
    | some fs => if len - cur.length < 2 ^ 31 then .ok (len - cur.length, fs) else .error .outOfBounds

theorem npfParseFormatSpec_eq (ch : Char) (cur : List Char) :
    npfParseFormatSpec (ch :: cur) = parseFront cur >>= parseLast (cur.length + 1) := by
  simp only [parseFront, bind_assoc]
  rfl

/-- The parser stops before the NUL, or it takes no character. -/
theorem npfParseFormatSpec_bounds {ch : Char} (hnul : nul ∈ cur) (hlen : cur.length < 2 ^ 31) :
    InBounds (npfParseFormatSpec (ch :: cur)) ∧ ∀ fsLen fs,
      npfParseFormatSpec (ch :: cur) = .ok (fsLen, fs) → fsLen ≠ 0 →
        nul ∈ (ch :: cur).drop fsLen := by
  have hfront := parseFront_stopsIn hnul
  rw [npfParseFormatSpec_eq]
  cases hr : parseFront cur with
  | error e =>
    constructor
    · intro h
      apply hfront.inBounds
      rw [hr]
      cases h
      rfl
    · intro fsLen fs h
      cases h
  | ok p =>
    obtain ⟨fs, rest⟩ := p
    have hsuffix := (hfront.suffix fs rest hr).trans (List.suffix_cons ch cur)
    have hrest := hfront.nul_mem fs rest hr
    cases rest with
    | nil => exact absurd hrest List.not_mem_nil
    | cons c rest =>
      change InBounds (parseLast (cur.length + 1) (fs, c :: rest)) ∧ ∀ fsLen fs',
        parseLast (cur.length + 1) (fs, c :: rest) = .ok (fsLen, fs') → fsLen ≠ 0 →
          nul ∈ (ch :: cur).drop fsLen
      unfold parseLast
      dsimp only
      cases hconv : parseConvSpec fs c with
      | none =>
        refine ⟨inBounds_ok _, fun fsLen fs' h hne => ?_⟩
        cases h
        exact absurd rfl hne
      | some fs' =>
        have hc : nul ≠ c := by
          rintro rfl
          cases hconv
        have hrest' := mem_of_mem_cons hrest hc
        have hpos : 0 < rest.length := List.length_pos_of_mem hrest'
        have hfits : cur.length + 1 - rest.length < 2 ^ 31 := by
          omega
        dsimp only
        rw [if_pos hfits]
        refine ⟨inBounds_ok _, fun fsLen fs'' h _ => ?_⟩
        cases h
        have hdrop := List.suffix_iff_eq_drop.mp ((List.suffix_cons c rest).trans hsuffix)
        rw [List.length_cons] at hdrop
        rw [← hdrop]
        exact hrest'

theorem specifierAt_bounds (ch : Char) (hnul : nul ∈ cur) (hlen : cur.length < 2 ^ 31) :
    InBounds (specifierAt ch cur) ∧ ∀ fsLen fs, specifierAt ch cur = .ok (fsLen, fs) →
      fsLen ≠ 0 → nul ∈ (ch :: cur).drop fsLen := by
  unfold specifierAt
  split_ifs with hch
  · refine ⟨inBounds_ok _, fun fsLen fs h hne => ?_⟩
    cases h
    exact absurd rfl hne
  · exact npfParseFormatSpec_bounds hnul hlen

end Parse

/-! ## The arguments -/

section Convert

variable {fs : FormatSpec} {args : List Arg}

theorem vaArg_inBounds : InBounds (vaArg args) := by
  unfold vaArg InBounds
  split <;> simp

theorem vaArgString_bounds : InBounds (vaArgString args) ∧
    ∀ s rest, vaArgString args = .ok (s, rest) → nul ∈ s := by
  unfold vaArgString
  split
  · refine ⟨inBounds_ok _, fun s rest h => ?_⟩
    cases h
    simp
  · exact ⟨by simp [InBounds], fun s rest h => by cases h⟩

theorem starWidth_inBounds : InBounds (starWidth fs args) := by
  unfold starWidth
  apply InBounds.ite _ (inBounds_ok _)
  apply vaArg_inBounds.bind
  intro p _
  exact InBounds.ite (inBounds_asInt _).map (inBounds_ok _)

theorem starPrec_inBounds : InBounds (starPrec fs args) := by
  unfold starPrec
  apply InBounds.ite _ (inBounds_ok _)
  exact vaArg_inBounds.bind fun p _ => inBounds_ok _

theorem countString_inBounds {s : List Char} (hnul : nul ∈ s) (n : ℤ) :
    InBounds (countString fs s n) := by
  induction s generalizing n with
  | nil => exact absurd hnul List.not_mem_nil
  | cons ch s ih =>
    rw [countString]
    apply InBounds.ite _ (inBounds_ok _)
    split_ifs with hch
    · exact inBounds_ok _
    · apply (inBounds_asInt _).bind
      intro n' _
      exact (ih (mem_of_mem_cons hnul fun h => hch h.symm) n').bind fun rest _ => inBounds_ok _

theorem natAbs_extractSigned_le (w : Word) (m : LengthModifier) :
    (extractSigned w m).natAbs ≤ 2 ^ 63 := by
  have hbits : ∀ {v : ℕ} (x : BitVec v), v ≤ 64 → x.toInt.natAbs ≤ 2 ^ 63 := by
    intro v x hv
    have hlow : -2 ^ (v - 1) ≤ x.toInt := BitVec.le_toInt x
    have hhigh : x.toInt < 2 ^ (v - 1) := BitVec.toInt_lt
    have hpow : (2 : ℤ) ^ (v - 1) ≤ 2 ^ 63 := pow_le_pow_right₀ (by decide) (by omega)
    omega
  cases m with
  | none => exact hbits _ (by decide)
  | short => exact hbits _ (by decide)
  | longDouble => exact hbits _ (by decide)
  | char => exact hbits _ (by decide)
  | long => exact hbits w le_rfl
  | largeLongLong => exact hbits w le_rfl
  | largeIntmax => exact hbits w le_rfl
  | largeSizet => exact hbits w le_rfl
  | largePtrdifft => exact hbits w le_rfl

theorem extractUnsigned_lt (w : Word) (m : LengthModifier) : extractUnsigned w m < 2 ^ 64 := by
  have hnarrow : ∀ v, (w.setWidth v).toNat < 2 ^ 64 := by
    intro v
    rw [BitVec.toNat_setWidth]
    exact Nat.lt_of_le_of_lt (Nat.mod_le _ _) w.isLt
  cases m with
  | none => exact hnarrow 32
  | short => exact hnarrow 16
  | longDouble => exact hnarrow 32
  | char => exact hnarrow 8
  | long => exact w.isLt
  | largeLongLong => exact w.isLt
  | largeIntmax => exact w.isLt
  | largeSizet => exact w.isLt
  | largePtrdifft => exact w.isLt

/-- Of 64 bits there are at most 22 digits in base 8 or more. -/
theorem npfUtoaRev_bounds {base val : ℕ} (caseAdj : ℕ) (hbase : 8 ≤ base) (hval : val < 2 ^ 64) :
    npfUtoaRev base caseAdj conversionBufferSize val =
        .ok ((revDigits base val).map (digitText caseAdj)) ∧
      (revDigits base val).length < conversionBufferSize := by
  have hpow : ∀ k, 22 ≤ k → val < base ^ k := by
    intro k hk
    calc val < 2 ^ 64 := hval
      _ ≤ 8 ^ 22 := by decide
      _ ≤ base ^ 22 := Nat.pow_le_pow_left hbase 22
      _ ≤ base ^ k := Nat.pow_le_pow_right (by omega) hk
  constructor
  · exact npfUtoaRev_eq (by omega) (by decide) (hpow 23 (by decide))
  · exact Nat.lt_succ_of_le (length_revDigits_le (by omega) (by decide) (hpow 22 le_rfl))

theorem eight_le_baseOf (conv : Conversion) : 8 ≤ baseOf conv := by
  cases conv <;> decide

theorem npfItoaRev_bounds {val : ℤ} (hval : val.natAbs ≤ 2 ^ 63) :
    npfItoaRev conversionBufferSize val =
      .ok ((revDigits 10 val.natAbs).map (digitText 0)) := by
  apply npfItoaRev_eq 0 (by decide)
  exact Nat.lt_of_le_of_lt hval (by decide)

theorem convertSigned_inBounds : InBounds (convertSigned fs args) := by
  unfold convertSigned
  apply vaArg_inBounds.bind
  intro p _
  dsimp only
  rw [npfItoaRev_bounds (natAbs_extractSigned_le _ _)]
  exact InBounds.bind (InBounds.ite (inBounds_ok _) (inBounds_ok _)) fun cbuf _ => inBounds_ok _

theorem convertUnsigned_inBounds : InBounds (convertUnsigned fs args) := by
  unfold convertUnsigned
  apply vaArg_inBounds.bind
  intro p _
  dsimp only
  obtain ⟨hdigits, hlen⟩ := npfUtoaRev_bounds fs.caseAdjust (eight_le_baseOf fs.convSpec)
    (extractUnsigned_lt p.1 fs.lengthModifier)
  rw [hdigits]
  apply InBounds.bind (InBounds.ite (inBounds_ok _) (inBounds_ok _))
  intro cbuf hcbuf
  have hcbuf' : cbuf.length < conversionBufferSize := by
    split_ifs at hcbuf
    · cases hcbuf
      decide
    · cases hcbuf
      rwa [List.length_map]
  have hstore : InBounds (storeChar cbuf '0') := by
    unfold storeChar
    rw [if_pos hcbuf']
    exact inBounds_ok _
  exact (InBounds.ite hstore (inBounds_ok _)).bind fun cbuf' _ => inBounds_ok _

theorem convert_inBounds : InBounds (convert fs args) := by
  unfold convert
  cases fs.convSpec with
  | percent => exact inBounds_ok _
  | char => exact vaArg_inBounds.bind fun p _ => inBounds_ok _
  | string =>
    apply vaArgString_bounds.1.bind
    intro p hp
    apply (countString_inBounds (vaArgString_bounds.2 p.1 p.2 hp) 0).bind
    exact fun cbuf _ => inBounds_ok _
  | signedInt => exact convertSigned_inBounds
  | octal => exact convertUnsigned_inBounds
  | hexInt => exact convertUnsigned_inBounds
  | unsignedInt => exact convertUnsigned_inBounds
  | pointer =>
    apply vaArg_inBounds.bind
    intro p _
    dsimp only
    rw [(npfUtoaRev_bounds _ (by decide) p.1.isLt).1]
    exact InBounds.bind (inBounds_ok _) fun cbuf _ => inBounds_ok _

theorem pads_inBounds (v : Converted) : InBounds (pads v) := by
  unfold pads
  apply InBounds.bind (InBounds.ite (inBounds_asInt _).map (inBounds_ok _))
  intro precPad _
  apply (inBounds_asInt _).bind
  intro fieldPad _
  apply InBounds.bind (InBounds.ite (inBounds_asInt _) (inBounds_ok _))
  intro fieldPad' _
  exact (inBounds_asInt _).bind fun _ _ => inBounds_ok _

theorem convertField_inBounds : InBounds (convertField fs args) := by
  unfold convertField
  apply starWidth_inBounds.bind
  intro p _
  apply starPrec_inBounds.bind
  intro p _
  apply convert_inBounds.bind
  intro v _
  exact (pads_inBounds v).bind fun _ _ => inBounds_ok _

end Convert

/-! ## The whole call -/

section Whole

variable {σ : Type} (pc : Char → σ → σ)

theorem npfPutcCnt_inBounds (ch : Char) (s : CntPutcCtx σ) : InBounds (npfPutcCnt pc ch s) :=
  (inBounds_asInt _).bind fun _ _ => inBounds_ok _

theorem puts_inBounds (chs : List Char) (s : CntPutcCtx σ) :
    InBounds (puts (npfPutcCnt pc) chs s) := by
  induction chs generalizing s with
  | nil => exact inBounds_ok s
  | cons ch chs ih =>
    rw [puts_cons]
    exact (npfPutcCnt_inBounds pc ch s).bind fun s' _ => ih s'

theorem vpprintfLoop_inBounds (cur : List Char) (args : List Arg) (s : CntPutcCtx σ)
    (hnul : nul ∈ cur) (hmax : cur.length ≤ 2 ^ 31) : InBounds (vpprintfLoop pc cur args s) := by
  induction hlen : cur.length using Nat.strong_induction_on generalizing cur args s with
  | _ len ih =>
    cases cur with
    | nil => exact absurd hnul List.not_mem_nil
    | cons ch rest =>
      by_cases hch : ch = nul
      · rw [hch, vpprintfLoop_nul]
        exact inBounds_ok s
      have hrest : nul ∈ rest := mem_of_mem_cons hnul fun h => hch h.symm
      rw [List.length_cons] at hlen hmax
      obtain ⟨hin, hdrop⟩ := specifierAt_bounds ch hrest (by omega)
      cases hspec : specifierAt ch rest with
      | error e =>
        rw [vpprintfLoop_error pc hch hspec]
        rw [hspec] at hin
        intro h
        cases h
        exact hin rfl
      | ok spec =>
        obtain ⟨fsLen, fs⟩ := spec
        by_cases hfs : fsLen = 0
        · rw [hfs] at hspec
          rw [vpprintfLoop_char pc hch hspec]
          apply (npfPutcCnt_inBounds pc ch s).bind
          exact fun s' _ => ih rest.length (by omega) rest args s' hrest (by omega) rfl
        · rw [vpprintfLoop_field pc hch hspec hfs]
          apply convertField_inBounds.bind
          intro field _
          rw [putField_eq]
          apply (puts_inBounds pc _ s).bind
          intro s' _
          have hshort : ((ch :: rest).drop fsLen).length < rest.length + 1 := by
            rw [List.length_drop, List.length_cons]
            omega
          exact ih _ (by omega) _ field.1.args s' (hdrop fsLen fs hspec hfs) (by omega) rfl

/-- No format of at most `INT_MAX` characters and no list of arguments makes `npf_vpprintf` read
behind the NUL of the format or of a string, or write behind the end of its conversion buffer. -/
theorem npfVpprintf_inBounds (ctx : σ) (format : List Char) (args : List Arg)
    (hformat : format.length < 2 ^ 31) :
    npfVpprintf pc ctx (format ++ [nul]) args ≠ .error .outOfBounds := by
  apply InBounds.map
  apply vpprintfLoop_inBounds pc (format ++ [nul]) args ⟨ctx, 0⟩ (by simp)
  rw [List.length_append, List.length_singleton]
  exact hformat

theorem npfVpprintf_inBounds_percent : npfVpprintf (fun ch t => t ++ [ch]) []
    ("%*s%".toList ++ [nul]) [.num 3, .str "a"] ≠ .error .outOfBounds :=
  npfVpprintf_inBounds _ _ "%*s%".toList _ (by decide)

end Whole

end Olive
