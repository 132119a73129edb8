import Olive.Printf.Model
import Olive.Library.Writers

/-!
# The characters that `npf_vpprintf` puts

The function hands its text to the callback one character after the other, and what it does
with the arguments does not depend on the callback. So there is one text for each format and
each list of arguments, and every callback gets that text.
-/

namespace Olive

open Library

theorem asInt_of_range {x : ℤ} (h : -2 ^ 31 ≤ x) (h' : x < 2 ^ 31) : asInt x = .ok x := if_pos ⟨h, h'⟩

section Except

variable {ε α β γ : Type} (x : Except ε α)

theorem map_bind_except (f : α → β) (g : β → Except ε γ) :
    (x.map f >>= g) = x >>= fun a => g (f a) := by
  cases x with
  | ok a => rfl
  | error e => rfl

theorem bind_ok_except : (x >>= fun a => Except.ok a) = x := by
  cases x with
  | ok a => rfl
  | error e => rfl

end Except

section Puts

variable {σ : Type} (pc : Char → σ → σ)

theorem putTimes_eq (ch : Char) (pad : ℕ) (s : CntPutcCtx σ) :
    putTimes pc ch pad s = puts (npfPutcCnt pc) (List.replicate pad ch) s := by
  induction pad generalizing s with
  | zero => rfl
  | succ pad ih =>
    rw [putTimes, List.replicate_succ, puts_cons]
    simp only [funext ih]
    rfl

theorem putChars_eq (chs : List Char) (s : CntPutcCtx σ) :
    putChars pc chs s = puts (npfPutcCnt pc) chs s := by
  induction chs generalizing s with
  | nil => rfl
  | cons ch chs ih =>
    rw [putChars, puts_cons]
    simp only [funext ih]
    rfl

theorem putSign_eq (signC : Option Char) (s : CntPutcCtx σ) :
    putSign pc signC s = puts (npfPutcCnt pc) signC.toList s := by
  cases signC with
  | none => rfl
  | some ch => exact (puts_singleton (npfPutcCnt pc) ch s).symm

def prefix0x : Option Char → List Char
  | none => []
  | some ch => ['0', ch]

theorem put0x_eq (need0x : Option Char) (s : CntPutcCtx σ) :
    put0x pc need0x s = puts (npfPutcCnt pc) (prefix0x need0x) s := by
  cases need0x with
  | none => rfl
  | some ch =>
    rw [prefix0x, puts_cons]
    simp only [puts_singleton]
    rfl

def payloadText (v : Converted) (precPad : ℤ) : List Char :=
  if v.fs.convSpec = .string then v.cbuf
  else List.replicate precPad.toNat '0' ++ v.cbuf.reverse

/-- The sign as far as it belongs to the payload. -/
def payloadSign (v : Converted) : List Char :=
  if v.fs.convSpec = .string then [] else v.signC.toList

def fieldText (v : Converted) (precPad fieldPad : ℤ) : List Char :=
  match padChar v.fs v.zero with
  | some padC =>
    if v.fs.leftJustified then
      prefix0x v.need0x ++ payloadSign v ++ payloadText v precPad ++ List.replicate fieldPad.toNat padC
    else if padC = '0' then
      v.signC.toList ++ prefix0x v.need0x ++ List.replicate fieldPad.toNat padC ++
        payloadText v precPad
    else
      List.replicate fieldPad.toNat padC ++ prefix0x v.need0x ++ payloadSign v ++
        payloadText v precPad
  | none => prefix0x v.need0x ++ payloadSign v ++ payloadText v precPad

theorem putPayload_eq (v : Converted) (precPad : ℤ) (s : CntPutcCtx σ) :
    putPayload pc v v.signC precPad s =
      puts (npfPutcCnt pc) (payloadSign v ++ payloadText v precPad) s := by
  unfold putPayload payloadSign payloadText
  split_ifs with hs
  · rw [putChars_eq, List.nil_append]
  · simp only [putSign_eq, putTimes_eq, putChars_eq, puts_append]

theorem putPayload_none (v : Converted) (precPad : ℤ) (s : CntPutcCtx σ) :
    putPayload pc v none precPad s = puts (npfPutcCnt pc) (payloadText v precPad) s := by
  unfold putPayload payloadText
  split_ifs with hs
  · rw [putChars_eq]
  · simp only [putSign, putTimes_eq, putChars_eq, puts_append]
    rfl

theorem putField_eq (v : Converted) (precPad fieldPad : ℤ) (s : CntPutcCtx σ) :
    putField pc v precPad fieldPad s =
      puts (npfPutcCnt pc) (fieldText v precPad fieldPad) s := by
  unfold putField putFront putBehind fieldText
  cases padChar v.fs v.zero with
  | none =>
    simp only [put0x_eq, putPayload_eq, map_bind_except, bind_ok_except, puts_append, bind_assoc]
  | some padC =>
    by_cases hleft : v.fs.leftJustified
    · simp only [if_pos hleft, put0x_eq, putPayload_eq, putTimes_eq, map_bind_except, puts_append,
        bind_assoc]
    · by_cases hzero : padC = '0'
      · simp only [if_neg hleft, if_pos hzero, put0x_eq, putSign_eq, putPayload_none, putTimes_eq,
          map_bind_except, bind_ok_except, puts_append, bind_assoc]
      · simp only [if_neg hleft, if_neg hzero, put0x_eq, putPayload_eq, putTimes_eq,
          map_bind_except, bind_ok_except, puts_append, bind_assoc]

end Puts

/-! ## The loop, case by case -/

section Loop

variable {σ : Type} (pc : Char → σ → σ) {ch : Char} {rest : List Char} {args : List Arg}
  {fsLen : ℕ} {fs : FormatSpec} {s : CntPutcCtx σ}

theorem vpprintfLoop_nul : vpprintfLoop pc (nul :: rest) args s = .ok s := by
  rw [vpprintfLoop, if_pos rfl]

theorem vpprintfLoop_error {e : Undefined} (hnul : ch ≠ nul)
    (hspec : specifierAt ch rest = .error e) :
    vpprintfLoop pc (ch :: rest) args s = .error e := by
  rw [vpprintfLoop, if_neg hnul, hspec]
  rfl

theorem vpprintfLoop_char (hnul : ch ≠ nul) (hspec : specifierAt ch rest = .ok (0, fs)) :
    vpprintfLoop pc (ch :: rest) args s =
      npfPutcCnt pc ch s >>= fun s => vpprintfLoop pc rest args s := by
  rw [vpprintfLoop, if_neg hnul, hspec]
  rfl

theorem vpprintfLoop_field (hnul : ch ≠ nul) (hspec : specifierAt ch rest = .ok (fsLen, fs))
    (hlen : fsLen ≠ 0) : vpprintfLoop pc (ch :: rest) args s =
      convertField fs args >>= fun field => putField pc field.1 field.2.1 field.2.2 s >>=
        fun s => vpprintfLoop pc ((ch :: rest).drop fsLen) field.1.args s := by
  rw [vpprintfLoop, if_neg hnul, hspec]
  exact dif_neg hlen

end Loop

/-! ## One text for all callbacks -/

section Text

theorem putc_bind {σ β : Type} (pc : Char → σ → σ) (ch : Char) (ctx : σ) (n : ℤ)
    (f : CntPutcCtx σ → Except Undefined β) :
    (npfPutcCnt pc ch ⟨ctx, n⟩ >>= f) = asInt (n + 1) >>= fun n => f ⟨pc ch ctx, n⟩ := by
  unfold npfPutcCnt
  rw [bind_assoc]
  rfl

/-- The counting callback gets a text: whether the count overflows does not depend on the
callback behind it. -/
theorem exists_count (n : ℤ) (chs : List Char) : ∃ e : Except Undefined Unit,
    ∀ {σ : Type} (pc : Char → σ → σ) (ctx : σ), puts (npfPutcCnt pc) chs ⟨ctx, n⟩ =
      e.map fun _ => ⟨chs.foldl (fun ctx ch => pc ch ctx) ctx, n + chs.length⟩ := by
  induction chs generalizing n with
  | nil =>
    refine ⟨.ok (), fun pc ctx => ?_⟩
    rw [List.length_nil, Nat.cast_zero, add_zero]
    rfl
  | cons ch chs ih =>
    obtain ⟨e, he⟩ := ih (n + 1)
    refine ⟨asInt (n + 1) >>= fun _ => e, fun pc ctx => ?_⟩
    rw [puts_cons, putc_bind, List.length_cons, Nat.cast_succ, add_comm (chs.length : ℤ), ← add_assoc]
    unfold asInt
    split_ifs
    · exact he pc (pc ch ctx)
    · rfl

theorem puts_of_lt {σ : Type} (pc : Char → σ → σ) (ctx : σ) {n : ℤ} {chs : List Char} (hn : 0 ≤ n)
    (hlt : n + chs.length < 2 ^ 31) : puts (npfPutcCnt pc) chs ⟨ctx, n⟩ =
      .ok ⟨chs.foldl (fun ctx ch => pc ch ctx) ctx, n + chs.length⟩ := by
  induction chs generalizing n ctx with
  | nil =>
    rw [List.length_nil, Nat.cast_zero, add_zero]
    rfl
  | cons ch chs ih =>
    rw [List.length_cons, Nat.cast_succ] at hlt
    rw [puts_cons, putc_bind, asInt_of_range (by omega) (by omega), List.length_cons,
      Nat.cast_succ, add_comm (chs.length : ℤ), ← add_assoc]
    exact ih (pc ch ctx) (by omega) (by omega)

/-- Behind `n` characters, the loop puts the text `r`, or stops with the error `r`. -/
def LoopText (cur : List Char) (args : List Arg) (n : ℤ) (r : Except Undefined (List Char)) :
    Prop :=
  ∀ {σ : Type} (pc : Char → σ → σ) (ctx : σ), vpprintfLoop pc cur args ⟨ctx, n⟩ =
    r.map fun t => ⟨t.foldl (fun ctx ch => pc ch ctx) ctx, n + t.length⟩

theorem LoopText.puts {cur : List Char} {args : List Arg} {n : ℤ} {chs : List Char}
    {r : Except Undefined (List Char)} (h : LoopText cur args (n + chs.length) r) :
    ∃ r' : Except Undefined (List Char), ∀ {σ : Type} (pc : Char → σ → σ) (ctx : σ),
      (puts (npfPutcCnt pc) chs ⟨ctx, n⟩ >>= fun s => vpprintfLoop pc cur args s) =
        r'.map fun t => ⟨t.foldl (fun ctx ch => pc ch ctx) ctx, n + t.length⟩ := by
  obtain ⟨e, he⟩ := exists_count n chs
  refine ⟨e.bind fun _ => r.map fun t => chs ++ t, fun pc ctx => ?_⟩
  rw [he pc ctx]
  cases e with
  | error e => rfl
  | ok u =>
    apply (h pc _).trans
    cases r with
    | error e => rfl
    | ok t =>
      simp only [Except.map, Except.bind, List.foldl_append, List.length_append, Nat.cast_add,
        add_assoc]

theorem exists_loopText (cur : List Char) (args : List Arg) (n : ℤ) :
    ∃ r, LoopText cur args n r := by
  induction hlen : cur.length using Nat.strong_induction_on generalizing cur args n with
  | _ len ih =>
    cases cur with
    | nil =>
      refine ⟨.error .outOfBounds, fun pc ctx => ?_⟩
      rw [vpprintfLoop]
      rfl
    | cons ch rest =>
      have hrest : rest.length < len := by
        rw [← hlen]
        exact Nat.lt_succ_self _
      by_cases hnul : ch = nul
      · refine ⟨.ok [], fun pc ctx => ?_⟩
        rw [hnul, vpprintfLoop_nul]
        simp [Except.map]
      -- the specifier and its argument do not depend on the callback
      cases hspec : specifierAt ch rest with
      | error e => exact ⟨.error e, fun pc ctx => vpprintfLoop_error pc hnul hspec⟩
      | ok spec =>
        obtain ⟨fsLen, fs⟩ := spec
        by_cases hfs : fsLen = 0
        · rw [hfs] at hspec
          obtain ⟨r, hr⟩ := ih rest.length hrest rest args (n + [ch].length) rfl
          obtain ⟨r', hr'⟩ := hr.puts
          refine ⟨r', fun pc ctx => ?_⟩
          rw [vpprintfLoop_char pc hnul hspec, ← hr' pc ctx, puts_singleton]
        · cases hfield : convertField fs args with
          | error e =>
            refine ⟨.error e, fun pc ctx => ?_⟩
            rw [vpprintfLoop_field pc hnul hspec hfs, hfield]
            rfl
          | ok field =>
            obtain ⟨v, precPad, fieldPad⟩ := field
            have hdrop : ((ch :: rest).drop fsLen).length < len := by
              rw [List.length_drop, hlen]
              omega
            obtain ⟨r, hr⟩ := ih _ hdrop ((ch :: rest).drop fsLen) v.args
              (n + (fieldText v precPad fieldPad).length) rfl
            obtain ⟨r', hr'⟩ := hr.puts
            refine ⟨r', fun pc ctx => ?_⟩
            rw [vpprintfLoop_field pc hnul hspec hfs, hfield, ← hr' pc ctx, ← putField_eq]
            rfl

def formatted (format : List Char) (args : List Arg) : Except Undefined (List Char) :=
  (npfVpprintf (fun ch t => t ++ [ch]) [] format args).map Prod.snd

/-- `npf_vsnprintf` as `vfprintf` uses it: the text of a format string. -/
def nanoprintf : Formatter := fun fmt args =>
  match formatted (fmt.toList ++ [nul]) args with
  | .ok t => t
  | .error _ => []

theorem npfVpprintf_eq {σ : Type} (pc : Char → σ → σ) (ctx : σ) (format : List Char)
    (args : List Arg) : npfVpprintf pc ctx format args = (formatted format args).map fun t =>
      ((t.length : ℤ), t.foldl (fun ctx ch => pc ch ctx) ctx) := by
  obtain ⟨r, hr⟩ := exists_loopText format args 0
  unfold formatted npfVpprintf
  rw [hr pc ctx, hr (fun ch t => t ++ [ch]) []]
  cases r with
  | error e => rfl
  | ok t =>
    have hcollect : t.foldl (fun t ch => t ++ [ch]) [] = t := by
      rw [List.foldl_append_eq_append, List.nil_append, ← List.flatMap_def, List.flatMap_singleton']
    simp only [Except.map, zero_add, hcollect]

end Text

end Olive
