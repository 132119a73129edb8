import Olive.Printf.Output

/-!
# `npf_vsnprintf` into a buffer

The buffer gets the longest prefix of the text that leaves room for a NUL, and the returned
length is that of the whole text. Nothing behind the buffer changes.
-/

namespace Olive

open Library

section Buffer

variable (dst : ℕ → Char) (bufsz : ℕ)

theorem foldl_bufputc {len cur : ℕ} (t : List Char) (hcur : cur ≤ len) :
    t.foldl (fun ctx ch => npfBufputc ch ctx) ⟨dst, len, cur⟩ =
      ⟨writeAt dst cur (t.take (len - cur)), len, min len (cur + t.length)⟩ := by
  induction t generalizing dst cur with
  | nil =>
    rw [List.foldl_nil, List.take_nil, writeAt_nil, List.length_nil, Nat.add_zero,
      Nat.min_eq_right hcur]
  | cons ch t ih =>
    rw [List.foldl_cons, npfBufputc]
    by_cases hroom : cur < len
    · obtain ⟨room, hroom'⟩ : ∃ room, len - cur = room + 1 := ⟨len - cur - 1, by omega⟩
      rw [if_pos hroom, ih (Function.update dst cur ch) hroom, hroom', List.take_succ_cons,
        writeAt_cons, show len - (cur + 1) = room by omega, List.length_cons,
        show cur + 1 + t.length = cur + (t.length + 1) by omega]
    · rw [if_neg hroom, ih dst hcur, show len - cur = 0 by omega, List.take_zero, List.take_zero,
        Nat.min_eq_left (by omega), Nat.min_eq_left (by omega)]

/-- The buffer behind `npf_vsnprintf`, with the text `t`. -/
def filledBuffer (t : List Char) : ℕ → Char :=
  if bufsz = 0 then dst
  else writeAt (Function.update dst (bufsz - 1) nul) 0 (t.take (bufsz - 1) ++ [nul])

theorem filledBuffer_behind (t : List Char) {i : ℕ} (h : bufsz ≤ i) :
    filledBuffer dst bufsz t i = dst i := by
  unfold filledBuffer
  split_ifs with hzero
  · rfl
  · rw [writeAt_of_le, Function.update_of_ne (by omega)]
    rw [List.length_append, List.length_take, List.length_singleton]
    omega

theorem map_filledBuffer (t : List Char) (h : bufsz ≠ 0) :
    (List.range (min (bufsz - 1) t.length + 1)).map (filledBuffer dst bufsz t) =
      t.take (bufsz - 1) ++ [nul] := by
  have hmap := map_writeAt (Function.update dst (bufsz - 1) nul) 0 (t.take (bufsz - 1) ++ [nul])
  rw [List.length_append, List.length_take, List.length_singleton] at hmap
  unfold filledBuffer
  rw [if_neg h]
  simpa only [Nat.zero_add] using hmap

/-- The NUL at the end of the buffer, and the one behind the text. -/
theorem update_filled (t : List Char) (m : ℕ) :
    Function.update (writeAt dst 0 ((t ++ [nul]).take (m + 1))) m nul =
      writeAt (Function.update dst m nul) 0 (t.take m ++ [nul]) := by
  funext i
  rw [writeAt_zero]
  rcases Nat.lt_trichotomy i m with hi | rfl | hi
  · have hshort : ((t ++ [nul]).take (m + 1))[i]? = (t.take m ++ [nul])[i]? := by
      grind
    rw [Function.update_of_ne hi.ne, Function.update_of_ne hi.ne, writeAt_zero, hshort]
  · rw [Function.update_self, Function.update_self]
    grind
  · rw [Function.update_of_ne hi.ne', Function.update_of_ne hi.ne', writeAt_of_le,
      List.getElem?_eq_none]
    · rfl
    · rw [List.length_append, List.length_take, List.length_singleton]
      omega
    · rw [List.length_take]
      omega

theorem npfVsnprintf_eq (format : List Char) (vlist : List Arg) :
    npfVsnprintf (some dst) bufsz format vlist =
      (formatted format vlist).map fun t => ((t.length : ℤ), some (filledBuffer dst bufsz t)) := by
  unfold npfVsnprintf
  dsimp only
  rw [npfVpprintf_eq]
  cases formatted format vlist with
  | error e => rfl
  | ok t =>
    have hfold := foldl_bufputc dst (t ++ [nul]) (Nat.zero_le bufsz)
    rw [List.foldl_append, List.foldl_cons, List.foldl_nil] at hfold
    simp only [Except.map, bind, Except.bind, pure, Except.pure, hfold]
    unfold filledBuffer
    cases bufsz with
    | zero => simp
    | succ m => rw [if_pos (Nat.succ_ne_zero m), if_neg (Nat.succ_ne_zero m), Nat.sub_zero,
        Nat.add_sub_cancel, update_filled]

theorem npfVsnprintf_null (format : List Char) (vlist : List Arg) :
    npfVsnprintf none bufsz format vlist =
      (formatted format vlist).map fun t => ((t.length : ℤ), none) := by
  unfold npfVsnprintf
  rw [npfVpprintf_eq]
  cases formatted format vlist with
  | error e => rfl
  | ok t => rfl

/-- For every format and every list of arguments there is one text. `npf_vsnprintf` returns its
length and fills the buffer with as much of it as leaves room for the NUL, and it leaves what
lies behind the buffer alone. -/
theorem npfVsnprintf_fills (format : List Char) (vlist : List Arg) :
    npfVsnprintf (some dst) bufsz format vlist =
        (formatted format vlist).map (fun t => ((t.length : ℤ), some (filledBuffer dst bufsz t))) ∧
      npfVsnprintf none bufsz format vlist =
        (formatted format vlist).map (fun t => ((t.length : ℤ), none)) ∧
      ∀ t : List Char, (∀ i, bufsz ≤ i → filledBuffer dst bufsz t i = dst i) ∧
        (bufsz ≠ 0 → (List.range (min (bufsz - 1) t.length + 1)).map (filledBuffer dst bufsz t) =
          t.take (bufsz - 1) ++ [nul]) := by
  refine ⟨npfVsnprintf_eq dst bufsz format vlist, npfVsnprintf_null bufsz format vlist, fun t => ?_⟩
  constructor
  · exact fun i hi => filledBuffer_behind dst bufsz t hi
  · exact map_filledBuffer dst bufsz t

end Buffer

/-! ## `vfprintf` -/

section Vfprintf

/-- `vfprintf(NULL, fmt, args)` with the given array as `buffer`: what it returns, and the
characters it hands to `putchar`. -/
def vfprintfChars (buffer : ℕ → Char) (fmt : List Char) (args : List Arg) :
    Except Undefined (ℤ × List Char) := do
  let (length, buffer) ← npfVsnprintf (some buffer) 1024 fmt args
  if 0 ≤ length ∧ length < 1024 then
    return (length, (List.range length.toNat).map (buffer.getD fun _ => nul))
  else return (length, [])

/-- A text that fits into the buffer is printed, another one is dropped. -/
theorem vfprintfChars_eq (buffer : ℕ → Char) (fmt : List Char) (args : List Arg) :
    vfprintfChars buffer fmt args = (formatted fmt args).map fun t =>
      ((t.length : ℤ), if t.length < 1024 then t else []) := by
  unfold vfprintfChars
  rw [npfVsnprintf_eq]
  cases formatted fmt args with
  | error e => rfl
  | ok t =>
    have hfilled := map_filledBuffer buffer 1024 t (by decide)
    simp only [Except.map, bind, Except.bind, pure, Except.pure, Option.getD_some, Int.toNat_natCast]
    by_cases hfits : t.length < 1024
    · rw [if_pos (by omega), if_pos hfits]
      rw [Nat.min_eq_right (by omega), List.range_succ, List.map_append, List.map_singleton,
        List.take_of_length_le (by omega)] at hfilled
      rw [(List.append_inj hfilled (by simp)).1]
    · rw [if_neg (by omega), if_neg hfits]

end Vfprintf

end Olive
