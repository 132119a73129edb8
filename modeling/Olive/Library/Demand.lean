import Mathlib.Data.Finset.Card
import Mathlib.Tactic

/-!
# Resources on demand

A sequence of keys is asked for. A key seen before costs nothing, and a new one takes
the next item of a supply, which may be bad. Whether the sequence is served depends on
the number of its new keys alone: as many of the next items have to be good.
-/

namespace Olive.Library

variable {κ : Type*} [DecidableEq κ] (good : ℕ → Prop) [DecidablePred good]

/-- Serve the keys in their order; the state is the keys seen and the items taken. -/
def serve : Finset κ × ℕ → List κ → Option (Finset κ × ℕ)
  | s, [] => some s
  | (seen, n), k :: ks =>
    if k ∈ seen then serve (seen, n) ks
    else if good n then serve (insert k seen, n + 1) ks
    else none

variable {good} {seen : Finset κ} {n : ℕ} {k : κ} {ks : List κ}

@[simp] theorem serve_nil (s : Finset κ × ℕ) : serve good s [] = some s := rfl

theorem serve_cons_seen (h : k ∈ seen) : serve good (seen, n) (k :: ks) = serve good (seen, n) ks :=
  if_pos h

theorem serve_cons_new (h : k ∉ seen) (hgood : good n) :
    serve good (seen, n) (k :: ks) = serve good (insert k seen, n + 1) ks :=
  (if_neg h).trans (if_pos hgood)

theorem serve_cons_bad (h : k ∉ seen) (hbad : ¬ good n) : serve good (seen, n) (k :: ks) = none :=
  (if_neg h).trans (if_neg hbad)

theorem serve_append (s : Finset κ × ℕ) (xs ys : List κ) :
    serve good s (xs ++ ys) = (serve good s xs).bind fun t => serve good t ys := by
  induction xs generalizing s with
  | nil => rfl
  | cons k xs ih =>
    obtain ⟨seen, n⟩ := s
    rw [List.cons_append]
    by_cases hk : k ∈ seen
    · rw [serve_cons_seen hk, serve_cons_seen hk, ih]
    · by_cases hgood : good n
      · rw [serve_cons_new hk hgood, serve_cons_new hk hgood, ih]
      · rw [serve_cons_bad hk hgood, serve_cons_bad hk hgood]
        rfl

def newKeys (seen : Finset κ) (ks : List κ) : Finset κ := ks.toFinset \ seen

theorem newKeys_cons_seen (h : k ∈ seen) : newKeys seen (k :: ks) = newKeys seen ks := by
  rw [newKeys, List.toFinset_cons, Finset.insert_sdiff_of_mem _ h, newKeys]

theorem card_newKeys_cons (h : k ∉ seen) :
    (newKeys seen (k :: ks)).card = (newKeys (insert k seen) ks).card + 1 := by
  have hmem : k ∈ newKeys seen (k :: ks) := by simp [newKeys, h]
  have herase : (newKeys seen (k :: ks)).erase k = newKeys (insert k seen) ks := by
    ext x
    simp only [newKeys, Finset.mem_erase, Finset.mem_sdiff, List.toFinset_cons, Finset.mem_insert,
      not_or]
    tauto
  rw [← herase, Finset.card_erase_of_mem hmem, Nat.sub_add_cancel (Finset.card_pos.mpr ⟨k, hmem⟩)]

/-- The keys are served if and only if there is a good item for each new one. -/
theorem serve_isSome_iff :
    (serve good (seen, n) ks).isSome ↔ ∀ i < (newKeys seen ks).card, good (n + i) := by
  induction ks generalizing seen n with
  | nil => simp [newKeys]
  | cons k ks ih =>
    by_cases hk : k ∈ seen
    · rw [serve_cons_seen hk, newKeys_cons_seen hk, ih]
    · rw [card_newKeys_cons hk]
      by_cases hgood : good n
      · rw [serve_cons_new hk hgood, ih]
        constructor
        · intro h i hi
          cases i with
          | zero => exact hgood
          | succ i =>
            have := h i (by omega)
            rwa [show n + 1 + i = n + (i + 1) by omega] at this
        · intro h i hi
          have := h (i + 1) (by omega)
          rwa [show n + (i + 1) = n + 1 + i by omega] at this
      · rw [serve_cons_bad hk hgood]
        constructor
        · intro h
          cases h
        · intro h
          exact absurd (h 0 (Nat.succ_pos _)) hgood

end Olive.Library
