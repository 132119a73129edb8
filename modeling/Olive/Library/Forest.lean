import Mathlib.Tactic

/-!
# Paths in a forest of linked nodes

`child n i` is the node behind slot `i` of node `n`, if the slot is in use. A
forest of bounded depth is a set of roots from which no node is reached along
two different paths. The two updates a radix tree needs are described by what
they do to `follow`: linking a fresh, empty node into an empty slot adds exactly
one path, and changing the slots of a node at the bottom adds none.
-/

namespace Olive.Library

variable {N I : Type*}

/-- The node reached from `r` along the slots of a path. -/
def follow (child : N → I → Option N) : N → List I → Option N
  | r, [] => some r
  | r, i :: p => (child r i).bind fun n => follow child n p

variable {child child' : N → I → Option N} {roots : Set N} {d : ℕ}

@[simp] theorem follow_nil (r : N) : follow child r [] = some r := rfl

@[simp] theorem follow_cons (r : N) (i : I) (p : List I) :
    follow child r (i :: p) = (child r i).bind fun n => follow child n p := rfl

theorem follow_concat (r : N) (p : List I) (i : I) :
    follow child r (p ++ [i]) = (follow child r p).bind fun n => child n i := by
  induction p generalizing r with
  | nil => cases h : child r i <;> simp [h]
  | cons j p ih => cases h : child r j <;> simp [h, ih]

/-- Up to depth `d` every node has at most one root and one path. -/
def Separated (child : N → I → Option N) (roots : Set N) (d : ℕ) : Prop :=
  ∀ r ∈ roots, ∀ r' ∈ roots, ∀ p q n, p.length ≤ d → q.length ≤ d →
    follow child r p = some n → follow child r' q = some n → r = r' ∧ p = q

/-- The nodes reached within depth `d`. -/
def Reached (child : N → I → Option N) (roots : Set N) (d : ℕ) (n : N) : Prop :=
  ∃ r ∈ roots, ∃ p, p.length ≤ d ∧ follow child r p = some n

/-- `child'` is `child` after the empty node `n` was put into slot `i` of `f`. -/
structure LinkedAt (child child' : N → I → Option N) (f : N) (i : I) (n : N) : Prop where
  here : child' f i = some n
  empty : ∀ j, child' n j = none
  elsewhere : ∀ g j, g ≠ n → (g = f → j ≠ i) → child' g j = child g j

section Link

variable {r₀ f n : N} {p₀ : List I} {i : I} [DecidableEq N] [DecidableEq I]

/-- Linking a node that no path reached adds exactly the path to that node. -/
theorem LinkedAt.follow_eq (hlink : LinkedAt child child' f i n) (hsep : Separated child roots d)
    (hr₀ : r₀ ∈ roots) (hf : follow child r₀ p₀ = some f) (hd : p₀.length < d)
    (hfree : child f i = none) (hfresh : ¬ Reached child roots d n)
    {r : N} (hr : r ∈ roots) {q : List I} (hq : q.length ≤ d) :
    follow child' r q = if r = r₀ ∧ q = p₀ ++ [i] then some n else follow child r q := by
  induction q using List.reverseRecOn with
  | nil => simp
  | append_singleton q j ih =>
    have hq' : q.length < d := by simpa using hq
    rw [follow_concat, ih hq'.le]
    by_cases hnew : r = r₀ ∧ q = p₀ ++ [i]
    · -- below the new node: it is empty, and nothing was reached through its slot before
      obtain ⟨rfl, rfl⟩ := hnew
      have hne : ¬ (r = r ∧ p₀ ++ [i] ++ [j] = p₀ ++ [i]) := by
        rintro ⟨-, h⟩
        simpa using congrArg List.length h
      have hnone : follow child r (p₀ ++ [i] ++ [j]) = none := by
        rw [follow_concat, follow_concat, hf]
        simp [hfree]
      rw [if_pos ⟨rfl, rfl⟩, if_neg hne, hnone]
      exact hlink.empty j
    · rw [if_neg hnew, follow_concat]
      cases hx : follow child r q with
      | none =>
        have hne : ¬ (r = r₀ ∧ q ++ [j] = p₀ ++ [i]) := by
          rintro ⟨rfl, h⟩
          obtain ⟨rfl, -⟩ := List.append_inj' h rfl
          rw [hf] at hx
          exact Option.some_ne_none _ hx
        rw [if_neg hne]
        rfl
      | some x =>
        have hxn : x ≠ n := fun h => hfresh ⟨r, hr, q, hq'.le, h ▸ hx⟩
        by_cases hslot : x = f ∧ j = i
        · obtain ⟨rfl, rfl⟩ := hslot
          obtain ⟨rfl, rfl⟩ := hsep r hr r₀ hr₀ q p₀ x hq'.le hd.le hx hf
          simp [hlink.here]
        · have hne : ¬ (r = r₀ ∧ q ++ [j] = p₀ ++ [i]) := by
            rintro ⟨rfl, h⟩
            obtain ⟨rfl, hj⟩ := List.append_inj' h rfl
            rw [hf] at hx
            exact hslot ⟨(Option.some.inj hx).symm, by simpa using hj⟩
          rw [if_neg hne]
          exact hlink.elsewhere x j hxn (fun h hj => hslot ⟨h, hj⟩)

theorem LinkedAt.separated (hlink : LinkedAt child child' f i n) (hsep : Separated child roots d)
    (hr₀ : r₀ ∈ roots) (hf : follow child r₀ p₀ = some f) (hd : p₀.length < d)
    (hfree : child f i = none) (hfresh : ¬ Reached child roots d n) :
    Separated child' roots d := by
  intro r hr r' hr' p q m hp hq hpm hqm
  rw [hlink.follow_eq hsep hr₀ hf hd hfree hfresh hr hp] at hpm
  rw [hlink.follow_eq hsep hr₀ hf hd hfree hfresh hr' hq] at hqm
  split_ifs at hpm hqm with h h' h'
  · exact ⟨h.1.trans h'.1.symm, h.2.trans h'.2.symm⟩
  · cases hpm
    exact absurd ⟨r', hr', q, hq, hqm⟩ hfresh
  · cases hqm
    exact absurd ⟨r, hr, p, hp, hpm⟩ hfresh
  · exact hsep r hr r' hr' p q m hp hq hpm hqm

theorem LinkedAt.reached_iff (hlink : LinkedAt child child' f i n) (hsep : Separated child roots d)
    (hr₀ : r₀ ∈ roots) (hf : follow child r₀ p₀ = some f) (hd : p₀.length < d)
    (hfree : child f i = none) (hfresh : ¬ Reached child roots d n) (m : N) :
    Reached child' roots d m ↔ m = n ∨ Reached child roots d m := by
  have heq := fun {r} hr {q} hq =>
    hlink.follow_eq hsep hr₀ hf hd hfree hfresh (r := r) hr (q := q) hq
  constructor
  · rintro ⟨r, hr, q, hq, hm⟩
    rw [heq hr hq] at hm
    split_ifs at hm
    · exact Or.inl (Option.some.inj hm).symm
    · exact Or.inr ⟨r, hr, q, hq, hm⟩
  · rintro (rfl | ⟨r, hr, q, hq, hm⟩)
    · refine ⟨r₀, hr₀, p₀ ++ [i], by simpa using hd, ?_⟩
      rw [heq hr₀ (by simpa using hd)]
      simp
    · refine ⟨r, hr, q, hq, ?_⟩
      rw [heq hr hq, if_neg, hm]
      rintro ⟨rfl, rfl⟩
      rw [follow_concat, hf] at hm
      simp [hfree] at hm

end Link

theorem follow_eq_of_bottom {r₀ f : N} {p₀ : List I} (hsep : Separated child roots d)
    (hr₀ : r₀ ∈ roots) (hf : follow child r₀ p₀ = some f) (hd : p₀.length = d)
    (heq : ∀ g j, g ≠ f → child' g j = child g j) {r : N} (hr : r ∈ roots) {q : List I}
    (hq : q.length ≤ d) : follow child' r q = follow child r q := by
  induction q using List.reverseRecOn with
  | nil => rfl
  | append_singleton q j ih =>
    have hq' : q.length < d := by simpa using hq
    rw [follow_concat, follow_concat, ih hq'.le]
    cases hx : follow child r q with
    | none => rfl
    | some x =>
      have hxf : x ≠ f := by
        rintro rfl
        obtain ⟨-, rfl⟩ := hsep r hr r₀ hr₀ q p₀ x hq'.le hd.le hx hf
        omega
      exact heq x j hxf

/-- A change that keeps every path within depth `d` keeps the forest a forest. -/
theorem Separated.of_follow_eq (hsep : Separated child roots d)
    (heq : ∀ r ∈ roots, ∀ q : List I, q.length ≤ d → follow child' r q = follow child r q) :
    Separated child' roots d := by
  intro r hr r' hr' p q n hp hq hpn hqn
  rw [heq r hr p hp] at hpn
  rw [heq r' hr' q hq] at hqn
  exact hsep r hr r' hr' p q n hp hq hpn hqn

end Olive.Library
