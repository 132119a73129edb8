import Mathlib.Tactic

/-!
# Doubly linked lists

Nodes of any type are linked by two functions, `prev` and `next`. `Linked` says that a
list of nodes is linked both ways from a node in front of it to one behind it. A list is
changed by linking one node in and by taking one out; what the links of all other nodes
must satisfy is asked for node by node, so that it can be read off any memory.
-/

namespace Olive.Library

variable {A : Type*}

/-- The nodes `xs` are linked both ways, behind `p` and in front of `q`. -/
def Linked (prev next : A → A) : A → List A → A → Prop
  | _, [], _ => True
  | p, x :: xs, q => prev x = p ∧ next x = xs.headD q ∧ Linked prev next x xs q

section Linked

variable {prev next prev' next' : A → A} {p q x : A} {xs ys : List A}

theorem headD_append (xs ys : List A) (q : A) : (xs ++ ys).headD q = xs.headD (ys.headD q) := by
  cases xs with
  | nil => rfl
  | cons x xs => rfl

theorem linked_append : Linked prev next p (xs ++ ys) q ↔
    Linked prev next p xs (ys.headD q) ∧ Linked prev next (xs.getLastD p) ys q := by
  induction xs generalizing p with
  | nil => simp [Linked]
  | cons x xs ih => rw [List.cons_append, Linked, Linked, ih, headD_append, List.getLastD_cons]; tauto

theorem Linked.neighbours (h : Linked prev next p (xs ++ x :: ys) q) :
    prev x = xs.getLastD p ∧ next x = ys.headD q := by
  have hx := (linked_append.mp h).2
  exact ⟨hx.1, hx.2.1⟩

/-- Links that end in `q` determine the nodes from the first one on. -/
theorem Linked.unique {p' : A} (h : Linked prev next p xs q) (h' : Linked prev next p' ys q)
    (hxs : q ∉ xs) (hys : q ∉ ys) (hhead : xs.headD q = ys.headD q) : xs = ys := by
  induction xs generalizing p p' ys with
  | nil =>
    cases ys with
    | nil => rfl
    | cons y ys =>
      obtain rfl : q = y := hhead
      exact absurd List.mem_cons_self hys
  | cons x xs ih =>
    cases ys with
    | nil =>
      obtain rfl : x = q := hhead
      exact absurd List.mem_cons_self hxs
    | cons y ys =>
      obtain rfl : x = y := hhead
      obtain ⟨-, hx, hrest⟩ := h
      obtain ⟨-, hy, hrest'⟩ := h'
      rw [List.mem_cons, not_or] at hxs hys
      rw [ih hrest hrest' hxs.2 hys.2 (hx.symm.trans hy)]

/-- Other links that differ at the two ends only link the same nodes between other ends. -/
theorem Linked.relink {p' q' : A} (h : Linked prev next p xs q)
    (hhead : ∀ x, xs.head? = some x → prev' x = p') (htail : ∀ x ∈ xs.tail, prev' x = prev x)
    (hlast : ∀ x, xs.getLast? = some x → next' x = q')
    (hinit : ∀ x ∈ xs.dropLast, next' x = next x) : Linked prev' next' p' xs q' := by
  induction xs generalizing p p' with
  | nil => trivial
  | cons x xs ih =>
    obtain ⟨-, hnext, hrest⟩ := h
    refine ⟨hhead x rfl, ?_, ?_⟩
    · cases xs with
      | nil => exact hlast x rfl
      | cons y ys => exact (hinit x (by simp)).trans hnext
    · apply ih hrest
      · intro y hy
        have hmem : y ∈ xs := List.mem_of_mem_head? hy
        cases xs with
        | nil => cases hmem
        | cons z zs =>
          cases hy
          exact (htail y List.mem_cons_self).trans hrest.1
      · exact fun y hy => htail y (List.mem_of_mem_tail hy)
      · intro y hy
        apply hlast
        cases xs with
        | nil => cases hy
        | cons z zs => rw [List.getLast?_cons_cons]; exact hy
      · intro y hy
        apply hinit
        cases xs with
        | nil => cases hy
        | cons z zs => rw [List.dropLast_cons_cons]; exact List.mem_cons_of_mem _ hy

theorem Linked.congr (h : Linked prev next p xs q) (hprev : ∀ x ∈ xs, prev' x = prev x)
    (hnext : ∀ x ∈ xs, next' x = next x) : Linked prev' next' p xs q := by
  induction xs generalizing p with
  | nil => trivial
  | cons x xs ih =>
    obtain ⟨hp, hq, hrest⟩ := h
    refine ⟨(hprev x List.mem_cons_self).trans hp, (hnext x List.mem_cons_self).trans hq, ?_⟩
    apply ih hrest
    · exact fun y hy => hprev y (List.mem_cons_of_mem _ hy)
    · exact fun y hy => hnext y (List.mem_cons_of_mem _ hy)

/-- The links of a list that was cut in two: every node has kept its links, but the last
node of the front part and the first one of the back part. -/
structure Relinked (prev next prev' next' : A → A) (xs ys : List A) (before after : A) : Prop where
  next_last : ∀ x, xs.getLast? = some x → next' x = after
  prev_head : ∀ y, ys.head? = some y → prev' y = before
  prev_keep : ∀ x ∈ xs ++ ys, ys.head? ≠ some x → prev' x = prev x
  next_keep : ∀ x ∈ xs ++ ys, xs.getLast? ≠ some x → next' x = next x

theorem Relinked.parts {before after r s : A} (hxs : Linked prev next p xs r)
    (hys : Linked prev next s ys q) (hnodup : (xs ++ ys).Nodup)
    (hnew : Relinked prev next prev' next' xs ys before after) :
    Linked prev' next' p xs after ∧ Linked prev' next' before ys q := by
  obtain ⟨hnx, hny, hdisj⟩ := List.nodup_append'.mp hnodup
  have hprev : ∀ x ∈ xs, prev' x = prev x := by
    intro x hx
    apply hnew.prev_keep x (List.mem_append_left _ hx)
    exact fun hy => hdisj hx (List.mem_of_mem_head? hy)
  have hnext : ∀ y ∈ ys, next' y = next y := by
    intro y hy
    apply hnew.next_keep y (List.mem_append_right _ hy)
    exact fun hx => hdisj (List.mem_of_mem_getLast? hx) hy
  constructor
  · apply hxs.relink
    · intro x hx
      rw [hprev x (List.mem_of_mem_head? hx)]
      cases xs with
      | nil => cases hx
      | cons z zs => cases hx; exact hxs.1
    · exact fun x hx => hprev x (List.mem_of_mem_tail hx)
    · exact hnew.next_last
    · intro x hx
      apply hnew.next_keep x (List.mem_append_left _ (List.mem_of_mem_dropLast hx))
      intro hlast
      have hsplit := List.dropLast_append_getLast? x hlast
      rw [← hsplit, List.nodup_append'] at hnx
      exact hnx.2.2 hx (List.mem_singleton_self x)
  · apply hys.relink
    · exact hnew.prev_head
    · intro y hy
      apply hnew.prev_keep y (List.mem_append_right _ (List.mem_of_mem_tail hy))
      intro hhead
      cases ys with
      | nil => cases hhead
      | cons z zs =>
        cases hhead
        exact (List.nodup_cons.mp hny).1 hy
    · intro y hy
      rw [hnext y (List.mem_of_mem_getLast? hy)]
      have hsplit := List.dropLast_append_getLast? y hy
      rw [← hsplit] at hys
      exact hys.neighbours.2
    · exact fun y hy => hnext y (List.mem_of_mem_dropLast hy)

theorem Linked.insert (h : Linked prev next p (xs ++ ys) q) (hnodup : (xs ++ ys).Nodup)
    (hprev : prev' x = xs.getLastD p) (hnext : next' x = ys.headD q)
    (hnew : Relinked prev next prev' next' xs ys x x) :
    Linked prev' next' p (xs ++ x :: ys) q := by
  obtain ⟨hxs, hys⟩ := linked_append.mp h
  obtain ⟨hxs', hys'⟩ := hnew.parts hxs hys hnodup
  exact linked_append.mpr ⟨hxs', hprev, hnext, hys'⟩

theorem Linked.remove (h : Linked prev next p (xs ++ x :: ys) q) (hnodup : (xs ++ ys).Nodup)
    (hnew : Relinked prev next prev' next' xs ys (xs.getLastD p) (ys.headD q)) :
    Linked prev' next' p (xs ++ ys) q := by
  obtain ⟨hxs, -, -, hys⟩ := linked_append.mp h
  exact linked_append.mpr (hnew.parts hxs hys hnodup)

theorem mem_of_split {l : List A} (hnodup : l.Nodup) (hl : l = xs ++ x :: ys) {y : A}
    (hy : y ∈ xs ++ ys) : y ∈ l ∧ y ≠ x := by
  subst hl
  have hx := (List.nodup_cons.mp (List.nodup_middle.mp hnodup)).1
  refine ⟨List.perm_middle.mem_iff.mpr (List.mem_cons_of_mem _ hy), ?_⟩
  rintro rfl
  exact hx hy

end Linked

end Olive.Library
