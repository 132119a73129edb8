import Mathlib.Tactic

/-!
# Spans packed into an interval

Elements of any type that occupy spans of the natural numbers lie in order between two
bounds and do not overlap. A list of them is cut in two where a new span is to go; the gap
there reaches from the end of the front part to the start of the back part.
-/

namespace Olive.Library

variable {A : Type*} (start stop : A → ℕ)

/-- The spans of the elements lie in order between `lo` and `hi`. -/
def Packed : ℕ → List A → ℕ → Prop
  | lo, [], hi => lo ≤ hi
  | lo, x :: xs, hi => lo ≤ start x ∧ start x ≤ stop x ∧ Packed (stop x) xs hi

def endOf (lo : ℕ) (xs : List A) : ℕ := (xs.getLast?.map stop).getD lo

def startOf (xs : List A) (hi : ℕ) : ℕ := (xs.head?.map start).getD hi

variable {start stop} {lo hi : ℕ} {x : A} {xs ys : List A}

@[simp] theorem endOf_nil : endOf stop lo [] = lo := rfl

@[simp] theorem startOf_nil : startOf start [] hi = hi := rfl

@[simp] theorem startOf_cons : startOf start (x :: xs) hi = start x := rfl

theorem endOf_cons : endOf stop lo (x :: xs) = endOf stop (stop x) xs := by
  cases xs with
  | nil => rfl
  | cons y ys =>
    unfold endOf
    rw [List.getLast?_cons_cons]
    cases h : (y :: ys).getLast? with
    | none => simp at h
    | some z => rfl

@[simp] theorem endOf_concat : endOf stop lo (xs ++ [x]) = stop x := by
  simp [endOf]

theorem Packed.le (h : Packed start stop lo xs hi) : lo ≤ hi := by
  induction xs generalizing lo with
  | nil => exact h
  | cons x xs ih =>
    obtain ⟨hlo, hx, hrest⟩ := h
    exact hlo.trans (hx.trans (ih hrest))

/-- The parts of a packed list are packed, and there is a gap between them, if an empty one. -/
theorem packed_append : Packed start stop lo (xs ++ ys) hi ↔
    Packed start stop lo xs (startOf start ys hi) ∧
      Packed start stop (endOf stop lo xs) ys hi := by
  induction xs generalizing lo with
  | nil =>
    simp only [List.nil_append, endOf_nil, Packed]
    constructor
    · intro h
      refine ⟨?_, h⟩
      cases ys with
      | nil => exact h
      | cons y ys => exact h.1
    · exact And.right
  | cons x xs ih => rw [List.cons_append, Packed, Packed, ih, endOf_cons]; tauto

theorem Packed.mono {lo' hi' : ℕ} (h : Packed start stop lo xs hi) (hlo : lo' ≤ lo) (hhi : hi ≤ hi') :
    Packed start stop lo' xs hi' := by
  induction xs generalizing lo lo' with
  | nil => exact hlo.trans (h.trans hhi)
  | cons x xs ih => exact ⟨hlo.trans h.1, h.2.1, ih h.2.2 le_rfl⟩

theorem Packed.shrink (h : Packed start stop lo xs hi) :
    Packed start stop lo xs (endOf stop lo xs) := by
  induction xs generalizing lo with
  | nil => exact le_rfl
  | cons x xs ih =>
    rw [endOf_cons]
    exact ⟨h.1, h.2.1, ih h.2.2⟩

theorem Packed.insert (h : Packed start stop lo (xs ++ ys) hi) (hlo : endOf stop lo xs ≤ start x)
    (hx : start x ≤ stop x) (hhi : stop x ≤ startOf start ys hi) :
    Packed start stop lo (xs ++ x :: ys) hi := by
  obtain ⟨hxs, hys⟩ := packed_append.mp h
  apply packed_append.mpr
  refine ⟨hxs.shrink.mono le_rfl hlo, hlo, hx, ?_⟩
  cases ys with
  | nil => exact hhi
  | cons y ys => exact ⟨hhi, hys.2⟩

theorem Packed.sublist (h : Packed start stop lo ys hi) (hsub : xs.Sublist ys) :
    Packed start stop lo xs hi := by
  induction hsub generalizing lo with
  | slnil => exact h
  | cons y _ ih => exact (ih h.2.2).mono (h.1.trans h.2.1) le_rfl
  | cons_cons y _ ih => exact ⟨h.1, h.2.1, ih h.2.2⟩

theorem Packed.remove (h : Packed start stop lo (xs ++ x :: ys) hi) :
    Packed start stop lo (xs ++ ys) hi :=
  h.sublist ((List.sublist_cons_self x ys).append_left xs)

theorem Packed.bounds (h : Packed start stop lo xs hi) (hx : x ∈ xs) :
    lo ≤ start x ∧ start x ≤ stop x ∧ stop x ≤ hi := by
  induction xs generalizing lo with
  | nil => cases hx
  | cons y ys ih =>
    rcases List.mem_cons.mp hx with rfl | hx
    · exact ⟨h.1, h.2.1, h.2.2.le⟩
    · obtain ⟨hlo, hmid, hhi⟩ := ih h.2.2 hx
      exact ⟨h.1.trans (h.2.1.trans hlo), hmid, hhi⟩

theorem Packed.pairwise (h : Packed start stop lo xs hi) :
    xs.Pairwise fun x y => stop x ≤ start y := by
  induction xs generalizing lo with
  | nil => exact .nil
  | cons x xs ih => exact .cons (fun y hy => (h.2.2.bounds hy).1) (ih h.2.2)

theorem Packed.sum_le (h : Packed start stop lo xs hi) :
    lo + (xs.map fun x => stop x - start x).sum ≤ hi := by
  induction xs generalizing lo with
  | nil => simpa [Packed] using h
  | cons x xs ih =>
    have hrest := ih h.2.2
    have hlo := h.1
    have hx := h.2.1
    rw [List.map_cons, List.sum_cons]
    omega

/-- A gap is no longer than what the spans leave of the interval. -/
theorem Packed.gap_le (h : Packed start stop lo (xs ++ ys) hi) :
    startOf start ys hi + ((xs ++ ys).map fun x => stop x - start x).sum + lo ≤
      endOf stop lo xs + hi := by
  obtain ⟨hxs, hys⟩ := packed_append.mp h
  have hfront := hxs.shrink.sum_le
  have hback : startOf start ys hi + (ys.map fun x => stop x - start x).sum ≤ hi := by
    cases ys with
    | nil => simp
    | cons y ys =>
      have hsum := hys.2.2.sum_le
      have hy := hys.2.1
      rw [startOf_cons, List.map_cons, List.sum_cons]
      omega
  rw [List.map_append, List.sum_append]
  omega

end Olive.Library
