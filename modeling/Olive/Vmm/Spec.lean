import Olive.Vmm.Tree

/-!
# What the functions of `vmm.c` do to the forest of tables

A forced lookup grows the forest by at most three tables, one on each level that
was missing, and stops at the first level the page allocator refuses. `vmm_map`
then writes one leaf entry, or none if it has no page table. A lookup without
force changes nothing. The page allocator is any one whose frames are new.
-/

namespace Olive

open Library

variable {σ : Type} [PageAllocator σ]

/-- The answer to the `k`-th of a sequence of requests for one page. -/
def served : σ → ℕ → Word
  | a, 0 => (PageAllocator.requestPages a 1).1
  | a, k + 1 => served (PageAllocator.requestPages a 1).2 k

/-- Single pages are served with aligned frames below 2^52 which are different from
each other and not in `used`, or they are refused. -/
structure ServesFrames (a : σ) (used : Set Frame) : Prop where
  frame : ∀ k, served a k ≠ 0 → ∃ f, f ∉ used ∧ served a k = frameAddr f
  distinct : ∀ j k, j < k → served a j ≠ 0 → served a j ≠ served a k

theorem ServesFrames.next {a : σ} {used : Set Frame} (h : ServesFrames a used) :
    ServesFrames (PageAllocator.requestPages a 1).2 used where
  frame k := h.frame (k + 1)
  distinct j k hjk := h.distinct (j + 1) (k + 1) (by omega)

theorem ServesFrames.first {a : σ} {used : Set Frame} (h : ServesFrames a used)
    (hserved : (PageAllocator.requestPages a 1).1 ≠ 0) :
    ∃ f, f ∉ used ∧ (PageAllocator.requestPages a 1).1 = frameAddr f ∧
      ServesFrames (PageAllocator.requestPages a 1).2 (insert f used) := by
  obtain ⟨f, hf, heq⟩ := h.frame 0 hserved
  refine ⟨f, hf, heq, fun k hk => ?_, h.next.distinct⟩
  obtain ⟨g, hg, hgeq⟩ := h.next.frame k hk
  refine ⟨g, ?_, hgeq⟩
  rintro (rfl | hin)
  · exact h.distinct 0 (k + 1) (Nat.succ_pos k) hserved (heq.trans hgeq.symm)
  · exact hg hin

section Growth

variable (hhdmOffset : Word) (roots : Set Frame)

def InUse (m : Memory 64) : Set Frame :=
  { f | Reached (child (tables hhdmOffset m)) roots 3 f }

/-- The invariant of the state: the tables form a forest and the page allocator
does not hand out a table in use. -/
structure VmmInv (s : Vmm σ) : Prop where
  tree : TreeInv hhdmOffset roots (tables hhdmOffset s.mem)
  serves : ServesFrames s.pmm (InUse hhdmOffset roots s.mem)

def Vmm.refuse (s : Vmm σ) : Vmm σ :=
  { s with pmm := (PageAllocator.requestPages s.pmm 1).2 }.report belowPmlReport

/-- One request for a table: refused, or served and linked. -/
inductive Grow (s : Vmm σ) : Vmm σ → Prop
  | refused (hreq : (PageAllocator.requestPages s.pmm 1).1 = 0) : Grow s s.refuse
  | linked {r f : Frame} {p : List Index} {i : Index} {m : Memory 64}
      (hreq : (PageAllocator.requestPages s.pmm 1).1 = frameAddr f) (hf : frameAddr f ≠ 0)
      (hlink : Linked hhdmOffset roots (tables hhdmOffset s.mem) (tables hhdmOffset m) r p i f) :
      Grow s { s with pmm := (PageAllocator.requestPages s.pmm 1).2, mem := m }

/-- What one forced lookup can do: at most one request on each of three levels. -/
def Grown (s s' : Vmm σ) : Prop :=
  ∃ s₁ s₂, Relation.ReflGen (Grow hhdmOffset roots) s s₁ ∧
    Relation.ReflGen (Grow hhdmOffset roots) s₁ s₂ ∧ Relation.ReflGen (Grow hhdmOffset roots) s₂ s'

variable {hhdmOffset roots} {s s' : Vmm σ}

theorem Grow.inv (hinv : VmmInv hhdmOffset roots s) (h : Grow hhdmOffset roots s s') :
    VmmInv hhdmOffset roots s' := by
  cases h with
  | refused hreq => exact ⟨hinv.tree, hinv.serves.next⟩
  | @linked r f p i m hreq hf hlink =>
    refine ⟨hlink.treeInv hinv.tree, ?_⟩
    obtain ⟨g, -, heq, hserves⟩ := hinv.serves.first (hreq.symm ▸ hf)
    obtain rfl : g = f := frameAddr_injective (heq.symm.trans hreq)
    have huse : InUse hhdmOffset roots m = insert g (InUse hhdmOffset roots s.mem) :=
      Set.ext fun n => hlink.reached_iff hinv.tree n
    exact huse ▸ hserves

theorem Grown.induct {Q : Vmm σ → Prop}
    (hstep : ∀ s s', VmmInv hhdmOffset roots s → Q s → Grow hhdmOffset roots s s' → Q s')
    (hinv : VmmInv hhdmOffset roots s) (hQ : Q s) (h : Grown hhdmOffset roots s s') :
    VmmInv hhdmOffset roots s' ∧ Q s' := by
  have hone : ∀ {s s' : Vmm σ}, VmmInv hhdmOffset roots s ∧ Q s →
      Relation.ReflGen (Grow hhdmOffset roots) s s' → VmmInv hhdmOffset roots s' ∧ Q s' := by
    intro s s' hs h
    cases h with
    | refl => exact hs
    | single h => exact ⟨h.inv hs.1, hstep s s' hs.1 hs.2 h⟩
  obtain ⟨s₁, s₂, h₁, h₂, h₃⟩ := h
  exact hone (hone (hone ⟨hinv, hQ⟩ h₁) h₂) h₃

theorem Grow.walk_eq (hinv : VmmInv hhdmOffset roots s) (h : Grow hhdmOffset roots s s')
    {r : Frame} (hr : r ∈ roots) (page : Page) :
    walk (tables hhdmOffset s'.mem) r page = walk (tables hhdmOffset s.mem) r page := by
  cases h with
  | refused => rfl
  | linked hreq hf hlink => exact hlink.walk_eq hinv.tree hr page

theorem Grow.follow_mono (hinv : VmmInv hhdmOffset roots s) (h : Grow hhdmOffset roots s s')
    {r f : Frame} (hr : r ∈ roots) {q : List Index} (hq : q.length ≤ 3)
    (hf : follow (child (tables hhdmOffset s.mem)) r q = some f) :
    follow (child (tables hhdmOffset s'.mem)) r q = some f := by
  cases h with
  | refused => exact hf
  | linked hreq hf' hlink => exact hlink.follow_mono hinv.tree hr hq hf

theorem Grown.walk_eq (hinv : VmmInv hhdmOffset roots s) (h : Grown hhdmOffset roots s s')
    {r : Frame} (hr : r ∈ roots) (page : Page) :
    walk (tables hhdmOffset s'.mem) r page = walk (tables hhdmOffset s.mem) r page :=
  (h.induct (Q := fun t => walk (tables hhdmOffset t.mem) r page = _)
    (fun _ _ hi hQ hg => (hg.walk_eq hi hr page).trans hQ) hinv rfl).2

theorem Grown.follow_mono (hinv : VmmInv hhdmOffset roots s) (h : Grown hhdmOffset roots s s')
    {r f : Frame} (hr : r ∈ roots) {q : List Index} (hq : q.length ≤ 3)
    (hf : follow (child (tables hhdmOffset s.mem)) r q = some f) :
    follow (child (tables hhdmOffset s'.mem)) r q = some f :=
  (h.induct (Q := fun t => follow (child (tables hhdmOffset t.mem)) r q = some f)
    (fun _ _ hi hQ hg => hg.follow_mono hi hr hq hQ) hinv hf).2

end Growth

/-! ## `get_below_pml` -/

section Lookup

variable {hhdmOffset : Word} {roots : Set Frame} {s : Vmm σ}

theorem getBelowPml_read (f : Frame) (i : Index) :
    getBelowPml hhdmOffset s (tableAddr hhdmOffset f) (i.setWidth 64) false =
      ((child (tables hhdmOffset s.mem) f i).elim 0 (tableAddr hhdmOffset), s) := by
  have hentry : s.mem.load64 (tableAddr hhdmOffset f + i.setWidth 64 * 8) =
      tables hhdmOffset s.mem f i := rfl
  by_cases hpresent : Present (tables hhdmOffset s.mem f i)
  · have hchild : child (tables hhdmOffset s.mem) f i =
        some (frameOf (tables hhdmOffset s.mem f i)) := if_pos hpresent
    simp only [getBelowPml, hentry, and_frameMask, hchild]
    exact if_pos hpresent
  · simp only [getBelowPml, hentry, child_eq_none hpresent]
    exact (if_neg hpresent).trans rfl

/-- The outcomes of a forced `get_below_pml` for the slot `i` of the table at `p`. -/
inductive Below (hhdmOffset : Word) (roots : Set Frame) (s : Vmm σ) (r : Frame) (p : List Index)
    (i : Index) : Word × Vmm σ → Prop
  | existing {g : Frame} (hg : follow (child (tables hhdmOffset s.mem)) r (p ++ [i]) = some g) :
      Below hhdmOffset roots s r p i (tableAddr hhdmOffset g, s)
  | refused (hnone : follow (child (tables hhdmOffset s.mem)) r (p ++ [i]) = none)
      (hreq : (PageAllocator.requestPages s.pmm 1).1 = 0) :
      Below hhdmOffset roots s r p i (0, s.refuse)
  | linked {g : Frame} {m : Memory 64}
      (hreq : (PageAllocator.requestPages s.pmm 1).1 = frameAddr g) (hg : frameAddr g ≠ 0)
      (hlink : Linked hhdmOffset roots (tables hhdmOffset s.mem) (tables hhdmOffset m) r p i g) :
      Below hhdmOffset roots s r p i (tableAddr hhdmOffset g,
        { s with pmm := (PageAllocator.requestPages s.pmm 1).2, mem := m })

theorem getBelowPml_spec (hinv : VmmInv hhdmOffset roots s) {r f : Frame} (hr : r ∈ roots)
    {p : List Index} (hp : p.length < 3)
    (hf : follow (child (tables hhdmOffset s.mem)) r p = some f)
    (hptr : p = [] ∨ tableAddr hhdmOffset f ≠ 0) (i : Index) :
    Below hhdmOffset roots s r p i
      (getBelowPml hhdmOffset s (tableAddr hhdmOffset f) (i.setWidth 64) true) := by
  have hentry : s.mem.load64 (tableAddr hhdmOffset f + i.setWidth 64 * 8) =
      tables hhdmOffset s.mem f i := rfl
  have hbelow : follow (child (tables hhdmOffset s.mem)) r (p ++ [i]) =
      child (tables hhdmOffset s.mem) f i := by
    rw [follow_concat, hf]
    rfl
  by_cases hpresent : Present (tables hhdmOffset s.mem f i)
  · have hres : getBelowPml hhdmOffset s (tableAddr hhdmOffset f) (i.setWidth 64) true =
        (tableAddr hhdmOffset (frameOf (tables hhdmOffset s.mem f i)), s) := by
      simp only [getBelowPml, hentry, and_frameMask]
      exact if_pos hpresent
    rw [hres]
    exact .existing (hbelow.trans (if_pos hpresent))
  · by_cases hzero : (PageAllocator.requestPages s.pmm 1).1 = 0
    · have hres : getBelowPml hhdmOffset s (tableAddr hhdmOffset f) (i.setWidth 64) true =
          (0, s.refuse) := by
        simp only [getBelowPml, hentry, hzero]
        exact if_neg hpresent
      rw [hres]
      exact .refused (hbelow.trans (child_eq_none hpresent)) hzero
    · obtain ⟨g, hfresh, heq, -⟩ := hinv.serves.first hzero
      have hgzero : frameAddr g ≠ 0 := heq ▸ hzero
      have hslot : tableAddr hhdmOffset f + i.setWidth 64 * 8 = slotAddr hhdmOffset f i := rfl
      have hres : getBelowPml hhdmOffset s (tableAddr hhdmOffset f) (i.setWidth 64) true =
          (tableAddr hhdmOffset g, { s with
            pmm := (PageAllocator.requestPages s.pmm 1).2
            mem := (memset s.mem (tableAddr hhdmOffset g) 0 pageSize.toNat).store64
              (slotAddr hhdmOffset f i) (tableEntry g) }) := by
        simp only [getBelowPml, hslot, heq, if_neg hgzero]
        exact if_neg hpresent
      rw [hres]
      refine .linked heq hgzero ⟨hr, hp, ⟨f, hf, hptr, hpresent, ?_⟩, hfresh⟩
      rw [tables_store64, tables_memset]

/-- The outcome grows the forest, and an answer that is not `NULL` is the table. -/
theorem Below.spec {r : Frame} {p : List Index} {i : Index} {ptr : Word} {s' : Vmm σ}
    (hinv : VmmInv hhdmOffset roots s) (hr : r ∈ roots)
    (h : Below hhdmOffset roots s r p i (ptr, s')) :
    Relation.ReflGen (Grow hhdmOffset roots) s s' ∧
      (ptr ≠ 0 → ∃ g, ptr = tableAddr hhdmOffset g ∧
        follow (child (tables hhdmOffset s'.mem)) r (p ++ [i]) = some g) := by
  cases h with
  | existing hg => exact ⟨.refl, fun _ => ⟨_, rfl, hg⟩⟩
  | refused _ hreq => exact ⟨.single (.refused hreq), fun h => absurd rfl h⟩
  | linked hreq hg hlink =>
    refine ⟨.single (.linked hreq hg hlink), fun _ => ⟨_, rfl, ?_⟩⟩
    rw [hlink.follow_eq hinv.tree hr (by simpa using hlink.depth)]
    exact if_pos ⟨rfl, rfl⟩

end Lookup

/-! ## `pml4_to_pt` -/

section PageTable

variable {hhdmOffset : Word} {roots : Set Frame} {s : Vmm σ} {r : Frame}

theorem Grown.of_reflGen {s s₁ s₂ s₃ : Vmm σ} (h₁ : Relation.ReflGen (Grow hhdmOffset roots) s s₁)
    (h₂ : Relation.ReflGen (Grow hhdmOffset roots) s₁ s₂)
    (h₃ : Relation.ReflGen (Grow hhdmOffset roots) s₂ s₃) : Grown hhdmOffset roots s s₃ :=
  ⟨s₁, s₂, h₁, h₂, h₃⟩

theorem pml4ToPt_spec (hinv : VmmInv hhdmOffset roots s) (hr : r ∈ roots) (virt : Word)
    {pt : Word} {s' : Vmm σ}
    (h : pml4ToPt hhdmOffset s (tableAddr hhdmOffset r) virt true = (pt, s')) :
    Grown hhdmOffset roots s s' ∧ VmmInv hhdmOffset roots s' ∧
      (pt ≠ 0 → ∃ f, pt = tableAddr hhdmOffset f ∧
        follow (child (tables hhdmOffset s'.mem)) r (pathOf (pageOf virt)) = some f) := by
  have hkeep : ∀ {s s' : Vmm σ}, VmmInv hhdmOffset roots s →
      Relation.ReflGen (Grow hhdmOffset roots) s s' → VmmInv hhdmOffset roots s' := by
    intro s s' hs h
    cases h with
    | refl => exact hs
    | single h => exact h.inv hs
  rw [pml4ToPt, tableIndex_pml4, tableIndex_pdpt, tableIndex_pd] at h
  have h₁ := getBelowPml_spec hinv hr (p := []) (by simp) rfl (.inl rfl) (pml4Index (pageOf virt))
  generalize getBelowPml hhdmOffset s (tableAddr hhdmOffset r)
    ((pml4Index (pageOf virt)).setWidth 64) true = res₁ at h h₁
  obtain ⟨pdpt, s₁⟩ := res₁
  obtain ⟨hgrow₁, hptr₁⟩ := h₁.spec hinv hr
  have hinv₁ := hkeep hinv hgrow₁
  simp only at h
  by_cases hzero₁ : pdpt = 0
  · rw [if_pos hzero₁] at h
    cases h
    exact ⟨.of_reflGen hgrow₁ .refl .refl, hinv₁, fun h => absurd rfl h⟩
  rw [if_neg hzero₁] at h
  obtain ⟨f₁, rfl, hf₁⟩ := hptr₁ hzero₁
  have h₂ := getBelowPml_spec hinv₁ hr (by simp) hf₁ (.inr hzero₁) (pdptIndex (pageOf virt))
  generalize getBelowPml hhdmOffset s₁ (tableAddr hhdmOffset f₁)
    ((pdptIndex (pageOf virt)).setWidth 64) true = res₂ at h h₂
  obtain ⟨pd, s₂⟩ := res₂
  obtain ⟨hgrow₂, hptr₂⟩ := h₂.spec hinv₁ hr
  have hinv₂ := hkeep hinv₁ hgrow₂
  simp only at h
  by_cases hzero₂ : pd = 0
  · rw [if_pos hzero₂] at h
    cases h
    exact ⟨.of_reflGen hgrow₁ hgrow₂ .refl, hinv₂, fun h => absurd rfl h⟩
  rw [if_neg hzero₂] at h
  obtain ⟨f₂, rfl, hf₂⟩ := hptr₂ hzero₂
  have h₃ := getBelowPml_spec hinv₂ hr (by simp) hf₂ (.inr hzero₂) (pdIndex (pageOf virt))
  rw [h] at h₃
  obtain ⟨hgrow₃, hptr₃⟩ := h₃.spec hinv₂ hr
  exact ⟨.of_reflGen hgrow₁ hgrow₂ hgrow₃, hkeep hinv₂ hgrow₃, hptr₃⟩

/-- Without force nothing changes. The answer is the page table, and it is `NULL`
only if the page has no translation. -/
theorem pml4ToPt_read (hinv : VmmInv hhdmOffset roots s) (hr : r ∈ roots) (virt : Word) :
    ∃ pt, pml4ToPt hhdmOffset s (tableAddr hhdmOffset r) virt false = (pt, s) ∧
      (pt = 0 → walk (tables hhdmOffset s.mem) r (pageOf virt) = none) ∧
      (pt ≠ 0 → ∃ f, pt = tableAddr hhdmOffset f ∧
        follow (child (tables hhdmOffset s.mem)) r (pathOf (pageOf virt)) = some f) := by
  -- a missing table and a table at address 0 end the walk alike
  have hstuck : ∀ {q : List Index} {f : Frame}, q ≠ [] → q.length ≤ 3 →
      follow (child (tables hhdmOffset s.mem)) r q = some f → tableAddr hhdmOffset f = 0 →
      ∀ i, ¬ Present (tables hhdmOffset s.mem f i) :=
    fun hq hlen hf hnull => hinv.tree.null_empty r hr _ _ hq hlen hf hnull
  have hmissing : follow (child (tables hhdmOffset s.mem)) r (pathOf (pageOf virt)) = none →
      walk (tables hhdmOffset s.mem) r (pageOf virt) = none := by
    intro h
    rw [walk, h]
    rfl
  rw [pml4ToPt, tableIndex_pml4, tableIndex_pdpt, tableIndex_pd]
  cases h₁ : child (tables hhdmOffset s.mem) r (pml4Index (pageOf virt)) with
  | none =>
    rw [getBelowPml_read, h₁]
    refine ⟨0, rfl, fun _ => hmissing ?_, fun h => absurd rfl h⟩
    simp [pathOf, h₁]
  | some f₁ =>
    have hf₁ : follow (child (tables hhdmOffset s.mem)) r [pml4Index (pageOf virt)] = some f₁ := by
      simp [h₁]
    rw [getBelowPml_read, h₁, Option.elim_some]
    by_cases hzero₁ : tableAddr hhdmOffset f₁ = 0
    · refine ⟨0, if_pos hzero₁, fun _ => hmissing ?_, fun h => absurd rfl h⟩
      simp [pathOf, h₁, child_eq_none (hstuck (by simp) (by simp) hf₁ hzero₁ _)]
    simp only [if_neg hzero₁]
    cases h₂ : child (tables hhdmOffset s.mem) f₁ (pdptIndex (pageOf virt)) with
    | none =>
      rw [getBelowPml_read, h₂]
      refine ⟨0, rfl, fun _ => hmissing ?_, fun h => absurd rfl h⟩
      simp [pathOf, h₁, h₂]
    | some f₂ =>
      have hf₂ : follow (child (tables hhdmOffset s.mem)) r
          [pml4Index (pageOf virt), pdptIndex (pageOf virt)] = some f₂ := by
        simp [h₁, h₂]
      rw [getBelowPml_read, h₂, Option.elim_some]
      by_cases hzero₂ : tableAddr hhdmOffset f₂ = 0
      · refine ⟨0, if_pos hzero₂, fun _ => hmissing ?_, fun h => absurd rfl h⟩
        simp [pathOf, h₁, h₂, child_eq_none (hstuck (by simp) (by simp) hf₂ hzero₂ _)]
      rw [if_neg hzero₂, getBelowPml_read]
      cases h₃ : child (tables hhdmOffset s.mem) f₂ (pdIndex (pageOf virt)) with
      | none =>
        refine ⟨0, rfl, fun _ => hmissing ?_, fun h => absurd rfl h⟩
        simp [pathOf, h₁, h₂, h₃]
      | some f₃ =>
        have hf₃ : follow (child (tables hhdmOffset s.mem)) r (pathOf (pageOf virt)) = some f₃ := by
          simp [pathOf, h₁, h₂, h₃]
        refine ⟨tableAddr hhdmOffset f₃, rfl, fun hzero => ?_, fun _ => ⟨f₃, rfl, hf₃⟩⟩
        rw [walk, hf₃]
        exact if_neg (hstuck (by simp [pathOf]) le_rfl hf₃ hzero _)

end PageTable

/-! ## `vmm_map` and `vmm_unmap` -/

section Map

variable {hhdmOffset : Word} {roots : Set Frame} {s : Vmm σ} {r : Frame}

/-- The call `vmm_map` gets a page table for the address. -/
def ObtainsTables (hhdmOffset : Word) (s : Vmm σ) (pm : Pagemap) (virt : Word) : Prop :=
  (pml4ToPt hhdmOffset s pm.pml4 virt true).1 ≠ 0

instance (s : Vmm σ) (pm : Pagemap) (virt : Word) : Decidable (ObtainsTables hhdmOffset s pm virt) :=
  inferInstanceAs (Decidable (_ ≠ _))

theorem VmmInv.set {s s' : Vmm σ} {pt : Frame} {page : Page} {e : Word}
    (hinv : VmmInv hhdmOffset roots s) (hr : r ∈ roots)
    (hpt : follow (child (tables hhdmOffset s.mem)) r (pathOf page) = some pt)
    (hptr : tableAddr hhdmOffset pt ≠ 0)
    (hmem : tables hhdmOffset s'.mem = (tables hhdmOffset s.mem).set pt (ptIndex page) e)
    (hserves : ServesFrames s'.pmm (InUse hhdmOffset roots s.mem)) :
    VmmInv hhdmOffset roots s' := by
  refine ⟨hmem ▸ hinv.tree.set hr hpt hptr, ?_⟩
  have huse : InUse hhdmOffset roots s'.mem = InUse hhdmOffset roots s.mem := by
    ext n
    simp only [InUse, Set.mem_ofPred_eq, Reached, hmem]
    constructor
    · rintro ⟨r', hr', q, hq, hn⟩
      exact ⟨r', hr', q, hq, (follow_set hinv.tree hr hpt hr' hq).symm.trans hn⟩
    · rintro ⟨r', hr', q, hq, hn⟩
      exact ⟨r', hr', q, hq, (follow_set hinv.tree hr hpt hr' hq).trans hn⟩
  exact huse ▸ hserves

/-- `vmm_map` grows the forest; if it has obtained its tables it writes the leaf
entry of the page, otherwise it reports that it has none. -/
theorem vmmMap_spec (hinv : VmmInv hhdmOffset roots s) (hr : r ∈ roots) (virt phys flags : Word) :
    ∃ s₁, Grown hhdmOffset roots s s₁ ∧ VmmInv hhdmOffset roots s₁ ∧
      ((ObtainsTables hhdmOffset s ⟨tableAddr hhdmOffset r⟩ virt ∧ ∃ pt m,
          follow (child (tables hhdmOffset s₁.mem)) r (pathOf (pageOf virt)) = some pt ∧
          tableAddr hhdmOffset pt ≠ 0 ∧
          tables hhdmOffset m =
            (tables hhdmOffset s₁.mem).set pt (ptIndex (pageOf virt)) (phys ||| flags) ∧
          vmmMap hhdmOffset s ⟨tableAddr hhdmOffset r⟩ virt phys flags = { s₁ with mem := m }) ∨
        (¬ ObtainsTables hhdmOffset s ⟨tableAddr hhdmOffset r⟩ virt ∧
          vmmMap hhdmOffset s ⟨tableAddr hhdmOffset r⟩ virt phys flags =
            s₁.report pageTableReport)) := by
  unfold ObtainsTables vmmMap
  generalize hres : pml4ToPt hhdmOffset s (tableAddr hhdmOffset r) virt true = res
  obtain ⟨pt, s₁⟩ := res
  obtain ⟨hgrown, hinv₁, hpt⟩ := pml4ToPt_spec hinv hr virt hres
  refine ⟨s₁, hgrown, hinv₁, ?_⟩
  simp only
  by_cases hzero : pt = 0
  · exact .inr ⟨not_not.mpr hzero, if_pos hzero⟩
  · obtain ⟨f, rfl, hf⟩ := hpt hzero
    refine .inl ⟨hzero, f, _, hf, hzero, ?_, if_neg hzero⟩
    rw [tableIndex_pt]
    exact tables_store64 hhdmOffset _ _ _ _

theorem vmmMap_inv (hinv : VmmInv hhdmOffset roots s) (hr : r ∈ roots) (virt phys flags : Word) :
    VmmInv hhdmOffset roots (vmmMap hhdmOffset s ⟨tableAddr hhdmOffset r⟩ virt phys flags) := by
  obtain ⟨s₁, -, hinv₁, ⟨-, pt, m, hpt, hptr, hm, heq⟩ | ⟨-, heq⟩⟩ :=
    vmmMap_spec hinv hr virt phys flags
  · rw [heq]
    exact hinv₁.set hr hpt hptr hm hinv₁.serves
  · rw [heq]
    exact ⟨hinv₁.tree, hinv₁.serves⟩

theorem vmmMap_walk (hinv : VmmInv hhdmOffset roots s) (hr : r ∈ roots) (virt phys flags : Word)
    {r' : Frame} (hr' : r' ∈ roots) (page : Page) :
    walk (tables hhdmOffset
        (vmmMap hhdmOffset s ⟨tableAddr hhdmOffset r⟩ virt phys flags).mem) r' page =
      if (r' = r ∧ page = pageOf virt) ∧ ObtainsTables hhdmOffset s ⟨tableAddr hhdmOffset r⟩ virt then
        if Present (phys ||| flags) then some (phys ||| flags) else none
      else walk (tables hhdmOffset s.mem) r' page := by
  obtain ⟨s₁, hgrown, hinv₁, ⟨hobt, pt, m, hpt, hptr, hm, heq⟩ | ⟨hobt, heq⟩⟩ :=
    vmmMap_spec hinv hr virt phys flags
  · rw [heq, hm, walk_set hinv₁.tree hr hpt hr', hgrown.walk_eq hinv hr']
    simp only [hobt, and_true]
  · rw [heq, if_neg fun h => hobt h.2]
    exact hgrown.walk_eq hinv hr' page

theorem vmmUnmap_spec (hinv : VmmInv hhdmOffset roots s) (hr : r ∈ roots) (virt : Word) :
    (walk (tables hhdmOffset s.mem) r (pageOf virt) = none ∧
        vmmUnmap hhdmOffset s ⟨tableAddr hhdmOffset r⟩ virt false = .ok (false, s)) ∨
      ∃ pt m, follow (child (tables hhdmOffset s.mem)) r (pathOf (pageOf virt)) = some pt ∧
        tableAddr hhdmOffset pt ≠ 0 ∧
        tables hhdmOffset m = (tables hhdmOffset s.mem).set pt (ptIndex (pageOf virt)) 0 ∧
        (∀ freePhys, vmmUnmap hhdmOffset s ⟨tableAddr hhdmOffset r⟩ virt freePhys =
          (if freePhys then PageAllocator.freePages s.pmm
              (frameAddr (frameOf (tables hhdmOffset s.mem pt (ptIndex (pageOf virt))))) 1
            else .ok s.pmm).map fun pmm => (true, { s with pmm := pmm, mem := m })) := by
  obtain ⟨pt, hres, hnone, hsome⟩ := pml4ToPt_read hinv hr virt
  by_cases hzero : pt = 0
  · refine .inl ⟨hnone hzero, ?_⟩
    simp only [vmmUnmap, hres]
    exact if_pos hzero
  · obtain ⟨f, rfl, hf⟩ := hsome hzero
    have hslot : tableAddr hhdmOffset f + tableIndex virt 12 * 8 =
        slotAddr hhdmOffset f (ptIndex (pageOf virt)) := by
      rw [tableIndex_pt]
      rfl
    refine .inr ⟨f, _, hf, hzero, tables_store64 hhdmOffset _ _ _ 0, fun freePhys => ?_⟩
    have hentry : s.mem.load64 (slotAddr hhdmOffset f (ptIndex (pageOf virt))) =
        tables hhdmOffset s.mem f (ptIndex (pageOf virt)) := rfl
    simp only [vmmUnmap, hres, hslot, hentry, and_frameMask]
    rw [if_neg hzero]
    cases freePhys with
    | false => rfl
    | true =>
      simp only [if_true]
      cases PageAllocator.freePages s.pmm
        (frameAddr (frameOf (tables hhdmOffset s.mem f (ptIndex (pageOf virt))))) 1 <;> rfl

end Map

/-! ## The PMM as the page allocator -/

section FromPmm

variable {a : Pmm}

theorem pmmRequestPages_one_nil (h : a.live = []) :
    pmmRequestPages a 1 = (0, a.report (outOfMemoryReport 1)) := by
  apply pmmRequestPages_refused
  right
  have hlen := congrArg List.length h
  rw [Pmm.length_live, List.length_nil] at hlen
  rw [BitVec.lt_def, hlen]
  decide

theorem pmmRequestPages_one_concat {pages : List Word} {top : Word} (h : a.live = pages ++ [top]) :
    (pmmRequestPages a 1).1 = top ∧ (pmmRequestPages a 1).2 = a.pop 1 ∧
      (a.pop 1).live = pages := by
  have hlen := congrArg List.length h
  rw [Pmm.length_live, List.length_append, List.length_singleton] at hlen
  have hle : 1 ≤ a.pmStackIdx := by
    rw [BitVec.le_def, show (1 : Word).toNat = 1 from rfl]
    omega
  obtain ⟨popped, hsplit, hpopped⟩ := pmmRequestPages_live (by decide) hle
  have hnil : popped = [] := by
    rw [show (1 : Word).toNat = 1 from rfl] at hpopped
    exact List.length_eq_zero_iff.mp (by omega)
  rw [h, hnil] at hsplit
  obtain ⟨hpages, htop⟩ := List.append_inj' hsplit rfl
  refine ⟨(List.cons.inj htop).1.symm, ?_, hpages.symm⟩
  rw [pmmRequestPages_satisfied (by decide) hle]

theorem served_pmm (k : ℕ) : served a k = (a.live.reverse[k]?).getD 0 := by
  induction k generalizing a with
  | zero =>
    change (pmmRequestPages a 1).1 = _
    rcases List.eq_nil_or_concat' a.live with h | ⟨pages, top, h⟩
    · rw [pmmRequestPages_one_nil h, h]
      rfl
    · rw [(pmmRequestPages_one_concat h).1, h]
      simp
  | succ k ih =>
    change served (pmmRequestPages a 1).2 k = _
    rcases List.eq_nil_or_concat' a.live with h | ⟨pages, top, h⟩
    · rw [pmmRequestPages_one_nil h, ih, Pmm.live_report, h]
      rfl
    · obtain ⟨-, hpop, hlive⟩ := pmmRequestPages_one_concat h
      rw [hpop, ih, hlive, h]
      simp

theorem servesFrames_pmm {used : Set Frame} (hnodup : a.live.Nodup)
    (hframe : ∀ q ∈ a.live, ∃ f, f ∉ used ∧ q = frameAddr f) : ServesFrames a used where
  frame k hk := by
    rw [served_pmm] at hk ⊢
    cases hget : a.live.reverse[k]? with
    | none =>
      rw [hget] at hk
      exact absurd rfl hk
    | some q => exact hframe q (List.mem_reverse.mp (List.mem_of_getElem? hget))
  distinct j k hjk hj heq := by
    rw [served_pmm, served_pmm] at heq
    rw [served_pmm] at hj
    cases hgetj : a.live.reverse[j]? with
    | none =>
      rw [hgetj] at hj
      exact hj rfl
    | some q =>
      cases hgetk : a.live.reverse[k]? with
      | none =>
        rw [hgetj, hgetk] at heq
        rw [hgetj] at hj
        exact hj heq
      | some q' =>
        rw [hgetj, hgetk] at heq
        obtain rfl : q = q' := heq
        have hlt := (List.getElem?_eq_some_iff.mp hgetj).1
        have := (List.getElem?_inj hlt (List.nodup_reverse.mpr hnodup)).mp (hgetj.trans hgetk.symm)
        omega

end FromPmm

end Olive
