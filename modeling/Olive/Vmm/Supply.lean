import Olive.Library.Demand
import Olive.Vmm.Init

/-!
# How many tables the calls of `vmm_map` need

A call of `vmm_map` asks for the three tables on the path of its page, and a table that
exists costs nothing. So a list of calls on an empty page map needs as many pages as there
are different paths to tables among its pages, and it is served if and only if each of the
next answers of the page allocator can become a table.
-/

namespace Olive

open Library

def Open (hhdmOffset : Word) (root : Frame) (m : Memory 64) (p : List Index) : Prop :=
  ∃ f, follow (child (tables hhdmOffset m)) root p = some f

/-- The paths of the three tables below the PML4 on the way to a page. -/
def tablePaths (p : Page) : List (List Index) :=
  [[pml4Index p], [pml4Index p, pdptIndex p], [pml4Index p, pdptIndex p, pdIndex p]]

/-- The number of tables a list of calls needs on an empty page map. -/
def tablesNeeded (calls : List MapCall) : ℕ :=
  (newKeys ∅ (calls.flatMap fun c => tablePaths c.page)).card

section Demand

variable {σ : Type} [PageAllocator σ]

/-- The answer to the `k`-th request can become a table: it is no `NULL`, neither as a
physical nor as a virtual address. -/
def ServesTable (hhdmOffset : Word) (a : σ) (k : ℕ) : Prop :=
  served a k ≠ 0 ∧ served a k + hhdmOffset ≠ 0

instance (hhdmOffset : Word) (a : σ) : DecidablePred (ServesTable hhdmOffset a) :=
  fun _ => inferInstanceAs (Decidable (_ ∧ _))

/-- The paths to tables are `seen`, and `n` pages of the page allocator `a` are used up. -/
structure Represents (hhdmOffset : Word) (root : Frame) (a : σ) (s : Vmm σ)
    (seen : Finset (List Index)) (n : ℕ) : Prop where
  inv : VmmInv hhdmOffset {root} s
  kernelPm : s.kernelPm = ⟨tableAddr hhdmOffset root⟩
  reached : ∀ p f, p ≠ [] → p.length ≤ 3 → follow (child (tables hhdmOffset s.mem)) root p = some f →
    tableAddr hhdmOffset f ≠ 0
  seen : ∀ p, p ≠ [] → p.length ≤ 3 → (p ∈ seen ↔ Open hhdmOffset root s.mem p)
  supply : ∀ k, served s.pmm k = served a (n + k)

variable {hhdmOffset : Word} {root : Frame} {a : σ} {s : Vmm σ} {seen : Finset (List Index)} {n : ℕ}

/-- What a lookup answers that is served, or not. -/
def LookupPost (hhdmOffset : Word) (root : Frame) (a : σ) (p : List Index) (res : Word × Vmm σ) :
    Option (Finset (List Index) × ℕ) → Prop
  | some (seen, n) => ∃ f, res.1 = tableAddr hhdmOffset f ∧ res.1 ≠ 0 ∧
      follow (child (tables hhdmOffset res.2.mem)) root p = some f ∧
      Represents hhdmOffset root a res.2 seen n
  | none => res.1 = 0

theorem Represents.linked (h : Represents hhdmOffset root a s seen n) {p : List Index} {i : Index}
    {g : Frame} {m : Memory 64} (hreq : (PageAllocator.requestPages s.pmm 1).1 = frameAddr g)
    (hg : frameAddr g ≠ 0)
    (hlink : Linked hhdmOffset {root} (tables hhdmOffset s.mem) (tables hhdmOffset m) root p i g)
    (hnull : tableAddr hhdmOffset g ≠ 0) :
    Represents hhdmOffset root a { s with pmm := (PageAllocator.requestPages s.pmm 1).2, mem := m }
      (insert (p ++ [i]) seen) (n + 1) := by
  have hgrow : Grow hhdmOffset {root} s
      { s with pmm := (PageAllocator.requestPages s.pmm 1).2, mem := m } := .linked hreq hg hlink
  have hfollow := fun q hq => hlink.follow_eq h.inv.tree rfl (q := q) hq
  refine ⟨hgrow.inv h.inv, h.kernelPm, ?_, ?_, ?_⟩
  · intro q g' hne hq hg'
    rw [hfollow q hq] at hg'
    split_ifs at hg' with hhere
    · cases hg'
      exact hnull
    · exact h.reached q g' hne hq hg'
  · intro q hne hq
    rw [Finset.mem_insert, h.seen q hne hq, Open, Open, hfollow q hq]
    by_cases hhere : q = p ++ [i]
    · simp [hhere]
    · simp [hhere]
  · intro k
    have hsupply := h.supply (k + 1)
    rw [show n + (k + 1) = n + 1 + k by omega] at hsupply
    exact hsupply

theorem getBelowPml_serve (h : Represents hhdmOffset root a s seen n) {p : List Index} {f : Frame}
    (hp : p.length < 3) (hf : follow (child (tables hhdmOffset s.mem)) root p = some f) (i : Index) :
    LookupPost hhdmOffset root a (p ++ [i])
      (getBelowPml hhdmOffset s (tableAddr hhdmOffset f) (i.setWidth 64) true)
      (serve (ServesTable hhdmOffset a) (seen, n) [p ++ [i]]) := by
  have hkey := h.seen (p ++ [i]) (by simp) (by simpa using hp)
  have hptr : p = [] ∨ tableAddr hhdmOffset f ≠ 0 := by
    by_cases hnil : p = []
    · exact .inl hnil
    · exact .inr (h.reached p f hnil hp.le hf)
  have hnew : follow (child (tables hhdmOffset s.mem)) root (p ++ [i]) = none → p ++ [i] ∉ seen := by
    intro hnone
    rw [hkey]
    rintro ⟨g, hg⟩
    rw [hnone] at hg
    cases hg
  have hnext : served s.pmm 0 = served a n := h.supply 0
  have hbelow := getBelowPml_spec h.inv rfl hp hf hptr i
  generalize getBelowPml hhdmOffset s (tableAddr hhdmOffset f) (i.setWidth 64) true = res at hbelow
  cases hbelow with
  | @existing g hg =>
    rw [serve_cons_seen (hkey.mpr ⟨g, hg⟩)]
    exact ⟨g, rfl, h.reached _ _ (by simp) (by simpa using hp) hg, hg, h⟩
  | refused hnone hreq =>
    have hbad : ¬ ServesTable hhdmOffset a n := fun hgood => hgood.1 (hnext.symm.trans hreq)
    rw [serve_cons_bad (hnew hnone) hbad]
    rfl
  | @linked g m hreq hg hlink =>
    have haddr : served a n + hhdmOffset = tableAddr hhdmOffset g := by
      rw [← hnext]
      exact congrArg (· + hhdmOffset) hreq
    by_cases hnull : tableAddr hhdmOffset g = 0
    · have hbad : ¬ ServesTable hhdmOffset a n := fun hgood => hgood.2 (haddr.trans hnull)
      rw [serve_cons_bad (hnew hlink.follow_none) hbad]
      exact hnull
    · have hgood : ServesTable hhdmOffset a n := by
        refine ⟨?_, haddr ▸ hnull⟩
        rw [← hnext]
        change (PageAllocator.requestPages s.pmm 1).1 ≠ 0
        rwa [hreq]
      rw [serve_cons_new (hnew hlink.follow_none) hgood]
      refine ⟨g, rfl, hnull, ?_, h.linked hreq hg hlink hnull⟩
      rw [hlink.follow_eq h.inv.tree rfl (by simpa using hp)]
      exact if_pos ⟨rfl, rfl⟩

theorem LookupPost.bind {p q : List Index} {res : Word × Vmm σ}
    {o : Option (Finset (List Index) × ℕ)}
    {next : Finset (List Index) × ℕ → Option (Finset (List Index) × ℕ)}
    (lookup : Word × Vmm σ → Word × Vmm σ) (h : LookupPost hhdmOffset root a p res o)
    (hnext : ∀ f t seen n, follow (child (tables hhdmOffset t.mem)) root p = some f →
      Represents hhdmOffset root a t seen n →
      LookupPost hhdmOffset root a q (lookup (tableAddr hhdmOffset f, t)) (next (seen, n))) :
    LookupPost hhdmOffset root a q (if res.1 = 0 then (0, res.2) else lookup res) (o.bind next) := by
  cases o with
  | none =>
    have hzero : res.1 = 0 := h
    rw [if_pos hzero]
    rfl
  | some state =>
    obtain ⟨f, hptr, hne, hf, hrep⟩ := h
    rw [if_neg hne]
    have hres : res = (tableAddr hhdmOffset f, res.2) := Prod.ext hptr rfl
    rw [hres]
    exact hnext f res.2 state.1 state.2 hf hrep

theorem pml4ToPt_serve (h : Represents hhdmOffset root a s seen n) (virt : Word) :
    LookupPost hhdmOffset root a (pathOf (pageOf virt))
      (pml4ToPt hhdmOffset s (tableAddr hhdmOffset root) virt true)
      (serve (ServesTable hhdmOffset a) (seen, n) (tablePaths (pageOf virt))) := by
  have hsplit : ∀ x y z : List Index, ∀ state, serve (ServesTable hhdmOffset a) state [x, y, z] =
      (serve (ServesTable hhdmOffset a) state [x]).bind fun state =>
        (serve (ServesTable hhdmOffset a) state [y]).bind fun state =>
          serve (ServesTable hhdmOffset a) state [z] := by
    intro x y z state
    rw [show [x, y, z] = [x] ++ [y, z] from rfl, serve_append]
    congr 1
    funext state
    rw [show [y, z] = [y] ++ [z] from rfl, serve_append]
  rw [pml4ToPt, tableIndex_pml4, tableIndex_pdpt, tableIndex_pd, tablePaths, hsplit]
  exact (getBelowPml_serve h (p := []) (by simp) rfl _).bind
    (fun res =>
      let res := getBelowPml hhdmOffset res.2 res.1 ((pdptIndex (pageOf virt)).setWidth 64) true
      if res.1 = 0 then (0, res.2)
      else getBelowPml hhdmOffset res.2 res.1 ((pdIndex (pageOf virt)).setWidth 64) true)
    fun f₁ s₁ seen₁ n₁ hf₁ h₁ => (getBelowPml_serve h₁ (by simp) hf₁ _).bind
      (fun res => getBelowPml hhdmOffset res.2 res.1 ((pdIndex (pageOf virt)).setWidth 64) true)
      fun f₂ s₂ seen₂ n₂ hf₂ h₂ => getBelowPml_serve h₂ (by simp) hf₂ _

/-- A call obtains its tables if and only if they are served. -/
theorem vmmMap_serve (h : Represents hhdmOffset root a s seen n) (c : MapCall) :
    (∀ seen' n', serve (ServesTable hhdmOffset a) (seen, n) (tablePaths c.page) = some (seen', n') →
        ObtainsTables hhdmOffset s s.kernelPm c.virt ∧
        Represents hhdmOffset root a (vmmMap hhdmOffset s s.kernelPm c.virt c.phys c.flags) seen' n') ∧
      (serve (ServesTable hhdmOffset a) (seen, n) (tablePaths c.page) = none →
        ¬ ObtainsTables hhdmOffset s s.kernelPm c.virt) := by
  have hroot : root ∈ ({root} : Set Frame) := rfl
  have hpost := pml4ToPt_serve h c.virt
  rw [show pageOf c.virt = c.page from rfl] at hpost
  constructor
  · intro seen' n' hserve
    rw [hserve] at hpost
    obtain ⟨f, hptr, hne, hf, hrep⟩ := hpost
    have hobtains : ObtainsTables hhdmOffset s s.kernelPm c.virt := by
      rw [h.kernelPm]
      exact hne
    refine ⟨hobtains, ?_⟩
    generalize hres : pml4ToPt hhdmOffset s (tableAddr hhdmOffset root) c.virt true = res at *
    obtain ⟨ptr, t⟩ := res
    obtain rfl : ptr = tableAddr hhdmOffset f := hptr
    have hslot : tableAddr hhdmOffset f + tableIndex c.virt 12 * 8 =
        slotAddr hhdmOffset f (ptIndex c.page) := by
      rw [tableIndex_pt]
      rfl
    have hmap : vmmMap hhdmOffset s s.kernelPm c.virt c.phys c.flags =
        { t with mem := t.mem.store64 (slotAddr hhdmOffset f (ptIndex c.page)) c.entry } := by
      simp only [vmmMap, h.kernelPm, hres, hslot, MapCall.entry]
      exact if_neg hne
    have hset := tables_store64 hhdmOffset t.mem f (ptIndex c.page) c.entry
    have hfollow := fun q hq =>
      follow_set (q := q) (e := c.entry) hrep.inv.tree hroot hf hroot hq
    rw [hmap]
    refine ⟨hrep.inv.set hroot hf hne hset hrep.inv.serves, hrep.kernelPm, ?_, ?_, hrep.supply⟩
    · intro p g hnil hp hg
      change follow (child (tables hhdmOffset (t.mem.store64 _ _))) root p = some g at hg
      rw [hset, hfollow p hp] at hg
      exact hrep.reached p g hnil hp hg
    · intro p hnil hp
      change p ∈ seen' ↔ Open hhdmOffset root (t.mem.store64 _ _) p
      rw [hrep.seen p hnil hp, Open, Open, hset, hfollow p hp]
  · intro hserve
    rw [hserve] at hpost
    rw [h.kernelPm]
    exact not_not.mpr hpost

/-! ## Failing calls -/

/-- Some call of the list gets no page table. -/
def MapFails (hhdmOffset : Word) (s : Vmm σ) (calls : List MapCall) : Prop :=
  ∃ pre c post, calls = pre ++ c :: post ∧
    ¬ ObtainsTables hhdmOffset (runCalls hhdmOffset s pre) (runCalls hhdmOffset s pre).kernelPm c.virt

theorem not_mapFails_nil : ¬ MapFails hhdmOffset s [] := by
  rintro ⟨pre, c, post, h, -⟩
  simp at h

theorem mapFails_cons (c : MapCall) (calls : List MapCall) :
    MapFails hhdmOffset s (c :: calls) ↔
      ¬ ObtainsTables hhdmOffset s s.kernelPm c.virt ∨
        MapFails hhdmOffset (vmmMap hhdmOffset s s.kernelPm c.virt c.phys c.flags) calls := by
  constructor
  · rintro ⟨pre, c', post, h, hfail⟩
    cases pre with
    | nil =>
      obtain ⟨rfl, -⟩ := List.cons.inj h
      exact .inl hfail
    | cons c'' pre =>
      obtain ⟨rfl, rfl⟩ := List.cons.inj h
      exact .inr ⟨pre, c', post, rfl, hfail⟩
  · rintro (hfail | ⟨pre, c', post, rfl, hfail⟩)
    · exact ⟨[], c, calls, rfl, hfail⟩
    · exact ⟨c :: pre, c', post, rfl, hfail⟩

theorem mapFails_iff_serve (h : Represents hhdmOffset root a s seen n) (calls : List MapCall) :
    MapFails hhdmOffset s calls ↔
      serve (ServesTable hhdmOffset a) (seen, n) (calls.flatMap fun c => tablePaths c.page) = none := by
  induction calls generalizing s seen n with
  | nil => simp [not_mapFails_nil]
  | cons c calls ih =>
    obtain ⟨hserved, hrefused⟩ := vmmMap_serve h c
    rw [mapFails_cons, List.flatMap_cons, serve_append]
    cases hserve : serve (ServesTable hhdmOffset a) (seen, n) (tablePaths c.page) with
    | none =>
      simp only [Option.bind_none, iff_true]
      exact .inl (hrefused hserve)
    | some state =>
      obtain ⟨hobtains, hrep⟩ := hserved state.1 state.2 hserve
      rw [Option.bind_some, ← ih hrep]
      simp [hobtains]

theorem runCalls_mapped (hinv : VmmInv hhdmOffset {root} s)
    (hpm : s.kernelPm = ⟨tableAddr hhdmOffset root⟩) {calls : List MapCall}
    (hflags : ∀ c ∈ calls, Present c.flags) (hok : ¬ MapFails hhdmOffset s calls) :
    ∀ page, walk (tables hhdmOffset s.mem) root page ≠ none ∨ (∃ c ∈ calls, c.page = page) →
      walk (tables hhdmOffset (runCalls hhdmOffset s calls).mem) root page ≠ none := by
  induction calls generalizing s with
  | nil =>
    intro page h
    rcases h with h | ⟨c, hc, -⟩
    · exact h
    · cases hc
  | cons c calls ih =>
    intro page h
    have hroot : root ∈ ({root} : Set Frame) := rfl
    rw [mapFails_cons, not_or, not_not] at hok
    have hcall := vmmMap_call hinv hpm (hflags c List.mem_cons_self)
    rw [runCalls_cons]
    refine ih hcall.inv (hcall.kernelPm.trans hpm)
      (fun c' hc' => hflags c' (List.mem_cons_of_mem _ hc')) hok.2 page ?_
    have hobtains := hok.1
    rw [hpm] at hobtains ⊢
    rw [vmmMap_walk hinv hroot c.virt c.phys c.flags hroot page,
      if_pos (present_or_flags (hflags c List.mem_cons_self))]
    by_cases hhere : page = c.page
    · refine .inl ?_
      rw [if_pos ⟨⟨rfl, hhere⟩, hobtains⟩]
      exact Option.some_ne_none _
    · rw [if_neg fun hsame => hhere hsame.1.2]
      rcases h with h | ⟨c', hc', hpage⟩
      · exact .inl h
      · rcases List.mem_cons.mp hc' with rfl | hc'
        · exact absurd hpage.symm hhere
        · exact .inr ⟨c', hc', hpage⟩

/-- An allocator that refuses everything leaves an empty page map empty. -/
theorem runCalls_starved (hinv : VmmInv hhdmOffset {root} s)
    (hpm : s.kernelPm = ⟨tableAddr hhdmOffset root⟩) (hstarved : ∀ k, served s.pmm k = 0)
    (hcleared : ∀ i, tables hhdmOffset s.mem root i = 0) (calls : List MapCall) :
    (runCalls hhdmOffset s calls).mem = s.mem := by
  induction calls generalizing s with
  | nil => rfl
  | cons c calls ih =>
    have hroot : root ∈ ({root} : Set Frame) := rfl
    have habsent : follow (child (tables hhdmOffset s.mem)) root [pml4Index c.page] = none := by
      have hslot : ¬ Present (tables hhdmOffset s.mem root (pml4Index c.page)) := by
        rw [hcleared]
        exact not_present_zero
      rw [follow_cons, child_eq_none hslot]
      rfl
    have hbelow := getBelowPml_spec hinv hroot (p := []) (by simp) rfl (.inl rfl) (pml4Index c.page)
    have hget : getBelowPml hhdmOffset s (tableAddr hhdmOffset root)
        ((pml4Index c.page).setWidth 64) true = (0, s.refuse) := by
      generalize getBelowPml hhdmOffset s (tableAddr hhdmOffset root)
        ((pml4Index c.page).setWidth 64) true = res at hbelow
      cases hbelow with
      | existing hg =>
        rw [List.nil_append, habsent] at hg
        cases hg
      | refused => rfl
      | linked hreq hg => exact absurd (hreq.symm.trans (hstarved 0)) hg
    have hmap : vmmMap hhdmOffset s s.kernelPm c.virt c.phys c.flags =
        s.refuse.report pageTableReport := by
      simp only [vmmMap, hpm, pml4ToPt, tableIndex_pml4]
      rw [show pageOf c.virt = c.page from rfl, hget]
      rfl
    rw [runCalls_cons, hmap]
    exact ih ⟨hinv.tree, hinv.serves.next⟩ hpm (fun k => hstarved (k + 1)) hcleared

theorem getBelowPml_silent {ptr i : Word} {force : Bool}
    (h : (getBelowPml hhdmOffset s ptr i force).1 ≠ 0) :
    (getBelowPml hhdmOffset s ptr i force).2.reports = s.reports := by
  unfold getBelowPml at h ⊢
  dsimp only at h ⊢
  split_ifs at h ⊢
  · rfl
  · exact absurd rfl h
  · exact absurd rfl h
  · rfl

theorem vmmMap_silent {pm : Pagemap} {virt : Word} (phys flags : Word)
    (h : ObtainsTables hhdmOffset s pm virt) :
    (vmmMap hhdmOffset s pm virt phys flags).reports = s.reports := by
  have hlookup : (pml4ToPt hhdmOffset s pm.pml4 virt true).2.reports = s.reports := by
    unfold ObtainsTables pml4ToPt at h
    unfold pml4ToPt
    dsimp only at h ⊢
    split_ifs at h ⊢ with hpdpt hpd
    · exact absurd rfl h
    · exact absurd rfl h
    · rw [getBelowPml_silent h, getBelowPml_silent hpd, getBelowPml_silent hpdpt]
  unfold vmmMap
  rw [ObtainsTables] at h
  dsimp only
  rw [if_neg h]
  exact hlookup

theorem runCalls_silent {calls : List MapCall} (h : ¬ MapFails hhdmOffset s calls) :
    (runCalls hhdmOffset s calls).reports = s.reports := by
  induction calls generalizing s with
  | nil => rfl
  | cons c calls ih =>
    rw [mapFails_cons, not_or, not_not] at h
    rw [runCalls_cons, ih h.2, vmmMap_silent _ _ h.1]

/-! ## The calls of `vmm_init` -/

section Init

variable {s : Vmm σ}

theorem Represents.of_cleared (hinv : VmmInv hhdmOffset {root} s)
    (hpm : s.kernelPm = ⟨tableAddr hhdmOffset root⟩)
    (hcleared : ∀ r ∈ ({root} : Set Frame), ∀ i, tables hhdmOffset s.mem r i = 0) :
    Represents hhdmOffset root s.pmm s ∅ 0 := by
  have hnone : ∀ p f, p ≠ [] → follow (child (tables hhdmOffset s.mem)) root p ≠ some f :=
    fun p f hnil hf => hnil (follow_cleared hcleared rfl hf).1
  refine ⟨hinv, hpm, fun p f hnil _ hf => absurd hf (hnone p f hnil), fun p hnil _ => ?_,
    fun k => by rw [Nat.zero_add]⟩
  simp only [Finset.notMem_empty, false_iff]
  rintro ⟨f, hf⟩
  exact hnone p f hnil hf

theorem mapFails_iff_tablesNeeded (h : Represents hhdmOffset root a s ∅ 0) (calls : List MapCall) :
    MapFails hhdmOffset s calls ↔ ¬ ∀ k < tablesNeeded calls, ServesTable hhdmOffset a k := by
  rw [mapFails_iff_serve h, ← Option.not_isSome_iff_eq_none, serve_isSome_iff]
  simp only [Nat.zero_add]
  rfl

theorem tablesNeeded_singleton_le (c : MapCall) : tablesNeeded [c] ≤ 3 :=
  (Finset.card_le_card Finset.sdiff_subset).trans (List.toFinset_card_le _)

theorem obtainsTables_of_cleared (h : Represents hhdmOffset root a s ∅ 0) (c : MapCall)
    (hserves : ∀ k < 3, ServesTable hhdmOffset a k) : ObtainsTables hhdmOffset s s.kernelPm c.virt := by
  by_contra hfails
  apply (mapFails_iff_tablesNeeded h [c]).mp ((mapFails_cons c []).mpr (Or.inl hfails))
  exact fun k hk => hserves k (hk.trans_le (tablesNeeded_singleton_le c))

theorem represents_withPml4 (eax : BitVec 32) (hserves : ServesFrames s.pmm ∅)
    (hpml4 : served s.pmm 0 ≠ 0) :
    ∃ root, served s.pmm 0 = frameAddr root ∧
      (∀ i, tables hhdmOffset (withPml4 hhdmOffset eax s).mem root i = 0) ∧
      Represents hhdmOffset root (PageAllocator.requestPages s.pmm 1).2 (withPml4 hhdmOffset eax s)
        ∅ 0 := by
  obtain ⟨root, heq, hinv, hpm, hcleared⟩ := @withPml4_spec _ _ hhdmOffset s eax hserves hpml4
  exact ⟨root, heq, hcleared root rfl, .of_cleared hinv hpm hcleared⟩

/-- The calls fail exactly when one of the pages they need is not served. -/
theorem mapFails_withPml4_iff (eax : BitVec 32) (hserves : ServesFrames s.pmm ∅)
    (hpml4 : served s.pmm 0 ≠ 0) (calls : List MapCall) :
    MapFails hhdmOffset (withPml4 hhdmOffset eax s) calls ↔
      ¬ ∀ k < tablesNeeded calls, ServesTable hhdmOffset s.pmm (k + 1) := by
  obtain ⟨root, -, -, hrep⟩ := @represents_withPml4 _ _ hhdmOffset s eax hserves hpml4
  exact mapFails_iff_tablesNeeded hrep calls

theorem vmmInit_supplied {kernelVirt kernelPhys : Word} {memmap : List MemmapEntry}
    {layout : KernelLayout} (eax : BitVec 32)
    (halign : ∀ e ∈ memmap, e.type = .usable → PageAligned e.base ∧ PageAligned e.length)
    (hkernel : kernelVirt ≠ 0 ∧ kernelPhys ≠ 0) (hserves : ServesFrames s.pmm ∅)
    (hsupply : ∀ k < 1 + tablesNeeded (initCalls hhdmOffset memmap layout kernelVirt kernelPhys),
      ServesTable hhdmOffset s.pmm k) :
    ∃ s', vmmInit hhdmOffset memmap layout eax s kernelVirt kernelPhys = .ok (0, s') ∧
      s'.reports = s.reports := by
  have hpml4 : served s.pmm 0 ≠ 0 := (hsupply 0 (by omega)).1
  have hok : ¬ MapFails hhdmOffset (withPml4 hhdmOffset eax s)
      (initCalls hhdmOffset memmap layout kernelVirt kernelPhys) := by
    rw [mapFails_withPml4_iff eax hserves hpml4, not_not]
    intro k hk
    exact hsupply (k + 1) (by omega)
  exact ⟨_, vmmInit_eq halign hkernel hpml4, runCalls_silent hok⟩

end Init

end Demand

theorem servesTable_pmm {hhdmOffset : Word} {a : Pmm} {n : ℕ}
    (hfree : ∀ q ∈ a.live, q ≠ 0 ∧ q + hhdmOffset ≠ 0) (hroom : n ≤ a.live.length) :
    ∀ k < n, ServesTable hhdmOffset a k := by
  intro k hk
  have hlt : k < a.live.reverse.length := by
    rw [List.length_reverse]
    omega
  have hmem := List.mem_reverse.mp (List.getElem_mem hlt)
  rw [ServesTable, served_pmm, List.getElem?_eq_getElem hlt]
  exact hfree _ hmem

end Olive
