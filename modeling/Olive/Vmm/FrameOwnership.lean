import Olive.Library.Allotment
import Olive.Vmm.Supply

/-!
# Who owns the frames of the PMM and the VMM together

One client takes frames from the PMM, maps them in one page map, unmaps them with
release, and gives back what it holds. Every frame is then free, a page table on one
path, mapped at one page, or held by the client. A call of `vmm_map` moves free
frames to tables, one for each level it has to add, before it moves the mapped frame;
if the PMM runs dry in between, the tables linked so far stay linked.
-/

namespace Olive

open Library

inductive Owner where
  | free
  | table (path : List Index)
  | leaf (page : Page)
  | held
  deriving DecidableEq

/-- The page map of the client is the one with the PML4 in the frame `root`. -/
def Owns (hhdmOffset : Word) (root : Frame) (s : Vmm Pmm) (held : List Word) (q : Word) :
    Owner → Prop
  | .free => q ∈ s.pmm.live
  | .table path => path.length ≤ 3 ∧
      ∃ f, follow (child (tables hhdmOffset s.mem)) root path = some f ∧ frameAddr f = q
  | .leaf page => ∃ e, walk (tables hhdmOffset s.mem) root page = some e ∧
      frameAddr (frameOf e) = q
  | .held => q ∈ held

/-- The state of a run: the frames the client holds, and the frame it has installed
at each page. -/
structure Client where
  vmm : Vmm Pmm
  held : List Word
  mapped : Page → Option Word

inductive ClientAct where
  | take
  | map (virt p flags : Word)
  | unmap (virt : Word)
  | release (p : Word)

/-- The steps of the client. A failed `vmm_map` leaves the frame with it. -/
inductive ClientMove (hhdmOffset : Word) (root : Frame) : Client → ClientAct → Client → Prop
  | takeRefused {s : Client} (h : (pmmRequestPages s.vmm.pmm 1).1 = 0) :
      ClientMove hhdmOffset root s .take
        ⟨{ s.vmm with pmm := (pmmRequestPages s.vmm.pmm 1).2 }, s.held, s.mapped⟩
  | takeServed {s : Client} (h : (pmmRequestPages s.vmm.pmm 1).1 ≠ 0) :
      ClientMove hhdmOffset root s .take
        ⟨{ s.vmm with pmm := (pmmRequestPages s.vmm.pmm 1).2 },
          (pmmRequestPages s.vmm.pmm 1).1 :: s.held, s.mapped⟩
  | mapDone {s : Client} {virt p flags : Word} (hheld : p ∈ s.held)
      (hfree : hardwareWalk hhdmOffset s.vmm.mem ⟨tableAddr hhdmOffset root⟩ virt = none)
      (hpresent : Present flags) (hclean : flags &&& frameMask = 0)
      (h : ObtainsTables hhdmOffset s.vmm ⟨tableAddr hhdmOffset root⟩ virt) :
      ClientMove hhdmOffset root s (.map virt p flags)
        ⟨vmmMap hhdmOffset s.vmm ⟨tableAddr hhdmOffset root⟩ virt p flags, s.held.erase p,
          Function.update s.mapped (pageOf virt) (some p)⟩
  | mapFailed {s : Client} {virt p flags : Word} (hheld : p ∈ s.held)
      (hfree : hardwareWalk hhdmOffset s.vmm.mem ⟨tableAddr hhdmOffset root⟩ virt = none)
      (hpresent : Present flags) (hclean : flags &&& frameMask = 0)
      (h : ¬ ObtainsTables hhdmOffset s.vmm ⟨tableAddr hhdmOffset root⟩ virt) :
      ClientMove hhdmOffset root s (.map virt p flags)
        ⟨vmmMap hhdmOffset s.vmm ⟨tableAddr hhdmOffset root⟩ virt p flags, s.held, s.mapped⟩
  | unmap {s : Client} {virt : Word} {b : Bool} {vmm : Vmm Pmm}
      (hmapped : hardwareWalk hhdmOffset s.vmm.mem ⟨tableAddr hhdmOffset root⟩ virt ≠ none)
      (h : vmmUnmap hhdmOffset s.vmm ⟨tableAddr hhdmOffset root⟩ virt true = .ok (b, vmm)) :
      ClientMove hhdmOffset root s (.unmap virt)
        ⟨vmm, s.held, Function.update s.mapped (pageOf virt) none⟩
  | release {s : Client} {p : Word} {pmm : Pmm} (hheld : p ∈ s.held)
      (h : pmmFreePages s.vmm.pmm p 1 = .ok pmm) :
      ClientMove hhdmOffset root s (.release p)
        ⟨{ s.vmm with pmm := pmm }, s.held.erase p, s.mapped⟩

/-- The frames of the pool are allotted: each has exactly one owner and occurs there
once. -/
structure Partitioned (hhdmOffset : Word) (root : Frame) (pool : List Word) (s : Vmm Pmm)
    (held : List Word) : Prop where
  allotted : Allotted { q | q ∈ pool } (Owns hhdmOffset root s held)
  live_nodup : s.pmm.live.Nodup
  held_nodup : held.Nodup

/-- The present entries above the last level are what they were. -/
def NonleafKept (hhdmOffset : Word) (root : Frame) (m m' : Memory 64) : Prop :=
  ∀ p f i, p.length < 3 → follow (child (tables hhdmOffset m)) root p = some f →
    Present (tables hhdmOffset m f i) → tables hhdmOffset m' f i = tables hhdmOffset m f i

/-- What every state of a run satisfies; `total` is the size of the PMM's stack. -/
structure ClientInv (hhdmOffset : Word) (root : Frame) (pool : List Word) (total : Word)
    (s : Client) : Prop where
  tree : TreeInv hhdmOffset {root} (tables hhdmOffset s.vmm.mem)
  parts : Partitioned hhdmOffset root pool s.vmm s.held
  total : s.vmm.pmm.pmTotalPages = total
  mapped : ∀ page, s.mapped page =
    (walk (tables hhdmOffset s.vmm.mem) root page).map fun e => frameAddr (frameOf e)

theorem ClientMove.take_of_request {hhdmOffset : Word} {root : Frame} {s : Vmm Pmm} {pmm : Pmm}
    {p : Word} (h : pmmRequestPages s.pmm 1 = (p, pmm)) (hp : p ≠ 0) (held : List Word)
    (mapped : Page → Option Word) : ClientMove hhdmOffset root ⟨s, held, mapped⟩ .take
      ⟨{ s with pmm := pmm }, p :: held, mapped⟩ := by
  have hstep := @ClientMove.takeServed hhdmOffset root ⟨s, held, mapped⟩ (by rw [h]; exact hp)
  dsimp only at hstep
  rwa [h] at hstep

section Moves

variable {hhdmOffset : Word} {root : Frame} {pool : List Word} {s s' : Vmm Pmm} {held : List Word}
  {total : Word}

def PoolFrames (pool : List Word) : Prop := ∀ q ∈ pool, q ≠ 0 ∧ ∃ f, q = frameAddr f

/-- A free frame is no table, so the PMM serves the VMM as it needs. -/
theorem Partitioned.vmmInv (hpool : PoolFrames pool)
    (htree : TreeInv hhdmOffset {root} (tables hhdmOffset s.mem))
    (hparts : Partitioned hhdmOffset root pool s held) : VmmInv hhdmOffset {root} s := by
  refine ⟨htree, servesFrames_pmm hparts.live_nodup fun q hq => ?_⟩
  have hfree : Owns hhdmOffset root s held q .free := hq
  obtain ⟨-, f, rfl⟩ := hpool q (hparts.allotted.pool _ _ hfree)
  refine ⟨f, ?_, rfl⟩
  rintro ⟨r, hr, path, hpath, hf⟩
  obtain rfl : r = root := hr
  have htable : Owns hhdmOffset r s held (frameAddr f) (.table path) := ⟨hpath, f, hf, rfl⟩
  cases hparts.allotted.unique hfree htable

theorem Partitioned.pop (hparts : Partitioned hhdmOffset root pool s held)
    (hserved : (pmmRequestPages s.pmm 1).1 ≠ 0) :
    (pmmRequestPages s.pmm 1).1 ∈ s.pmm.live ∧
      (∀ q, q ∈ (pmmRequestPages s.pmm 1).2.live ↔
        q ∈ s.pmm.live ∧ q ≠ (pmmRequestPages s.pmm 1).1) ∧
      (pmmRequestPages s.pmm 1).2.live.Nodup := by
  have hnodup := hparts.live_nodup
  rcases List.eq_nil_or_concat' s.pmm.live with h | ⟨pages, top, h⟩
  · rw [pmmRequestPages_one_nil h] at hserved
    exact absurd rfl hserved
  · obtain ⟨htop, hpop, hlive⟩ := pmmRequestPages_one_concat h
    rw [htop, hpop, hlive, h]
    rw [h, List.nodup_append'] at hnodup
    obtain ⟨hpages, -, hdisj⟩ := hnodup
    refine ⟨by simp, fun q => ?_, hpages⟩
    have hne : q ∈ pages → q ≠ top := fun hq he => hdisj hq (by simp [he])
    simp only [List.mem_append, List.mem_singleton]
    constructor
    · exact fun hq => ⟨.inl hq, hne hq⟩
    · rintro ⟨hq | hq, hnot⟩
      · exact hq
      · exact absurd hq hnot

theorem Partitioned.congr (hparts : Partitioned hhdmOffset root pool s held)
    (hlive : s'.pmm.live = s.pmm.live) (hmem : s'.mem = s.mem) :
    Partitioned hhdmOffset root pool s' held := by
  have howns : Owns hhdmOffset root s' held = Owns hhdmOffset root s held := by
    funext q o
    cases o <;> simp only [Owns, hlive, hmem]
  exact ⟨howns ▸ hparts.allotted, hlive ▸ hparts.live_nodup, hparts.held_nodup⟩

theorem Partitioned.live_refused (hpool : PoolFrames pool)
    (hparts : Partitioned hhdmOffset root pool s held)
    (hrefused : (pmmRequestPages s.pmm 1).1 = 0) :
    (pmmRequestPages s.pmm 1).2.live = s.pmm.live := by
  rcases List.eq_nil_or_concat' s.pmm.live with h | ⟨pages, top, h⟩
  · rw [pmmRequestPages_one_nil h, Pmm.live_report]
  · have htop : top ∈ s.pmm.live := by simp [h]
    rw [(pmmRequestPages_one_concat h).1] at hrefused
    exact absurd hrefused (hpool _ (hparts.allotted.pool top .free htop)).1

theorem Partitioned.take (hparts : Partitioned hhdmOffset root pool s held)
    (hserved : (pmmRequestPages s.pmm 1).1 ≠ 0) :
    Partitioned hhdmOffset root pool { s with pmm := (pmmRequestPages s.pmm 1).2 }
      ((pmmRequestPages s.pmm 1).1 :: held) := by
  obtain ⟨hmem, hlive, hnodup⟩ := hparts.pop hserved
  generalize pmmRequestPages s.pmm 1 = res at *
  obtain ⟨q₀, pmm⟩ := res
  have hfree : Owns hhdmOffset root s held q₀ .free := hmem
  have hnot : ∀ {o}, Owns hhdmOffset root s held q₀ o → o = .free := fun h =>
    hparts.allotted.unique h hfree
  refine ⟨hparts.allotted.move (hparts.allotted.pool _ _ hfree) (o := .held) ⟨?_, ?_⟩, hnodup, ?_⟩
  · intro o
    cases o with
    | free => simp [Owns, hlive]
    | held => simp [Owns]
    | table path => exact iff_of_false (fun h => nomatch hnot (o := .table path) h) (by simp)
    | leaf page => exact iff_of_false (fun h => nomatch hnot (o := .leaf page) h) (by simp)
  · intro q hne o
    cases o with
    | free => simp [Owns, hlive, hne]
    | held => simp [Owns, hne]
    | table path => exact Iff.rfl
    | leaf page => exact Iff.rfl
  · rw [List.nodup_cons]
    exact ⟨fun h => (nomatch hnot (o := .held) h), hparts.held_nodup⟩

theorem Partitioned.link {f : Frame} {p : List Index} {i : Index} {m : Memory 64}
    (htree : TreeInv hhdmOffset {root} (tables hhdmOffset s.mem))
    (hparts : Partitioned hhdmOffset root pool s held)
    (hreq : (pmmRequestPages s.pmm 1).1 = frameAddr f) (hf : frameAddr f ≠ 0)
    (hlink : Linked hhdmOffset {root} (tables hhdmOffset s.mem) (tables hhdmOffset m) root p i f) :
    Partitioned hhdmOffset root pool
      { s with pmm := (pmmRequestPages s.pmm 1).2, mem := m } held := by
  obtain ⟨hmem, hlive, hnodup⟩ := hparts.pop (hreq ▸ hf)
  rw [hreq] at hmem hlive
  generalize (pmmRequestPages s.pmm 1).2 = pmm at *
  have hfree : Owns hhdmOffset root s held (frameAddr f) .free := hmem
  have hnot : ∀ {o}, Owns hhdmOffset root s held (frameAddr f) o → o = .free := fun h =>
    hparts.allotted.unique h hfree
  have hfollow : ∀ {path}, path.length ≤ 3 → follow (child (tables hhdmOffset m)) root path =
      if path = p ++ [i] then some f else follow (child (tables hhdmOffset s.mem)) root path := by
    intro path hpath
    rw [hlink.follow_eq htree rfl hpath]
    simp only [true_and]
  have hwalk : ∀ page, walk (tables hhdmOffset m) root page =
      walk (tables hhdmOffset s.mem) root page := hlink.walk_eq htree rfl
  refine ⟨hparts.allotted.move (hparts.allotted.pool _ _ hfree) (o := .table (p ++ [i])) ⟨?_, ?_⟩,
    hnodup, hparts.held_nodup⟩
  · intro o
    cases o with
    | free => simp [Owns, hlive]
    | held => exact iff_of_false (fun h => nomatch hnot (o := .held) h) (by simp)
    | leaf page =>
      refine iff_of_false (fun h => ?_) (by simp)
      simp only [Owns, hwalk] at h
      cases hnot (o := .leaf page) h
    | table path =>
      simp only [Owns, Owner.table.injEq]
      constructor
      · rintro ⟨hpath, g, hg, heq⟩
        rw [hfollow hpath] at hg
        by_contra hne
        rw [if_neg hne] at hg
        cases hnot (o := .table path) ⟨hpath, g, hg, heq⟩
      · rintro rfl
        have hlen : (p ++ [i]).length ≤ 3 := by simpa using hlink.depth
        exact ⟨hlen, f, by rw [hfollow hlen, if_pos rfl], rfl⟩
  · intro q hne o
    cases o with
    | free => simp [Owns, hlive, hne]
    | held => exact Iff.rfl
    | leaf page => simp only [Owns, hwalk]
    | table path =>
      simp only [Owns]
      refine and_congr_right fun hpath => ?_
      rw [hfollow hpath]
      split_ifs with hnew
      · -- this path is the one of the new table, and led nowhere before
        rw [hnew, hlink.follow_none]
        simp only [Option.some.injEq, reduceCtorEq, false_and, exists_false, iff_false, not_exists]
        rintro g ⟨rfl, rfl⟩
        exact hne rfl
      · exact Iff.rfl

theorem owns_table_setLeaf {page : Page} {pt : Frame} {e : Word} {m : Memory 64} {pmm : Pmm}
    {held' : List Word} (htree : TreeInv hhdmOffset {root} (tables hhdmOffset s.mem))
    (hpt : follow (child (tables hhdmOffset s.mem)) root (pathOf page) = some pt)
    (hm : tables hhdmOffset m = (tables hhdmOffset s.mem).set pt (ptIndex page) e) (q : Word)
    (path : List Index) :
    Owns hhdmOffset root { s with pmm := pmm, mem := m } held' q (.table path) ↔
      Owns hhdmOffset root s held q (.table path) := by
  simp only [Owns]
  refine and_congr_right fun hpath => ?_
  rw [hm, follow_set htree rfl hpt rfl hpath]

theorem Partitioned.map {page : Page} {pt : Frame} {p flags : Word} {m : Memory 64}
    (htree : TreeInv hhdmOffset {root} (tables hhdmOffset s.mem)) (hpool : PoolFrames pool)
    (hparts : Partitioned hhdmOffset root pool s held) (hheld : p ∈ held)
    (hfree : walk (tables hhdmOffset s.mem) root page = none)
    (hpresent : Present flags) (hclean : flags &&& frameMask = 0)
    (hpt : follow (child (tables hhdmOffset s.mem)) root (pathOf page) = some pt)
    (hm : tables hhdmOffset m = (tables hhdmOffset s.mem).set pt (ptIndex page) (p ||| flags)) :
    Partitioned hhdmOffset root pool { s with mem := m } (held.erase p) := by
  have howned : Owns hhdmOffset root s held p .held := hheld
  have hnot : ∀ {o}, Owns hhdmOffset root s held p o → o = .held := fun h =>
    hparts.allotted.unique h howned
  obtain ⟨-, f, rfl⟩ := hpool p (hparts.allotted.pool _ _ howned)
  have hwalk : ∀ page', walk (tables hhdmOffset m) root page' =
      if page' = page then some (frameAddr f ||| flags)
      else walk (tables hhdmOffset s.mem) root page' := by
    intro page'
    rw [hm, walk_set htree rfl hpt rfl, if_pos (present_or_flags hpresent)]
    simp only [true_and]
  have htable : ∀ q path, Owns hhdmOffset root { s with mem := m } (held.erase (frameAddr f)) q
      (.table path) ↔ Owns hhdmOffset root s held q (.table path) :=
    owns_table_setLeaf htree hpt hm
  refine ⟨hparts.allotted.move (hparts.allotted.pool _ _ howned) (o := .leaf page) ⟨?_, ?_⟩,
    hparts.live_nodup, hparts.held_nodup.erase _⟩
  · intro o
    cases o with
    | free => exact iff_of_false (fun h => nomatch hnot (o := .free) h) (by simp)
    | held => exact iff_of_false (fun h => hparts.held_nodup.not_mem_erase h) (by simp)
    | table path =>
      exact iff_of_false (fun h => nomatch hnot ((htable _ path).mp h)) (by simp)
    | leaf page' =>
      simp only [Owns, Owner.leaf.injEq, hwalk]
      constructor
      · rintro ⟨e, he, heq⟩
        by_contra hne
        rw [if_neg hne] at he
        cases hnot (o := .leaf page') ⟨e, he, heq⟩
      · rintro rfl
        exact ⟨_, if_pos rfl, by rw [frameOf_frameAddr_or f hclean]⟩
  · intro q hne o
    cases o with
    | free => exact Iff.rfl
    | held => exact List.mem_erase_of_ne hne
    | table path => exact htable q path
    | leaf page' =>
      simp only [Owns, hwalk]
      split_ifs with hsame
      · subst hsame
        rw [hfree]
        simp only [Option.some.injEq, reduceCtorEq, false_and, exists_false, iff_false, not_exists]
        rintro e ⟨rfl, rfl⟩
        exact hne (by rw [frameOf_frameAddr_or f hclean])
      · exact Iff.rfl

theorem Partitioned.room (hparts : Partitioned hhdmOffset root pool s held) {q : Word}
    (hq : q ∈ pool) (hnot : q ∉ s.pmm.live) (hroom : pool.length ≤ total.toNat)
    (htotal : s.pmm.pmTotalPages = total) :
    s.pmm.pmStackIdx.toNat < s.pmm.pmTotalPages.toNat := by
  have hnodup : (q :: s.pmm.live).Nodup := List.nodup_cons.mpr ⟨hnot, hparts.live_nodup⟩
  have hsub : q :: s.pmm.live ⊆ pool := by
    intro x hx
    rcases List.mem_cons.mp hx with rfl | hx
    · exact hq
    · exact hparts.allotted.pool x .free hx
  have hlen := (hnodup.subperm hsub).length_le
  rw [List.length_cons, Pmm.length_live] at hlen
  rw [htotal]
  omega

theorem Partitioned.push {pmm : Pmm} {q : Word}
    (hroom : s.pmm.pmStackIdx.toNat < s.pmm.pmTotalPages.toNat)
    (h : pmmFreePages s.pmm q 1 = .ok pmm) : pmm.live = s.pmm.live ++ [q] := by
  have hone : min (1 : Word).toNat (s.pmm.pmTotalPages.toNat - s.pmm.pmStackIdx.toNat) = 1 := by
    rw [show (1 : Word).toNat = 1 from rfl]
    omega
  rw [pmmFreePages_live h, hone]
  rfl

theorem Partitioned.unmap {page : Page} {pt : Frame} {e : Word} {m : Memory 64} {pmm : Pmm}
    (htree : TreeInv hhdmOffset {root} (tables hhdmOffset s.mem))
    (hparts : Partitioned hhdmOffset root pool s held)
    (hleaf : walk (tables hhdmOffset s.mem) root page = some e)
    (hpt : follow (child (tables hhdmOffset s.mem)) root (pathOf page) = some pt)
    (hm : tables hhdmOffset m = (tables hhdmOffset s.mem).set pt (ptIndex page) 0)
    (hlive : pmm.live = s.pmm.live ++ [frameAddr (frameOf e)]) :
    Partitioned hhdmOffset root pool { s with pmm := pmm, mem := m } held := by
  have howned : Owns hhdmOffset root s held (frameAddr (frameOf e)) (.leaf page) := ⟨e, hleaf, rfl⟩
  have hnot : ∀ {o}, Owns hhdmOffset root s held (frameAddr (frameOf e)) o → o = .leaf page :=
    fun h => hparts.allotted.unique h howned
  have hwalk : ∀ page', walk (tables hhdmOffset m) root page' =
      if page' = page then none else walk (tables hhdmOffset s.mem) root page' := by
    intro page'
    rw [hm, walk_set htree rfl hpt rfl, if_neg not_present_zero]
    simp only [true_and]
  have htable : ∀ q path, Owns hhdmOffset root { s with pmm := pmm, mem := m } held q
      (.table path) ↔ Owns hhdmOffset root s held q (.table path) :=
    owns_table_setLeaf htree hpt hm
  refine ⟨hparts.allotted.move (hparts.allotted.pool _ _ howned) (o := .free) ⟨?_, ?_⟩,
    ?_, hparts.held_nodup⟩
  · intro o
    cases o with
    | free => simp [Owns, hlive]
    | held => exact iff_of_false (fun h => nomatch hnot (o := .held) h) (by simp)
    | table path => exact iff_of_false (fun h => nomatch hnot ((htable _ path).mp h)) (by simp)
    | leaf page' =>
      refine iff_of_false (fun h => ?_) (by simp)
      simp only [Owns, hwalk] at h
      obtain ⟨e', he', heq⟩ := h
      by_cases hsame : page' = page
      · rw [if_pos hsame] at he'
        cases he'
      · rw [if_neg hsame] at he'
        have hother := hnot (o := .leaf page') ⟨e', he', heq⟩
        exact hsame (Owner.leaf.inj hother)
  · intro q hne o
    cases o with
    | free => simp [Owns, hlive, hne]
    | held => exact Iff.rfl
    | table path => exact htable q path
    | leaf page' =>
      simp only [Owns, hwalk]
      split_ifs with hsame
      · subst hsame
        rw [hleaf]
        simp only [Option.some.injEq, false_and, exists_false, false_iff, not_exists]
        rintro e' ⟨rfl, rfl⟩
        exact hne rfl
      · exact Iff.rfl
  · rw [hlive, List.nodup_append']
    refine ⟨hparts.live_nodup, by simp, ?_⟩
    intro q hq hmem
    obtain rfl := List.mem_singleton.mp hmem
    exact nomatch hnot (o := .free) hq

theorem Partitioned.release {p : Word} {pmm : Pmm}
    (hparts : Partitioned hhdmOffset root pool s held) (hheld : p ∈ held)
    (hlive : pmm.live = s.pmm.live ++ [p]) :
    Partitioned hhdmOffset root pool { s with pmm := pmm } (held.erase p) := by
  have howned : Owns hhdmOffset root s held p .held := hheld
  have hnot : ∀ {o}, Owns hhdmOffset root s held p o → o = .held := fun h =>
    hparts.allotted.unique h howned
  refine ⟨hparts.allotted.move (hparts.allotted.pool _ _ howned) (o := .free) ⟨?_, ?_⟩,
    ?_, hparts.held_nodup.erase _⟩
  · intro o
    cases o with
    | free => simp [Owns, hlive]
    | held => exact iff_of_false (fun h => hparts.held_nodup.not_mem_erase h) (by simp)
    | table path => exact iff_of_false (fun h => nomatch hnot (o := .table path) h) (by simp)
    | leaf page => exact iff_of_false (fun h => nomatch hnot (o := .leaf page) h) (by simp)
  · intro q hne o
    cases o with
    | free => simp [Owns, hlive, hne]
    | held => exact List.mem_erase_of_ne hne
    | table path => exact Iff.rfl
    | leaf page => exact Iff.rfl
  · rw [hlive, List.nodup_append']
    refine ⟨hparts.live_nodup, by simp, ?_⟩
    intro q hq hmem
    obtain rfl := List.mem_singleton.mp hmem
    exact nomatch hnot (o := .free) hq

/-- Growing the forest turns free frames into tables and keeps present entries. -/
theorem Partitioned.grown (hpool : PoolFrames pool)
    (htree : TreeInv hhdmOffset {root} (tables hhdmOffset s.mem))
    (hparts : Partitioned hhdmOffset root pool s held) (h : Grown hhdmOffset {root} s s') :
    Partitioned hhdmOffset root pool s' held ∧ s'.pmm.pmTotalPages = s.pmm.pmTotalPages ∧
      NonleafKept hhdmOffset root s.mem s'.mem := by
  have hkeep := h.induct (Q := fun t => Partitioned hhdmOffset root pool t held ∧
    t.pmm.pmTotalPages = s.pmm.pmTotalPages ∧
    ∀ p f i, p.length < 3 → follow (child (tables hhdmOffset s.mem)) root p = some f →
      Present (tables hhdmOffset s.mem f i) →
      follow (child (tables hhdmOffset t.mem)) root p = some f ∧
        tables hhdmOffset t.mem f i = tables hhdmOffset s.mem f i) ?_ (hparts.vmmInv hpool htree)
    ⟨hparts, rfl, fun p f i _ hf _ => ⟨hf, rfl⟩⟩
  · exact ⟨hkeep.2.1, hkeep.2.2.1, fun p f i hp hf hpresent => (hkeep.2.2.2 p f i hp hf hpresent).2⟩
  · rintro t t' hinv ⟨hpt, htotal, hold⟩ hgrow
    have hframe := (pmmRequestPages_frame t.pmm 1).1
    cases hgrow with
    | refused hreq =>
      exact ⟨hpt.congr (hpt.live_refused hpool hreq) rfl, hframe.trans htotal, hold⟩
    | @linked r f path i m hreq hf hlink =>
      obtain rfl : r = root := hlink.root
      refine ⟨hpt.link hinv.tree hreq hf hlink, hframe.trans htotal, ?_⟩
      intro p g j hp hg hpresent
      obtain ⟨hg', heq⟩ := hold p g j hp hg hpresent
      refine ⟨hlink.follow_mono hinv.tree rfl hp.le hg', ?_⟩
      rw [hlink.nonleaf_kept hinv.tree rfl hp.le hg' (heq ▸ hpresent), heq]

end Moves

/-! ## Steps and runs -/

section Run

variable {hhdmOffset : Word} {root : Frame} {pool : List Word} {total : Word} {s t : Client}
  {act : ClientAct}

/-- The calls that could trip an assertion of the PMM return. -/
def NeverHalts (hhdmOffset : Word) (root : Frame) (s : Client) : Prop :=
  (∀ virt, hardwareWalk hhdmOffset s.vmm.mem ⟨tableAddr hhdmOffset root⟩ virt ≠ none →
    ∃ vmm, vmmUnmap hhdmOffset s.vmm ⟨tableAddr hhdmOffset root⟩ virt true = .ok (true, vmm)) ∧
  ∀ p ∈ s.held, ∃ pmm, pmmFreePages s.vmm.pmm p 1 = .ok pmm

theorem ClientInv.pmmFreePages (hpool : PoolFrames pool) (hroom : pool.length ≤ total.toNat)
    (hI : ClientInv hhdmOffset root pool total s) {q : Word} {o : Owner}
    (howned : Owns hhdmOffset root s.vmm s.held q o) (ho : o ≠ .free) :
    (∃ pmm, Olive.pmmFreePages s.vmm.pmm q 1 = .ok pmm) ∧
      ∀ pmm, Olive.pmmFreePages s.vmm.pmm q 1 = .ok pmm → pmm.live = s.vmm.pmm.live ++ [q] := by
  have hq := hI.parts.allotted.pool _ _ howned
  have hnot : q ∉ s.vmm.pmm.live := fun h =>
    ho (hI.parts.allotted.unique howned (show Owns _ _ _ _ q .free from h))
  have hspace := hI.parts.room hq hnot hroom hI.total
  obtain ⟨hzero, f, rfl⟩ := hpool q hq
  refine ⟨⟨_, pmmFreePages_eq hzero (pageAligned_frameAddr f) (by decide) ?_⟩,
    fun pmm h => Partitioned.push hspace h⟩
  rw [show (1 : Word).toNat = 1 from rfl]
  omega

theorem ClientInv.vmmUnmap (hpool : PoolFrames pool)
    (hI : ClientInv hhdmOffset root pool total s) {virt : Word}
    (hmapped : hardwareWalk hhdmOffset s.vmm.mem ⟨tableAddr hhdmOffset root⟩ virt ≠ none) :
    ∃ e pt m, walk (tables hhdmOffset s.vmm.mem) root (pageOf virt) = some e ∧
      follow (child (tables hhdmOffset s.vmm.mem)) root (pathOf (pageOf virt)) = some pt ∧
      tableAddr hhdmOffset pt ≠ 0 ∧
      tables hhdmOffset m = (tables hhdmOffset s.vmm.mem).set pt (ptIndex (pageOf virt)) 0 ∧
      Olive.vmmUnmap hhdmOffset s.vmm ⟨tableAddr hhdmOffset root⟩ virt true =
        (Olive.pmmFreePages s.vmm.pmm (frameAddr (frameOf e)) 1).map fun pmm =>
          (true, { s.vmm with pmm := pmm, mem := m }) := by
  have hinv := hI.parts.vmmInv hpool hI.tree
  rw [hardwareWalk_eq hI.tree rfl, ne_eq, Option.map_eq_none_iff] at hmapped
  rcases vmmUnmap_spec hinv rfl virt with ⟨hnone, -⟩ | ⟨pt, m, hpt, hptr, hm, heq⟩
  · exact absurd hnone hmapped
  · refine ⟨tables hhdmOffset s.vmm.mem pt (ptIndex (pageOf virt)), pt, m, ?_, hpt, hptr, hm,
      heq true⟩
    rw [walk, hpt] at hmapped ⊢
    simp only [Option.bind_some] at hmapped ⊢
    split_ifs at hmapped ⊢
    · rfl
    · exact absurd rfl hmapped

theorem ClientInv.neverHalts (hpool : PoolFrames pool) (hroom : pool.length ≤ total.toNat)
    (hI : ClientInv hhdmOffset root pool total s) : NeverHalts hhdmOffset root s := by
  constructor
  · intro virt hmapped
    obtain ⟨e, pt, m, hleaf, -, -, -, heq⟩ := hI.vmmUnmap hpool hmapped
    obtain ⟨pmm, hpmm⟩ := (hI.pmmFreePages hpool hroom (o := .leaf (pageOf virt)) ⟨e, hleaf, rfl⟩
      (by simp)).1
    exact ⟨_, heq.trans (by rw [hpmm]; rfl)⟩
  · intro p hp
    exact (hI.pmmFreePages hpool hroom (o := .held) hp (by simp)).1

theorem mapped_set {mem mem' : Memory 64} (htree : TreeInv hhdmOffset {root} (tables hhdmOffset mem))
    {page : Page} {pt : Frame} {e : Word}
    (hpt : follow (child (tables hhdmOffset mem)) root (pathOf page) = some pt)
    (hm : tables hhdmOffset mem' = (tables hhdmOffset mem).set pt (ptIndex page) e)
    {mapped : Page → Option Word}
    (hmapped : ∀ q, mapped q =
      (walk (tables hhdmOffset mem) root q).map fun e => frameAddr (frameOf e)) (q : Page) :
    Function.update mapped page (if Present e then some (frameAddr (frameOf e)) else none) q =
      (walk (tables hhdmOffset mem') root q).map fun e => frameAddr (frameOf e) := by
  rw [hm, walk_set htree rfl hpt rfl, Function.update_apply, hmapped q]
  simp only [true_and]
  split_ifs <;> rfl

theorem ClientMove.inv (hpool : PoolFrames pool) (hroom : pool.length ≤ total.toNat)
    (hI : ClientInv hhdmOffset root pool total s) (h : ClientMove hhdmOffset root s act t) :
    ClientInv hhdmOffset root pool total t ∧ NonleafKept hhdmOffset root s.vmm.mem t.vmm.mem ∧
      ∀ virt, act = .unmap virt → ∃ p, s.mapped (pageOf virt) = some p ∧
        t.vmm.pmm.live = s.vmm.pmm.live ++ [p] := by
  have hkept : NonleafKept hhdmOffset root s.vmm.mem s.vmm.mem := fun _ _ _ _ _ _ => rfl
  have hinv := hI.parts.vmmInv hpool hI.tree
  cases h with
  | takeRefused h =>
    refine ⟨⟨hI.tree, hI.parts.congr (hI.parts.live_refused hpool h) rfl, ?_, hI.mapped⟩, hkept,
      by simp⟩
    exact (pmmRequestPages_frame _ _).1.trans hI.total
  | takeServed h =>
    refine ⟨⟨hI.tree, hI.parts.take h, ?_, hI.mapped⟩, hkept, by simp⟩
    exact (pmmRequestPages_frame _ _).1.trans hI.total
  | @mapDone virt p flags hheld hfree hpresent hclean hobt =>
    rw [hardwareWalk_eq hI.tree rfl, Option.map_eq_none_iff] at hfree
    obtain ⟨s₁, hgrown, hinv₁, ⟨-, pt, m, hpt, hptr, hm, heq⟩ | ⟨hnot, -⟩⟩ :=
      vmmMap_spec hinv (Set.mem_singleton root) virt p flags
    swap
    · exact absurd hobt hnot
    obtain ⟨hparts₁, htotal₁, hkept₁⟩ := hI.parts.grown hpool hI.tree hgrown
    have hwalk₁ := hgrown.walk_eq hinv (Set.mem_singleton root)
    obtain ⟨-, f, rfl⟩ := hpool p (hI.parts.allotted.pool p .held hheld)
    rw [heq]
    refine ⟨⟨hm ▸ hinv₁.tree.set rfl hpt hptr, ?_, htotal₁.trans hI.total, fun page => ?_⟩, ?_,
      by simp⟩
    · exact hparts₁.map hinv₁.tree hpool hheld ((hwalk₁ _).trans hfree) hpresent hclean hpt hm
    · have hmapped₁ : ∀ q, s.mapped q = (walk (tables hhdmOffset s₁.mem) root q).map
          fun e => frameAddr (frameOf e) := fun q => by rw [hI.mapped q, hwalk₁ q]
      have hstep := mapped_set hinv₁.tree hpt hm hmapped₁ page
      rwa [if_pos (present_or_flags hpresent), frameOf_frameAddr_or f hclean] at hstep
    · intro q g i hq hg hentry
      rw [← hkept₁ q g i hq hg hentry, hm,
        set_entry_eq hinv₁.tree rfl hpt rfl hq (hgrown.follow_mono hinv rfl hq.le hg)]
  | @mapFailed virt p flags hheld hfree hpresent hclean hobt =>
    obtain ⟨s₁, hgrown, hinv₁, ⟨hdone, -⟩ | ⟨-, heq⟩⟩ :=
      vmmMap_spec hinv (Set.mem_singleton root) virt p flags
    · exact absurd hdone hobt
    obtain ⟨hparts₁, htotal₁, hkept₁⟩ := hI.parts.grown hpool hI.tree hgrown
    rw [heq]
    refine ⟨⟨hinv₁.tree, hparts₁.congr rfl rfl, htotal₁.trans hI.total, fun page => ?_⟩, hkept₁,
      by simp⟩
    rw [hI.mapped page, ← hgrown.walk_eq hinv (Set.mem_singleton root)]
    rfl
  | @unmap virt b vmm hmapped h =>
    obtain ⟨e, pt, m, hleaf, hpt, hptr, hm, heq⟩ := hI.vmmUnmap hpool hmapped
    rw [heq] at h
    cases hfree : Olive.pmmFreePages s.vmm.pmm (frameAddr (frameOf e)) 1 with
    | error e => rw [hfree] at h; cases h
    | ok pmm =>
      rw [hfree] at h
      cases h
      have hlive := (hI.pmmFreePages hpool hroom (o := .leaf (pageOf virt)) ⟨e, hleaf, rfl⟩
        (by simp)).2 pmm hfree
      refine ⟨⟨hm ▸ hI.tree.set rfl hpt hptr, hI.parts.unmap hI.tree hleaf hpt hm hlive,
        (pmmFreePages_frame hfree).1.trans hI.total, fun page => ?_⟩, ?_, ?_⟩
      · have hstep := mapped_set hI.tree hpt hm hI.mapped page
        rwa [if_neg not_present_zero] at hstep
      · intro q f i hq hf _
        rw [hm, set_entry_eq hI.tree rfl hpt rfl hq hf]
      · rintro virt' hact
        cases hact
        exact ⟨frameAddr (frameOf e), by rw [hI.mapped, hleaf]; rfl, hlive⟩
  | @release p pmm hheld h =>
    have hlive := (hI.pmmFreePages hpool hroom (o := .held) hheld (by simp)).2 pmm h
    refine ⟨⟨hI.tree, hI.parts.release hheld hlive, ?_, hI.mapped⟩, hkept, by simp⟩
    exact (pmmFreePages_frame h).1.trans hI.total

end Run

/-- The PMM before the run: no frame is on the stack twice, all are aligned, not zero
and below 2^52, and the stack is no longer than it may be. -/
structure FramePool (pmm : Pmm) : Prop where
  nodup : pmm.live.Nodup
  frames : ∀ q ∈ pmm.live, PageAligned q ∧ q ≠ 0 ∧ q.toNat < 2 ^ 52
  room : pmm.pmStackIdx ≤ pmm.pmTotalPages

theorem FramePool.poolFrames {pmm : Pmm} (h : FramePool pmm) : PoolFrames pmm.live := by
  intro q hq
  obtain ⟨halign, hzero, hlt⟩ := h.frames q hq
  exact ⟨hzero, exists_frameAddr halign hlt⟩

theorem ClientInv.start {hhdmOffset : Word} {root : Frame} {pmm : Pmm} {s : Vmm Pmm}
    (hpool : FramePool pmm) (hroot : (pmmRequestPages pmm 1).1 = frameAddr root)
    (hserved : (pmmRequestPages pmm 1).1 ≠ 0) (hpmm : s.pmm = (pmmRequestPages pmm 1).2)
    (hcleared : ∀ i, tables hhdmOffset s.mem root i = 0) :
    ClientInv hhdmOffset root pmm.live pmm.pmTotalPages ⟨s, [], fun _ => none⟩ := by
  have hcleared' : ∀ r ∈ ({root} : Set Frame), ∀ i, tables hhdmOffset s.mem r i = 0 := by
    rintro r rfl
    exact hcleared
  have hwalk := fun page => walk_cleared hcleared' (Set.mem_singleton root) page
  rcases List.eq_nil_or_concat' pmm.live with h | ⟨pages, top, h⟩
  · rw [pmmRequestPages_one_nil h] at hserved
    exact absurd rfl hserved
  obtain ⟨htop, hpop, hlive⟩ := pmmRequestPages_one_concat h
  rw [htop] at hroot
  subst hroot
  have hlive' : s.pmm.live = pages := by rw [hpmm, hpop, hlive]
  have hnodup := hpool.nodup
  rw [h, List.nodup_append'] at hnodup
  obtain ⟨hpages, -, hdisj⟩ := hnodup
  -- the frames on the stack are free, the root is the table of the empty path
  have howns : ∀ q o, Owns hhdmOffset root s [] q o ↔
      (q ∈ pages ∧ o = .free) ∨ (q = frameAddr root ∧ o = .table []) := by
    intro q o
    cases o with
    | free => simp [Owns, hlive']
    | held => simp [Owns]
    | leaf page => simp [Owns, hwalk]
    | table path =>
      simp only [Owns, reduceCtorEq, and_false, false_or, Owner.table.injEq]
      constructor
      · rintro ⟨-, f, hf, rfl⟩
        obtain ⟨rfl, rfl⟩ := follow_cleared hcleared' (Set.mem_singleton root) hf
        exact ⟨rfl, rfl⟩
      · rintro ⟨rfl, rfl⟩
        exact ⟨by simp, root, rfl, rfl⟩
  have hne : ∀ q ∈ pages, q ≠ frameAddr root := fun q hq he => hdisj hq (by simp [he])
  refine ⟨.of_cleared hcleared', ⟨⟨fun q hq => ?_, fun q o ho => ?_⟩, hlive' ▸ hpages, by simp⟩, ?_,
    fun page => by rw [hwalk page]; rfl⟩
  · rw [Set.mem_ofPred_eq, h, List.mem_append, List.mem_singleton] at hq
    simp only [howns]
    rcases hq with hq | rfl
    · exact ⟨.free, .inl ⟨hq, rfl⟩, by simp [hne q hq]⟩
    · refine ⟨.table [], .inr ⟨rfl, rfl⟩, ?_⟩
      rintro o (⟨hq, -⟩ | ⟨-, rfl⟩)
      · exact absurd rfl (hne _ hq)
      · rfl
  · rw [Set.mem_ofPred_eq, h]
    rcases (howns q o).mp ho with ⟨hq, -⟩ | ⟨rfl, -⟩ <;> simp_all
  · rw [hpmm]
    exact (pmmRequestPages_frame pmm 1).1

/-- Whatever the client does, and wherever the PMM runs dry, every frame of the pool
is exactly one of free, a table on one path, mapped at one page, or held; no call
halts; a present entry above the last level never changes; and `vmm_unmap` gives back
the frame that was installed at the page. -/
theorem clientMoves_partitioned {hhdmOffset : Word} {root : Frame} {pmm : Pmm} {s : Vmm Pmm}
    {ts : List (Transition Client ClientAct)} {u : Client} (hpool : FramePool pmm)
    (hroot : (pmmRequestPages pmm 1).1 = frameAddr root)
    (hserved : (pmmRequestPages pmm 1).1 ≠ 0) (hpmm : s.pmm = (pmmRequestPages pmm 1).2)
    (hcleared : ∀ i, tables hhdmOffset s.mem root i = 0)
    (hrun : Run (ClientMove hhdmOffset root) ⟨s, [], fun _ => none⟩ ts u) :
    Partitioned hhdmOffset root pmm.live s [] ∧
      ∀ t ∈ ts, Partitioned hhdmOffset root pmm.live t.post.vmm t.post.held ∧
        NeverHalts hhdmOffset root t.post ∧
        NonleafKept hhdmOffset root t.pre.vmm.mem t.post.vmm.mem ∧
        ∀ virt, t.act = .unmap virt → ∃ p, t.pre.mapped (pageOf virt) = some p ∧
          t.post.vmm.pmm.live = t.pre.vmm.pmm.live ++ [p] := by
  have hstart := ClientInv.start hpool hroot hserved hpmm hcleared
  have hroom : pmm.live.length ≤ pmm.pmTotalPages.toNat := by
    rw [Pmm.length_live]
    exact BitVec.le_def.mp hpool.room
  have hstep := fun s a t (hI : ClientInv hhdmOffset root pmm.live pmm.pmTotalPages s)
    (h : ClientMove hhdmOffset root s a t) => h.inv hpool.poolFrames hroom hI
  refine ⟨hstart.parts, fun t ht => ?_⟩
  obtain ⟨hpre, hpost⟩ := (hrun.invariant (fun s a t hI h => (hstep s a t hI h).1) hstart).2 t ht
  obtain ⟨-, hkept, hgiven⟩ := hstep _ _ _ hpre (hrun.step_of_mem t ht)
  exact ⟨hpost.parts, hpost.neverHalts hpool.poolFrames hroom, hkept, hgiven⟩

theorem FramePool.of_pmmInit {entries : List MemmapEntry} {hhdmOffset : Word} {pmm : Pmm}
    (hv : UsableMemmap entries) (hinit : pmmInit (some entries) hhdmOffset Pmm.boot = (0, pmm))
    (hbelow : ∀ e ∈ entries, e.type = .usable →
      e.base ≠ 0 ∧ e.base.toNat + e.length.toNat ≤ 2 ^ 52) : FramePool pmm := by
  have hpost := initPost_of_pmmInit hv hinit
  obtain ⟨rest, hperm⟩ := hpost.exists_perm hv
  have hroom := hpost.length_live_le hv
  rw [Pmm.length_live] at hroom
  refine ⟨(List.nodup_append'.mp (hperm.nodup_iff.mp hv.nodup)).1, fun q hq => ?_, hroom⟩
  obtain ⟨e, he, husable, hqe⟩ := mem_usablePages.mp (hperm.mem_iff.mpr (List.mem_append_left _ hq))
  obtain ⟨halign, hlo, hhi⟩ := (MemmapEntry.mem_pages_iff (hv.aligned e he husable)
    (hv.bounded e he husable)).mp hqe
  obtain ⟨hbase, hlt⟩ := hbelow e he husable
  refine ⟨halign, ?_, by omega⟩
  rintro rfl
  exact hbase (BitVec.eq_of_toNat_eq (Nat.le_zero.mp hlo))

/-- Seven usable pages, of which the last becomes the stack and the one below it the PML4. -/
def sevenPages : List MemmapEntry := [⟨0x1000, 0x7000, .usable⟩]

theorem usableMemmap_sevenPages : UsableMemmap sevenPages :=
  ⟨by decide, by decide, by simp [sevenPages]⟩

theorem pmmInit_sevenPages : ∃ pmm, FramePool pmm ∧
    pmm.live = [0x1000, 0x2000, 0x3000, 0x4000, 0x5000, 0x6000] := by
  obtain ⟨pmm, hinit, hpost⟩ :=
    @pmmInit_spec _ 0xffff800000000000 usableMemmap_sevenPages (by decide)
  have hmap : pmm.memmap = [⟨0x1000, 0x6000, .usable⟩] := by
    rw [hpost.memmap]
    decide
  have hlive := hpost.live
  rw [hmap] at hlive
  exact ⟨pmm, .of_pmmInit usableMemmap_sevenPages hinit (by decide), hlive.trans (by decide)⟩

theorem exists_request_one {a : Pmm} {pages : List Word} {top : Word} (h : a.live = pages ++ [top]) :
    ∃ a', pmmRequestPages a 1 = (top, a') ∧ a'.live = pages := by
  obtain ⟨htop, hpop, hlive⟩ := pmmRequestPages_one_concat h
  exact ⟨a.pop 1, Prod.ext htop hpop, hlive⟩

/-- Three free pages and an empty page map are enough for a first page, but not for a second one
with another entry of the PML4. -/
theorem obtainsTables_sevenPages {s : Vmm Pmm} (hlive : s.pmm.live = [0x1000, 0x2000, 0x3000])
    (hmem : s.mem = fun _ => 0) (hpm : s.kernelPm = ⟨tableAddr 0xffff800000000000 0x6⟩) :
    VmmInv 0xffff800000000000 {0x6} s ∧
      ObtainsTables 0xffff800000000000 s ⟨tableAddr 0xffff800000000000 0x6⟩ 0x400000 ∧
      ¬ ObtainsTables 0xffff800000000000 (vmmMap 0xffff800000000000 s
          ⟨tableAddr 0xffff800000000000 0x6⟩ 0x400000 0x5000 3)
        ⟨tableAddr 0xffff800000000000 0x6⟩ 0x8000000000 := by
  have hcleared : ∀ r ∈ ({0x6} : Set Frame), ∀ i, tables 0xffff800000000000 s.mem r i = 0 := by
    rw [hmem]
    exact fun _ _ _ => Memory.load64_zero _
  have hserves : ServesFrames s.pmm {0x6} := by
    refine servesFrames_pmm (by rw [hlive]; decide) ?_
    rw [hlive, List.forall_mem_cons, List.forall_mem_cons, List.forall_mem_singleton]
    exact ⟨⟨0x1, by decide, by decide⟩, ⟨0x2, by decide, by decide⟩, ⟨0x3, by decide, by decide⟩⟩
  have hrep : Represents 0xffff800000000000 0x6 s.pmm s ∅ 0 :=
    .of_cleared (.of_cleared hcleared hserves) hpm hcleared
  have hfree : ∀ q ∈ s.pmm.live, q ≠ 0 ∧ q + 0xffff800000000000 ≠ 0 := by
    rw [hlive, List.forall_mem_cons, List.forall_mem_cons, List.forall_mem_singleton]
    exact ⟨⟨by decide, by decide⟩, ⟨by decide, by decide⟩, by decide, by decide⟩
  have hobtains : ObtainsTables 0xffff800000000000 s s.kernelPm 0x400000 :=
    obtainsTables_of_cleared hrep ⟨0x400000, 0x5000, 3⟩
      (servesTable_pmm hfree (by rw [hlive]; decide))
  have hfails : MapFails 0xffff800000000000 s [⟨0x400000, 0x5000, 3⟩, ⟨0x8000000000, 0x4000, 3⟩] := by
    have hneeded : 3 < tablesNeeded [⟨0x400000, 0x5000, 3⟩, ⟨0x8000000000, 0x4000, 3⟩] := by
      decide +kernel
    rw [mapFails_iff_tablesNeeded hrep]
    intro h
    apply (h 3 hneeded).1
    rw [served_pmm, hlive]
    rfl
  have hcall := vmmMap_call hrep.inv hpm (c := ⟨0x400000, 0x5000, 3⟩) (by decide)
  rw [mapFails_cons, mapFails_cons, hcall.kernelPm] at hfails
  rw [hpm] at hobtains hfails
  refine ⟨hrep.inv, hobtains, ?_⟩
  exact (hfails.resolve_left (not_not_intro hobtains)).resolve_right not_mapFails_nil

theorem hardwareWalk_sevenPages {s : Vmm Pmm} (hinv : VmmInv 0xffff800000000000 {0x6} s)
    (hmem : s.mem = fun _ => 0)
    (hobtains : ObtainsTables 0xffff800000000000 s ⟨tableAddr 0xffff800000000000 0x6⟩ 0x400000) :
    let t := vmmMap 0xffff800000000000 s ⟨tableAddr 0xffff800000000000 0x6⟩ 0x400000 0x5000 3
    let u := vmmMap 0xffff800000000000 t ⟨tableAddr 0xffff800000000000 0x6⟩ 0x8000000000 0x4000 3
    hardwareWalk 0xffff800000000000 s.mem ⟨tableAddr 0xffff800000000000 0x6⟩ 0x400000 = none ∧
      hardwareWalk 0xffff800000000000 t.mem ⟨tableAddr 0xffff800000000000 0x6⟩ 0x8000000000 = none ∧
      hardwareWalk 0xffff800000000000 u.mem ⟨tableAddr 0xffff800000000000 0x6⟩ 0x400000 ≠ none := by
  intro t u
  have hroot : (0x6 : Frame) ∈ ({0x6} : Set Frame) := rfl
  have hinvt : VmmInv 0xffff800000000000 {0x6} t := vmmMap_inv hinv hroot 0x400000 0x5000 3
  have hinvu : VmmInv 0xffff800000000000 {0x6} u := vmmMap_inv hinvt hroot 0x8000000000 0x4000 3
  have hempty : ∀ page, walk (tables 0xffff800000000000 s.mem) 0x6 page = none := by
    intro page
    apply walk_cleared _ hroot
    rw [hmem]
    exact fun _ _ _ => Memory.load64_zero _
  have hne : pageOf 0x8000000000 ≠ pageOf 0x400000 := by
    decide
  have hwalkt := vmmMap_walk hinv hroot 0x400000 0x5000 3 hroot
  have hwalku := vmmMap_walk hinvt hroot 0x8000000000 0x4000 3 hroot
  refine ⟨?_, ?_, ?_⟩
  · rw [hardwareWalk_eq hinv.tree hroot, hempty]
    rfl
  · rw [hardwareWalk_eq hinvt.tree hroot, hwalkt, if_neg fun h => hne h.1.2, hempty]
    rfl
  · rw [hardwareWalk_eq hinvu.tree hroot, hwalku, if_neg fun h => hne h.1.2.symm, hwalkt,
      if_pos ⟨⟨rfl, rfl⟩, hobtains⟩, if_pos (by decide : Present (0x5000 ||| 3))]
    exact Option.some_ne_none _

/-- The client takes two frames and maps one of them, for which `vmm_map` takes the last three
pages as tables. It has none for the other one, then, and the first is given back. -/
theorem clientMoves_partitioned_sevenPages : ∃ (pmm : Pmm) (s : Vmm Pmm)
    (ts : List (Transition Client ClientAct)) (u : Client),
    Run (ClientMove 0xffff800000000000 0x6) ⟨s, [], fun _ => none⟩ ts u ∧
      ts.map Transition.act = [.take, .take, .map 0x400000 0x5000 3, .map 0x8000000000 0x4000 3,
        .unmap 0x400000] ∧
      ts.map (fun t => t.post.held) =
        [[0x5000], [0x4000, 0x5000], [0x4000], [0x4000], [0x4000]] ∧
      Partitioned 0xffff800000000000 0x6 pmm.live s [] ∧
      ∀ t ∈ ts, Partitioned 0xffff800000000000 0x6 pmm.live t.post.vmm t.post.held := by
  obtain ⟨pmm, hpool, hlive⟩ := pmmInit_sevenPages
  obtain ⟨pmm₁, hreq₁, hlive₁⟩ :=
    @exists_request_one pmm [0x1000, 0x2000, 0x3000, 0x4000, 0x5000] 0x6000 hlive
  obtain ⟨pmm₂, hreq₂, hlive₂⟩ :=
    @exists_request_one pmm₁ [0x1000, 0x2000, 0x3000, 0x4000] 0x5000 hlive₁
  obtain ⟨pmm₃, hreq₃, hlive₃⟩ := @exists_request_one pmm₂ [0x1000, 0x2000, 0x3000] 0x4000 hlive₂
  let s (pmm : Pmm) : Vmm Pmm :=
    { clearedVmm with pmm := pmm, kernelPm := ⟨tableAddr 0xffff800000000000 0x6⟩ }
  let t := vmmMap 0xffff800000000000 (s pmm₃) ⟨tableAddr 0xffff800000000000 0x6⟩ 0x400000 0x5000 3
  let u := vmmMap 0xffff800000000000 t ⟨tableAddr 0xffff800000000000 0x6⟩ 0x8000000000 0x4000 3
  let mapped := Function.update (fun _ => none) (pageOf 0x400000) (some (0x5000 : Word))
  obtain ⟨hinv, hobtains, hfails⟩ := @obtainsTables_sevenPages (s pmm₃) hlive₃ rfl rfl
  obtain ⟨hfree, hfree', hmapped⟩ := hardwareWalk_sevenPages hinv rfl hobtains
  have htake : ClientMove 0xffff800000000000 0x6 ⟨s pmm₁, [], fun _ => none⟩ .take
      ⟨s pmm₂, [0x5000], fun _ => none⟩ := .take_of_request hreq₂ (by decide) _ _
  have htake' : ClientMove 0xffff800000000000 0x6 ⟨s pmm₂, [0x5000], fun _ => none⟩ .take
      ⟨s pmm₃, [0x4000, 0x5000], fun _ => none⟩ := .take_of_request hreq₃ (by decide) _ _
  have hmap : ClientMove 0xffff800000000000 0x6 ⟨s pmm₃, [0x4000, 0x5000], fun _ => none⟩
      (.map 0x400000 0x5000 3) ⟨t, [0x4000], mapped⟩ :=
    .mapDone (List.mem_cons_of_mem _ List.mem_cons_self) hfree (by decide) (by decide) hobtains
  have hmap' : ClientMove 0xffff800000000000 0x6 ⟨t, [0x4000], mapped⟩
      (.map 0x8000000000 0x4000 3) ⟨u, [0x4000], mapped⟩ :=
    .mapFailed List.mem_cons_self hfree' (by decide) (by decide) hfails
  have hroot : (pmmRequestPages pmm 1).1 = frameAddr 0x6 :=
    (congrArg Prod.fst hreq₁).trans (show (0x6000 : Word) = frameAddr 0x6 by decide)
  have hserved : (pmmRequestPages pmm 1).1 ≠ 0 := by
    rw [hroot]
    decide
  have hpmm : (s pmm₁).pmm = (pmmRequestPages pmm 1).2 := by
    rw [hreq₁]
  have hcleared : ∀ i, tables 0xffff800000000000 (s pmm₁).mem 0x6 i = 0 :=
    fun _ => Memory.load64_zero _
  -- after the first four steps no call halts, so the fifth is one
  have hrun₄ := Run.cons htake (Run.cons htake' (Run.cons hmap (Run.cons hmap' (Run.nil _))))
  have hhalts := (clientMoves_partitioned hpool hroot hserved hpmm hcleared hrun₄).2 ⟨_, _, _⟩
    (List.mem_cons_of_mem _ (List.mem_cons_of_mem _ (List.mem_cons_of_mem _ List.mem_cons_self)))
  obtain ⟨vmm, hunmap⟩ := hhalts.2.1.1 0x400000 hmapped
  have hrun := Run.cons htake (Run.cons htake' (Run.cons hmap (Run.cons hmap'
    (Run.cons (.unmap hmapped hunmap) (Run.nil _)))))
  obtain ⟨hstart, hall⟩ := clientMoves_partitioned hpool hroot hserved hpmm hcleared hrun
  exact ⟨pmm, s pmm₁, _, _, hrun, rfl, rfl, hstart, fun t ht => (hall t ht).1⟩

end Olive
