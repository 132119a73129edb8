import Olive.Library.Runs
import Olive.Pmm.Init

/-!
# Who owns the pages of the pool

A run of requests and releases is followed with a ledger of the outstanding
allocations, each an address and a page count. The pool is intact when the page
ranges of these allocations and the pages on the free stack are a partition of
it. A release always keeps the pool intact. A request keeps it exactly when the
slots it pops hold consecutive pages, which `pmm_request_pages` does not check.
-/

namespace Olive

open Library Pmm

structure Ledger where
  pmm : Pmm
  out : List (Word × Word)

inductive PmmCall where
  | request (pages : Word)
  | free (ptr pages : Word)

/-- The pages `ptr`, `ptr + 4096`, ... a caller owns after a request. -/
def rangePages (a : Word × Word) : List Word := ticks pageSize a.1 a.2.toNat

/-- One call: a request of at least one page, or the release of one whole
outstanding allocation. -/
inductive PmmStep : Ledger → PmmCall → Ledger → Prop
  | refused {s : Ledger} {pages : Word} (hpages : pages ≠ 0)
      (h : (pmmRequestPages s.pmm pages).1 = 0) :
      PmmStep s (.request pages) ⟨(pmmRequestPages s.pmm pages).2, s.out⟩
  | satisfied {s : Ledger} {pages : Word} (hpages : pages ≠ 0)
      (h : (pmmRequestPages s.pmm pages).1 ≠ 0) :
      PmmStep s (.request pages)
        ⟨(pmmRequestPages s.pmm pages).2, ((pmmRequestPages s.pmm pages).1, pages) :: s.out⟩
  | free {s : Ledger} {ptr pages : Word} {pmm : Pmm} (hout : (ptr, pages) ∈ s.out)
      (h : pmmFreePages s.pmm ptr pages = .ok pmm) :
      PmmStep s (.free ptr pages) ⟨pmm, s.out.erase (ptr, pages)⟩

/-- No page is handed out twice, lost or invented. -/
structure Partition (pool : List Word) (s : Ledger) : Prop where
  ranges_disjoint : s.out.Pairwise fun a b => (rangePages a).Disjoint (rangePages b)
  ranges_nodup : ∀ a ∈ s.out, (rangePages a).Nodup
  live_disjoint : ∀ a ∈ s.out, (rangePages a).Disjoint s.pmm.live
  live_nodup : s.pmm.live.Nodup
  exact : ∀ q, q ∈ pool ↔ q ∈ s.pmm.live ∨ ∃ a ∈ s.out, q ∈ rangePages a

/-- The slots a request of `pages` would pop hold, in some order, the pages of
the range it would answer. -/
def Contiguous (s : Ledger) : PmmCall → Prop
  | .request pages => pages ≤ s.pmm.pmStackIdx →
      (s.pmm.live.drop (s.pmm.pmStackIdx - pages).toNat).Perm
        (rangePages (s.pmm.slots (s.pmm.pmStackIdx - pages).toNat, pages))
  | .free _ _ => True

theorem partition_iff_perm {pool : List Word} (hpool : pool.Nodup) (s : Ledger) :
    Partition pool s ↔ (s.out.flatMap rangePages ++ s.pmm.live).Perm pool := by
  have hmem : ∀ q, q ∈ s.out.flatMap rangePages ++ s.pmm.live ↔
      q ∈ s.pmm.live ∨ ∃ a ∈ s.out, q ∈ rangePages a := by
    intro q
    rw [List.mem_append, List.mem_flatMap, or_comm]
  constructor
  · intro h
    have hnodup : (s.out.flatMap rangePages ++ s.pmm.live).Nodup := by
      refine List.Nodup.append ?_ h.live_nodup ?_
      · exact List.nodup_flatMap.mpr ⟨h.ranges_nodup, h.ranges_disjoint⟩
      · intro q hq hlive
        obtain ⟨a, ha, hqa⟩ := List.mem_flatMap.mp hq
        exact h.live_disjoint a ha hqa hlive
    rw [List.perm_ext_iff_of_nodup hnodup hpool]
    intro q
    rw [hmem, h.exact]
  · intro h
    have hnodup := h.nodup_iff.mpr hpool
    obtain ⟨hranges, hlive, hdisj⟩ := List.nodup_append'.mp hnodup
    obtain ⟨hrn, hrd⟩ := List.nodup_flatMap.mp hranges
    refine ⟨hrd, hrn, ?_, hlive, ?_⟩
    · intro a ha q hqa hq
      exact hdisj (List.mem_flatMap.mpr ⟨a, ha, hqa⟩) hq
    · intro q
      rw [← hmem, h.mem_iff]

/-! ## One step -/

/-- What every ledger of a run satisfies as long as the pool is intact. -/
structure Stable (s₀ : Pmm) (s : Ledger) : Prop where
  total : s.pmm.pmTotalPages = s₀.pmTotalPages

section Step

variable {s₀ : Pmm} (hpool : s₀.live.Nodup) (hnonzero : ∀ q ∈ s₀.live, q ≠ 0)
  (hroom : s₀.live.length ≤ s₀.pmTotalPages.toNat)

include hnonzero in
/-- Whether a request is served depends on the number of free pages alone. -/
theorem request_eq_zero_iff {s : Ledger} (hP : Partition s₀.live s) {pages : Word}
    (hpages : pages ≠ 0) :
    (pmmRequestPages s.pmm pages).1 = 0 ↔ s.pmm.pmStackIdx < pages := by
  constructor
  · intro h
    by_contra hle
    have hle' : pages ≤ s.pmm.pmStackIdx := by
      rw [BitVec.lt_def] at hle
      rw [BitVec.le_def]
      omega
    have hmem := (request_split hpages hle').2
    rw [h] at hmem
    exact hnonzero 0 ((hP.exact 0).mpr (Or.inl hmem)) rfl
  · intro h
    rw [pmmRequestPages_refused (Or.inr h)]

include hpool hnonzero hroom in
/-- A step keeps the pool intact exactly when it pops a contiguous range. -/
theorem PmmStep.partition_iff {s t : Ledger} {call : PmmCall} (hI : Stable s₀ s)
    (hP : Partition s₀.live s) (h : PmmStep s call t) :
    Partition s₀.live t ↔ Contiguous s call := by
  have hperm := (partition_iff_perm hpool s).mp hP
  cases h with
  | @refused pages hpages h =>
    have hlt := (request_eq_zero_iff hnonzero hP hpages).mp h
    have hcond : Contiguous s (.request pages) := by
      intro hle
      rw [BitVec.lt_def] at hlt
      rw [BitVec.le_def] at hle
      omega
    rw [iff_true_right hcond, pmmRequestPages_refused (Or.inr hlt), partition_iff_perm hpool]
    exact hperm
  | @satisfied pages hpages h =>
    have hle : pages ≤ s.pmm.pmStackIdx := by
      have hlt := mt (request_eq_zero_iff hnonzero hP hpages).mpr h
      rw [BitVec.lt_def] at hlt
      rw [BitVec.le_def]
      omega
    have hsplit := (request_split hpages hle).1
    have hanswer : (pmmRequestPages s.pmm pages).1 =
        s.pmm.slots (s.pmm.pmStackIdx - pages).toNat := by
      rw [pmmRequestPages_satisfied hpages hle]
    rw [partition_iff_perm hpool, Contiguous, imp_iff_right hle, ← hanswer]
    rw [← hsplit, ← List.append_assoc] at hperm
    rw [List.flatMap_cons, List.append_assoc]
    constructor
    · intro hpost
      have := (hpost.trans hperm.symm).trans List.perm_append_comm
      exact ((List.perm_append_right_iff _).mp this).symm
    · intro hcond
      refine List.Perm.trans ?_ hperm
      exact List.perm_append_comm.trans (hcond.symm.append_left _)
  | @free ptr pages pmm hout h =>
    obtain ⟨hptr, halign, hpages⟩ := pmmFreePages_ok h
    have hcons : (s.out.flatMap rangePages).Perm
        (rangePages (ptr, pages) ++ (s.out.erase (ptr, pages)).flatMap rangePages) := by
      have := (List.perm_cons_erase hout).flatMap_right rangePages
      rwa [List.flatMap_cons] at this
    have hrange : (rangePages (ptr, pages)).length = pages.toNat := length_ticks _ _ _
    have hlen := hperm.length_eq
    rw [List.length_append, hcons.length_eq, List.length_append, hrange, length_live] at hlen
    have hroom' : s.pmm.pmStackIdx.toNat + pages.toNat ≤ s.pmm.pmTotalPages.toNat := by
      rw [hI.total]
      omega
    rw [pmmFreePages_eq hptr halign hpages hroom', Except.ok.injEq] at h
    have htotal := s.pmm.pmTotalPages.isLt
    have hlive : pmm.live = s.pmm.live ++ rangePages (ptr, pages) := by
      rw [← h]
      exact (pushAll_spec (by rw [length_ticks]; omega)).1
    rw [iff_true_right (show Contiguous s (.free ptr pages) from trivial),
      partition_iff_perm hpool, hlive]
    refine List.Perm.trans ?_ hperm
    refine List.perm_append_comm.trans ?_
    rw [List.append_assoc]
    refine List.perm_append_comm.trans ?_
    exact hcons.symm.append_right _

theorem PmmStep.stable {s t : Ledger} {call : PmmCall} (hI : Stable s₀ s) (h : PmmStep s call t) :
    Stable s₀ t := by
  cases h with
  | refused hpages h => exact ⟨(pmmRequestPages_frame _ _).1.trans hI.total⟩
  | satisfied hpages h => exact ⟨(pmmRequestPages_frame _ _).1.trans hI.total⟩
  | free hout h => exact ⟨(pmmFreePages_frame h).1.trans hI.total⟩

end Step

/-! ## From `pmm_init` on -/

/-- The requests and releases after `pmm_init` keep the pool intact for exactly as
long as every served request finds consecutive pages on top of the stack. -/
theorem pmmRun_partition_iff {entries : List MemmapEntry} {hhdmOffset : Word} {s₀ : Pmm}
    {ts : List (Transition Ledger PmmCall)} {u : Ledger} (hv : UsableMemmap entries)
    (hbase : ∀ e ∈ entries, e.type = .usable → e.base ≠ 0)
    (hinit : pmmInit (some entries) hhdmOffset boot = (0, s₀))
    (hrun : Run PmmStep ⟨s₀, []⟩ ts u) :
    Partition s₀.live ⟨s₀, []⟩ ∧
      ((∀ t ∈ ts, Partition s₀.live t.post) ↔ ∀ t ∈ ts, Contiguous t.pre t.act) := by
  have hpost := initPost_of_pmmInit hv hinit
  obtain ⟨rest, hperm⟩ := hpost.exists_perm hv
  have hpool : s₀.live.Nodup := (List.nodup_append'.mp (hperm.nodup_iff.mp hv.nodup)).1
  have hnonzero : ∀ q ∈ s₀.live, q ≠ 0 := by
    rintro q hq rfl
    obtain ⟨e, he, husable, hqe⟩ :=
      mem_usablePages.mp (hperm.mem_iff.mpr (List.mem_append_left _ hq))
    obtain ⟨-, hlo, -⟩ := (MemmapEntry.mem_pages_iff (hv.aligned e he husable)
      (hv.bounded e he husable)).mp hqe
    exact hbase e he husable (BitVec.eq_of_toNat_eq (Nat.le_zero.mp hlo))
  have hroom := hpost.length_live_le hv
  have hstart : Partition s₀.live ⟨s₀, []⟩ := by
    rw [partition_iff_perm hpool]
    exact List.Perm.refl _
  refine ⟨hstart, hrun.forall_post_iff (I := Stable s₀) ?_ ?_ ⟨rfl⟩ hstart⟩
  · intro s a t hI hP hst
    exact hst.partition_iff hpool hnonzero hroom hI hP
  · intro s a t hI _ hst
    exact hst.stable hI

/-- Two usable regions with a gap between them; the stack takes the last page. -/
def gapMemmap : List MemmapEntry :=
  [⟨0x1000, 0x1000, .usable⟩, ⟨0x10000, 0x3000, .usable⟩]

theorem usableMemmap_gapMemmap : UsableMemmap gapMemmap where
  aligned := by decide
  bounded := by decide
  disjoint := by
    simp only [gapMemmap, List.pairwise_cons, MemmapEntry.Covers]
    simp
    omega

theorem pmmInit_gapMemmap : ∃ s, pmmInit (some gapMemmap) 0xffff800000000000 boot = (0, s) ∧
    s.live = [0x1000, 0x10000, 0x11000] ∧ s.pmStackIdx = 3 ∧
    s.hhdmOffset = 0xffff800000000000 := by
  obtain ⟨s, hinit, hpost⟩ := @pmmInit_spec _ 0xffff800000000000 usableMemmap_gapMemmap (by decide)
  have hmap : s.memmap = [⟨0x1000, 0x1000, .usable⟩, ⟨0x10000, 0x2000, .usable⟩] := by
    rw [hpost.memmap]
    decide
  have hlive := hpost.live
  have hidx := hpost.stackIdx
  rw [hmap] at hlive hidx
  exact ⟨s, hinit, hlive.trans (by decide), BitVec.eq_of_toNat_eq (hidx.trans (by decide)),
    hpost.hhdm⟩

/-- The pool has pages at `0x1000`, `0x10000` and `0x11000`. A request for three
of them answers `0x1000`, so the caller owns `0x2000`, which is no memory at all,
and the two pages above the gap are lost. -/
theorem pmmRun_gapMemmap : ∃ s₀ ts u, UsableMemmap gapMemmap ∧
    (∀ e ∈ gapMemmap, e.type = .usable → e.base ≠ 0) ∧
    pmmInit (some gapMemmap) 0xffff800000000000 boot = (0, s₀) ∧
    Run PmmStep ⟨s₀, []⟩ ts u ∧ ¬ ∀ t ∈ ts, Partition s₀.live t.post := by
  obtain ⟨s, hinit, hlive, hidx, -⟩ := pmmInit_gapMemmap
  have hserved := @pmmRequestPages_live s 3 (by decide) (by rw [hidx]; decide)
  obtain ⟨popped, hsplit, hlen⟩ := hserved
  have hbottom : (s.pop 3).live = [] := by
    rw [live, show (s.pop 3).pmStackIdx = 0 by simp [pop, hidx]]
    rfl
  have hanswer : (pmmRequestPages s 3).1 = 0x1000 := by
    rw [hbottom, hlive] at hsplit
    exact (List.cons.inj hsplit).1.symm
  have hstep := @PmmStep.satisfied ⟨s, []⟩ 3 (by decide) (by rw [hanswer]; decide)
  refine ⟨s, _, _, usableMemmap_gapMemmap, by decide, hinit, Run.cons hstep (Run.nil _), ?_⟩
  intro hall
  have hpart := hall _ List.mem_cons_self
  have hmem : (0x2000 : Word) ∈ s.live := by
    rw [hpart.exact]
    refine Or.inr ⟨_, List.mem_cons_self, ?_⟩
    rw [hanswer]
    decide
  rw [hlive] at hmem
  revert hmem
  decide

theorem request_free {s : Pmm} (hlive : s.live = [0x1000, 0x10000, 0x11000])
    (hroom : s.live.length ≤ s.pmTotalPages.toNat) :
    (pmmRequestPages s 2).1 = 0x10000 ∧
      ∃ t, pmmFreePages (pmmRequestPages s 2).2 0x10000 2 = .ok t := by
  have hidx : s.pmStackIdx.toNat = 3 := by
    rw [← Pmm.length_live, hlive]
    rfl
  have hle : (2 : Word) ≤ s.pmStackIdx := by
    rw [BitVec.le_def, hidx]
    decide
  have hpop : (s.pop 2).pmStackIdx.toNat = 1 := by
    rw [toNat_pmStackIdx_pop hle, hidx]
    rfl
  obtain ⟨popped, hsplit, -⟩ := pmmRequestPages_live (by decide) hle
  obtain ⟨a, ha⟩ := List.length_eq_one_iff.mp ((Pmm.length_live (s.pop 2)).trans hpop)
  rw [hlive, ha] at hsplit
  refine ⟨(List.cons.inj (List.cons.inj hsplit).2).1.symm, ?_⟩
  rw [pmmRequestPages_satisfied (by decide) hle]
  refine ⟨_, pmmFreePages_eq (by decide) (by decide) (by decide) ?_⟩
  rw [hlive] at hroom
  rw [hpop]
  exact hroom

theorem pmmRun_partition_iff_gapMemmap : ∃ s₀ ts u, Run PmmStep ⟨s₀, []⟩ ts u ∧
    ts.map Transition.act = [.request 2, .free 0x10000 2] ∧
      ((∀ t ∈ ts, Partition s₀.live t.post) ↔ ∀ t ∈ ts, Contiguous t.pre t.act) := by
  obtain ⟨s, hinit, hlive, -⟩ := pmmInit_gapMemmap
  obtain ⟨hanswer, t, hfree⟩ := request_free hlive
    ((initPost_of_pmmInit usableMemmap_gapMemmap hinit).length_live_le usableMemmap_gapMemmap)
  have hserved := @PmmStep.satisfied ⟨s, []⟩ 2 (by decide) (by rw [hanswer]; decide)
  rw [hanswer] at hserved
  have hfreed := @PmmStep.free ⟨_, [(0x10000, 2)]⟩ 0x10000 2 t List.mem_cons_self hfree
  have hrun := Run.cons hserved (Run.cons hfreed (Run.nil _))
  exact ⟨s, _, _, hrun, rfl,
    (pmmRun_partition_iff usableMemmap_gapMemmap (by decide) hinit hrun).2⟩

end Olive
