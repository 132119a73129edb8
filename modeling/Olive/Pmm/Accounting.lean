import Olive.Library.Runs
import Olive.Pmm.Ownership

/-!
# The counters of the PMM

A run of requests of any size and of releases of outstanding allocations is followed
with the ledger of these allocations. The three counters and the stack index stay a
function of the ledger and of the number `K` of pages `pmm_init` has pushed, and they
move as natural numbers do. An allocation is outstanding from the moment its request is
served, whatever address it was given.
-/

namespace Olive

open Library Pmm

/-- One call: any request, or the release of one whole outstanding allocation. -/
inductive LedgerStep : Ledger → PmmCall → Ledger → Prop
  | refused {s : Ledger} {pages : Word} (h : pages = 0 ∨ s.pmm.pmStackIdx < pages) :
      LedgerStep s (.request pages) ⟨(pmmRequestPages s.pmm pages).2, s.out⟩
  | served {s : Ledger} {pages : Word} (hpages : pages ≠ 0) (h : pages ≤ s.pmm.pmStackIdx) :
      LedgerStep s (.request pages)
        ⟨(pmmRequestPages s.pmm pages).2, ((pmmRequestPages s.pmm pages).1, pages) :: s.out⟩
  | freed {s : Ledger} {ptr pages : Word} {pmm : Pmm} (hout : (ptr, pages) ∈ s.out)
      (h : pmmFreePages s.pmm ptr pages = .ok pmm) :
      LedgerStep s (.free ptr pages) ⟨pmm, s.out.erase (ptr, pages)⟩

namespace Ledger

def outPages (s : Ledger) : ℕ := (s.out.map fun a => a.2.toNat).sum

theorem outPages_cons (pmm : Pmm) (a : Word × Word) (out : List (Word × Word)) :
    outPages ⟨pmm, a :: out⟩ = a.2.toNat + outPages ⟨pmm, out⟩ := rfl

theorem outPages_erase {s : Ledger} {a : Word × Word} (ha : a ∈ s.out) (pmm : Pmm) :
    a.2.toNat + outPages ⟨pmm, s.out.erase a⟩ = s.outPages := by
  have hperm := (List.perm_cons_erase ha).map fun a : Word × Word => a.2.toNat
  have hsum := hperm.sum_eq
  rw [List.map_cons, List.sum_cons] at hsum
  exact hsum.symm

end Ledger

/-- The books of a pool of `K` pages are right. -/
structure Accounted (K : ℕ) (s : Ledger) : Prop where
  free : s.pmm.pmFreePages = s.pmm.pmStackIdx
  used : s.pmm.pmUsedPages.toNat = s.outPages
  pool : s.pmm.pmUsedPages.toNat + s.pmm.pmFreePages.toNat = K
  total : K ≤ s.pmm.pmTotalPages.toNat

/-- No counter wraps in a call: a refused request changes no counter and no slot, and any
other call moves the counters by exactly the number of its pages. The loop of
`pmm_free_pages` never takes its overflow branch. -/
def CountersExact (s : Pmm) : PmmCall → Pmm → Prop
  | .request pages, t =>
    (pages = 0 ∨ s.pmStackIdx < pages → t = s.report (outOfMemoryReport pages)) ∧
    (pages ≠ 0 ∧ pages ≤ s.pmStackIdx →
      t.pmStackIdx.toNat + pages.toNat = s.pmStackIdx.toNat ∧
      t.pmFreePages.toNat + pages.toNat = s.pmFreePages.toNat ∧
      t.pmUsedPages.toNat = s.pmUsedPages.toNat + pages.toNat)
  | .free ptr pages, t =>
    (pushFreed ptr pages.toNat 0 s).1 = false ∧
    t.pmStackIdx.toNat = s.pmStackIdx.toNat + pages.toNat ∧
    t.pmFreePages.toNat = s.pmFreePages.toNat + pages.toNat ∧
    t.pmUsedPages.toNat + pages.toNat = s.pmUsedPages.toNat

section Step

variable {K : ℕ} {s : Ledger}

theorem refused_exact {pages : Word} (h : pages = 0 ∨ s.pmm.pmStackIdx < pages) :
    CountersExact s.pmm (.request pages) (pmmRequestPages s.pmm pages).2 := by
  have hrefused := pmmRequestPages_refused h
  constructor
  · intro _
    rw [hrefused]
  · rintro ⟨hpages, hle⟩
    rcases h with h | h
    · exact absurd h hpages
    · rw [BitVec.lt_def] at h
      rw [BitVec.le_def] at hle
      omega

theorem served_exact (hs : Accounted K s) {pages : Word} (hpages : pages ≠ 0)
    (h : pages ≤ s.pmm.pmStackIdx) :
    CountersExact s.pmm (.request pages) (pmmRequestPages s.pmm pages).2 := by
  have hle : pages.toNat ≤ s.pmm.pmStackIdx.toNat := BitVec.le_def.mp h
  have hidx := toNat_pmStackIdx_pop h
  have hpool := hs.pool
  have htotal := hs.total
  have hbound := s.pmm.pmTotalPages.isLt
  have hfree : (s.pmm.pop pages).pmFreePages.toNat = s.pmm.pmFreePages.toNat - pages.toNat :=
    BitVec.toNat_sub_of_le (hs.free ▸ h)
  have hused : (s.pmm.pop pages).pmUsedPages.toNat = s.pmm.pmUsedPages.toNat + pages.toNat := by
    change (s.pmm.pmUsedPages + pages).toNat = _
    rw [hs.free] at hpool
    rw [BitVec.toNat_add, Nat.mod_eq_of_lt (by omega)]
  constructor
  · rintro (hzero | hlt)
    · exact absurd hzero hpages
    · rw [BitVec.lt_def] at hlt
      omega
  · intro _
    rw [pmmRequestPages_satisfied hpages h]
    rw [hs.free] at hfree ⊢
    refine ⟨?_, ?_, hused⟩
    · change (s.pmm.pop pages).pmStackIdx.toNat + _ = _
      omega
    · change (s.pmm.pop pages).pmFreePages.toNat + _ = _
      omega

theorem Accounted.room (hs : Accounted K s) {ptr pages : Word} (hout : (ptr, pages) ∈ s.out) :
    pages.toNat ≤ s.pmm.pmUsedPages.toNat ∧
      s.pmm.pmStackIdx.toNat + pages.toNat ≤ s.pmm.pmTotalPages.toNat := by
  have hsum := Ledger.outPages_erase hout s.pmm
  change pages.toNat + _ = _ at hsum
  have hused := hs.used
  have hpool := hs.pool
  have htotal := hs.total
  rw [hs.free] at hpool
  constructor <;> omega

theorem freed_exact (hs : Accounted K s) {ptr pages : Word} (hout : (ptr, pages) ∈ s.out) {pmm : Pmm}
    (h : pmmFreePages s.pmm ptr pages = .ok pmm) : CountersExact s.pmm (.free ptr pages) pmm := by
  obtain ⟨hptr, halign, hpages⟩ := pmmFreePages_ok h
  obtain ⟨hfit, hroom⟩ := hs.room hout
  have hbound := s.pmm.pmTotalPages.isLt
  have hpool := hs.pool
  have htotal := hs.total
  rw [pmmFreePages_eq hptr halign hpages hroom, Except.ok.injEq] at h
  subst h
  have hspec := @pushAll_spec s.pmm (ticks pageSize ptr pages.toNat)
    (by rw [length_ticks]; omega)
  rw [length_ticks] at hspec
  refine ⟨by rw [pushFreed_eq hroom], hspec.2, ?_, ?_⟩
  · rw [BitVec.toNat_add, Nat.mod_eq_of_lt (by rw [hs.free]; omega)]
  · rw [BitVec.toNat_sub_of_le (BitVec.le_def.mpr hfit)]
    omega

theorem LedgerStep.accounted {call : PmmCall} {t : Ledger} (hs : Accounted K s)
    (h : LedgerStep s call t) : Accounted K t ∧ CountersExact s.pmm call t.pmm := by
  have hpool := hs.pool
  have hused := hs.used
  have hfree := congrArg BitVec.toNat hs.free
  cases h with
  | @refused pages h =>
    have hexact := refused_exact h
    refine ⟨⟨?_, ?_, ?_, ?_⟩, hexact⟩
    · rw [hexact.1 h]
      exact hs.free
    · rw [hexact.1 h]
      exact hs.used
    · rw [hexact.1 h]
      exact hs.pool
    · rw [hexact.1 h]
      exact hs.total
  | @served pages hpages h =>
    have hexact := served_exact hs hpages h
    obtain ⟨hidx, hfree', hused'⟩ := hexact.2 ⟨hpages, h⟩
    have hbooks : (pmmRequestPages s.pmm pages).2.pmFreePages =
        (pmmRequestPages s.pmm pages).2.pmStackIdx := BitVec.eq_of_toNat_eq (by omega)
    have hpool' : (pmmRequestPages s.pmm pages).2.pmUsedPages.toNat +
        (pmmRequestPages s.pmm pages).2.pmFreePages.toNat = K := by omega
    refine ⟨⟨hbooks, ?_, hpool', ?_⟩, hexact⟩
    · rw [hused', hused, Ledger.outPages_cons, Nat.add_comm]
      rfl
    · rw [(pmmRequestPages_frame _ _).1]
      exact hs.total
  | @freed ptr pages pmm hout h =>
    have hexact := freed_exact hs hout h
    have ⟨_, hidx, hfree', hused'⟩ := hexact
    have hsum := Ledger.outPages_erase hout pmm
    have hbooks : pmm.pmFreePages = pmm.pmStackIdx := BitVec.eq_of_toNat_eq (by omega)
    have hpool' : pmm.pmUsedPages.toNat + pmm.pmFreePages.toNat = K := by omega
    refine ⟨⟨hbooks, ?_, hpool', ?_⟩, hexact⟩
    · change pages.toNat + _ = _ at hsum
      change pmm.pmUsedPages.toNat = _
      omega
    · rw [(pmmFreePages_frame h).1]
      exact hs.total

end Step

/-! ## From `pmm_init` on -/

/-- The pushing loop never goes past `pm_total_pages`. -/
theorem pushEntry_bounded {entry : MemmapEntry} {j : Word} {s s' : Pmm}
    (h : pushEntry entry j s = .ok s') (hle : s.pmStackIdx ≤ s.pmTotalPages) :
    s'.pmStackIdx ≤ s'.pmTotalPages ∧ s'.pmUsedPages = s.pmUsedPages := by
  fun_induction pushEntry entry j s with
  | case1 j s hj hfull => cases h
  | case2 j s hj hfull ih =>
    rw [BitVec.le_def] at hfull
    have hidx : (s.push (entry.base + j)).pmStackIdx.toNat = s.pmStackIdx.toNat + 1 :=
      toNat_pmStackIdx_push (by have := s.pmTotalPages.isLt; omega)
    refine ih h (BitVec.le_def.mpr ?_)
    rw [hidx]
    change _ ≤ s.pmTotalPages.toNat
    omega
  | case3 j s hj =>
    cases h
    exact ⟨hle, rfl⟩

theorem pushEntries_bounded {entries : List MemmapEntry} {s s' : Pmm}
    (h : pushEntries entries s = .ok s') (hle : s.pmStackIdx ≤ s.pmTotalPages) :
    s'.pmStackIdx ≤ s'.pmTotalPages ∧ s'.pmUsedPages = s.pmUsedPages := by
  induction entries generalizing s with
  | nil =>
    cases h
    exact ⟨hle, rfl⟩
  | cons e entries ih =>
    rw [pushEntries] at h
    split at h
    · cases hentry : pushEntry e 0 s with
      | error t =>
        rw [hentry] at h
        cases h
      | ok t =>
        rw [hentry] at h
        obtain ⟨hle', hused⟩ := pushEntry_bounded hentry hle
        obtain ⟨hle'', hused'⟩ := ih h hle'
        exact ⟨hle'', hused'.trans hused⟩
    · exact ih h hle

theorem accounted_of_pmmInit {memmap : Option (List MemmapEntry)} {hhdmOffset : Word} {s₀ : Pmm}
    (hinit : pmmInit memmap hhdmOffset boot = (0, s₀)) : Accounted s₀.live.length ⟨s₀, []⟩ := by
  cases memmap with
  | none => exact absurd (congrArg Prod.fst hinit) (by decide : ¬ (1 : Int) = 0)
  | some entries =>
    by_cases hhhdm : hhdmOffset = 0
    · rw [pmmInit, if_pos hhhdm] at hinit
      exact absurd (congrArg Prod.fst hinit) (by decide : ¬ (1 : Int) = 0)
    rw [pmmInit_boot hhhdm] at hinit
    obtain ⟨hidx, -, hused, -⟩ := located_spec entries hhdmOffset
    cases hpush : pushEntries (located entries hhdmOffset).memmap (located entries hhdmOffset) with
    | error t =>
      rw [hpush] at hinit
      exact absurd (congrArg Prod.fst hinit) (by decide : ¬ (1 : Int) = 0)
    | ok t =>
      rw [hpush] at hinit
      obtain rfl := congrArg Prod.snd hinit
      obtain ⟨hle, hkeep⟩ := pushEntries_bounded hpush (by
        rw [hidx, BitVec.le_def]
        exact Nat.zero_le _)
      have hzero : t.pmUsedPages = 0 := hkeep.trans hused
      refine ⟨rfl, ?_, ?_, ?_⟩
      · change t.pmUsedPages.toNat = 0
        rw [hzero]
        rfl
      · change t.pmUsedPages.toNat + t.pmStackIdx.toNat = _
        rw [hzero, length_live]
        exact Nat.zero_add _
      · rw [length_live]
        exact BitVec.le_def.mp hle

/-- After every call of every run the counters are a function of the ledger, no counter
has wrapped, a refused request has changed nothing, and no release has overflowed. -/
theorem pmmRun_accounted {memmap : Option (List MemmapEntry)} {hhdmOffset : Word} {s₀ : Pmm}
    {ts : List (Transition Ledger PmmCall)} {u : Ledger}
    (hinit : pmmInit memmap hhdmOffset boot = (0, s₀)) (hrun : Run LedgerStep ⟨s₀, []⟩ ts u) :
    Accounted s₀.live.length ⟨s₀, []⟩ ∧
      ∀ t ∈ ts, Accounted s₀.live.length t.post ∧ CountersExact t.pre.pmm t.act t.post.pmm := by
  have hstart := accounted_of_pmmInit hinit
  have hkeep := hrun.invariant (I := Accounted s₀.live.length)
    (fun s a t hs hst => (hst.accounted hs).1) hstart
  refine ⟨hstart, fun t ht => ⟨(hkeep.2 t ht).2, ?_⟩⟩
  exact ((hrun.step_of_mem t ht).accounted (hkeep.2 t ht).1).2

theorem pmmRun_accounted_gapMemmap : ∃ s₀ ts u, Run LedgerStep ⟨s₀, []⟩ ts u ∧
    ts.map Transition.act = [.request 4, .request 2, .free 0x10000 2] ∧ s₀.live.length = 3 ∧
    ∀ t ∈ ts, Accounted s₀.live.length t.post ∧ CountersExact t.pre.pmm t.act t.post.pmm := by
  obtain ⟨s, hinit, hlive, hidx, -⟩ := pmmInit_gapMemmap
  have htoo : s.pmStackIdx < 4 := by
    rw [hidx]
    decide
  have hrefused := @LedgerStep.refused ⟨s, []⟩ 4 (Or.inr htoo)
  rw [pmmRequestPages_refused (Or.inr htoo)] at hrefused
  have hle : (2 : Word) ≤ (s.report (outOfMemoryReport 4)).pmStackIdx := by
    change 2 ≤ s.pmStackIdx
    rw [hidx]
    decide
  have hserved := @LedgerStep.served ⟨s.report (outOfMemoryReport 4), []⟩ 2 (by decide) hle
  obtain ⟨hanswer, t, hfree⟩ := @request_free (s.report (outOfMemoryReport 4)) hlive
    ((initPost_of_pmmInit usableMemmap_gapMemmap hinit).length_live_le usableMemmap_gapMemmap)
  rw [hanswer] at hserved
  have hfreed := @LedgerStep.freed ⟨_, [(0x10000, 2)]⟩ 0x10000 2 t List.mem_cons_self hfree
  have hrun := Run.cons hrefused (Run.cons hserved (Run.cons hfreed (Run.nil _)))
  exact ⟨s, _, _, hrun, rfl, by rw [hlive]; rfl, (pmmRun_accounted hinit hrun).2⟩

end Olive
