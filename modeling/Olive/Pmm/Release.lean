import Olive.Pmm.Ownership

/-!
# Releases that do not fit

`pmm_free_pages` tests for room inside its loop and moves the counters behind it. A release
that finds no room for its first page changes nothing, but one that finds room for some of
its pages leaves these on the stack and returns without counting them. So a release is
atomic exactly if all of its pages fit or none does.
-/

namespace Olive

open Library Pmm

variable {s t : Pmm} {ptr pages : Word}

/-- A release that does not fit pushes as many pages as there is room for. -/
theorem pushFreed_overflow {pageAddr : Word} {n : ℕ} {i : Word} (hn : 0 < n)
    (h : s.pmTotalPages.toNat < s.pmStackIdx.toNat + n) :
    pushFreed pageAddr n i s =
      (true, (s.pushAll (ticks pageSize (pageAddr + i * pageSize)
        (s.pmTotalPages.toNat - s.pmStackIdx.toNat))).report freeOverflowReport) := by
  induction n generalizing i s with
  | zero => omega
  | succ n ih =>
    have htotal := s.pmTotalPages.isLt
    by_cases hfull : s.pmTotalPages ≤ s.pmStackIdx
    · rw [pushFreed, if_pos hfull, Nat.sub_eq_zero_of_le (BitVec.le_def.mp hfull)]
      rfl
    · have hroom : s.pmStackIdx.toNat < s.pmTotalPages.toNat := by
        rw [BitVec.le_def] at hfull
        omega
      have hidx : (s.push (pageAddr + i * pageSize)).pmStackIdx.toNat = s.pmStackIdx.toNat + 1 :=
        toNat_pmStackIdx_push (by omega)
      have htotal' : (s.push (pageAddr + i * pageSize)).pmTotalPages = s.pmTotalPages := rfl
      have hnext : pageAddr + (i + 1) * pageSize = pageAddr + i * pageSize + pageSize := by
        simp [BitVec.add_mul, BitVec.add_assoc]
      have hcount : s.pmTotalPages.toNat - s.pmStackIdx.toNat =
          s.pmTotalPages.toNat - (s.pmStackIdx.toNat + 1) + 1 := by omega
      rw [pushFreed, if_neg hfull, ih (by omega) (by rw [htotal', hidx]; omega), htotal', hidx,
        hnext, hcount, ticks_succ, pushAll_cons]

theorem pmmFreePages_overflow (hptr : ptr ≠ 0) (halign : PageAligned ptr) (hpages : pages ≠ 0)
    (h : s.pmTotalPages.toNat < s.pmStackIdx.toNat + pages.toNat) :
    pmmFreePages s ptr pages =
      .ok ((s.pushAll (ticks pageSize ptr
        (s.pmTotalPages.toNat - s.pmStackIdx.toNat))).report freeOverflowReport) := by
  have hpos : 0 < pages.toNat := Nat.pos_of_ne_zero fun h => hpages (BitVec.eq_of_toNat_eq h)
  rw [pmmFreePages_of_asserted hptr halign hpages, pushFreed_overflow hpos h,
    show ptr + 0 * pageSize = ptr by simp]

def OverflowReported (s t : Pmm) : Prop := t.reports = s.reports ++ [freeOverflowReport]

/-- A call that passes its assertions returns with all of its pages pushed and counted, or
reports the overflow and changes nothing else. -/
def ReleaseAtomic (s : Pmm) (ptr pages : Word) : Prop :=
  ∃ t, pmmFreePages s ptr pages = .ok t ∧
    (OverflowReported s t → t.live = s.live ∧ t.pmStackIdx = s.pmStackIdx ∧
      t.pmFreePages = s.pmFreePages ∧ t.pmUsedPages = s.pmUsedPages) ∧
    (¬ OverflowReported s t → t.live = s.live ++ rangePages (ptr, pages) ∧
      t.pmFreePages = s.pmFreePages + pages ∧ t.pmUsedPages = s.pmUsedPages - pages) ∧
    (s.pmFreePages = s.pmStackIdx → t.pmFreePages = t.pmStackIdx)

section Cases

variable (hptr : ptr ≠ 0) (halign : PageAligned ptr) (hpages : pages ≠ 0)
include hptr halign hpages

theorem releaseAtomic_of_fits (h : s.pmStackIdx.toNat + pages.toNat ≤ s.pmTotalPages.toNat) :
    ReleaseAtomic s ptr pages := by
  have htotal := s.pmTotalPages.isLt
  have hlen := length_ticks pageSize ptr pages.toNat
  obtain ⟨hlive, hidx⟩ := @pushAll_spec s (ticks pageSize ptr pages.toNat) (by omega)
  refine ⟨_, pmmFreePages_eq hptr halign hpages h, fun hreported => ?_, fun _ => ?_,
    fun hfree => ?_⟩
  · have hsilent : s.reports = s.reports ++ [freeOverflowReport] :=
      (pushAll_reports s _).symm.trans hreported
    simp at hsilent
  · exact ⟨hlive, rfl, rfl⟩
  · apply BitVec.eq_of_toNat_eq
    change (s.pmFreePages + pages).toNat = (s.pushAll _).pmStackIdx.toNat
    rw [hidx, hlen, hfree, BitVec.toNat_add, Nat.mod_eq_of_lt (by omega)]

theorem releaseAtomic_of_full (h : s.pmTotalPages ≤ s.pmStackIdx) : ReleaseAtomic s ptr pages := by
  have hpos : 0 < pages.toNat := Nat.pos_of_ne_zero fun h => hpages (BitVec.eq_of_toNat_eq h)
  have hle : s.pmTotalPages.toNat ≤ s.pmStackIdx.toNat := BitVec.le_def.mp h
  have hcall := pmmFreePages_overflow (s := s) hptr halign hpages (by omega)
  rw [Nat.sub_eq_zero_of_le hle] at hcall
  refine ⟨_, hcall, fun _ => ⟨rfl, rfl, rfl, rfl⟩, fun hsilent => ?_, fun hfree => hfree⟩
  exact absurd rfl hsilent

theorem not_releaseAtomic_of_partial (hroom : s.pmStackIdx.toNat < s.pmTotalPages.toNat)
    (h : s.pmTotalPages.toNat < s.pmStackIdx.toNat + pages.toNat) :
    ¬ ReleaseAtomic s ptr pages := by
  rintro ⟨t, hcall, hunchanged, -, -⟩
  rw [pmmFreePages_overflow hptr halign hpages h, Except.ok.injEq] at hcall
  subst hcall
  have htotal := s.pmTotalPages.isLt
  have hlen := length_ticks pageSize ptr (s.pmTotalPages.toNat - s.pmStackIdx.toNat)
  have hidx := (@pushAll_spec s (ticks pageSize ptr
    (s.pmTotalPages.toNat - s.pmStackIdx.toNat)) (by omega)).2
  have hreported : (s.pushAll (ticks pageSize ptr
      (s.pmTotalPages.toNat - s.pmStackIdx.toNat))).reports = s.reports := pushAll_reports s _
  obtain ⟨-, hsame, -, -⟩ := hunchanged (congrArg (· ++ [freeOverflowReport]) hreported)
  have hsame' := congrArg BitVec.toNat hsame
  rw [pmStackIdx_report, hidx] at hsame'
  omega

/-- A release is atomic if and only if all of its pages fit, or the stack is full before. -/
theorem releaseAtomic_iff : ReleaseAtomic s ptr pages ↔
    s.pmStackIdx.toNat + pages.toNat ≤ s.pmTotalPages.toNat ∨ s.pmTotalPages ≤ s.pmStackIdx := by
  constructor
  · intro hatomic
    by_contra hneither
    rw [not_or, BitVec.le_def] at hneither
    exact not_releaseAtomic_of_partial hptr halign hpages (by omega) (by omega) hatomic
  · rintro (hfits | hfull)
    · exact releaseAtomic_of_fits hptr halign hpages hfits
    · exact releaseAtomic_of_full hptr halign hpages hfull

end Cases

/-- Three of the four pages of the pool are free, and one is the stack. A caller who gives
back two pages at `0x1000` leaves that page on the stack twice, uncounted. -/
theorem releaseAtomic_gapMemmap : ∃ s, pmmInit (some gapMemmap) 0xffff800000000000 boot = (0, s) ∧
    s.pmFreePages = s.pmStackIdx ∧
    (∃ t, pmmFreePages s 0x1000 2 = .ok t ∧ OverflowReported s t ∧
      t.live = [0x1000, 0x10000, 0x11000, 0x1000] ∧ t.pmFreePages ≠ t.pmStackIdx) ∧
    ¬ ReleaseAtomic s 0x1000 2 := by
  obtain ⟨s, hinit, hlive, hidx, -⟩ := pmmInit_gapMemmap
  have hpost := initPost_of_pmmInit usableMemmap_gapMemmap hinit
  have htotal : s.pmTotalPages = 4 := hpost.count.trans (by decide)
  have hover := @pmmFreePages_overflow s 0x1000 2 (by decide) (by decide) (by decide)
    (by rw [hidx, htotal]; decide)
  obtain ⟨hlive', hidx'⟩ := @pushAll_spec s (ticks pageSize 0x1000 1) (by rw [hidx]; decide)
  rw [hidx, htotal] at hover
  refine ⟨s, hinit, hpost.free, ⟨_, hover, ?_, ?_, ?_⟩, ?_⟩
  · exact congrArg (· ++ [freeOverflowReport]) (pushAll_reports s _)
  · exact hlive'.trans (by rw [hlive]; rfl)
  · intro hsame
    have hfree : (s.pushAll (ticks pageSize 0x1000 1)).pmFreePages = 3 :=
      (s.pushAll_frame _).2.1.trans (hpost.free.trans hidx)
    have hsame' := congrArg BitVec.toNat (hfree.symm.trans hsame)
    rw [pmStackIdx_report] at hsame'
    change (3 : Word).toNat = (s.pushAll (ticks pageSize 0x1000 1)).pmStackIdx.toNat at hsame'
    rw [hidx', hidx] at hsame'
    revert hsame'
    decide
  · exact not_releaseAtomic_of_partial (by decide) (by decide) (by decide)
      (by rw [hidx, htotal]; decide) (by rw [hidx, htotal]; decide)

theorem releaseAtomic_iff_gapMemmap : ∃ s,
    pmmInit (some gapMemmap) 0xffff800000000000 boot = (0, s) ∧
    (ReleaseAtomic s 0x12000 1 ↔
      s.pmStackIdx.toNat + (1 : Word).toNat ≤ s.pmTotalPages.toNat ∨
        s.pmTotalPages ≤ s.pmStackIdx) := by
  obtain ⟨s, hinit, -⟩ := pmmInit_gapMemmap
  exact ⟨s, hinit, releaseAtomic_iff (by decide) (by decide) (by decide)⟩

end Olive
