import Olive.Library.Loops
import Olive.Pmm.Model

/-!
# What the operations of the PMM do to the free stack

Every operation is described once, on the list of live slots: a request takes a
suffix off it, a release appends the recomputed addresses, and initialisation
pushes the usable pages. Later modules use these equations only.
-/

namespace Olive

open Library

namespace Pmm

variable (s : Pmm)

def pushAll (pages : List Word) : Pmm := pages.foldl push s

@[simp] theorem live_report (r : Report) : (s.report r).live = s.live := rfl
@[simp] theorem pmStackIdx_report (r : Report) : (s.report r).pmStackIdx = s.pmStackIdx := rfl
@[simp] theorem pmTotalPages_report (r : Report) : (s.report r).pmTotalPages = s.pmTotalPages := rfl
@[simp] theorem hhdmOffset_report (r : Report) : (s.report r).hhdmOffset = s.hhdmOffset := rfl

@[simp] theorem length_live : s.live.length = s.pmStackIdx.toNat := by simp [live]

@[simp] theorem pushAll_nil : s.pushAll [] = s := rfl

@[simp] theorem pushAll_cons (page : Word) (pages : List Word) :
    s.pushAll (page :: pages) = (s.push page).pushAll pages := rfl

theorem pushAll_append (xs ys : List Word) : s.pushAll (xs ++ ys) = (s.pushAll xs).pushAll ys := by
  rw [pushAll, List.foldl_append]
  rfl

variable {s}

theorem toNat_pmStackIdx_push {page : Word} (h : s.pmStackIdx.toNat + 1 < 2 ^ 64) :
    (s.push page).pmStackIdx.toNat = s.pmStackIdx.toNat + 1 := by
  change (s.pmStackIdx + 1).toNat = _
  rw [BitVec.toNat_add, show (1 : Word).toNat = 1 from rfl, Nat.mod_eq_of_lt h]

theorem live_push {page : Word} (h : s.pmStackIdx.toNat + 1 < 2 ^ 64) :
    (s.push page).live = s.live ++ [page] := by
  rw [live, toNat_pmStackIdx_push h, List.range_succ, List.map_append, live]
  congr 1
  · apply List.map_congr_left
    intro k hk
    exact Function.update_of_ne (List.mem_range.mp hk).ne _ _
  · simp [push]

theorem pushAll_spec {pages : List Word} (h : s.pmStackIdx.toNat + pages.length < 2 ^ 64) :
    (s.pushAll pages).live = s.live ++ pages ∧
      (s.pushAll pages).pmStackIdx.toNat = s.pmStackIdx.toNat + pages.length := by
  induction pages generalizing s with
  | nil => simp
  | cons page pages ih =>
    rw [List.length_cons] at h
    have hidx : (s.push page).pmStackIdx.toNat = s.pmStackIdx.toNat + 1 :=
      toNat_pmStackIdx_push (by omega)
    obtain ⟨hlive, hcount⟩ := ih (s := s.push page) (by omega)
    rw [pushAll_cons, hlive, hcount, live_push (by omega), hidx, List.length_cons]
    exact ⟨by simp, by omega⟩

theorem pushAll_frame (pages : List Word) :
    (s.pushAll pages).pmStack = s.pmStack ∧
      (s.pushAll pages).pmFreePages = s.pmFreePages ∧
      (s.pushAll pages).pmUsedPages = s.pmUsedPages ∧
      (s.pushAll pages).pmTotalPages = s.pmTotalPages ∧
      (s.pushAll pages).hhdmOffset = s.hhdmOffset ∧
      (s.pushAll pages).memmap = s.memmap := by
  induction pages generalizing s with
  | nil => simp
  | cons page pages ih => exact ih (s := s.push page)

end Pmm

open Pmm

variable {s : Pmm}

/-! ## Requests -/

theorem pmmRequestPages_refused {pages : Word} (h : pages = 0 ∨ s.pmStackIdx < pages) :
    pmmRequestPages s pages = (0, s.report (outOfMemoryReport pages)) := if_pos h

/-- The state a satisfied request leaves. -/
def Pmm.pop (s : Pmm) (pages : Word) : Pmm :=
  { s with
    pmStackIdx := s.pmStackIdx - pages
    pmUsedPages := s.pmUsedPages + pages
    pmFreePages := s.pmFreePages - pages }

theorem pmmRequestPages_satisfied {pages : Word} (h0 : pages ≠ 0) (h : pages ≤ s.pmStackIdx) :
    pmmRequestPages s pages = (s.slots (s.pmStackIdx - pages).toNat, s.pop pages) := by
  have hn : ¬ (pages = 0 ∨ s.pmStackIdx < pages) := by
    rw [BitVec.le_def] at h
    rw [BitVec.lt_def]
    rintro (h | h)
    · exact h0 h
    · omega
  rw [pmmRequestPages, if_neg hn]
  rfl

theorem Pmm.toNat_pmStackIdx_pop {pages : Word} (h : pages ≤ s.pmStackIdx) :
    (s.pop pages).pmStackIdx.toNat = s.pmStackIdx.toNat - pages.toNat :=
  BitVec.toNat_sub_of_le h

/-- A satisfied request takes the last `pages` live slots off the stack and
answers the lowest of them. -/
theorem pmmRequestPages_live {pages : Word} (h0 : pages ≠ 0) (h : pages ≤ s.pmStackIdx) :
    ∃ popped, s.live = (s.pop pages).live ++ (pmmRequestPages s pages).1 :: popped ∧
      popped.length + 1 = pages.toNat := by
  have hpos : 0 < pages.toNat := by
    rw [Nat.pos_iff_ne_zero]
    exact fun h => h0 (BitVec.eq_of_toNat_eq h)
  have hle : pages.toNat ≤ s.pmStackIdx.toNat := BitVec.le_def.mp h
  have hidx := toNat_pmStackIdx_pop h
  have hsplit : s.live = (s.pop pages).live ++ (List.range' (s.pop pages).pmStackIdx.toNat
      pages.toNat).map s.slots := by
    change (List.range _).map s.slots = (List.range _).map s.slots ++ _
    rw [← List.map_append, List.range_eq_range', List.range_eq_range']
    have happend := @List.range'_append 0 (s.pop pages).pmStackIdx.toNat pages.toNat 1
    rw [Nat.zero_add, Nat.one_mul] at happend
    rw [happend, hidx, Nat.sub_add_cancel hle]
  obtain ⟨n, hn⟩ := Nat.exists_eq_succ_of_ne_zero hpos.ne'
  rw [hn, List.range'_succ, List.map_cons] at hsplit
  refine ⟨(List.range' ((s.pop pages).pmStackIdx.toNat + 1) n).map s.slots, ?_, ?_⟩
  · rw [pmmRequestPages_satisfied h0 h]
    exact hsplit
  · simp [hn]

theorem request_split {s : Pmm} {pages : Word} (hpages : pages ≠ 0) (hle : pages ≤ s.pmStackIdx) :
    (pmmRequestPages s pages).2.live ++ s.live.drop (s.pmStackIdx - pages).toNat = s.live ∧
      (pmmRequestPages s pages).1 ∈ s.live := by
  obtain ⟨popped, hsplit, -⟩ := pmmRequestPages_live hpages hle
  have hlen : (s.pop pages).live.length = (s.pmStackIdx - pages).toNat := length_live _
  have hdrop : s.live.drop (s.pmStackIdx - pages).toNat = (pmmRequestPages s pages).1 :: popped := by
    rw [hsplit, ← hlen, List.drop_left]
  rw [hdrop]
  constructor
  · rw [pmmRequestPages_satisfied hpages hle] at hsplit ⊢
    exact hsplit.symm
  · rw [hsplit]
    simp

theorem pmmRequestPages_frame (s : Pmm) (pages : Word) :
    (pmmRequestPages s pages).2.pmTotalPages = s.pmTotalPages ∧
      (pmmRequestPages s pages).2.hhdmOffset = s.hhdmOffset := by
  unfold pmmRequestPages
  split <;> exact ⟨rfl, rfl⟩

/-! ## Releases -/

theorem pushFreed_eq {pageAddr : Word} {n : ℕ} {i : Word}
    (h : s.pmStackIdx.toNat + n ≤ s.pmTotalPages.toNat) :
    pushFreed pageAddr n i s = (false, s.pushAll (ticks pageSize (pageAddr + i * pageSize) n)) := by
  induction n generalizing i s with
  | zero => rfl
  | succ n ih =>
    have htotal := s.pmTotalPages.isLt
    have hroom : ¬ s.pmTotalPages ≤ s.pmStackIdx := by
      rw [BitVec.le_def]
      omega
    have hidx : (s.push (pageAddr + i * pageSize)).pmStackIdx.toNat = s.pmStackIdx.toNat + 1 :=
      toNat_pmStackIdx_push (by omega)
    have hnext : pageAddr + (i + 1) * pageSize = pageAddr + i * pageSize + pageSize := by
      simp [BitVec.add_mul, BitVec.add_assoc]
    rw [pushFreed, if_neg hroom, ih (by rw [hidx]; simp only [push]; omega), hnext, ticks_succ,
      pushAll_cons]

/-- Past its assertions a release is its loop, and the counters move if it went through. -/
theorem pmmFreePages_of_asserted {ptr pages : Word} (hptr : ptr ≠ 0) (halign : PageAligned ptr)
    (hpages : pages ≠ 0) :
    pmmFreePages s ptr pages =
      match pushFreed ptr pages.toNat 0 s with
      | (true, s) => .ok s
      | (false, s) =>
        .ok { s with
          pmFreePages := s.pmFreePages + pages
          pmUsedPages := s.pmUsedPages - pages } := by
  have halign' : ptr % pageSize = 0 := (umod_pageSize_eq_zero_iff ptr).mpr halign
  have hpos : 0 < pages := by
    rw [BitVec.lt_def]
    exact Nat.pos_of_ne_zero fun h => hpages (BitVec.eq_of_toNat_eq h)
  rw [pmmFreePages, assert_ok hptr, assert_ok halign', assert_ok hpos]
  rfl

theorem pmmFreePages_eq {ptr pages : Word} (h0 : ptr ≠ 0) (halign : PageAligned ptr)
    (hpages : pages ≠ 0) (h : s.pmStackIdx.toNat + pages.toNat ≤ s.pmTotalPages.toNat) :
    pmmFreePages s ptr pages =
      .ok { s.pushAll (ticks pageSize ptr pages.toNat) with
        pmFreePages := s.pmFreePages + pages
        pmUsedPages := s.pmUsedPages - pages } := by
  have hpush : pushFreed ptr pages.toNat 0 s =
      (false, s.pushAll (ticks pageSize (ptr + 0 * pageSize) pages.toNat)) := pushFreed_eq h
  rw [show ptr + 0 * pageSize = ptr by simp] at hpush
  have hframe := s.pushAll_frame (ticks pageSize ptr pages.toNat)
  rw [pmmFreePages_of_asserted h0 halign hpages, hpush]
  simp only [hframe]

theorem pmmFreePages_ok {s s' : Pmm} {ptr pages : Word} (h : pmmFreePages s ptr pages = .ok s') :
    ptr ≠ 0 ∧ PageAligned ptr ∧ pages ≠ 0 := by
  obtain ⟨hptr, h⟩ := of_assert_bind h
  obtain ⟨halign, h⟩ := of_assert_bind h
  obtain ⟨hpages, -⟩ := of_assert_bind h
  refine ⟨of_decide_eq_true hptr,
    (umod_pageSize_eq_zero_iff ptr).mp (of_decide_eq_true halign), ?_⟩
  rintro rfl
  cases hpages

/-- Whatever is released, the loop appends addresses until the stack is full. -/
theorem pushFreed_live {pageAddr : Word} {n : ℕ} {i : Word} :
    (pushFreed pageAddr n i s).2.live = s.live ++
      ticks pageSize (pageAddr + i * pageSize)
        (min n (s.pmTotalPages.toNat - s.pmStackIdx.toNat)) := by
  induction n generalizing i s with
  | zero => simp [pushFreed]
  | succ n ih =>
    have htotal := s.pmTotalPages.isLt
    rw [pushFreed]
    split
    · rename_i hfull
      rw [BitVec.le_def] at hfull
      simp [Nat.sub_eq_zero_of_le hfull]
    · rename_i hroom
      rw [BitVec.le_def] at hroom
      have hidx : (s.push (pageAddr + i * pageSize)).pmStackIdx.toNat = s.pmStackIdx.toNat + 1 :=
        toNat_pmStackIdx_push (by omega)
      have hcount : min (n + 1) (s.pmTotalPages.toNat - s.pmStackIdx.toNat) =
          min n (s.pmTotalPages.toNat - (s.pmStackIdx.toNat + 1)) + 1 := by
        omega
      have hnext : pageAddr + (i + 1) * pageSize = pageAddr + i * pageSize + pageSize := by
        simp [BitVec.add_mul, BitVec.add_assoc]
      have htotal' : (s.push (pageAddr + i * pageSize)).pmTotalPages = s.pmTotalPages := rfl
      rw [ih, live_push (by omega), htotal', hidx, hcount, ticks_succ, hnext, List.append_assoc,
        List.singleton_append]

theorem pushFreed_frame (pageAddr : Word) (n : ℕ) (i : Word) (s : Pmm) :
    (pushFreed pageAddr n i s).2.pmTotalPages = s.pmTotalPages ∧
      (pushFreed pageAddr n i s).2.hhdmOffset = s.hhdmOffset := by
  induction n generalizing i s with
  | zero => exact ⟨rfl, rfl⟩
  | succ n ih =>
    unfold pushFreed
    split
    · exact ⟨rfl, rfl⟩
    · exact ih _ _

theorem pmmFreePages_pushFreed {s' : Pmm} {ptr pages : Word}
    (h : pmmFreePages s ptr pages = .ok s') :
    s'.live = (pushFreed ptr pages.toNat 0 s).2.live ∧
      s'.pmTotalPages = (pushFreed ptr pages.toNat 0 s).2.pmTotalPages ∧
      s'.hhdmOffset = (pushFreed ptr pages.toNat 0 s).2.hhdmOffset := by
  obtain ⟨-, h⟩ := of_assert_bind h
  obtain ⟨-, h⟩ := of_assert_bind h
  obtain ⟨-, h⟩ := of_assert_bind h
  split at h <;> rename_i hres <;> rw [hres] <;> cases h <;> exact ⟨rfl, rfl, rfl⟩

theorem pmmFreePages_frame {s' : Pmm} {ptr pages : Word}
    (h : pmmFreePages s ptr pages = .ok s') :
    s'.pmTotalPages = s.pmTotalPages ∧ s'.hhdmOffset = s.hhdmOffset := by
  obtain ⟨-, htotal, hhhdm⟩ := pmmFreePages_pushFreed h
  obtain ⟨ht, hh⟩ := pushFreed_frame ptr pages.toNat 0 s
  exact ⟨htotal.trans ht, hhhdm.trans hh⟩

theorem pmmFreePages_live {s' : Pmm} {ptr pages : Word} (h : pmmFreePages s ptr pages = .ok s') :
    s'.live = s.live ++
      ticks pageSize ptr (min pages.toNat (s.pmTotalPages.toNat - s.pmStackIdx.toNat)) := by
  rw [(pmmFreePages_pushFreed h).1, pushFreed_live, show ptr + 0 * pageSize = ptr by simp]

end Olive
