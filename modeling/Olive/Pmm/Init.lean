import Olive.Pmm.Spec

/-!
# The pool `pmm_init` builds

`pmm_init` walks the memory map three times: it counts the pages of the usable
entries, takes the stack from the end of the last entry that is long enough
while shortening that entry, and pushes the pages of what is left. The three
passes agree on every map whose usable entries are page-aligned and do not
overlap: the counted pages are exactly the pushed ones plus those of the block
taken for the stack.
-/

namespace Olive

open Library Pmm

namespace MemmapEntry

/-- The addresses of the whole pages of an entry. -/
def pages (e : MemmapEntry) : List Word := ticks pageSize e.base (e.length.toNat / 4096)

/-- The entry after its last `size` bytes were taken away. -/
def shorten (e : MemmapEntry) (size : Word) : MemmapEntry :=
  { e with length := e.length - size }

end MemmapEntry

def usablePages (entries : List MemmapEntry) : List Word :=
  (entries.filter fun e => e.type = .usable).flatMap MemmapEntry.pages

/-- What Limine guarantees about the usable entries of a memory map. -/
structure UsableMemmap (entries : List MemmapEntry) : Prop where
  aligned : ∀ e ∈ entries, e.type = .usable → PageAligned e.base ∧ PageAligned e.length
  bounded : ∀ e ∈ entries, e.type = .usable → e.base.toNat + e.length.toNat ≤ 2 ^ 64
  disjoint : entries.Pairwise fun a b =>
    a.type = .usable → b.type = .usable → ∀ x, ¬ (a.Covers x ∧ b.Covers x)

@[simp] theorem usablePages_nil : usablePages [] = [] := rfl

theorem usablePages_cons (e : MemmapEntry) (entries : List MemmapEntry) :
    usablePages (e :: entries) =
      if e.type = .usable then e.pages ++ usablePages entries else usablePages entries := by
  by_cases h : e.type = .usable <;> simp [usablePages, h]

theorem usablePages_append (xs ys : List MemmapEntry) :
    usablePages (xs ++ ys) = usablePages xs ++ usablePages ys := by
  simp [usablePages]

theorem mem_usablePages {entries : List MemmapEntry} {q : Word} :
    q ∈ usablePages entries ↔ ∃ e ∈ entries, e.type = .usable ∧ q ∈ e.pages := by
  simp [usablePages, and_assoc]

/-! ## Pages of one entry -/

section Entry

variable {e : MemmapEntry}

theorem MemmapEntry.mem_pages_iff (halign : PageAligned e.base ∧ PageAligned e.length)
    (hbound : e.base.toNat + e.length.toNat ≤ 2 ^ 64) {q : Word} :
    q ∈ e.pages ↔ PageAligned q ∧ e.Covers q.toNat := by
  obtain ⟨hbase, hlength⟩ := halign
  have hb := e.base.isLt
  have hq := q.isLt
  simp only [PageAligned] at hbase hlength ⊢
  rw [pages, mem_ticks]
  constructor
  · rintro ⟨k, hk, rfl⟩
    rw [toNat_tick (by rw [toNat_pageSize]; omega), toNat_pageSize]
    refine ⟨by omega, ?_, ?_⟩ <;> omega
  · rintro ⟨hal, hlo, hhi⟩
    have hk : (q.toNat - e.base.toNat) / 4096 < e.length.toNat / 4096 := by omega
    refine ⟨_, hk, BitVec.eq_of_toNat_eq ?_⟩
    rw [toNat_tick (by rw [toNat_pageSize]; omega), toNat_pageSize]
    omega

theorem MemmapEntry.nodup_pages (hbound : e.base.toNat + e.length.toNat ≤ 2 ^ 64) :
    e.pages.Nodup := by
  apply nodup_ticks (by rw [toNat_pageSize]; omega)
  rw [toNat_pageSize]
  omega

/-- Shortening splits the pages of an entry into the ones kept and the block taken. -/
theorem MemmapEntry.pages_shorten {size : Word} (halign : PageAligned e.length)
    (hsize : PageAligned size) (hle : size ≤ e.length) :
    e.pages = (e.shorten size).pages ++
      ticks pageSize (e.base + e.length - size) (size.toNat / 4096) := by
  have hle' : size.toNat ≤ e.length.toNat := BitVec.le_def.mp hle
  have hlen : (e.length - size).toNat = e.length.toNat - size.toNat := BitVec.toNat_sub_of_le hle
  have hcount : e.length.toNat / 4096 =
      (e.length.toNat - size.toNat) / 4096 + size.toNat / 4096 := by
    simp only [PageAligned] at *
    omega
  have hstart : e.base + BitVec.ofNat 64 ((e.length.toNat - size.toNat) / 4096) * pageSize =
      e.base + e.length - size := by
    have hlength : BitVec.ofNat 64 ((e.length.toNat - size.toNat) / 4096) * pageSize =
        e.length - size := by
      apply BitVec.eq_of_toNat_eq
      have := e.length.isLt
      simp only [PageAligned] at *
      rw [BitVec.toNat_mul, BitVec.toNat_ofNat, hlen, toNat_pageSize]
      omega
    rw [hlength, BitVec.sub_eq_add_neg, BitVec.sub_eq_add_neg, BitVec.add_assoc]
  rw [pages, hcount, ticks_add, hstart, pages, shorten, hlen]

end Entry

/-! ## The pages of a valid map -/

section Map

variable {entries : List MemmapEntry}

theorem UsableMemmap.tail {e : MemmapEntry} (h : UsableMemmap (e :: entries)) :
    UsableMemmap entries where
  aligned a ha := h.aligned a (List.mem_cons_of_mem _ ha)
  bounded a ha := h.bounded a (List.mem_cons_of_mem _ ha)
  disjoint := h.disjoint.of_cons

variable (hv : UsableMemmap entries)
include hv

theorem UsableMemmap.nodup : (usablePages entries).Nodup := by
  induction entries with
  | nil => simp
  | cons e entries ih =>
    rw [usablePages_cons]
    split_ifs with husable
    · have hal := hv.aligned e List.mem_cons_self husable
      have hbd := hv.bounded e List.mem_cons_self husable
      refine List.Nodup.append (MemmapEntry.nodup_pages hbd) (ih hv.tail) ?_
      intro q hq hq'
      obtain ⟨a, ha, hausable, hqa⟩ := mem_usablePages.mp hq'
      have hcov := ((MemmapEntry.mem_pages_iff hal hbd).mp hq).2
      have hcov' := ((MemmapEntry.mem_pages_iff (hv.tail.aligned a ha hausable)
        (hv.tail.bounded a ha hausable)).mp hqa).2
      exact List.rel_of_pairwise_cons hv.disjoint ha husable hausable _ ⟨hcov, hcov'⟩
    · exact ih hv.tail

theorem UsableMemmap.pageAligned {q : Word} (hq : q ∈ usablePages entries) : PageAligned q := by
  obtain ⟨e, he, husable, hqe⟩ := mem_usablePages.mp hq
  exact ((MemmapEntry.mem_pages_iff (hv.aligned e he husable) (hv.bounded e he husable)).mp hqe).1

/-- There are fewer pages than page numbers, so eight bytes a page fit a word. -/
theorem UsableMemmap.length_le : (usablePages entries).length ≤ 2 ^ 52 := by
  have hmap : ((usablePages entries).map fun q =>
      (⟨q.toNat / 4096, by have := q.isLt; omega⟩ : Fin (2 ^ 52))).Nodup := by
    refine hv.nodup.map_on ?_
    intro q hq q' hq' he
    have h := hv.pageAligned hq
    have h' := hv.pageAligned hq'
    simp only [PageAligned, Fin.mk.injEq] at h h' he
    exact BitVec.eq_of_toNat_eq (by omega)
  simpa using hmap.length_le_card

omit hv in
theorem countPages_cons (e : MemmapEntry) (entries : List MemmapEntry) (total : Word) :
    countPages (e :: entries) total =
      countPages entries (if e.type = .usable then total + e.length / pageSize else total) := rfl

omit hv in
theorem toNat_countPages {total : Word}
    (h : total.toNat + (usablePages entries).length < 2 ^ 64) :
    (countPages entries total).toNat = total.toNat + (usablePages entries).length := by
  induction entries generalizing total with
  | nil => rfl
  | cons e entries ih =>
    rw [usablePages_cons] at h ⊢
    rw [countPages_cons]
    split_ifs at h ⊢ with husable
    · rw [List.length_append, MemmapEntry.pages, length_ticks] at h ⊢
      have hsum : (total + e.length / pageSize).toNat = total.toNat + e.length.toNat / 4096 := by
        rw [BitVec.toNat_add, BitVec.toNat_udiv, toNat_pageSize, Nat.mod_eq_of_lt (by omega)]
      rw [ih (by rw [hsum]; omega), hsum]
      omega
    · exact ih h

end Map

/-! ## The stack block -/

/-- The bytes `pmm_init` asks for hold one slot per counted page, in whole pages. -/
theorem stackSize_spec {total : Word} (h : total.toNat ≤ 2 ^ 52) :
    PageAligned (stackSize total) ∧ 8 * total.toNat ≤ (stackSize total).toNat ∧
      (stackSize total).toNat ≤ 8 * total.toNat + 4095 := by
  have hmul : (total * 8).toNat = total.toNat * 8 := by
    rw [BitVec.toNat_mul, show (8 : Word).toNat = 8 from rfl]
    omega
  have hup := toNat_alignUp (x := total * 8) (by omega)
  refine ⟨pageAligned_alignUp _, ?_, ?_⟩ <;> rw [stackSize, hup, hmul] <;> omega

/-- `entries'` is `entries` with `size` bytes taken from the end of one usable
entry; `block` is the address of these bytes. -/
structure Carved (entries entries' : List MemmapEntry) (size block : Word) : Prop where
  exists_entry : ∃ pre e post, entries = pre ++ e :: post ∧ e.type = .usable ∧ size ≤ e.length ∧
    entries' = pre ++ e.shorten size :: post ∧ block = e.base + e.length - size

theorem locateStack_cases (size : Word) (s : Pmm) {i : ℕ} (hi : i ≤ s.memmap.length) :
    (∃ k < i, ∃ e, s.memmap[k]? = some e ∧ e.type = .usable ∧ size ≤ e.length ∧
      (∀ j, k < j → j < i → ∀ a, s.memmap[j]? = some a → a.type = .usable → a.length < size) ∧
      locateStack size i s =
        { s with
          pmStack := e.base + e.length - size + s.hhdmOffset
          slots := fun k => if k < size.toNat / 8 then 0 else s.slots k
          memmap := s.memmap.set k (e.shorten size) }) ∨
    ((∀ k < i, ∀ e, s.memmap[k]? = some e → e.type = .usable → e.length < size) ∧
      locateStack size i s = s) := by
  induction i with
  | zero => exact Or.inr ⟨by simp, rfl⟩
  | succ i ih =>
    have hget : s.memmap[i]? = some s.memmap[i] := List.getElem?_eq_getElem (by omega)
    by_cases hfit : s.memmap[i].type = .usable ∧ size ≤ s.memmap[i].length
    · refine Or.inl ⟨i, by omega, s.memmap[i], hget, hfit.1, hfit.2, fun j _ _ => by omega, ?_⟩
      rw [locateStack, hget]
      exact if_pos hfit
    · have hstep : locateStack size (i + 1) s = locateStack size i s := by
        rw [locateStack, hget]
        exact if_neg hfit
      have hshort : ∀ e, s.memmap[i]? = some e → e.type = .usable → e.length < size := by
        intro e he husable
        rw [hget, Option.some.injEq] at he
        subst he
        exact BitVec.not_le.mp fun h => hfit ⟨husable, h⟩
      rw [hstep]
      rcases ih (by omega) with ⟨k, hk, e, he, husable, hle, hlater, heq⟩ | ⟨hnone, heq⟩
      · refine Or.inl ⟨k, by omega, e, he, husable, hle, fun j hkj hj => ?_, heq⟩
        rcases Nat.lt_succ_iff_lt_or_eq.mp hj with hj | rfl
        · exact hlater j hkj hj
        · exact hshort
      · refine Or.inr ⟨fun k hk => ?_, heq⟩
        rcases Nat.lt_succ_iff_lt_or_eq.mp hk with hk | rfl
        · exact hnone k hk
        · exact hshort

theorem carved_of_getElem? {entries : List MemmapEntry} {k : ℕ} {e : MemmapEntry} {size : Word}
    (hget : entries[k]? = some e) (husable : e.type = .usable) (hfit : size ≤ e.length) :
    Carved entries (entries.set k (e.shorten size)) size (e.base + e.length - size) := by
  obtain ⟨hk, rfl⟩ := List.getElem?_eq_some_iff.mp hget
  refine ⟨entries.take k, _, entries.drop (k + 1), ?_, husable, hfit, ?_, rfl⟩
  · rw [List.cons_getElem_drop_succ, List.take_append_drop]
  · rw [List.set_eq_take_append_cons_drop, if_pos hk]

theorem Carved.perm {entries entries' : List MemmapEntry} {size block : Word}
    (h : Carved entries entries' size block) (hv : UsableMemmap entries)
    (hsize : PageAligned size) :
    (usablePages entries).Perm
      (usablePages entries' ++ ticks pageSize block (size.toNat / 4096)) := by
  obtain ⟨pre, e, post, rfl, husable, hfit, rfl, rfl⟩ := h.exists_entry
  have he : e ∈ pre ++ e :: post := by simp
  have hsplit := MemmapEntry.pages_shorten (hv.aligned e he husable).2 hsize hfit
  have husable' : (e.shorten size).type = .usable := husable
  rw [usablePages_append, usablePages_append, usablePages_cons, usablePages_cons, if_pos husable,
    if_pos husable', hsplit]
  simp only [List.append_assoc]
  exact List.Perm.append_left _ (List.Perm.append_left _ List.perm_append_comm)

theorem Carved.usableMemmap {entries entries' : List MemmapEntry} {size block : Word}
    (h : Carved entries entries' size block) (hv : UsableMemmap entries)
    (hsize : PageAligned size) : ∀ e ∈ entries', e.type = .usable → PageAligned e.length := by
  obtain ⟨pre, e, post, rfl, husable, hfit, rfl, rfl⟩ := h.exists_entry
  intro a ha hausable
  rw [List.mem_append, List.mem_cons] at ha
  rcases ha with ha | rfl | ha
  · exact (hv.aligned a (by simp [ha]) hausable).2
  · have hlen := (hv.aligned e (by simp) husable).2
    have hsub : (e.length - size).toNat = e.length.toNat - size.toNat :=
      BitVec.toNat_sub_of_le hfit
    simp only [PageAligned, MemmapEntry.shorten] at *
    omega
  · exact (hv.aligned a (by simp [ha]) hausable).2

/-! ## Pushing the pages -/

theorem pushEntry_eq {entry : MemmapEntry} {n : ℕ} {j : Word} {s : Pmm}
    (hj : j.toNat + 4096 * n = entry.length.toNat)
    (hroom : s.pmStackIdx.toNat + n ≤ s.pmTotalPages.toNat) :
    pushEntry entry j s = .ok (s.pushAll (ticks pageSize (entry.base + j) n)) := by
  induction n generalizing j s with
  | zero =>
    have hdone : ¬ j < entry.length := by
      rw [BitVec.lt_def]
      omega
    rw [pushEntry, if_neg hdone]
    rfl
  | succ n ih =>
    have hlength := entry.length.isLt
    have htotal := s.pmTotalPages.isLt
    have hmore : j < entry.length := by
      rw [BitVec.lt_def]
      omega
    have hspace : ¬ s.pmTotalPages ≤ s.pmStackIdx := by
      rw [BitVec.le_def]
      omega
    have hidx : (s.push (entry.base + j)).pmStackIdx.toNat = s.pmStackIdx.toNat + 1 :=
      toNat_pmStackIdx_push (by omega)
    rw [pushEntry, if_pos hmore, if_neg hspace, ih, ticks_succ, pushAll_cons, BitVec.add_assoc]
    · rcases Nat.eq_zero_or_pos n with rfl | hn
      · -- the last increment may reach the length exactly, which can be all of the space
        rw [BitVec.toNat_add, toNat_pageSize]
        omega
      · rw [BitVec.toNat_add, toNat_pageSize]
        omega
    · rw [hidx]
      simp only [push]
      omega

theorem pushEntries_eq {entries : List MemmapEntry} {s : Pmm}
    (halign : ∀ e ∈ entries, e.type = .usable → PageAligned e.length)
    (hroom : s.pmStackIdx.toNat + (usablePages entries).length ≤ s.pmTotalPages.toNat) :
    pushEntries entries s = .ok (s.pushAll (usablePages entries)) := by
  induction entries generalizing s with
  | nil => rfl
  | cons e entries ih =>
    have htail : ∀ a ∈ entries, a.type = .usable → PageAligned a.length :=
      fun a ha => halign a (List.mem_cons_of_mem _ ha)
    rw [pushEntries]
    by_cases husable : e.type = .usable
    · rw [usablePages_cons, if_pos husable, List.length_append] at hroom
      rw [if_pos husable, usablePages_cons, if_pos husable, pushAll_append]
      have hlen : e.pages.length = e.length.toNat / 4096 := length_ticks _ _ _
      have hal := halign e List.mem_cons_self husable
      have htotal := s.pmTotalPages.isLt
      rw [pushEntry_eq (n := e.length.toNat / 4096) (by simp only [PageAligned] at hal; simp; omega)
        (by omega), show e.base + 0 = e.base by simp]
      change pushEntries entries (s.pushAll e.pages) = _
      refine ih htail ?_
      rw [(s.pushAll_frame e.pages).2.2.2.1, (pushAll_spec (by omega)).2]
      omega
    · rw [usablePages_cons, if_neg husable] at hroom
      rw [if_neg husable, usablePages_cons, if_neg husable]
      exact ih htail hroom

/-! ## The result of `pmm_init` -/

def counted (entries : List MemmapEntry) (hhdmOffset : Word) : Pmm :=
  { boot with
    memmap := entries
    hhdmOffset := hhdmOffset
    pmTotalPages := countPages entries 0 }

def located (entries : List MemmapEntry) (hhdmOffset : Word) : Pmm :=
  locateStack (stackSize (countPages entries 0)) entries.length (counted entries hhdmOffset)

/-- The state a successful `pmm_init` leaves: the pages of the (possibly
shortened) map are on the stack, and the stack itself was placed in a block taken
from the map, unless no usable entry was long enough. -/
structure InitPost (entries : List MemmapEntry) (hhdmOffset : Word) (s : Pmm) : Prop where
  live : s.live = usablePages s.memmap
  memmap : s.memmap = (located entries hhdmOffset).memmap
  pmStack : s.pmStack = (located entries hhdmOffset).pmStack
  count : s.pmTotalPages = countPages entries 0
  total : s.pmTotalPages.toNat = (usablePages entries).length
  stackIdx : s.pmStackIdx.toNat = (usablePages s.memmap).length
  free : s.pmFreePages = s.pmStackIdx
  used : s.pmUsedPages = 0
  hhdm : s.hhdmOffset = hhdmOffset
  reports : s.reports = []
  stack : (∃ block, Carved entries s.memmap (stackSize s.pmTotalPages) block ∧
      s.pmStack = block + hhdmOffset) ∨
    ((∀ e ∈ entries, e.type = .usable → e.length < stackSize s.pmTotalPages) ∧
      s.memmap = entries ∧ s.pmStack = 0)

theorem pushAll_reports (s : Pmm) (pages : List Word) :
    (s.pushAll pages).reports = s.reports := by
  induction pages generalizing s with
  | nil => rfl
  | cons page pages ih => exact ih (s.push page)

theorem pmmInit_boot {entries : List MemmapEntry} {hhdmOffset : Word} (hhhdm : hhdmOffset ≠ 0) :
    pmmInit (some entries) hhdmOffset boot =
      match pushEntries (located entries hhdmOffset).memmap (located entries hhdmOffset) with
      | .error s => (1, s)
      | .ok s => (0, { s with pmFreePages := s.pmStackIdx }) := by
  simp only [pmmInit, if_neg hhhdm]
  rfl

theorem located_spec (entries : List MemmapEntry) (hhdmOffset : Word) :
    let s := located entries hhdmOffset
    let size := stackSize (countPages entries 0)
    s.pmStackIdx = 0 ∧ s.pmTotalPages = countPages entries 0 ∧ s.pmUsedPages = 0 ∧
      s.hhdmOffset = hhdmOffset ∧ s.reports = [] ∧
      ((∃ block, Carved entries s.memmap size block ∧ s.pmStack = block + hhdmOffset) ∨
        ((∀ e ∈ entries, e.type = .usable → e.length < size) ∧
          s.memmap = entries ∧ s.pmStack = 0)) := by
  intro s size
  rcases locateStack_cases size (counted entries hhdmOffset) le_rfl with
    ⟨k, hk, e, hget, husable, hfit, -, heq⟩ | ⟨hnone, heq⟩
  · rw [show s = _ from heq]
    exact ⟨rfl, rfl, rfl, rfl, rfl, Or.inl ⟨_, carved_of_getElem? hget husable hfit, rfl⟩⟩
  · rw [show s = _ from heq]
    refine ⟨rfl, rfl, rfl, rfl, rfl, Or.inr ⟨?_, rfl, rfl⟩⟩
    intro e he husable
    obtain ⟨k, hk⟩ := List.getElem?_of_mem he
    obtain ⟨hlt, -⟩ := List.getElem?_eq_some_iff.mp hk
    exact hnone k hlt e hk husable

theorem pmmInit_spec {entries : List MemmapEntry} {hhdmOffset : Word}
    (hv : UsableMemmap entries) (hhhdm : hhdmOffset ≠ 0) :
    ∃ s, pmmInit (some entries) hhdmOffset boot = (0, s) ∧ InitPost entries hhdmOffset s := by
  have hle := hv.length_le
  have htotal : (countPages entries 0).toNat = (usablePages entries).length := by
    have h := @toNat_countPages entries 0 (by
      rw [show (0 : Word).toNat = 0 from rfl]
      omega)
    rwa [show (0 : Word).toNat = 0 from rfl, Nat.zero_add] at h
  obtain ⟨hidx, hst, hused, hhd, hrep, hstack⟩ := located_spec entries hhdmOffset
  have hboot := @pmmInit_boot entries _ hhhdm
  generalize hs : located entries hhdmOffset = s at *
  have hsize := stackSize_spec (htotal.trans_le hle)
  have halign : ∀ e ∈ s.memmap, e.type = .usable → PageAligned e.length := by
    rcases hstack with ⟨block, hcarved, -⟩ | ⟨-, hmap, -⟩
    · exact hcarved.usableMemmap hv hsize.1
    · rw [hmap]
      exact fun e he husable => (hv.aligned e he husable).2
  have hroom : (usablePages s.memmap).length ≤ (usablePages entries).length := by
    rcases hstack with ⟨block, hcarved, -⟩ | ⟨-, hmap, -⟩
    · rw [(hcarved.perm hv hsize.1).length_eq, List.length_append]
      exact Nat.le_add_right _ _
    · rw [hmap]
  have hidx' : s.pmStackIdx.toNat = 0 := by rw [hidx]; rfl
  have hpush : pushEntries s.memmap s = .ok (s.pushAll (usablePages s.memmap)) := by
    apply pushEntries_eq halign
    rw [hidx', hst, htotal, Nat.zero_add]
    exact hroom
  obtain ⟨hlive, hcount⟩ := @pushAll_spec s (usablePages s.memmap) (by omega)
  obtain ⟨hpm, -, hpu, hpt, hph, hpmap⟩ := s.pushAll_frame (usablePages s.memmap)
  rw [hpush] at hboot
  have hempty : s.live = [] := by rw [live, hidx']; rfl
  refine ⟨_, hboot, ?_⟩
  constructor
  · rw [hempty, List.nil_append] at hlive
    change (s.pushAll _).live = usablePages (s.pushAll _).memmap
    rw [hlive, hpmap]
  · exact hpmap.trans (by rw [hs])
  · exact hpm.trans (by rw [hs])
  · exact hpt.trans hst
  · change (s.pushAll _).pmTotalPages.toNat = _
    rw [hpt, hst, htotal]
  · change (s.pushAll _).pmStackIdx.toNat = (usablePages (s.pushAll _).memmap).length
    rw [hcount, hidx', hpmap, Nat.zero_add]
  · rfl
  · exact hpu.trans hused
  · exact hph.trans hhd
  · exact (pushAll_reports s _).trans hrep
  · change (∃ block, Carved entries (s.pushAll _).memmap (stackSize (s.pushAll _).pmTotalPages)
      block ∧ (s.pushAll _).pmStack = block + hhdmOffset) ∨ _ ∧ (s.pushAll _).memmap = entries ∧
        (s.pushAll _).pmStack = 0
    simp only [hpm, hpmap, hpt, hst]
    exact hstack

theorem initPost_of_pmmInit {entries : List MemmapEntry} {hhdmOffset : Word} {s₀ : Pmm}
    (hv : UsableMemmap entries) (h : pmmInit (some entries) hhdmOffset boot = (0, s₀)) :
    InitPost entries hhdmOffset s₀ := by
  have hhhdm : hhdmOffset ≠ 0 := by
    rintro rfl
    simp [pmmInit] at h
  obtain ⟨s, hs, hpost⟩ := pmmInit_spec hv hhhdm
  rw [h, Prod.mk.injEq] at hs
  rwa [hs.2]

theorem InitPost.exists_perm {entries : List MemmapEntry} {hhdmOffset : Word} {s : Pmm}
    (h : InitPost entries hhdmOffset s) (hv : UsableMemmap entries) :
    ∃ rest, (usablePages entries).Perm (s.live ++ rest) := by
  have hsize := stackSize_spec (h.total.trans_le hv.length_le)
  rw [h.live]
  rcases h.stack with ⟨block, hcarved, -⟩ | ⟨-, hmap, -⟩
  · exact ⟨_, hcarved.perm hv hsize.1⟩
  · exact ⟨[], by rw [hmap, List.append_nil]⟩

theorem InitPost.length_live_le {entries : List MemmapEntry} {hhdmOffset : Word} {s : Pmm}
    (h : InitPost entries hhdmOffset s) (hv : UsableMemmap entries) :
    s.live.length ≤ s.pmTotalPages.toNat := by
  obtain ⟨rest, hperm⟩ := h.exists_perm hv
  rw [h.total, hperm.length_eq, List.length_append]
  exact Nat.le_add_right _ _

/-- The entry the stack is taken from: the last usable one that is long enough. -/
def stackEntry (entries : List MemmapEntry) : Option MemmapEntry :=
  entries.reverse.find? fun e => e.type = .usable ∧ stackSize (countPages entries 0) ≤ e.length

/-- The physical address of the stack in its entry. -/
def stackBlock (entries : List MemmapEntry) (e : MemmapEntry) : Word :=
  e.base + e.length - stackSize (countPages entries 0)

theorem stackEntry_eq_some {entries : List MemmapEntry} {k : ℕ} {e : MemmapEntry}
    (hget : entries[k]? = some e) (husable : e.type = .usable)
    (hfit : stackSize (countPages entries 0) ≤ e.length)
    (hlater : ∀ j, k < j → j < entries.length → ∀ a, entries[j]? = some a → a.type = .usable →
      a.length < stackSize (countPages entries 0)) : stackEntry entries = some e := by
  obtain ⟨hlt, rfl⟩ := List.getElem?_eq_some_iff.mp hget
  have hsplit : entries.reverse =
      (entries.drop (k + 1)).reverse ++ entries[k] :: (entries.take k).reverse := by
    have hmid : entries.take k ++ entries[k] :: entries.drop (k + 1) = entries := by
      rw [List.cons_getElem_drop_succ, List.take_append_drop]
    have hrev := congrArg List.reverse hmid
    rw [List.reverse_append, List.reverse_cons, List.append_assoc] at hrev
    exact hrev.symm
  refine List.find?_eq_some_iff_append.mpr ⟨decide_eq_true ⟨husable, hfit⟩, _, _, hsplit, ?_⟩
  intro a ha
  obtain ⟨j, hj, rfl⟩ := List.getElem_of_mem (List.mem_reverse.mp ha)
  rw [List.length_drop] at hj
  have hshort := hlater (k + 1 + j) (by omega) (by omega) _ (List.getElem?_eq_getElem (by omega))
  simp only [List.getElem_drop, Bool.not_eq_true', decide_eq_false_iff_not]
  exact fun h => BitVec.not_le.mpr (hshort h.1) h.2

/-- `pmm_init` takes the stack from the end of its entry, if there is one. -/
theorem InitPost.stackEntry_spec {entries : List MemmapEntry} {hhdmOffset : Word} {s : Pmm}
    (h : InitPost entries hhdmOffset s) :
    (∃ e, stackEntry entries = some e ∧ s.pmStack = stackBlock entries e + hhdmOffset ∧
        Carved entries s.memmap (stackSize s.pmTotalPages) (stackBlock entries e)) ∨
      (stackEntry entries = none ∧ ∀ e ∈ entries, e.type = .usable →
        e.length < stackSize s.pmTotalPages) := by
  rw [h.pmStack, h.memmap, h.count]
  rcases locateStack_cases (stackSize (countPages entries 0)) (counted entries hhdmOffset) le_rfl with
    ⟨k, hk, e, hget, husable, hfit, hlater, heq⟩ | ⟨hnone, heq⟩
  · rw [show located entries hhdmOffset = _ from heq]
    exact Or.inl ⟨e, stackEntry_eq_some hget husable hfit hlater, rfl,
      carved_of_getElem? hget husable hfit⟩
  · have hshort : ∀ e ∈ entries, e.type = .usable → e.length < stackSize (countPages entries 0) := by
      intro e he
      obtain ⟨k, hk⟩ := List.getElem?_of_mem he
      exact hnone k (List.getElem?_eq_some_iff.mp hk).1 e hk
    refine Or.inr ⟨List.find?_eq_none.mpr fun e he => ?_, hshort⟩
    have hlt := hshort e (List.mem_reverse.mp he)
    simp only [decide_eq_true_eq]
    exact fun h => BitVec.not_le.mpr (hlt h.1) h.2

/-- The bytes `[block, block + size)` as physical addresses. -/
def InBlock (block size : Word) (x : ℕ) : Prop :=
  block.toNat ≤ x ∧ x < block.toNat + size.toNat

theorem toNat_block {e : MemmapEntry} {size : Word}
    (hbound : e.base.toNat + e.length.toNat ≤ 2 ^ 64) (hfit : size ≤ e.length)
    (hpos : 0 < size.toNat) :
    (e.base + e.length - size).toNat = e.base.toNat + (e.length.toNat - size.toNat) := by
  have hb := e.base.isLt
  have hle : size.toNat ≤ e.length.toNat := BitVec.le_def.mp hfit
  rw [show e.base + e.length - size = e.base + (e.length - size) by
    rw [BitVec.sub_eq_add_neg, BitVec.sub_eq_add_neg, BitVec.add_assoc], BitVec.toNat_add,
    BitVec.toNat_sub_of_le hfit]
  omega

section Block

variable {entries entries' : List MemmapEntry} {size block : Word}
  (h : Carved entries entries' size block) (hv : UsableMemmap entries)
include h hv

theorem Carved.covers :
    ∃ e ∈ entries, e.type = .usable ∧ ∀ x, InBlock block size x → e.Covers x := by
  obtain ⟨pre, e, post, rfl, husable, hfit, -, rfl⟩ := h.exists_entry
  have hbound := hv.bounded e (by simp) husable
  have hle : size.toNat ≤ e.length.toNat := BitVec.le_def.mp hfit
  refine ⟨e, by simp, husable, fun x hx => ?_⟩
  simp only [InBlock, MemmapEntry.Covers] at hx ⊢
  rw [toNat_block hbound hfit (by omega)] at hx
  omega

theorem Carved.pageAligned_block (hsize : PageAligned size) (hpos : 0 < size.toNat) :
    PageAligned block ∧ block.toNat + size.toNat ≤ 2 ^ 64 := by
  obtain ⟨pre, e, post, rfl, husable, hfit, -, rfl⟩ := h.exists_entry
  have hbound := hv.bounded e (by simp) husable
  have halign := hv.aligned e (by simp) husable
  have hle : size.toNat ≤ e.length.toNat := BitVec.le_def.mp hfit
  simp only [PageAligned] at *
  rw [toNat_block hbound hfit hpos]
  omega

theorem Carved.mem_block_iff (hsize : PageAligned size) {q : Word} :
    q ∈ ticks pageSize block (size.toNat / 4096) ↔ PageAligned q ∧ InBlock block size q.toNat := by
  rcases Nat.eq_zero_or_pos size.toNat with h0 | hpos
  · simp only [h0, Nat.zero_div, ticks_zero, List.not_mem_nil, InBlock, Nat.add_zero, false_iff]
    omega
  · obtain ⟨halign, hbound⟩ := h.pageAligned_block hv hsize hpos
    exact MemmapEntry.mem_pages_iff (e := ⟨block, size, .usable⟩) ⟨halign, hsize⟩ hbound

theorem Carved.not_inBlock (hsize : PageAligned size) {q : Word} (hq : PageAligned q)
    (hout : ¬ InBlock block size q.toNat) {x : ℕ} (hlo : q.toNat ≤ x)
    (hhi : x < q.toNat + 4096) : ¬ InBlock block size x := by
  rcases Nat.eq_zero_or_pos size.toNat with h0 | hpos
  · simp only [InBlock]
    omega
  · have halign := (h.pageAligned_block hv hsize hpos).1
    simp only [PageAligned, InBlock] at *
    omega

end Block

/-- `pmm_init` builds exactly the right pool: every usable page is on the stack
once, except those of the block reserved for the stack itself. -/
theorem pmmInit_exactPool {entries : List MemmapEntry} {hhdmOffset : Word}
    (hv : UsableMemmap entries) (hhhdm : hhdmOffset ≠ 0)
    (hfit : ∃ e ∈ entries, e.type = .usable ∧ stackSize (countPages entries 0) ≤ e.length) :
    ∃ s block, pmmInit (some entries) hhdmOffset boot = (0, s) ∧
      s.pmStack = block + hhdmOffset ∧
      (∃ e ∈ entries, e.type = .usable ∧
        ∀ x, InBlock block (stackSize s.pmTotalPages) x → e.Covers x) ∧
      8 * s.pmTotalPages.toNat ≤ (stackSize s.pmTotalPages).toNat ∧
      s.pmTotalPages.toNat = (usablePages entries).length ∧
      s.live.Nodup ∧
      (∀ q, q ∈ s.live ↔
        q ∈ usablePages entries ∧ ¬ InBlock block (stackSize s.pmTotalPages) q.toNat) ∧
      (∀ q ∈ s.live, ∀ x, q.toNat ≤ x → x < q.toNat + 4096 →
        ¬ InBlock block (stackSize s.pmTotalPages) x) ∧
      s.pmFreePages.toNat = s.live.length ∧
      pushOverflowReport ∉ s.reports := by
  obtain ⟨s, hinit, hpost⟩ := pmmInit_spec hv hhhdm
  have hsize := stackSize_spec (hpost.total.trans_le hv.length_le)
  rcases hpost.stack with ⟨block, hcarved, hstack⟩ | ⟨hnone, -, -⟩
  · have hperm := hcarved.perm hv hsize.1
    rw [← hpost.live] at hperm
    have hnodup := hperm.nodup_iff.mp hv.nodup
    have hdisj := List.disjoint_of_nodup_append hnodup
    have halign : ∀ q ∈ s.live, PageAligned q := fun q hq =>
      hv.pageAligned (hperm.mem_iff.mpr (List.mem_append_left _ hq))
    have hout : ∀ q ∈ s.live, ¬ InBlock block (stackSize s.pmTotalPages) q.toNat :=
      fun q hq hin => hdisj hq ((hcarved.mem_block_iff hv hsize.1).mpr ⟨halign q hq, hin⟩)
    refine ⟨s, block, hinit, hstack, hcarved.covers hv, hsize.2.1, hpost.total,
      (List.nodup_append.mp hnodup).1, ?_, ?_, ?_, by simp [hpost.reports]⟩
    · intro q
      rw [hperm.mem_iff, List.mem_append, hcarved.mem_block_iff hv hsize.1]
      constructor
      · exact fun hq => ⟨Or.inl hq, hout q hq⟩
      · rintro ⟨hq | ⟨-, hin⟩, hnot⟩
        · exact hq
        · exact absurd hin hnot
    · intro q hq x hlo hhi
      exact hcarved.not_inBlock hv hsize.1 (halign q hq) (hout q hq) hlo hhi
    · rw [hpost.free, length_live]
  · obtain ⟨e, he, husable, hle⟩ := hfit
    have hlt := hnone e he husable
    rw [hpost.count, BitVec.lt_def] at hlt
    rw [BitVec.le_def] at hle
    omega

theorem pmmInit_exactPool_twoEntries :
    ∃ s block, pmmInit (some [⟨0x1000, 0x3000, .usable⟩, ⟨0x8000, 0x1000, .reserved⟩])
        0xffff800000000000 boot = (0, s) ∧ s.pmStack = block + 0xffff800000000000 ∧
      s.live.Nodup ∧ s.pmFreePages.toNat = s.live.length := by
  have hv : UsableMemmap [⟨0x1000, 0x3000, .usable⟩, ⟨0x8000, 0x1000, .reserved⟩] :=
    ⟨by decide, by decide, by simp⟩
  obtain ⟨s, block, hinit, hstack, -, -, -, hnodup, -, -, hfree, -⟩ :=
    @pmmInit_exactPool _ 0xffff800000000000 hv (by decide)
      ⟨_, List.mem_cons_self, rfl, by decide⟩
  exact ⟨s, block, hinit, hstack, hnodup, hfree⟩

end Olive
