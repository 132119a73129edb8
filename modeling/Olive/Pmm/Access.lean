import Olive.Pmm.Accounting
import Olive.Pmm.Release

/-!
# The slots the PMM touches

The functions of the PMM with the list of their accesses `pm_stack[i]` next to the result.
Without the list they are the functions of `Pmm/Model`. Every slot a call reads or writes
lies below `pm_total_pages`, whatever the call is asked for and whatever was called before,
and the stack has that many slots if `pmm_init` found a place for it. It does not look
whether it did: without a place it stores the free pages through a null pointer.
-/

namespace Olive

open Library Pmm

inductive SlotAccess where
  | read (slot : Word)
  | write (slot page : Word)
  deriving DecidableEq, Repr

def SlotAccess.slot : SlotAccess → Word
  | read slot => slot
  | write slot _ => slot

/-! ## The functions with their accesses -/

def pmmRequestPagesTraced (s : Pmm) (pages : Word) : (Word × Pmm) × List SlotAccess :=
  if pages = 0 ∨ s.pmStackIdx < pages then ((0, s.report (outOfMemoryReport pages)), [])
  else
    let idx := s.pmStackIdx - pages
    ((s.slots idx.toNat,
      { s with
        pmStackIdx := idx
        pmUsedPages := s.pmUsedPages + pages
        pmFreePages := s.pmFreePages - pages }), [.read idx])

def pushFreedTraced (pageAddr : Word) : ℕ → Word → Pmm → (Bool × Pmm) × List SlotAccess
  | 0, _, s => ((false, s), [])
  | n + 1, i, s =>
    if s.pmTotalPages ≤ s.pmStackIdx then ((true, s.report freeOverflowReport), [])
    else
      let page := pageAddr + i * pageSize
      let r := pushFreedTraced pageAddr n (i + 1) (s.push page)
      (r.1, .write s.pmStackIdx page :: r.2)

/-- `pmm_free_pages(ptr, pages)`; its assertions come before any access. -/
def pmmFreePagesTraced (s : Pmm) (ptr pages : Word) : Except Stop (Pmm × List SlotAccess) := do
  assert (ptr ≠ 0) "ptr != NULL"
  assert (ptr % pageSize = 0) "(uint64_t)ptr % PAGE_SIZE == 0"
  assert (0 < pages) "pages > 0"
  match pushFreedTraced ptr pages.toNat 0 s with
  | ((true, s), accesses) => .ok (s, accesses)
  | ((false, s), accesses) =>
    .ok ({ s with
      pmFreePages := s.pmFreePages + pages
      pmUsedPages := s.pmUsedPages - pages }, accesses)

def pushEntryTraced (entry : MemmapEntry) (j : Word) (s : Pmm) :
    Except Pmm Pmm × List SlotAccess :=
  if j < entry.length then
    if s.pmTotalPages ≤ s.pmStackIdx then (.error (s.report pushOverflowReport), [])
    else
      let r := pushEntryTraced entry (j + pageSize) (s.push (entry.base + j))
      (r.1, .write s.pmStackIdx (entry.base + j) :: r.2)
  else (.ok s, [])
termination_by s.pmTotalPages.toNat - s.pmStackIdx.toNat
decreasing_by
  rename_i hfull
  rw [BitVec.le_def] at hfull
  have := s.pmTotalPages.isLt
  have hidx : (s.push (entry.base + j)).pmStackIdx.toNat = s.pmStackIdx.toNat + 1 :=
    toNat_pmStackIdx_push (by omega)
  rw [hidx]
  change s.pmTotalPages.toNat - _ < _
  omega

def pushEntriesTraced : List MemmapEntry → Pmm → Except Pmm Pmm × List SlotAccess
  | [], s => (.ok s, [])
  | entry :: entries, s =>
    if entry.type = .usable then
      match pushEntryTraced entry 0 s with
      | (.error s, accesses) => (.error s, accesses)
      | (.ok s, accesses) =>
        let r := pushEntriesTraced entries s
        (r.1, accesses ++ r.2)
    else pushEntriesTraced entries s

/-- `pmm_init(memmap, hhdm_offset)`; the `memset` of the storage is no access to a slot. -/
def pmmInitTraced (memmap : Option (List MemmapEntry)) (hhdmOffset : Word) (s : Pmm) :
    (Int × Pmm) × List SlotAccess :=
  match memmap with
  | none => ((1, s.report nullMemmapReport), [])
  | some entries =>
    if hhdmOffset = 0 then ((1, s.report zeroHhdmReport), [])
    else
      let s := { s with memmap := entries, hhdmOffset := hhdmOffset }
      let s := { s with pmTotalPages := countPages s.memmap s.pmTotalPages }
      let s := locateStack (stackSize s.pmTotalPages) s.memmap.length s
      match pushEntriesTraced s.memmap s with
      | (.error s, accesses) => ((1, s), accesses)
      | (.ok s, accesses) => ((0, { s with pmFreePages := s.pmStackIdx }), accesses)

/-! Without their accesses these are the functions of the model. -/

theorem pmmRequestPagesTraced_value (s : Pmm) (pages : Word) :
    (pmmRequestPagesTraced s pages).1 = pmmRequestPages s pages := by
  unfold pmmRequestPagesTraced pmmRequestPages
  split
  · rfl
  · rfl

theorem pushFreedTraced_value (pageAddr : Word) (n : ℕ) (i : Word) (s : Pmm) :
    (pushFreedTraced pageAddr n i s).1 = pushFreed pageAddr n i s := by
  induction n generalizing i s with
  | zero => rfl
  | succ n ih =>
    unfold pushFreedTraced pushFreed
    split
    · rfl
    · exact ih _ _

theorem pmmFreePagesTraced_value (s : Pmm) (ptr pages : Word) :
    (pmmFreePagesTraced s ptr pages).map Prod.fst = pmmFreePages s ptr pages := by
  have hassert : ∀ {α β : Type} (x : Bool) (text : String) (k : Unit → Except Stop α) (f : α → β),
      (assert x text >>= k).map f = assert x text >>= fun u => (k u).map f := by
    intro α β x text k f
    cases x
    · rfl
    · rfl
  unfold pmmFreePagesTraced pmmFreePages
  rw [hassert, hassert, hassert, ← pushFreedTraced_value]
  rcases pushFreedTraced ptr pages.toNat 0 s with ⟨⟨_ | _, t⟩, accesses⟩
  · rfl
  · rfl

theorem pushEntryTraced_value (entry : MemmapEntry) (j : Word) (s : Pmm) :
    (pushEntryTraced entry j s).1 = pushEntry entry j s := by
  fun_induction pushEntryTraced entry j s with
  | case1 j s hj hfull => rw [pushEntry, if_pos hj, if_pos hfull]
  | case2 j s hj hfull r ih =>
    rw [pushEntry, if_pos hj, if_neg hfull]
    exact ih
  | case3 j s hj => rw [pushEntry, if_neg hj]

theorem pushEntriesTraced_value (entries : List MemmapEntry) (s : Pmm) :
    (pushEntriesTraced entries s).1 = pushEntries entries s := by
  induction entries generalizing s with
  | nil => rfl
  | cons entry entries ih =>
    unfold pushEntriesTraced pushEntries
    split
    · rw [← pushEntryTraced_value]
      rcases pushEntryTraced entry 0 s with ⟨_ | t, accesses⟩
      · rfl
      · exact ih t
    · exact ih s

theorem pmmInitTraced_value (memmap : Option (List MemmapEntry)) (hhdmOffset : Word) (s : Pmm) :
    (pmmInitTraced memmap hhdmOffset s).1 = pmmInit memmap hhdmOffset s := by
  cases memmap with
  | none => rfl
  | some entries =>
    by_cases hhhdm : hhdmOffset = 0
    · simp only [pmmInitTraced, pmmInit, if_pos hhhdm]
    · simp only [pmmInitTraced, pmmInit, if_neg hhhdm, ← pushEntriesTraced_value]
      generalize locateStack _ _ _ = t
      rcases pushEntriesTraced t.memmap t with ⟨_ | u, accesses⟩
      · rfl
      · rfl

/-! ## Every slot lies below `pm_total_pages` -/

theorem pushFreedTraced_slot {pageAddr : Word} {n : ℕ} {i : Word} {s : Pmm} {a : SlotAccess}
    (ha : a ∈ (pushFreedTraced pageAddr n i s).2) : a.slot < s.pmTotalPages := by
  induction n generalizing i s with
  | zero => cases ha
  | succ n ih =>
    unfold pushFreedTraced at ha
    split at ha
    · cases ha
    · rename_i hroom
      rcases List.mem_cons.mp ha with rfl | ha
      · exact BitVec.not_le.mp hroom
      · exact ih (s := s.push _) ha

theorem pmmRequestPagesTraced_slot {s : Pmm} {pages : Word} {a : SlotAccess}
    (hle : s.pmStackIdx ≤ s.pmTotalPages) (ha : a ∈ (pmmRequestPagesTraced s pages).2) :
    a.slot < s.pmTotalPages := by
  unfold pmmRequestPagesTraced at ha
  split at ha
  · cases ha
  · rename_i hserved
    obtain rfl := List.mem_singleton.mp ha
    have hfits : pages ≤ s.pmStackIdx := BitVec.not_lt.mp fun h => hserved (.inr h)
    have hpos : 0 < pages.toNat :=
      Nat.pos_of_ne_zero fun h => hserved (.inl (BitVec.eq_of_toNat_eq h))
    have hidx := toNat_pmStackIdx_pop hfits
    rw [BitVec.le_def] at hle hfits
    change s.pmStackIdx - pages < s.pmTotalPages
    rw [BitVec.lt_def]
    change (s.pop pages).pmStackIdx.toNat < _
    omega

def pmmCallTraced (s : Pmm) : PmmCall → Except Stop (Pmm × List SlotAccess)
  | .request pages => .ok ((pmmRequestPagesTraced s pages).1.2, (pmmRequestPagesTraced s pages).2)
  | .free ptr pages => pmmFreePagesTraced s ptr pages

/-- A call that returns; a failed assertion ends the run. -/
def CallStep (s : Pmm) (call : PmmCall) (t : Pmm) : Prop :=
  ∃ accesses, pmmCallTraced s call = .ok (t, accesses)

theorem callStep_request_iff {s t : Pmm} {pages : Word} :
    CallStep s (.request pages) t ↔ (pmmRequestPages s pages).2 = t := by
  unfold CallStep pmmCallTraced
  rw [← pmmRequestPagesTraced_value]
  simp

theorem callStep_free_iff {s t : Pmm} {ptr pages : Word} :
    CallStep s (.free ptr pages) t ↔ pmmFreePages s ptr pages = .ok t := by
  change (∃ accesses, pmmFreePagesTraced s ptr pages = .ok (t, accesses)) ↔ _
  rw [← pmmFreePagesTraced_value]
  cases pmmFreePagesTraced s ptr pages with
  | error stop => simp [Except.map]
  | ok r => simp [Except.map, Prod.ext_iff]

theorem pmmFreePagesTraced_slot {s t : Pmm} {ptr pages : Word} {accesses : List SlotAccess}
    (h : pmmFreePagesTraced s ptr pages = .ok (t, accesses)) :
    ∀ a ∈ accesses, a.slot < s.pmTotalPages := by
  obtain ⟨-, h⟩ := of_assert_bind h
  obtain ⟨-, h⟩ := of_assert_bind h
  obtain ⟨-, h⟩ := of_assert_bind h
  have hslot := fun a h => @pushFreedTraced_slot ptr pages.toNat 0 s a h
  intro a ha
  rcases hloop : pushFreedTraced ptr pages.toNat 0 s with ⟨⟨_ | _, u⟩, as⟩
  · rw [hloop] at h hslot
    cases h
    exact hslot a ha
  · rw [hloop] at h hslot
    cases h
    exact hslot a ha

/-! ## Runs of arbitrary calls -/

/-- The stack of `s₀` is in place in `s`, its index is within, and whatever is called next
stays within, too. -/
structure InStack (s₀ s : Pmm) : Prop where
  pmStack : s.pmStack = s₀.pmStack
  total : s.pmTotalPages = s₀.pmTotalPages
  index : s.pmStackIdx ≤ s.pmTotalPages
  exact : ∀ pages, ¬ (pages = 0 ∨ s.pmStackIdx < pages) →
    (s.pmStackIdx - pages).toNat + pages.toNat = s.pmStackIdx.toNat
  slots : ∀ call t accesses, pmmCallTraced s call = .ok (t, accesses) →
    ∀ a ∈ accesses, a.slot < s₀.pmTotalPages

section Run

variable {s₀ s t : Pmm}

theorem inStack_of_index (hstack : s.pmStack = s₀.pmStack)
    (htotal : s.pmTotalPages = s₀.pmTotalPages) (hle : s.pmStackIdx ≤ s.pmTotalPages) :
    InStack s₀ s := by
  refine ⟨hstack, htotal, hle, fun pages hserved => ?_, fun call t accesses hcall a ha => ?_⟩
  · have hfits : pages ≤ s.pmStackIdx := BitVec.not_lt.mp fun h => hserved (.inr h)
    rw [BitVec.toNat_sub_of_le hfits, Nat.sub_add_cancel (BitVec.le_def.mp hfits)]
  · rw [← htotal]
    cases call with
    | request pages =>
      cases hcall
      exact pmmRequestPagesTraced_slot hle ha
    | free ptr pages => exact pmmFreePagesTraced_slot hcall a ha

theorem pmmRequestPages_index (hle : s.pmStackIdx ≤ s.pmTotalPages) (pages : Word) :
    (pmmRequestPages s pages).2.pmStack = s.pmStack ∧
      (pmmRequestPages s pages).2.pmTotalPages = s.pmTotalPages ∧
      (pmmRequestPages s pages).2.pmStackIdx ≤ (pmmRequestPages s pages).2.pmTotalPages := by
  by_cases h : pages = 0 ∨ s.pmStackIdx < pages
  · rw [pmmRequestPages_refused h]
    exact ⟨rfl, rfl, hle⟩
  · rw [not_or, BitVec.not_lt] at h
    rw [pmmRequestPages_satisfied h.1 h.2]
    refine ⟨rfl, rfl, ?_⟩
    have hidx := toNat_pmStackIdx_pop h.2
    rw [BitVec.le_def] at hle ⊢
    change (s.pop pages).pmStackIdx.toNat ≤ s.pmTotalPages.toNat
    omega

theorem pmmFreePages_index (hle : s.pmStackIdx ≤ s.pmTotalPages) {ptr pages : Word}
    (h : pmmFreePages s ptr pages = .ok t) :
    t.pmStack = s.pmStack ∧ t.pmTotalPages = s.pmTotalPages ∧ t.pmStackIdx ≤ t.pmTotalPages := by
  obtain ⟨hptr, halign, hpages⟩ := pmmFreePages_ok h
  have htotal := (pmmFreePages_frame h).1
  have hlive := congrArg List.length (pmmFreePages_live h)
  rw [List.length_append, length_live, length_live, length_ticks] at hlive
  refine ⟨?_, htotal, ?_⟩
  · by_cases hfits : s.pmStackIdx.toNat + pages.toNat ≤ s.pmTotalPages.toNat
    · rw [pmmFreePages_eq hptr halign hpages hfits] at h
      cases h
      exact (s.pushAll_frame _).1
    · rw [pmmFreePages_overflow hptr halign hpages (by omega)] at h
      cases h
      exact (s.pushAll_frame _).1
  · rw [BitVec.le_def] at hle ⊢
    rw [htotal]
    omega

theorem InStack.step {call : PmmCall} (hs : InStack s₀ s) (h : CallStep s call t) :
    InStack s₀ t := by
  cases call with
  | request pages =>
    obtain rfl := callStep_request_iff.mp h
    obtain ⟨hstack, htotal, hle⟩ := pmmRequestPages_index hs.index pages
    exact inStack_of_index (hstack.trans hs.pmStack) (htotal.trans hs.total) hle
  | free ptr pages =>
    obtain ⟨hstack, htotal, hle⟩ := pmmFreePages_index hs.index (callStep_free_iff.mp h)
    exact inStack_of_index (hstack.trans hs.pmStack) (htotal.trans hs.total) hle

/-- After `pmm_init` returned 0, on any map, every state of every run is within the stack.
If the stack was given a place, its slots lie in the bytes reserved there. -/
theorem pmmRun_inStack {entries : List MemmapEntry} {hhdmOffset : Word}
    {ts : List (Transition Pmm PmmCall)} {u : Pmm}
    (hinit : pmmInit (some entries) hhdmOffset boot = (0, s₀)) (hrun : Run CallStep s₀ ts u) :
    (∀ s ∈ s₀ :: ts.map Transition.post, InStack s₀ s) ∧
      (UsableMemmap entries →
        (∃ e ∈ entries, e.type = .usable ∧ stackSize (countPages entries 0) ≤ e.length) →
        ∃ block, Carved entries s₀.memmap (stackSize s₀.pmTotalPages) block ∧
          s₀.pmStack = block + hhdmOffset ∧
          8 * s₀.pmTotalPages.toNat ≤ (stackSize s₀.pmTotalPages).toNat) := by
  constructor
  · have hbooks := accounted_of_pmmInit hinit
    have htotal := hbooks.total
    rw [length_live] at htotal
    have hstart : InStack s₀ s₀ := inStack_of_index rfl rfl (BitVec.le_def.mpr htotal)
    have hkeep := hrun.invariant (fun s a t hs hst => hs.step hst) hstart
    intro s hs
    rcases List.mem_cons.mp hs with rfl | hs
    · exact hstart
    · obtain ⟨t, ht, rfl⟩ := List.mem_map.mp hs
      exact (hkeep.2 t ht).2
  · rintro hv ⟨e, he, husable, hfit⟩
    have hpost := initPost_of_pmmInit hv hinit
    rcases hpost.stack with ⟨block, hcarved, hstack⟩ | ⟨hnone, -, -⟩
    · exact ⟨block, hcarved, hstack, (stackSize_spec (hpost.total.trans_le hv.length_le)).2.1⟩
    · have hlt := hnone e he husable
      rw [hpost.count] at hlt
      exact absurd hfit (BitVec.not_le.mpr hlt)

end Run

theorem pmmRun_inStack_gapMemmap : ∃ s₀ ts u,
    pmmInit (some gapMemmap) 0xffff800000000000 boot = (0, s₀) ∧ Run CallStep s₀ ts u ∧
    ts.map Transition.act = [.free 0x1000 0xffffffffffffffff] ∧
    (∀ s ∈ s₀ :: ts.map Transition.post, InStack s₀ s) ∧
    ∃ block, s₀.pmStack = block + 0xffff800000000000 ∧
      8 * s₀.pmTotalPages.toNat ≤ (stackSize s₀.pmTotalPages).toNat := by
  obtain ⟨s, hinit, -, hidx, -⟩ := pmmInit_gapMemmap
  have hpost := initPost_of_pmmInit usableMemmap_gapMemmap hinit
  have htotal : s.pmTotalPages = 4 := hpost.count.trans (by decide)
  have hfree := @pmmFreePages_overflow s 0x1000 0xffffffffffffffff (by decide) (by decide)
    (by decide) (by rw [hidx, htotal]; decide)
  have hrun := Run.cons (callStep_free_iff.mpr hfree) (Run.nil _)
  obtain ⟨hall, hplaced⟩ := pmmRun_inStack hinit hrun
  obtain ⟨block, -, hstack, hbytes⟩ := hplaced usableMemmap_gapMemmap (by decide)
  exact ⟨s, _, _, hinit, hrun, rfl, hall, block, hstack, hbytes⟩

/-! ## The stores of `pmm_init` -/

/-- The accesses that store pages in consecutive slots. -/
def slotWrites (slot : Word) : List Word → List SlotAccess
  | [] => []
  | page :: pages => .write slot page :: slotWrites (slot + 1) pages

theorem slotWrites_append (slot : Word) (xs ys : List Word) :
    slotWrites slot (xs ++ ys) =
      slotWrites slot xs ++ slotWrites (slot + BitVec.ofNat 64 xs.length) ys := by
  induction xs generalizing slot with
  | nil => simp [slotWrites]
  | cons x xs ih =>
    have hnext : slot + 1 + BitVec.ofNat 64 xs.length = slot + BitVec.ofNat 64 (xs.length + 1) := by
      rw [BitVec.ofNat_add, BitVec.add_assoc, BitVec.add_comm 1]
      rfl
    rw [List.cons_append, slotWrites, ih, hnext]
    rfl

theorem Pmm.pmStackIdx_pushAll (s : Pmm) (pages : List Word) :
    (s.pushAll pages).pmStackIdx = s.pmStackIdx + BitVec.ofNat 64 pages.length := by
  induction pages generalizing s with
  | nil => simp
  | cons page pages ih =>
    rw [pushAll_cons, ih, List.length_cons, BitVec.ofNat_add, BitVec.add_comm (BitVec.ofNat 64 _),
      ← BitVec.add_assoc]
    rfl

section Init

variable {s t u : Pmm}

/-- A loop has stored some pages, and no more than there is room for. -/
def Stores (s t : Pmm) (accesses : List SlotAccess) : Prop :=
  ∃ pages, t = s.pushAll pages ∧ accesses = slotWrites s.pmStackIdx pages ∧
    s.pmStackIdx.toNat + pages.length ≤ s.pmTotalPages.toNat

theorem stores_refl (h : s.pmStackIdx ≤ s.pmTotalPages) : Stores s s [] :=
  ⟨[], rfl, rfl, BitVec.le_def.mp h⟩

theorem Stores.trans {xs ys : List SlotAccess} (hxs : Stores s t xs) (hys : Stores t u ys) :
    Stores s u (xs ++ ys) := by
  obtain ⟨ps, rfl, rfl, hroom⟩ := hxs
  obtain ⟨qs, rfl, rfl, hroom'⟩ := hys
  have htotal := s.pmTotalPages.isLt
  rw [(s.pushAll_frame ps).2.2.2.1, (pushAll_spec (by omega)).2] at hroom'
  refine ⟨ps ++ qs, (pushAll_append s ps qs).symm, ?_, ?_⟩
  · rw [slotWrites_append, pmStackIdx_pushAll]
  · rw [List.length_append]
    omega

theorem Stores.index_le {xs : List SlotAccess} (h : Stores s t xs) :
    t.pmStackIdx ≤ t.pmTotalPages := by
  obtain ⟨ps, rfl, -, hroom⟩ := h
  have htotal := s.pmTotalPages.isLt
  rw [BitVec.le_def, (s.pushAll_frame ps).2.2.2.1, (pushAll_spec (by omega)).2]
  exact hroom

theorem stores_push (hroom : ¬ s.pmTotalPages ≤ s.pmStackIdx) (page : Word) :
    Stores s (s.push page) [.write s.pmStackIdx page] := by
  refine ⟨[page], rfl, rfl, ?_⟩
  rw [BitVec.le_def] at hroom
  rw [List.length_singleton]
  omega

theorem pushEntryTraced_stores {entry : MemmapEntry} {j : Word}
    (h : (pushEntryTraced entry j s).1 = .ok t) (hle : s.pmStackIdx ≤ s.pmTotalPages) :
    Stores s t (pushEntryTraced entry j s).2 := by
  fun_induction pushEntryTraced entry j s with
  | case1 j s hj hfull => cases h
  | case2 j s hj hroom r ih =>
    have hfirst := stores_push hroom (entry.base + j)
    exact hfirst.trans (ih h hfirst.index_le)
  | case3 j s hj =>
    cases h
    exact stores_refl hle

theorem pushEntriesTraced_stores {entries : List MemmapEntry}
    (h : (pushEntriesTraced entries s).1 = .ok t) (hle : s.pmStackIdx ≤ s.pmTotalPages) :
    Stores s t (pushEntriesTraced entries s).2 := by
  induction entries generalizing s with
  | nil =>
    cases h
    exact stores_refl hle
  | cons entry entries ih =>
    unfold pushEntriesTraced at h ⊢
    split at h
    · rename_i husable
      rw [if_pos husable]
      have hentry := fun m h => @pushEntryTraced_stores s m entry 0 h hle
      rcases hres : pushEntryTraced entry 0 s with ⟨_ | m, accesses⟩
      · rw [hres] at h
        cases h
      · rw [hres] at h hentry
        have hfirst := hentry m rfl
        exact hfirst.trans (ih h hfirst.index_le)
    · rename_i husable
      rw [if_neg husable]
      exact ih h hle

/-- A successful `pmm_init` stores the pages of its free stack, bottom first, each once. -/
theorem pmmInitTraced_accesses {memmap : Option (List MemmapEntry)} {hhdmOffset : Word}
    (h : pmmInit memmap hhdmOffset boot = (0, s)) :
    (pmmInitTraced memmap hhdmOffset boot).2 = slotWrites 0 s.live := by
  have hone : ¬ (1 : Int) = 0 := by decide
  rw [← pmmInitTraced_value] at h
  cases memmap with
  | none => exact absurd (congrArg Prod.fst h) hone
  | some entries =>
    by_cases hhhdm : hhdmOffset = 0
    · simp only [pmmInitTraced, if_pos hhhdm] at h
      exact absurd (congrArg Prod.fst h) hone
    obtain ⟨hidx, -⟩ := located_spec entries hhdmOffset
    have htraced : pmmInitTraced (some entries) hhdmOffset boot =
        match pushEntriesTraced (located entries hhdmOffset).memmap
          (located entries hhdmOffset) with
        | (.error s, accesses) => ((1, s), accesses)
        | (.ok s, accesses) => ((0, { s with pmFreePages := s.pmStackIdx }), accesses) := by
      simp only [pmmInitTraced, if_neg hhhdm]
      rfl
    have hstart : (located entries hhdmOffset).pmStackIdx ≤
        (located entries hhdmOffset).pmTotalPages := by
      rw [hidx, BitVec.le_def]
      exact Nat.zero_le _
    have hstores := fun t h => @pushEntriesTraced_stores (located entries hhdmOffset) t
      (located entries hhdmOffset).memmap h hstart
    rw [htraced] at h ⊢
    rcases hres : pushEntriesTraced (located entries hhdmOffset).memmap
      (located entries hhdmOffset) with ⟨t | t, accesses⟩
    · rw [hres] at h
      exact absurd (congrArg Prod.fst h) hone
    · rw [hres] at h hstores
      obtain ⟨pages, rfl, haccesses, hroom⟩ := hstores t rfl
      obtain rfl := congrArg Prod.snd h
      have hbound := (located entries hhdmOffset).pmTotalPages.isLt
      have hempty : (located entries hhdmOffset).live = [] := by
        rw [live, hidx]
        rfl
      have hlive := (@pushAll_spec (located entries hhdmOffset) pages (by omega)).1
      rw [hempty, List.nil_append] at hlive
      rw [hidx] at haccesses
      change accesses = slotWrites 0 ((located entries hhdmOffset).pushAll pages).live
      rw [hlive]
      exact haccesses

end Init

/-- `pmm_init` stores pages only in a block of the map reserved for its stack. If no usable
entry is long enough for such a block, it answers an error and stores none. -/
structure StackReserved (entries : List MemmapEntry) (hhdmOffset : Word) : Prop where
  refused : (∀ e ∈ entries, e.type = .usable → e.length < stackSize (countPages entries 0)) →
    (pmmInit (some entries) hhdmOffset boot).1 ≠ 0 ∧
      (pmmInitTraced (some entries) hhdmOffset boot).2 = []
  reserved : (pmmInitTraced (some entries) hhdmOffset boot).2 ≠ [] →
    ∃ block, Carved entries (pmmInit (some entries) hhdmOffset boot).2.memmap
        (stackSize (countPages entries 0)) block ∧
      (pmmInit (some entries) hhdmOffset boot).2.pmStack = block + hhdmOffset

section Reserved

variable {entries : List MemmapEntry} {hhdmOffset : Word} (hv : UsableMemmap entries)
include hv

/-- If no entry is long enough, `pmm_init` succeeds and stores every usable page through a
null pointer. -/
theorem pmmInit_unplaced (hhhdm : hhdmOffset ≠ 0)
    (hnone : ∀ e ∈ entries, e.type = .usable → e.length < stackSize (countPages entries 0)) :
    ∃ s, pmmInit (some entries) hhdmOffset boot = (0, s) ∧ s.pmStack = 0 ∧
      (pmmInitTraced (some entries) hhdmOffset boot).2 = slotWrites 0 (usablePages entries) := by
  obtain ⟨s, hinit, hpost⟩ := pmmInit_spec hv hhhdm
  have haccesses := pmmInitTraced_accesses hinit
  rcases hpost.stack with ⟨block, hcarved, -⟩ | ⟨-, hmap, hstack⟩
  · obtain ⟨pre, e, post, rfl, husable, hfit, -, -⟩ := hcarved.exists_entry
    rw [hpost.count] at hfit
    exact absurd hfit (BitVec.not_le.mpr (hnone e (by simp) husable))
  · rw [hpost.live, hmap] at haccesses
    exact ⟨s, hinit, hstack, haccesses⟩

/-- The search of `pmm_init` falls through without an error, so its stack is reserved if and
only if some usable entry is long enough, or it has not come to the search. -/
theorem stackReserved_iff : StackReserved entries hhdmOffset ↔ hhdmOffset = 0 ∨
    ∃ e ∈ entries, e.type = .usable ∧ stackSize (countPages entries 0) ≤ e.length := by
  constructor
  · intro h
    by_contra hneither
    rw [not_or] at hneither
    obtain ⟨hhhdm, hfit⟩ := hneither
    have hnone : ∀ e ∈ entries, e.type = .usable → e.length < stackSize (countPages entries 0) :=
      fun e he husable => BitVec.not_le.mp fun hle => hfit ⟨e, he, husable, hle⟩
    obtain ⟨s, hinit, -⟩ := pmmInit_unplaced hv hhhdm hnone
    exact (h.refused hnone).1 (congrArg Prod.fst hinit)
  · intro hcond
    by_cases hhhdm : hhdmOffset = 0
    · subst hhhdm
      have hnothing : (pmmInitTraced (some entries) 0 boot).2 = [] := rfl
      exact ⟨fun _ => ⟨by simp [pmmInit], hnothing⟩, fun h => absurd hnothing h⟩
    · obtain ⟨e, he, husable, hfit⟩ := hcond.resolve_left hhhdm
      obtain ⟨s, hinit, hpost⟩ := pmmInit_spec hv hhhdm
      refine ⟨fun hnone => absurd hfit (BitVec.not_le.mpr (hnone e he husable)), fun _ => ?_⟩
      rw [hinit, ← hpost.count]
      rcases hpost.stack with hplaced | ⟨hnone, -, -⟩
      · exact hplaced
      · rw [← hpost.count] at hfit
        exact absurd hfit (BitVec.not_le.mpr (hnone e he husable))

end Reserved

/-- Single pages with gaps between them: 513 need a stack of two pages. -/
def fragmentedMemmap : List MemmapEntry :=
  (List.range 513).map fun k => ⟨BitVec.ofNat 64 (0x2000 * k + 0x1000), 0x1000, .usable⟩

theorem usableMemmap_fragmentedMemmap : UsableMemmap fragmentedMemmap := by
  have hbase : ∀ k, k < 513 → (BitVec.ofNat 64 (0x2000 * k + 0x1000)).toNat = 0x2000 * k + 0x1000 :=
    fun k hk => by rw [BitVec.toNat_ofNat, Nat.mod_eq_of_lt (by omega)]
  have hlength : (0x1000 : Word).toNat = 0x1000 := rfl
  refine ⟨?_, ?_, ?_⟩
  · intro e he _
    obtain ⟨k, hk, rfl⟩ := List.mem_map.mp he
    refine ⟨?_, (by decide : PageAligned 0x1000)⟩
    rw [PageAligned, hbase k (List.mem_range.mp hk)]
    omega
  · intro e he _
    obtain ⟨k, hk, rfl⟩ := List.mem_map.mp he
    have hlt := List.mem_range.mp hk
    rw [hbase k hlt, hlength]
    omega
  · rw [fragmentedMemmap, List.pairwise_map]
    refine List.pairwise_lt_range.imp_of_mem fun {a b} ha hb hab _ _ x hx => ?_
    simp only [MemmapEntry.Covers, hbase _ (List.mem_range.mp ha), hbase _ (List.mem_range.mp hb),
      hlength] at hx
    omega

/-- `pmm_init` accepts this map and stores the address of the first page at address 0. -/
theorem stackReserved_fragmentedMemmap :
    UsableMemmap fragmentedMemmap ∧ usablePages fragmentedMemmap ≠ [] ∧
      (∀ e ∈ fragmentedMemmap, e.type = .usable →
        e.length < stackSize (countPages fragmentedMemmap 0)) ∧
      (∃ s, pmmInit (some fragmentedMemmap) 0xffff800000000000 boot = (0, s) ∧ s.pmStack = 0 ∧
        .write 0 0x1000 ∈ (pmmInitTraced (some fragmentedMemmap) 0xffff800000000000 boot).2) ∧
      ¬ StackReserved fragmentedMemmap 0xffff800000000000 := by
  have hsize : stackSize (countPages fragmentedMemmap 0) = 0x2000 := by decide +kernel
  have hnone : ∀ e ∈ fragmentedMemmap, e.type = .usable →
      e.length < stackSize (countPages fragmentedMemmap 0) := by
    intro e he _
    obtain ⟨k, -, rfl⟩ := List.mem_map.mp he
    rw [hsize]
    exact (by decide : (0x1000 : Word) < 0x2000)
  obtain ⟨rest, hrest⟩ : ∃ rest, usablePages fragmentedMemmap = 0x1000 :: rest := by
    rw [fragmentedMemmap, List.range_succ_eq_map, List.map_cons, usablePages_cons, if_pos rfl]
    exact ⟨_, rfl⟩
  obtain ⟨s, hinit, hnull, haccesses⟩ := @pmmInit_unplaced _ 0xffff800000000000
    usableMemmap_fragmentedMemmap (by decide) hnone
  refine ⟨usableMemmap_fragmentedMemmap, by simp [hrest], hnone, ⟨s, hinit, hnull, ?_⟩, fun h => ?_⟩
  · rw [haccesses, hrest]
    exact List.mem_cons_self
  · exact (h.refused hnone).1 (congrArg Prod.fst hinit)

theorem stackReserved_iff_gapMemmap : StackReserved gapMemmap 0xffff800000000000 ↔
    (0xffff800000000000 : Word) = 0 ∨
      ∃ e ∈ gapMemmap, e.type = .usable ∧ stackSize (countPages gapMemmap 0) ≤ e.length :=
  stackReserved_iff usableMemmap_gapMemmap

end Olive
