import Olive.Library.Runs
import Olive.Pmm.Init

/-!
# The heap's page source (`liballoc_wrappers.c`)

The heap gets its pages from `liballoc_alloc`, which adds `_hhdm_offset` to what
`pmm_request_pages` answers, and gives them back through `liballoc_free`, which
hands its argument to `pmm_free_pages` as it is. The free stack therefore holds
physical addresses for exactly as long as the heap has released nothing.

The lock of the wrappers is left out: one context runs at a time here.
-/

namespace Olive

open Library Pmm

/-- `liballoc_alloc(pages)`: the `int` is widened with its sign to the `size_t` of
`pmm_request_pages`, and the answer is not checked for `NULL`. -/
def liballocAlloc (s : Pmm) (pages : BitVec 32) : Word × Pmm :=
  let (ptr, s) := pmmRequestPages s (pages.signExtend 64)
  (ptr + s.hhdmOffset, s)

def liballocFree (s : Pmm) (ptr : Word) (pages : BitVec 32) : Except Stop (Int × Pmm) := do
  let s ← pmmFreePages s ptr (pages.signExtend 64)
  .ok (0, s)

def Pmm.Supplies (s : Pmm) (pages : Word) : Prop := pages ≠ 0 ∧ pages ≤ s.pmStackIdx

instance (s : Pmm) (pages : Word) : Decidable (s.Supplies pages) :=
  inferInstanceAs (Decidable (_ ∧ _))

/-- The PMM with the blocks the heap holds and the single pages others hold. -/
structure Clients where
  pmm : Pmm
  blocks : List (Word × BitVec 32)
  held : List Word

inductive ClientCall where
  | alloc (pages : BitVec 32)
  | free (ptr : Word) (pages : BitVec 32)
  | request
  | release (page : Word)

/-- One call of the heap (`alloc`, `free`) or of another user of single pages. -/
inductive ClientStep : Clients → ClientCall → Clients → Prop
  | allocServed {s : Clients} {pages : BitVec 32} (h : s.pmm.Supplies (pages.signExtend 64)) :
      ClientStep s (.alloc pages)
        ⟨(liballocAlloc s.pmm pages).2, ((liballocAlloc s.pmm pages).1, pages) :: s.blocks, s.held⟩
  | allocRefused {s : Clients} {pages : BitVec 32} (h : ¬ s.pmm.Supplies (pages.signExtend 64)) :
      ClientStep s (.alloc pages) ⟨(liballocAlloc s.pmm pages).2, s.blocks, s.held⟩
  | free {s : Clients} {ptr : Word} {pages : BitVec 32} {r : Int} {pmm : Pmm}
      (hblock : (ptr, pages) ∈ s.blocks) (h : liballocFree s.pmm ptr pages = .ok (r, pmm)) :
      ClientStep s (.free ptr pages) ⟨pmm, s.blocks.erase (ptr, pages), s.held⟩
  | requestServed {s : Clients} (h : s.pmm.Supplies 1) :
      ClientStep s .request
        ⟨(pmmRequestPages s.pmm 1).2, s.blocks, (pmmRequestPages s.pmm 1).1 :: s.held⟩
  | requestRefused {s : Clients} (h : ¬ s.pmm.Supplies 1) :
      ClientStep s .request ⟨(pmmRequestPages s.pmm 1).2, s.blocks, s.held⟩
  | release {s : Clients} {page : Word} {pmm : Pmm} (hheld : page ∈ s.held)
      (h : pmmFreePages s.pmm page 1 = .ok pmm) :
      ClientStep s (.release page) ⟨pmm, s.blocks, s.held.erase page⟩

/-- The physical address of a page of the pool, not the virtual (HHDM) address of one. -/
def PhysicalPage (pool : List Word) (hhdmOffset q : Word) : Prop :=
  q ∈ pool ∧ ∀ p ∈ pool, q ≠ p + hhdmOffset

/-- The free stack holds physical addresses of the pool only. -/
def Physical (pool : List Word) (hhdmOffset : Word) (s : Clients) : Prop :=
  ∀ q ∈ s.pmm.live, PhysicalPage pool hhdmOffset q

/-- A satisfied `liballoc_alloc` answers the HHDM address of a page of the pool. -/
def AnswersHhdm (pool : List Word) (hhdmOffset : Word) (t : Transition Clients ClientCall) : Prop :=
  ∀ pages, t.act = .alloc pages → t.pre.pmm.Supplies (pages.signExtend 64) →
    ∃ p ∈ pool, (liballocAlloc t.pre.pmm pages).1 = p + hhdmOffset

def ClientCall.NoFree : ClientCall → Prop
  | .free _ _ => False
  | _ => True

/-! ## The counts and addresses a run keeps -/

def blockPages (blocks : List (Word × BitVec 32)) : ℕ :=
  (blocks.map fun b => (b.2.signExtend 64).toNat).sum

/-- While the free stack is physical, so is everything the clients hold, and free
pages and held pages together never exceed the pool. -/
structure Held (s₀ : Pmm) (s : Clients) : Prop where
  total : s.pmm.pmTotalPages = s₀.pmTotalPages
  hhdm : s.pmm.hhdmOffset = s₀.hhdmOffset
  count : s.pmm.pmStackIdx.toNat + blockPages s.blocks + s.held.length ≤ s₀.pmTotalPages.toNat
  blocks : ∀ b ∈ s.blocks, (∃ p ∈ s₀.live, b.1 = p + s₀.hhdmOffset) ∧
    0 < (b.2.signExtend 64).toNat
  held : ∀ p ∈ s.held, PhysicalPage s₀.live s₀.hhdmOffset p

section Step

variable {s₀ : Pmm} {s t : Clients} {call : ClientCall}

theorem Pmm.Supplies.request {s : Pmm} {pages : Word} (h : s.Supplies pages) :
    (pmmRequestPages s pages).2.pmStackIdx.toNat + pages.toNat = s.pmStackIdx.toNat ∧
      (∀ q ∈ (pmmRequestPages s pages).2.live, q ∈ s.live) ∧
      (pmmRequestPages s pages).1 ∈ s.live := by
  obtain ⟨hpages, hle⟩ := h
  obtain ⟨hsplit, hmem⟩ := request_split hpages hle
  have hidx := toNat_pmStackIdx_pop hle
  have hle' : pages.toNat ≤ s.pmStackIdx.toNat := BitVec.le_def.mp hle
  refine ⟨?_, ?_, hmem⟩
  · rw [pmmRequestPages_satisfied hpages hle, hidx]
    omega
  · intro q hq
    rw [← hsplit]
    exact List.mem_append_left _ hq

theorem pmmRequestPages_not_supplies {s : Pmm} {pages : Word} (h : ¬ s.Supplies pages) :
    pmmRequestPages s pages = (0, s.report (outOfMemoryReport pages)) := by
  apply pmmRequestPages_refused
  by_cases hpages : pages = 0
  · exact Or.inl hpages
  · refine Or.inr ?_
    have hle : ¬ pages ≤ s.pmStackIdx := fun hle => h ⟨hpages, hle⟩
    rw [BitVec.le_def] at hle
    rw [BitVec.lt_def]
    omega

theorem liballocAlloc_fst (s : Pmm) (pages : BitVec 32) :
    (liballocAlloc s pages).1 = (pmmRequestPages s (pages.signExtend 64)).1 + s.hhdmOffset := by
  rw [← (pmmRequestPages_frame s (pages.signExtend 64)).2]
  rfl

theorem blockPages_erase {blocks : List (Word × BitVec 32)} {b : Word × BitVec 32}
    (h : b ∈ blocks) :
    blockPages (blocks.erase b) + (b.2.signExtend 64).toNat = blockPages blocks := by
  have hperm := (List.perm_cons_erase h).map fun b => (b.2.signExtend 64).toNat
  have hsum := hperm.sum_eq
  rw [List.map_cons, List.sum_cons] at hsum
  simp only [blockPages, hsum, Nat.add_comm]

theorem length_live_pmmFreePages {s s' : Pmm} {ptr pages : Word}
    (h : pmmFreePages s ptr pages = .ok s') :
    s'.pmStackIdx.toNat ≤ s.pmStackIdx.toNat + pages.toNat := by
  have hlen := congrArg List.length (pmmFreePages_live h)
  rw [length_live, List.length_append, length_live, length_ticks] at hlen
  omega

theorem pmmFreePages_of_liballocFree {s s' : Pmm} {ptr : Word} {pages : BitVec 32} {r : Int}
    (h : liballocFree s ptr pages = .ok (r, s')) :
    pmmFreePages s ptr (pages.signExtend 64) = .ok s' := by
  unfold liballocFree at h
  cases hfree : pmmFreePages s ptr (pages.signExtend 64) with
  | error e =>
    rw [hfree] at h
    cases h
  | ok s₁ =>
    rw [hfree] at h
    cases h
    rfl

theorem ClientStep.held (hI : Held s₀ s) (hP : Physical s₀.live s₀.hhdmOffset s)
    (h : ClientStep s call t) : Held s₀ t := by
  obtain ⟨htotal, hhhdm, hcount, hblocks, hheld⟩ := hI
  cases h with
  | @allocServed pages hs =>
    obtain ⟨hidx, -, hmem⟩ := hs.request
    obtain ⟨ht, hh⟩ := pmmRequestPages_frame s.pmm (pages.signExtend 64)
    have hpos : 0 < (pages.signExtend 64).toNat :=
      Nat.pos_of_ne_zero fun h0 => hs.1 (BitVec.eq_of_toNat_eq h0)
    refine ⟨ht.trans htotal, hh.trans hhhdm, ?_, ?_, hheld⟩
    · simp only [blockPages, List.map_cons, List.sum_cons, liballocAlloc] at hcount ⊢
      omega
    · intro b hb
      rcases List.mem_cons.mp hb with rfl | hb
      · refine ⟨⟨_, (hP _ hmem).1, ?_⟩, hpos⟩
        rw [liballocAlloc_fst, hhhdm]
      · exact hblocks b hb
  | @allocRefused pages hs =>
    have href := pmmRequestPages_not_supplies hs
    simp only [liballocAlloc, href]
    exact ⟨htotal, hhhdm, hcount, hblocks, hheld⟩
  | @free ptr pages r pmm hblock h =>
    have hfree := pmmFreePages_of_liballocFree h
    obtain ⟨ht, hh⟩ := pmmFreePages_frame hfree
    have hlen := length_live_pmmFreePages hfree
    have herase := blockPages_erase hblock
    refine ⟨ht.trans htotal, hh.trans hhhdm, ?_, ?_, hheld⟩
    · simp only at herase ⊢
      omega
    · exact fun b hb => hblocks b (List.mem_of_mem_erase hb)
  | requestServed hs =>
    obtain ⟨hidx, -, hmem⟩ := hs.request
    obtain ⟨ht, hh⟩ := pmmRequestPages_frame s.pmm 1
    refine ⟨ht.trans htotal, hh.trans hhhdm, ?_, hblocks, ?_⟩
    · rw [show (1 : Word).toNat = 1 from rfl] at hidx
      simp only [List.length_cons]
      omega
    · intro p hp
      rcases List.mem_cons.mp hp with rfl | hp
      · exact hP _ hmem
      · exact hheld p hp
  | requestRefused hs =>
    rw [pmmRequestPages_not_supplies hs]
    exact ⟨htotal, hhhdm, hcount, hblocks, hheld⟩
  | @release page pmm hpage h =>
    obtain ⟨ht, hh⟩ := pmmFreePages_frame h
    have hlen := length_live_pmmFreePages h
    have herase := List.length_erase_add_one hpage
    refine ⟨ht.trans htotal, hh.trans hhhdm, ?_, hblocks, ?_⟩
    · rw [show (1 : Word).toNat = 1 from rfl] at hlen
      simp only
      omega
    · exact fun p hp => hheld p (List.mem_of_mem_erase hp)

/-- A step keeps the free stack physical exactly when it is no `liballoc_free`:
the first address a release pushes is the HHDM address of a page of the pool. -/
theorem ClientStep.physical_iff (hI : Held s₀ s) (hP : Physical s₀.live s₀.hhdmOffset s)
    (h : ClientStep s call t) : Physical s₀.live s₀.hhdmOffset t ↔ call.NoFree := by
  cases h with
  | allocServed hs => exact iff_of_true (fun q hq => hP q (hs.request.2.1 q hq)) trivial
  | allocRefused hs =>
    simp only [liballocAlloc, pmmRequestPages_not_supplies hs]
    exact iff_of_true hP trivial
  | @free ptr pages r pmm hblock h =>
    refine iff_of_false ?_ id
    intro hpost
    obtain ⟨⟨p, hp, hptr⟩, hpos⟩ := hI.blocks _ hblock
    have herase := blockPages_erase hblock
    have hcount := hI.count
    have hroom : 0 < min (pages.signExtend 64).toNat
        (s.pmm.pmTotalPages.toNat - s.pmm.pmStackIdx.toNat) := by
      rw [hI.total]
      simp only at hpos herase
      omega
    have hmem : ptr ∈ pmm.live := by
      rw [pmmFreePages_live (pmmFreePages_of_liballocFree h)]
      obtain ⟨n, hn⟩ := Nat.exists_eq_succ_of_ne_zero hroom.ne'
      rw [hn, ticks_succ]
      simp
    exact (hpost ptr hmem).2 p hp hptr
  | requestServed hs => exact iff_of_true (fun q hq => hP q (hs.request.2.1 q hq)) trivial
  | requestRefused hs =>
    rw [pmmRequestPages_not_supplies hs]
    exact iff_of_true hP trivial
  | @release page pmm hpage h =>
    refine iff_of_true ?_ trivial
    have hpool := hI.held page hpage
    intro q hq
    rw [pmmFreePages_live h, List.mem_append] at hq
    rcases hq with hq | hq
    · exact hP q hq
    · rw [mem_ticks] at hq
      obtain ⟨k, hk, rfl⟩ := hq
      have hk0 : k = 0 := by
        rw [show (1 : Word).toNat = 1 from rfl] at hk
        omega
      simpa [hk0] using hpool

end Step

/-! ## From `pmm_init` on -/

/-- From `pmm_init` on, the free stack stays physical and the heap gets HHDM
addresses of the pool if and only if these differ from the physical addresses and
the heap never gives a block back. -/
theorem clientRun_physical_iff {entries : List MemmapEntry} {hhdmOffset : Word} {s₀ : Pmm}
    {ts : List (Transition Clients ClientCall)} {u : Clients} (hv : UsableMemmap entries)
    (hinit : pmmInit (some entries) hhdmOffset boot = (0, s₀))
    (hrun : Run ClientStep ⟨s₀, [], []⟩ ts u) :
    (Physical s₀.live hhdmOffset ⟨s₀, [], []⟩ ∧
      ∀ t ∈ ts, Physical s₀.live hhdmOffset t.post ∧ AnswersHhdm s₀.live hhdmOffset t) ↔
    (∀ p ∈ s₀.live, p + hhdmOffset ∉ s₀.live) ∧ ∀ t ∈ ts, t.act.NoFree := by
  have hpost := initPost_of_pmmInit hv hinit
  have hhhdm := hpost.hhdm
  subst hhhdm
  have hstart : Held s₀ ⟨s₀, [], []⟩ := by
    refine ⟨rfl, rfl, ?_, by simp, by simp⟩
    have hlen := hpost.length_live_le hv
    rw [length_live] at hlen
    simp only [blockPages, List.map_nil, List.sum_nil, List.length_nil]
    omega
  have hiff : ∀ s a t, Held s₀ s → Physical s₀.live s₀.hhdmOffset s → ClientStep s a t →
      (Physical s₀.live s₀.hhdmOffset t ↔ a.NoFree) :=
    fun s a t hI hP hst => hst.physical_iff hI hP
  have hheld : ∀ s a t, Held s₀ s → Physical s₀.live s₀.hhdmOffset s → ClientStep s a t →
      Held s₀ t := fun s a t hI hP hst => hst.held hI hP
  constructor
  · rintro ⟨hP, hall⟩
    refine ⟨fun p hp hmem => (hP _ hmem).2 p hp rfl, ?_⟩
    exact (hrun.forall_post_iff (C := fun _ a => a.NoFree) hiff hheld hstart hP).mp
      fun t ht => (hall t ht).1
  · rintro ⟨hapart, hfree⟩
    have hP : Physical s₀.live s₀.hhdmOffset ⟨s₀, [], []⟩ := by
      intro q hq
      refine ⟨hq, ?_⟩
      rintro p hp rfl
      exact hapart p hp hq
    refine ⟨hP, fun t ht => ?_⟩
    have hinv := (hrun.invariant_of_forall (C := fun _ a => a.NoFree)
      (I := fun s => Held s₀ s ∧ Physical s₀.live s₀.hhdmOffset s)
      (fun s a t hs hc hst => ⟨hheld s a t hs.1 hs.2 hst, (hiff s a t hs.1 hs.2 hst).mpr hc⟩)
      ⟨hstart, hP⟩ hfree).2 t ht
    refine ⟨hinv.2.2, fun pages _ hs => ?_⟩
    obtain ⟨hI, hpre⟩ := hinv.1
    refine ⟨_, (hpre _ hs.request.2.2).1, ?_⟩
    rw [liballocAlloc_fst, hI.hhdm]

/-- One usable region of 32 pages, the last of which becomes the stack. -/
def heapMemmap : List MemmapEntry := [⟨0x100000, 0x20000, .usable⟩]

theorem usableMemmap_heapMemmap : UsableMemmap heapMemmap :=
  ⟨by decide, by decide, by simp [heapMemmap]⟩

theorem pmmInit_heapMemmap : ∃ s, pmmInit (some heapMemmap) 0xffff800000000000 boot = (0, s) ∧
    s.live = ticks pageSize 0x100000 31 ∧ s.pmStackIdx = 31 ∧ s.pmTotalPages = 32 ∧
    s.hhdmOffset = 0xffff800000000000 := by
  obtain ⟨s, hinit, hpost⟩ := @pmmInit_spec _ 0xffff800000000000 usableMemmap_heapMemmap (by decide)
  have hmap : s.memmap = [⟨0x100000, 0x1f000, .usable⟩] := by
    rw [hpost.memmap]
    decide
  have hlive := hpost.live
  have hidx := hpost.stackIdx
  rw [hmap] at hlive hidx
  refine ⟨s, hinit, hlive.trans (by decide), BitVec.eq_of_toNat_eq (hidx.trans (by decide)),
    hpost.count.trans (by decide), hpost.hhdm⟩

theorem liballocAlloc_heapMemmap {s : Pmm} (hlive : s.live = ticks pageSize 0x100000 31)
    (hidx : s.pmStackIdx = 31) (hhhdm : s.hhdmOffset = 0xffff800000000000) :
    s.Supplies ((16 : BitVec 32).signExtend 64) ∧
      (liballocAlloc s 16).1 = 0xffff80000010f000 ∧
      (liballocAlloc s 16).2.pmStackIdx = 15 ∧ (liballocAlloc s 16).2.slots = s.slots := by
  have hsupply : s.Supplies ((16 : BitVec 32).signExtend 64) := by
    rw [Supplies, hidx]
    decide
  have hslot : s.slots 15 = 0x10f000 := by
    have hget : s.live[15]? = some (s.slots 15) := by simp [live, hidx]
    rw [hlive] at hget
    exact (Option.some.inj (hget.symm.trans (by decide)))
  have hsat := pmmRequestPages_satisfied hsupply.1 hsupply.2
  refine ⟨hsupply, ?_, ?_, ?_⟩
  · rw [liballocAlloc_fst, hsat, hidx, hhhdm]
    change s.slots 15 + _ = _
    rw [hslot]
    decide
  · change (pmmRequestPages s ((16 : BitVec 32).signExtend 64)).2.pmStackIdx = 15
    rw [hsat, pop, hidx]
    change (31 - (16 : BitVec 32).signExtend 64 : Word) = 15
    decide
  · change (pmmRequestPages s ((16 : BitVec 32).signExtend 64)).2.slots = s.slots
    rw [hsat, pop]

/-- The heap takes its first block of 16 pages and gives it back: the free stack
then holds the virtual address `0xffff80000010f000`. -/
theorem clientRun_heapMemmap : ∃ s₀ ts u, UsableMemmap heapMemmap ∧
    pmmInit (some heapMemmap) 0xffff800000000000 boot = (0, s₀) ∧
    Run ClientStep ⟨s₀, [], []⟩ ts u ∧
    ¬ ∀ t ∈ ts, Physical s₀.live 0xffff800000000000 t.post := by
  obtain ⟨s, hinit, hlive, hidx, htotal, hhhdm⟩ := pmmInit_heapMemmap
  obtain ⟨hsupply, hptr, hleft, -⟩ := liballocAlloc_heapMemmap hlive hidx hhhdm
  have htotal' : (liballocAlloc s 16).2.pmTotalPages = 32 :=
    (pmmRequestPages_frame s _).1.trans htotal
  have hfree := @pmmFreePages_eq (liballocAlloc s 16).2 0xffff80000010f000
    ((16 : BitVec 32).signExtend 64) (by decide) (by decide) (by decide)
    (by rw [hleft, htotal']; decide)
  have halloc := ClientStep.allocServed (s := ⟨s, [], []⟩) hsupply
  have hrelease := ClientStep.free
    (s := ⟨(liballocAlloc s 16).2, [((liballocAlloc s 16).1, 16)], []⟩) List.mem_cons_self
    (by rw [hptr, liballocFree, hfree]; rfl)
  refine ⟨s, _, _, usableMemmap_heapMemmap, hinit, .cons halloc (.cons hrelease (.nil _)), ?_⟩
  intro hall
  have hlast := hall _ (List.mem_cons_of_mem _ List.mem_cons_self)
  have hpool : (0x10f000 : Word) ∈ s.live := by
    rw [hlive]
    decide
  refine (hlast 0xffff80000010f000 ?_).2 _ hpool (by decide)
  rw [pmmFreePages_live hfree, hleft, htotal']
  exact List.mem_append_right _ (by decide)

theorem clientRun_physical_iff_heapMemmap : ∃ s₀ ts u, Run ClientStep ⟨s₀, [], []⟩ ts u ∧
    ts.map Transition.act = [.alloc 16, .request, .release 0x10e000] ∧
    ((Physical s₀.live 0xffff800000000000 ⟨s₀, [], []⟩ ∧ ∀ t ∈ ts,
        Physical s₀.live 0xffff800000000000 t.post ∧ AnswersHhdm s₀.live 0xffff800000000000 t) ↔
      (∀ p ∈ s₀.live, p + 0xffff800000000000 ∉ s₀.live) ∧ ∀ t ∈ ts, t.act.NoFree) := by
  obtain ⟨s, hinit, hlive, hidx, htotal, hhhdm⟩ := pmmInit_heapMemmap
  obtain ⟨hsupply, -, hleft, hslots⟩ := liballocAlloc_heapMemmap hlive hidx hhhdm
  have hsupply' : (liballocAlloc s 16).2.Supplies 1 := by
    rw [Supplies, hleft]
    decide
  have hpage : s.slots 14 = 0x10e000 := by
    have hget : s.live[14]? = some (s.slots 14) := by simp [live, hidx]
    rw [hlive] at hget
    exact (Option.some.inj (hget.symm.trans (by decide)))
  have hsat : pmmRequestPages (liballocAlloc s 16).2 1 =
      (0x10e000, (liballocAlloc s 16).2.pop 1) := by
    rw [pmmRequestPages_satisfied hsupply'.1 hsupply'.2, hleft, hslots, ← hpage]
    rfl
  have hidx' : ((liballocAlloc s 16).2.pop 1).pmStackIdx = 14 := by
    rw [pop, hleft]
    rfl
  have htotal' : ((liballocAlloc s 16).2.pop 1).pmTotalPages = 32 :=
    (pmmRequestPages_frame s _).1.trans htotal
  have hfree := @pmmFreePages_eq ((liballocAlloc s 16).2.pop 1) 0x10e000 1 (by decide) (by decide)
    (by decide) (by rw [hidx', htotal']; decide)
  have halloc := ClientStep.allocServed (s := ⟨s, [], []⟩) hsupply
  have hrequest := ClientStep.requestServed
    (s := ⟨(liballocAlloc s 16).2, [((liballocAlloc s 16).1, 16)], []⟩) hsupply'
  rw [hsat] at hrequest
  have hrelease := ClientStep.release (s := ⟨(liballocAlloc s 16).2.pop 1,
    [((liballocAlloc s 16).1, 16)], [0x10e000]⟩) List.mem_cons_self hfree
  have hrun := Run.cons halloc (.cons hrequest (.cons hrelease (.nil _)))
  exact ⟨s, _, _, hrun, rfl, clientRun_physical_iff usableMemmap_heapMemmap hinit hrun⟩

end Olive
