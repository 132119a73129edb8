import Olive.Heap.Service
import Olive.Locks.Discipline
import Olive.Printf.Buffer

/-!
# The heap from boot on

What holds of every run of calls of the heap and accesses to its objects, from the empty heap
on. The run the kernel itself makes is the one at the end of `olive_entry`: one byte is
allocated, written, read and given up again.
-/

namespace Olive

open Library Memory Relation

/-! ## The end of `olive_entry` -/

/-- What `olive_entry` does with the byte at the pointer it gets. -/
def entryAccesses (p : Word) : List (ObjectEvent 64) := [.malloc 1 p, .write p 0 65, .read p 0 65]

section Entry

variable {npf : Formatter} {k : Kernel} {p : Word}

theorem after_malloc_one (hp : p ≠ 0) :
    (Objects.empty : Objects 64).after (.malloc 1 p) p = some [none] := by
  change (Objects.empty.put p _ : Objects 64) p = _
  rw [Objects.put_of_ne_zero hp, Function.update_self]
  rfl

theorem after_write_byte {o : Objects 64} {c : BitVec 8} (hp : o p = some [none]) :
    o.after (.write p 0 c) p = some [some c] := by
  change Function.update o p _ p = _
  rw [Function.update_self, hp]
  rfl

theorem run_entryAccesses (hp : p ≠ 0) :
    (Objects.empty : Objects 64).run (entryAccesses p) p = some [some 65] :=
  after_write_byte (after_malloc_one hp)

theorem obeys_entryAccesses (hp : p ≠ 0) : (Objects.empty : Objects 64).Obeys (entryAccesses p) :=
  ⟨trivial, ⟨_, after_malloc_one hp, by decide⟩,
    ⟨_, after_write_byte (after_malloc_one hp), by decide⟩, trivial⟩

theorem obeys_entryAccesses_free (hp : p ≠ 0) :
    (Objects.empty : Objects 64).Obeys (entryAccesses p ++ [.free p]) :=
  Objects.obeys_append.mpr ⟨obeys_entryAccesses hp, Or.inr ⟨_, run_entryAccesses hp⟩, trivial⟩

theorem run_entryAccesses_free (p q : Word) :
    (Objects.empty : Objects 64).run (entryAccesses p ++ [.free p]) q = none := by
  by_cases hq : q = p
  · subst hq
    exact Function.update_self _ _ _
  · change Function.update (Function.update ((Objects.empty : Objects 64).put p _) p _) p none q = none
    rw [Function.update_of_ne hq, Function.update_of_ne hq, Objects.put]
    split_ifs
    · rfl
    · exact Function.update_of_ne hq _ _

/-- The end of `olive_entry` up to the access runs when there are pages for the first block. -/
theorem exists_entryRun (npf : Formatter) (hk : Serving .empty .empty k) (hpages : PagesLast k 1) :
    ∃ p ts u, p ≠ 0 ∧ Run (HeapStep npf) k ts u ∧ events ts = entryAccesses p ∧
      (∀ t ∈ ts, (∀ last : Kernel → ℕ → Prop, last k 1 → Provided last t.pre t.act) ∧
        ¬ Releases t.pre t.act) ∧
      k.pmm.pmStackIdx.toNat ≤ u.pmm.pmStackIdx.toNat + 16 := by
  have havail : (1 : Word).toNat ≤ 2 ^ 32 - 4208 ∧ PagesLast k (1 : Word).toNat :=
    ⟨by decide, hpages⟩
  obtain ⟨hstock, hserved⟩ := havail.2.stocked hk.represents
  obtain ⟨n₀, hall⟩ :=
    Locked.kmalloc_terminates npf 0 hk.represents havail.1 hstock.supplied
  obtain ⟨p, k₁, hmalloc⟩ := hall n₀ le_rfl
  obtain ⟨L', b, hp, hext, -⟩ := hk.kmalloc havail hmalloc
  have hp0 : p ≠ 0 := hp ▸ hext.payload_ne_zero
  have hwrite := @HeapStep.write npf k₁ p 0 65
  have hread := @HeapStep.read npf
    { k₁ with mem := Function.update k₁.mem (p + BitVec.ofNat 64 0) 65 } p 0
  rw [show ({ k₁ with mem := Function.update k₁.mem (p + BitVec.ofNat 64 0) 65 } : Kernel).mem
    (p + BitVec.ofNat 64 0) = 65 from Function.update_self _ _ _] at hread
  refine ⟨p, _, _, hp0, .cons (.kmalloc hmalloc) (.cons hwrite (.cons hread (.nil _))), rfl, ?_, ?_⟩
  · intro t ht
    rw [List.mem_cons, List.mem_cons, List.mem_singleton] at ht
    rcases ht with rfl | rfl | rfl
    · exact ⟨fun last hlast => ⟨havail.1, hlast⟩, id⟩
    · exact ⟨fun _ _ => trivial, id⟩
    · exact ⟨fun _ _ => trivial, id⟩
  · obtain ⟨s, hgrown, hpmm⟩ := hext.grown
    have hidx : k₁.pmm.pmStackIdx = s.pmStackIdx := by rw [hpmm]
    change _ ≤ k₁.pmm.pmStackIdx.toNat + 16
    rw [hidx]
    cases hgrown with
    | gap hgap hs hruns =>
      rw [hs]
      exact Nat.le_add_right _ _
    | fresh hfull hfresh hs hruns =>
      have hst : requestedPages 1 = 16 := by decide
      obtain ⟨hserve, hleft⟩ := @liballocAlloc_served k.pmm (requestedPages 1)
        (by rw [hst]; decide) (by rw [hst]; decide) (hserved hfull).enough
      rw [hs, hserve]
      dsimp only
      rw [hleft, hst]
      change _ ≤ k.pmm.pmStackIdx.toNat - 16 + 16
      omega

theorem exists_entryRun_free (npf : Formatter) (hk : Serving .empty .empty k) (hpages : PagesLast k 1) :
    ∃ p ts u, p ≠ 0 ∧ Run (HeapStep npf) k ts u ∧ events ts = entryAccesses p ++ [.free p] ∧
      ∀ t ∈ ts, Provided PagesLast t.pre t.act := by
  obtain ⟨p, ts, u, hp, hrun, hevents, hts, -⟩ := exists_entryRun npf hk hpages
  have hserved := hk.run hrun (hevents ▸ obeys_entryAccesses hp)
    fun t ht => (hts t ht).1 _ hpages
  obtain ⟨L', hserving, -⟩ := hserved.serving
  rw [hevents] at hserving
  obtain ⟨b, hb, hpayload, -⟩ := hserving.block (run_entryAccesses hp)
  obtain ⟨u', -, hfree, -⟩ := Locked.kfree_spec npf 0 hserving.represents hb
  rw [hpayload] at hfree
  refine ⟨p, ts ++ [⟨u, .free p, u'⟩], u', hp, ?_, ?_, ?_⟩
  · exact hrun.concat (.kfree hfree)
  · unfold events at hevents ⊢
    rw [List.map_append, hevents]
    rfl
  · intro t ht
    rcases List.mem_append.mp ht with ht | ht
    · exact (hts t ht).1 _ hpages
    · rw [List.mem_singleton.mp ht]
      exact trivial

def readyKernel (s : Pmm) : Kernel := { bootKernel with toHeap := Heap.boot s fun _ => 0 }

/-- One usable region of 64 pages, the last of which becomes the stack. -/
def entryMemmap : List MemmapEntry := [⟨0x100000, 0x40000, .usable⟩]

theorem usableMemmap_entryMemmap : UsableMemmap entryMemmap :=
  ⟨by decide, by decide, by simp [entryMemmap]⟩

theorem fits_entryMemmap : ∀ q ∈ usablePages entryMemmap,
    q.toNat + (0xffff800000000000 : Word).toNat + 4096 ≤ 2 ^ 64 := by
  intro q hq
  obtain ⟨e, he, husable, hqe⟩ := mem_usablePages.mp hq
  have hcovers := ((MemmapEntry.mem_pages_iff (usableMemmap_entryMemmap.aligned e he husable)
    (usableMemmap_entryMemmap.bounded e he husable)).mp hqe).2
  rw [entryMemmap, List.mem_singleton] at he
  subst he
  have hlast : q.toNat < 0x140000 := hcovers.2
  change q.toNat + 0xffff800000000000 + 4096 ≤ 2 ^ 64
  omega

/-- The 63 pages below the stack are the pool of the heap. -/
theorem pmmInit_entryMemmap : ∃ s,
    pmmInit (some entryMemmap) 0xffff800000000000 Pmm.boot = (0, s) ∧
      Pool (ticks pageSize 0x100000 63) 0xffff800000000000 ∧
      Backed (ticks pageSize 0x100000 63) 0xffff800000000000 s [] ∧
      s.pmStackIdx = 63 ∧ s.pmTotalPages = 64 := by
  obtain ⟨s, hinit, hpost⟩ := @pmmInit_spec _ 0xffff800000000000 usableMemmap_entryMemmap (by decide)
  have hmap : s.memmap = [⟨0x100000, 0x3f000, .usable⟩] := by
    rw [hpost.memmap]
    decide
  have hlive := hpost.live
  have hidx := hpost.stackIdx
  rw [hmap] at hlive hidx
  have hlive : s.live = ticks pageSize 0x100000 63 := hlive.trans (by decide)
  obtain ⟨hpool, hbacked⟩ :=
    backed_of_pmmInit usableMemmap_entryMemmap hinit (by decide) fits_entryMemmap
  rw [hlive] at hpool hbacked
  exact ⟨s, hinit, hpool, hbacked, BitVec.eq_of_toNat_eq (hidx.trans (by decide)),
    hpost.count.trans (by decide)⟩

theorem topConsecutive_of_backed {rs : List (Word × BitVec 32)} {n : ℕ}
    (hb : Backed (ticks pageSize 0x100000 63) 0xffff800000000000 k.pmm rs)
    (hidx : 16 ≤ k.pmm.pmStackIdx.toNat) (hn : requestedPages (BitVec.ofNat 64 n) = 16) :
    TopConsecutive k n := by
  intro L _ _
  apply hb.consecutive
  rw [hn]
  exact hidx

theorem exists_readyKernel : ∃ s,
    pmmInit (some entryMemmap) 0xffff800000000000 Pmm.boot = (0, s) ∧
      TopConsecutive (readyKernel s) 1 ∧ PagesLast (readyKernel s) 1 ∧
      s.pmStackIdx.toNat ≤ s.pmTotalPages.toNat := by
  obtain ⟨s, hinit, hpool, hbacked, hidx, htotal⟩ := pmmInit_entryMemmap
  have htop : TopConsecutive (readyKernel s) 1 := by
    apply topConsecutive_of_backed hbacked _ (by decide)
    change 16 ≤ s.pmStackIdx.toNat
    rw [hidx]
    decide
  have hserving : Serving .empty .empty (readyKernel s) := serving_boot rfl
  refine ⟨s, hinit, htop, hserving.pagesLast hpool hbacked (by decide) htop, ?_⟩
  rw [hidx, htotal]
  decide

end Entry

/-! ## Every run -/

section Runs

variable {npf : Formatter} {k u : Kernel} {s : Pmm} {m : Memory 64} {off : Word}
  {entries : List MemmapEntry} {ts : List (Transition Kernel (ObjectEvent 64))}

/-- From `pmm_init` on the pages do last, as long as the pages on top of the stack are
consecutive when the heap asks for some, and the heap gives none back. -/
theorem heapRun_served_of_pmmInit (hmap : UsableMemmap entries)
    (hinit : pmmInit (some entries) off Pmm.boot = (0, s)) (hoff : PageAligned off)
    (hfits : ∀ q ∈ usablePages entries, q.toNat + off.toNat + 4096 ≤ 2 ^ 64)
    (hboot : k.toHeap = Heap.boot s m) (hrun : Run (HeapStep npf) k ts u)
    (hobey : Objects.empty.Obeys (events ts))
    (htop : ∀ t ∈ ts, Provided TopConsecutive t.pre t.act)
    (hkeep : ∀ t ∈ ts, ¬ Releases t.pre t.act) :
    Objects.empty.Served 16 (events ts) ∧ (∀ e ∈ events ts, e.Granted) ∧
      (Objects.empty.run (events ts)).Separate ∧ u.errorCounts = k.errorCounts := by
  obtain ⟨hpool, hbacked⟩ := backed_of_pmmInit hmap hinit hoff hfits
  have hpmm : k.pmm = s := congrArg Heap.pmm hboot
  have hprov := (serving_boot hboot).run_provided hpool hrun (hpmm ▸ hbacked) hobey htop hkeep
  have hserved := (serving_boot hboot).run hrun hobey hprov
  exact ⟨hserved.answers, hserved.granted, Objects.separate_empty.run hserved.answers,
    hserved.errors⟩

theorem heapRun_served_of_pmmInit_entry : ∃ s p ts u,
    pmmInit (some entryMemmap) 0xffff800000000000 Pmm.boot = (0, s) ∧
      Run (HeapStep nanoprintf) (readyKernel s) ts u ∧ events ts = entryAccesses p ∧
      Objects.empty.Served 16 (events ts) ∧ (∀ e ∈ events ts, e.Granted) ∧
      (Objects.empty.run (events ts)).Separate ∧
      u.errorCounts = (readyKernel s).errorCounts := by
  obtain ⟨s, hinit, htop, hpages, -⟩ := exists_readyKernel
  obtain ⟨p, ts, u, hp, hrun, hevents, hts, -⟩ :=
    exists_entryRun nanoprintf (serving_boot (k := readyKernel s) rfl) hpages
  have hobey : Objects.empty.Obeys (events ts) := hevents ▸ obeys_entryAccesses hp
  exact ⟨s, p, ts, u, hinit, hrun, hevents, heapRun_served_of_pmmInit usableMemmap_entryMemmap hinit
    (by decide) fits_entryMemmap rfl hrun hobey (fun t ht => (hts t ht).1 _ htop)
    fun t ht => (hts t ht).2⟩

/-- Nothing is lost: when no object is left, the heap has no block and counts no bytes, and the
PMM has as many free pages as before the run. -/
theorem heapRun_gives_back (hboot : k.toHeap = Heap.boot s m)
    (hcap : s.pmStackIdx.toNat ≤ s.pmTotalPages.toNat) (hrun : Run (HeapStep npf) k ts u)
    (hobey : Objects.empty.Obeys (events ts)) (hprov : ∀ t ∈ ts, Provided PagesLast t.pre t.act)
    (hnone : ∀ p, Objects.empty.run (events ts) p = none) :
    (u.memRoot = 0 ∧ u.bestBet = 0 ∧ u.inuse = 0 ∧ u.allocated = 0) ∧
      u.pmm.pmStackIdx = s.pmStackIdx ∧ u.pmm.pmUsedPages = s.pmUsedPages ∧
      u.pmm.pmFreePages = s.pmFreePages := by
  obtain ⟨L', hserving, hflow⟩ := ((serving_boot hboot).run hrun hobey hprov).serving
  have hL := hserving.majors_of_none hnone
  have hpmm : k.pmm = s := congrArg Heap.pmm hboot
  have hcounted := (counted_start s).run hcap (hpmm ▸ hflow)
  have hruns : L'.runs = [] := by
    unfold Layout.runs
    rw [hL]
    rfl
  rw [hruns] at hcounted
  have haddrs : L'.addrs = [] := by
    unfold Layout.addrs
    rw [hL]
    rfl
  have hrep := hserving.represents
  have hblocks : L'.blocks = [] := by
    unfold Layout.blocks
    rw [hL]
    rfl
  refine ⟨⟨?_, ?_, ?_, ?_⟩, ?_, ?_, ?_⟩
  · rw [hrep.root, haddrs]
    rfl
  · have hbest := hrep.best
    rw [haddrs] at hbest
    exact hbest.resolve_right List.not_mem_nil
  · rw [hrep.inuse, Layout.taken, hblocks]
    rfl
  · rw [hrep.allocated, Layout.bytes, hL]
    rfl
  · exact BitVec.eq_of_toNat_eq hcounted.idx
  · rw [hcounted.used]
    exact BitVec.add_zero _
  · rw [← hcounted.free]
    exact (BitVec.add_zero _).symm

theorem heapRun_gives_back_entry : ∃ s p ts u,
    Run (HeapStep nanoprintf) (readyKernel s) ts u ∧ events ts = entryAccesses p ++ [.free p] ∧
      (u.memRoot = 0 ∧ u.bestBet = 0 ∧ u.inuse = 0 ∧ u.allocated = 0) ∧
      u.pmm.pmStackIdx = s.pmStackIdx ∧ u.pmm.pmUsedPages = s.pmUsedPages ∧
      u.pmm.pmFreePages = s.pmFreePages := by
  obtain ⟨s, -, -, hpages, hcap⟩ := exists_readyKernel
  obtain ⟨p, ts, u, hp, hrun, hevents, hprov⟩ :=
    exists_entryRun_free nanoprintf (serving_boot (k := readyKernel s) rfl) hpages
  refine ⟨s, p, ts, u, hrun, hevents, heapRun_gives_back rfl hcap hrun ?_ hprov ?_⟩
  · rw [hevents]
    exact obeys_entryAccesses_free hp
  · rw [hevents]
    exact run_entryAccesses_free p

/-- An object that is given up twice in a row is noticed the second time: an error is counted,
and nothing else of the heap changes. -/
theorem heapRun_double_free (hboot : k.toHeap = Heap.boot s m) (hrun : Run (HeapStep npf) k ts u)
    (hobey : Objects.empty.Obeys (events ts)) (hprov : ∀ t ∈ ts, Provided PagesLast t.pre t.act)
    {p : Word} (hp : ∃ bs, Objects.empty.run (events ts) p = some bs) (caller : Word) :
    ∃ u' u'', (Locked.kfree npf caller p).eval u = some ((), u') ∧
      (Locked.kfree npf caller p).eval u' = some ((), u'') ∧ u''.toHeap = u'.toHeap ∧
      u''.errorCount = u.errorCount + 1 ∧ u''.possibleOverruns = u.possibleOverruns := by
  obtain ⟨L', hserving, -⟩ := ((serving_boot hboot).run hrun hobey hprov).serving
  obtain ⟨bs, hbs⟩ := hp
  obtain ⟨a, ha, rfl, -⟩ := hserving.block hbs
  obtain ⟨u', L'', hfree, hfreed⟩ := Locked.kfree_spec npf caller hserving.represents ha
  obtain ⟨u'', htwice, hheap, herror, hoverrun⟩ :=
    Locked.kfree_twice npf caller ha hserving.represents hfreed
  obtain ⟨herror', hoverrun', -⟩ := hfreed.errors
  exact ⟨u', u'', hfree, htwice, hheap, by rw [herror, herror'], hoverrun.trans hoverrun'⟩

theorem heapRun_double_free_entry : ∃ s p ts u u' u'',
    Run (HeapStep nanoprintf) (readyKernel s) ts u ∧ events ts = entryAccesses p ∧
      (Locked.kfree nanoprintf 0 p).eval u = some ((), u') ∧
      (Locked.kfree nanoprintf 0 p).eval u' = some ((), u'') ∧ u''.toHeap = u'.toHeap ∧
      u''.errorCount = u.errorCount + 1 ∧ u''.possibleOverruns = u.possibleOverruns := by
  obtain ⟨s, -, -, hpages, -⟩ := exists_readyKernel
  obtain ⟨p, ts, u, hp, hrun, hevents, hts, -⟩ :=
    exists_entryRun nanoprintf (serving_boot (k := readyKernel s) rfl) hpages
  have hobey : Objects.empty.Obeys (events ts) := hevents ▸ obeys_entryAccesses hp
  have hobject : ∃ bs, Objects.empty.run (events ts) p = some bs :=
    ⟨_, hevents ▸ run_entryAccesses hp⟩
  obtain ⟨u', u'', hfree⟩ := heapRun_double_free rfl hrun hobey
    (fun t ht => (hts t ht).1 _ hpages) hobject 0
  exact ⟨s, p, ts, u, u', u'', hrun, hevents, hfree⟩

end Runs

end Olive
