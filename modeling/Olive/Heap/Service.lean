import Olive.Heap.Clients
import Olive.Pmm.Init

/-!
# Runs of the heap

From the empty heap on, every run of calls and accesses answers what is owed as long as the
pages last. The counters of the PMM and the pages of the heap add up to what they were at the
start, so that everything is given back when no object is left.

That the pages last is a matter of the PMM: its stack is a part of the memory map, in the order
of `pmm_init`, until pages are given back. A run in which the heap keeps the pages it has got
relies on nothing but that the pages on top of the stack are consecutive.
-/

namespace Olive

open Library Memory Relation

abbrev events (ts : List (Transition Kernel (ObjectEvent 64))) : List (ObjectEvent 64) :=
  ts.map Transition.act

structure RunServed (o : Objects 64) (L : Layout) (k : Kernel)
    (ts : List (Transition Kernel (ObjectEvent 64))) (u : Kernel) : Prop where
  answers : o.Served 16 (events ts)
  granted : ∀ e ∈ events ts, e.Granted
  serving : ∃ L', Serving (o.run (events ts)) L' u ∧
    ReflTransGen (PageFlow (∃ t ∈ ts, Releases t.pre t.act)) (k.pmm, L.runs) (u.pmm, L'.runs)
  errors : u.errorCounts = k.errorCounts

section Runs

variable {npf : Formatter} {o : Objects 64} {L : Layout} {k u : Kernel}
  {ts : List (Transition Kernel (ObjectEvent 64))}

theorem Serving.run (hrun : Run (HeapStep npf) k ts u) (hk : Serving o L k)
    (hobey : o.Obeys (events ts)) (hprov : ∀ t ∈ ts, Provided PagesLast t.pre t.act) :
    RunServed o L k ts u := by
  induction hrun generalizing o L with
  | nil k => exact ⟨trivial, by simp, ⟨L, hk, .refl⟩, rfl⟩
  | @cons k t u e ts hstep hrun ih =>
    have hstep := hk.step hobey.1 (hprov _ List.mem_cons_self) hstep
    obtain ⟨L₁, hserving, hflow⟩ := hstep.serving
    have hrest := ih hserving hobey.2 fun t ht => hprov t (List.mem_cons_of_mem _ ht)
    obtain ⟨L', hserving', hflow'⟩ := hrest.serving
    refine ⟨⟨hstep.answers, hrest.answers⟩, List.forall_mem_cons.mpr ⟨hstep.granted, hrest.granted⟩,
      ⟨L', hserving', ?_⟩, hrest.errors.trans hstep.errors⟩
    apply ReflTransGen.trans
    · exact ReflTransGen.mono (fun _ _ h => h.imp fun h => ⟨_, List.mem_cons_self, h⟩) _ _ hflow
    · refine ReflTransGen.mono (fun _ _ h => h.imp ?_) _ _ hflow'
      exact fun ⟨t, ht, hreleases⟩ => ⟨t, List.mem_cons_of_mem _ ht, hreleases⟩

def Layout.empty : Layout := ⟨[], .nil⟩

theorem Heap.represents_boot (s : Pmm) (m : Memory 64) : (Heap.boot s m).Represents .empty where
  root := rfl
  linked := trivial
  best := Or.inl rfl
  stored _ hB := by cases hB
  inuse := rfl
  allocated := rfl

theorem serving_boot {s : Pmm} {m : Memory 64} (hboot : k.toHeap = Heap.boot s m) :
    Serving .empty .empty k where
  represents := hboot ▸ Heap.represents_boot s m
  inhabited _ hB := by cases hB
  shows_ := Objects.shows_empty _

end Runs

/-! ## Nothing is lost -/

def pagesOf (rs : List (Word × BitVec 32)) : ℕ := (rs.map fun r => r.2.toNat).sum

/-- The PMM has counted the pages the heap holds. -/
structure Counted (s₀ : Pmm) (s : Pmm) (rs : List (Word × BitVec 32)) : Prop where
  idx : s.pmStackIdx.toNat + pagesOf rs = s₀.pmStackIdx.toNat
  total : s.pmTotalPages = s₀.pmTotalPages
  used : s.pmUsedPages = s₀.pmUsedPages + BitVec.ofNat 64 (pagesOf rs)
  free : s.pmFreePages + BitVec.ofNat 64 (pagesOf rs) = s₀.pmFreePages
  small : ∀ r ∈ rs, r.2.toNat < 2 ^ 20

section Counted

variable {s₀ s s' : Pmm} {rs : List (Word × BitVec 32)} {st : BitVec 32} {gives : Prop}

theorem pagesOf_append (rs : List (Word × BitVec 32)) (r : Word × BitVec 32) :
    pagesOf (rs ++ [r]) = pagesOf rs + r.2.toNat := by
  unfold pagesOf
  simp

theorem pagesOf_erase {r : Word × BitVec 32} (h : r ∈ rs) :
    pagesOf rs = pagesOf (rs.erase r) + r.2.toNat := by
  unfold pagesOf
  have hperm := (List.perm_cons_erase h).map fun r => r.2.toNat
  rw [hperm.sum_eq, List.map_cons, List.sum_cons, Nat.add_comm]

/-- Page counts of the heap are small enough to be positive as `int`. -/
theorem toNat_signExtend_of_small (h : st.toNat < 2 ^ 20) : (st.signExtend 64).toNat = st.toNat := by
  have hmsb : st.msb = false := by
    rw [BitVec.msb_eq_false_iff_two_mul_lt]
    omega
  rw [BitVec.signExtend_eq_setWidth_of_msb_false hmsb, toNat_setWidth64]

theorem signExtend_of_small (h : st.toNat < 2 ^ 20) :
    st.signExtend 64 = BitVec.ofNat 64 st.toNat := by
  rw [← toNat_signExtend_of_small h, BitVec.ofNat_toNat, BitVec.setWidth_eq]

theorem liballocAlloc_served (hlt : st.toNat < 2 ^ 20) (hpos : 0 < st.toNat)
    (hserved : st.toNat ≤ s.pmStackIdx.toNat) :
    liballocAlloc s st = (s.slots (s.pmStackIdx.toNat - st.toNat) + s.hhdmOffset,
      s.pop (st.signExtend 64)) ∧
    (s.pop (st.signExtend 64)).pmStackIdx.toNat = s.pmStackIdx.toNat - st.toNat := by
  have hext := toNat_signExtend_of_small hlt
  have hne : st.signExtend 64 ≠ 0 := by
    intro hzero
    rw [hzero] at hext
    change 0 = _ at hext
    omega
  have hle : st.signExtend 64 ≤ s.pmStackIdx := by
    rw [BitVec.le_def, hext]
    exact hserved
  refine ⟨?_, ?_⟩
  · rw [liballocAlloc, pmmRequestPages_satisfied hne hle]
    simp only [BitVec.toNat_sub_of_le hle, hext]
    rfl
  · rw [Pmm.toNat_pmStackIdx_pop hle, hext]

theorem Counted.request {size : ℕ} (h : Counted s₀ s rs) (hst : EnoughPages size st)
    (henough : st.toNat ≤ s.pmStackIdx.toNat)
    (hpmm : s' = { (liballocAlloc s st).2 with reports := s'.reports }) :
    Counted s₀ s' (rs ++ [((liballocAlloc s st).1, st)]) := by
  have hpos : 0 < st.toNat := by
    have := hst.room
    omega
  obtain ⟨heq, hidx⟩ := liballocAlloc_served hst.lt hpos henough
  have hext := signExtend_of_small hst.lt
  have hcount := h.idx
  rw [hpmm, heq]
  dsimp only
  constructor
  · change (s.pop _).pmStackIdx.toNat + _ = _
    rw [hidx, pagesOf_append]
    dsimp only
    omega
  · exact h.total
  · change s.pmUsedPages + _ = _
    rw [h.used, hext, pagesOf_append, BitVec.ofNat_add, BitVec.add_assoc]
  · change s.pmFreePages - _ + _ = _
    rw [hext, pagesOf_append, BitVec.ofNat_add, ← h.free, BitVec.add_comm (BitVec.ofNat 64 _),
      ← BitVec.add_assoc, BitVec.sub_add_cancel]
  · intro r hr
    rcases List.mem_append.mp hr with hr | hr
    · exact h.small r hr
    · rw [List.mem_singleton.mp hr]
      exact hst.lt

theorem Counted.release {t : Pmm} {a : Word} (h : Counted s₀ s rs)
    (hcap : s₀.pmStackIdx.toNat ≤ s₀.pmTotalPages.toNat) (hmem : (a, st) ∈ rs)
    (hfreed : pmmFreePages s a (st.signExtend 64) = .ok t)
    (hpmm : s' = { t with reports := s'.reports }) : Counted s₀ s' (rs.erase (a, st)) := by
  have hlt : st.toNat < 2 ^ 20 := h.small _ hmem
  have hext := toNat_signExtend_of_small hlt
  have hext' := signExtend_of_small hlt
  obtain ⟨ha, haligned, hpos⟩ := pmmFreePages_ok hfreed
  have hpages := pagesOf_erase hmem
  have hcount := h.idx
  dsimp only at hpages
  have hroom : s.pmStackIdx.toNat + (st.signExtend 64).toNat ≤ s.pmTotalPages.toNat := by
    rw [hext, h.total]
    omega
  rw [pmmFreePages_eq ha haligned hpos hroom] at hfreed
  cases hfreed
  have hframe := s.pushAll_frame (ticks pageSize a (st.signExtend 64).toNat)
  have hidx : (s.pushAll (ticks pageSize a (st.signExtend 64).toNat)).pmStackIdx.toNat =
      s.pmStackIdx.toNat + st.toNat := by
    have hlt := s.pmTotalPages.isLt
    rw [(Pmm.pushAll_spec (by rw [length_ticks]; omega)).2, length_ticks, hext]
  rw [hpmm]
  dsimp only
  constructor
  · change (s.pushAll _).pmStackIdx.toNat + _ = _
    rw [hidx]
    omega
  · change (s.pushAll _).pmTotalPages = _
    rw [hframe.2.2.2.1, h.total]
  · change s.pmUsedPages - _ = _
    rw [h.used, hpages, hext', BitVec.ofNat_add, ← BitVec.add_assoc, BitVec.add_sub_cancel]
  · change s.pmFreePages + _ + _ = _
    rw [← h.free, hpages, hext', BitVec.ofNat_add, BitVec.add_assoc,
      BitVec.add_comm (BitVec.ofNat 64 st.toNat)]
  · exact fun r hr => h.small r (List.mem_of_mem_erase hr)

theorem Counted.step {x y : Pmm × List (Word × BitVec 32)} (h : Counted s₀ x.1 x.2)
    (hcap : s₀.pmStackIdx.toNat ≤ s₀.pmTotalPages.toNat) (hflow : PageFlow gives x y) :
    Counted s₀ y.1 y.2 := by
  cases hflow with
  | prints hpmm =>
    rw [hpmm]
    exact ⟨h.idx, h.total, h.used, h.free, h.small⟩
  | request hst hserved hpmm => exact h.request hst hserved.enough hpmm
  | release hgives hmem hfreed hpmm => exact h.release hcap hmem hfreed hpmm

theorem Counted.run {x y : Pmm × List (Word × BitVec 32)} (h : Counted s₀ x.1 x.2)
    (hcap : s₀.pmStackIdx.toNat ≤ s₀.pmTotalPages.toNat)
    (hflow : ReflTransGen (PageFlow gives) x y) : Counted s₀ y.1 y.2 := by
  induction hflow with
  | refl => exact h
  | tail _ hstep ih => exact ih.step hcap hstep

theorem counted_start (s : Pmm) : Counted s s [] where
  idx := rfl
  total := rfl
  used := (BitVec.add_zero _).symm
  free := BitVec.add_zero _
  small _ hr := by cases hr

end Counted

theorem Serving.majors_of_none {o : Objects 64} {L : Layout} {k : Kernel} (hk : Serving o L k)
    (hnone : ∀ p, o p = none) : L.majors = [] := by
  cases hL : L.majors with
  | nil => rfl
  | cons B Bs =>
    have hB : B ∈ L.majors := by
      rw [hL]
      exact List.mem_cons_self
    obtain ⟨b, hb⟩ := List.exists_mem_of_ne_nil _ (hk.inhabited B hB)
    obtain ⟨xs, hxs, -⟩ := hk.object (List.mem_flatMap.mpr ⟨B, hB, hb⟩)
    cases (hnone _).symm.trans hxs

/-! ## Pages that last -/

/-- The pages of the pool, in the order in which `pmm_init` pushes them. -/
structure Pool (pool : List Word) (off : Word) : Prop where
  nodup : pool.Nodup
  aligned : ∀ q ∈ pool, PageAligned q
  fits : ∀ q ∈ pool, q.toNat + off.toNat + 4096 ≤ 2 ^ 64
  offset : PageAligned off
  offset_ne : off ≠ 0

/-- The stack holds the first pages of the pool, and the heap has pages further up. -/
structure Backed (pool : List Word) (off : Word) (s : Pmm) (rs : List (Word × BitVec 32)) : Prop where
  live : s.live = pool.take s.pmStackIdx.toNat
  hhdm : s.hhdmOffset = off
  above : ∀ r ∈ rs, ∃ p, r.1 = p + off ∧ ticks pageSize p r.2.toNat ⊆ pool.drop s.pmStackIdx.toNat

/-- A large request finds the pages on top of the stack consecutive. -/
def TopConsecutive (k : Kernel) (n : ℕ) : Prop := ∀ L, k.toHeap.Represents L →
  L.Full (BitVec.ofNat 64 n) → Consecutive k.pmm (requestedPages (BitVec.ofNat 64 n))

section Backed

variable {pool : List Word} {off p p' : Word} {s s' : Pmm} {rs : List (Word × BitVec 32)}
  {st : BitVec 32} {n i : ℕ}

theorem Pool.toNat_tick (hpool : Pool pool off) (hsub : ticks pageSize p n ⊆ pool) (hi : i < n) :
    (p + BitVec.ofNat 64 i * pageSize).toNat = p.toNat + i * 4096 := by
  have hpos : 0 < off.toNat := by
    rw [Nat.pos_iff_ne_zero]
    exact fun h => hpool.offset_ne (BitVec.eq_of_toNat_eq h)
  induction i with
  | zero => simp
  | succ i ih =>
    have hprev := ih (by omega)
    have hfits := hpool.fits _ (hsub (mem_ticks.mpr ⟨i, by omega, rfl⟩))
    have hnext : p + BitVec.ofNat 64 (i + 1) * pageSize =
        p + BitVec.ofNat 64 i * pageSize + pageSize := by
      rw [BitVec.ofNat_add, BitVec.add_mul, ← BitVec.add_assoc]
      simp
    have hpage : pageSize.toNat = 4096 := rfl
    rw [hnext, BitVec.toNat_add, hpage, hprev, Nat.mod_eq_of_lt (by omega)]
    omega

theorem Pool.apart (hpool : Pool pool off) (hp : ticks pageSize p n ⊆ pool)
    (hp' : ticks pageSize p' i ⊆ pool) (hn : 0 < n) (hi : 0 < i)
    (hdisjoint : List.Disjoint (ticks pageSize p n) (ticks pageSize p' i)) :
    p.toNat + n * 4096 ≤ p'.toNat ∨ p'.toNat + i * 4096 ≤ p.toNat := by
  have halign : ∀ {p : Word} {n : ℕ}, ticks pageSize p n ⊆ pool → 0 < n → p.toNat % 4096 = 0 := by
    intro p n hsub hn
    apply hpool.aligned
    apply hsub
    rw [mem_ticks]
    exact ⟨0, hn, by simp⟩
  have hmem : ∀ {p p' : Word} {n i : ℕ}, ticks pageSize p n ⊆ pool → ticks pageSize p' i ⊆ pool →
      0 < n → 0 < i → p.toNat ≤ p'.toNat → p'.toNat < p.toNat + n * 4096 →
      p' ∈ ticks pageSize p n := by
    intro p p' n i hp hp' hn hi hle hlt
    have ha := halign hp hn
    have ha' := halign hp' hi
    refine mem_ticks.mpr ⟨(p'.toNat - p.toNat) / 4096, by omega, ?_⟩
    apply BitVec.eq_of_toNat_eq
    rw [hpool.toNat_tick hp (by omega)]
    omega
  have hself : ∀ {p : Word} {n : ℕ}, 0 < n → p ∈ ticks pageSize p n :=
    fun hn => mem_ticks.mpr ⟨0, hn, by simp⟩
  by_contra hne
  rw [not_or, not_le, not_le] at hne
  rcases Nat.le_total p.toNat p'.toNat with hle | hle
  · exact hdisjoint (hmem hp hp' hn hi hle hne.1) (hself hi)
  · exact hdisjoint (hself hn) (hmem hp' hp hi hn hle hne.2)

theorem Backed.window (hb : Backed pool off s rs) (hc : Consecutive s st) (hpos : 0 < st.toNat)
    (hlt : st.toNat < 2 ^ 20) : ∃ p, (liballocAlloc s st).1 = p + off ∧
      pool.take s.pmStackIdx.toNat =
        pool.take (s.pmStackIdx.toNat - st.toNat) ++ ticks pageSize p st.toNat := by
  obtain ⟨p, hrun⟩ := hc.run
  have henough := hc.enough
  have hslot : s.slots (s.pmStackIdx.toNat - st.toNat) = p := by
    have hget : s.live[s.pmStackIdx.toNat - st.toNat]? =
        some (s.slots (s.pmStackIdx.toNat - st.toNat)) := by
      rw [Pmm.live, List.getElem?_map, List.getElem?_range (by omega)]
      rfl
    have hhead : (s.live.drop (s.pmStackIdx.toNat - st.toNat))[0]? = some p := by
      rw [hrun]
      obtain ⟨n, hn⟩ : ∃ n, st.toNat = n + 1 := ⟨st.toNat - 1, by omega⟩
      rw [hn, ticks_succ]
      rfl
    rw [List.getElem?_drop, Nat.add_zero, hget] at hhead
    exact Option.some.inj hhead
  refine ⟨p, ?_, ?_⟩
  · rw [(liballocAlloc_served hlt hpos henough).1, hslot, hb.hhdm]
  · rw [← hrun, ← hb.live]
    have hsplit := (List.take_append_drop (s.pmStackIdx.toNat - st.toNat) s.live).symm
    have htake : s.live.take (s.pmStackIdx.toNat - st.toNat) =
        pool.take (s.pmStackIdx.toNat - st.toNat) := by
      rw [hb.live, List.take_take, Nat.min_eq_left (by omega)]
    rw [htake] at hsplit
    exact hsplit

theorem Backed.fresh {L : Layout} (hpool : Pool pool off) (hb : Backed pool off s L.runs)
    (hc : Consecutive s st) {size : ℕ} (hst : EnoughPages size st) :
    L.Fresh (liballocAlloc s st).1 st := by
  have hpos : 0 < st.toNat := by
    have := hst.room
    omega
  obtain ⟨p, hp, hwindow⟩ := hb.window hc hpos hst.lt
  have hsub : ticks pageSize p st.toNat ⊆ pool.take s.pmStackIdx.toNat := by
    rw [hwindow]
    exact List.subset_append_right _ _
  have hsubpool := List.Subset.trans hsub (List.take_subset _ _)
  have hlast := hpool.fits _ (hsubpool (mem_ticks.mpr ⟨st.toNat - 1, by omega, rfl⟩))
  rw [hpool.toNat_tick hsubpool (by omega)] at hlast
  have htoNat : (p + off).toNat = p.toNat + off.toNat := by
    rw [BitVec.toNat_add, Nat.mod_eq_of_lt (by omega)]
  have hoff : 0 < off.toNat := by
    rw [Nat.pos_iff_ne_zero]
    exact fun h => hpool.offset_ne (BitVec.eq_of_toNat_eq h)
  have haligned : PageAligned p := hpool.aligned _ (hsubpool (mem_ticks.mpr ⟨0, hpos, by simp⟩))
  rw [hp]
  constructor
  · intro hzero
    rw [hzero] at htoNat
    change 0 = _ at htoNat
    omega
  · have hoffset := hpool.offset
    unfold PageAligned at haligned hoffset ⊢
    rw [htoNat]
    omega
  · rw [htoNat]
    omega
  · intro B hB
    obtain ⟨q, hq, hqsub⟩ := hb.above _ (List.mem_map.mpr ⟨B, hB, rfl⟩)
    dsimp only at hq hqsub
    have hpages : 0 < B.pages.toNat := by
      have := B.header_le
      unfold MajorBlock.start MajorBlock.stop at this
      omega
    have hqpool := List.Subset.trans hqsub (List.drop_subset _ _)
    have hqfits := hpool.fits _ (hqpool (mem_ticks.mpr ⟨0, hpages, rfl⟩))
    have hqNat : (q + off).toNat = q.toNat + off.toNat := by
      simp only [BitVec.zero_mul, BitVec.add_zero] at hqfits
      rw [BitVec.toNat_add, Nat.mod_eq_of_lt (by omega)]
    have hdisjoint : List.Disjoint (ticks pageSize p st.toNat) (ticks pageSize q B.pages.toNat) := by
      have hnodup := hpool.nodup
      rw [← List.take_append_drop s.pmStackIdx.toNat pool] at hnodup
      intro x hx hx'
      exact (List.nodup_append'.mp hnodup).2.2 (hsub hx) (hqsub hx')
    have hapart := hpool.apart hsubpool hqpool hpos hpages hdisjoint
    unfold MajorBlock.start MajorBlock.stop
    rw [hq, hqNat, htoNat]
    omega

theorem Backed.consecutive (hb : Backed (ticks pageSize p n) off s rs)
    (hst : st.toNat ≤ s.pmStackIdx.toNat) : Consecutive s st := by
  have hle : s.pmStackIdx.toNat ≤ n := by
    have hlen := congrArg List.length hb.live
    rw [s.length_live, List.length_take, length_ticks] at hlen
    omega
  obtain ⟨i, hi⟩ := Nat.exists_eq_add_of_le' hst
  obtain ⟨j, hj⟩ := Nat.exists_eq_add_of_le hle
  refine ⟨hst, p + BitVec.ofNat 64 i * pageSize, ?_⟩
  rw [hb.live, hj, ticks_add, List.take_left' (length_ticks _ _ _), hi, ticks_add,
    Nat.add_sub_cancel, List.drop_left' (length_ticks _ _ _)]

theorem Backed.le_length (hb : Backed pool off s rs) : s.pmStackIdx.toNat ≤ pool.length := by
  have hlen := congrArg List.length hb.live
  rw [s.length_live, List.length_take] at hlen
  omega

/-- While no pages are given back, the heap's pages are those the stack has lost. -/
theorem Backed.step {x y : Pmm × List (Word × BitVec 32)} (hb : Backed pool off x.1 x.2)
    (hflow : PageFlow False x y) : Backed pool off y.1 y.2 := by
  cases hflow with
  | release hgives => exact hgives.elim
  | prints hpmm =>
    rw [hpmm]
    exact ⟨hb.live, hb.hhdm, hb.above⟩
  | @request s s' rs st size hst hserved hpmm =>
    have hpos : 0 < st.toNat := by
      have := hst.room
      omega
    have henough := hserved.enough
    obtain ⟨p, hp, hwindow⟩ := hb.window hserved hpos hst.lt
    obtain ⟨heq, hidx⟩ := liballocAlloc_served hst.lt hpos henough
    have hle := hb.le_length
    have hlive := hb.live
    dsimp only at hp hwindow hidx hle hlive
    have hdrop : pool.drop (s.pmStackIdx.toNat - st.toNat) =
        ticks pageSize p st.toNat ++ pool.drop s.pmStackIdx.toNat := by
      have hpool : pool = pool.take (s.pmStackIdx.toNat - st.toNat) ++
          (ticks pageSize p st.toNat ++ pool.drop s.pmStackIdx.toNat) := by
        rw [← List.append_assoc, ← hwindow, List.take_append_drop]
      have hlen : (pool.take (s.pmStackIdx.toNat - st.toNat)).length =
          s.pmStackIdx.toNat - st.toNat := by
        rw [List.length_take]
        omega
      calc pool.drop (s.pmStackIdx.toNat - st.toNat)
        _ = (pool.take (s.pmStackIdx.toNat - st.toNat) ++ (ticks pageSize p st.toNat ++
            pool.drop s.pmStackIdx.toNat)).drop (s.pmStackIdx.toNat - st.toNat) := by rw [← hpool]
        _ = _ := List.drop_left' hlen
    have hidx' : (liballocAlloc s st).2.pmStackIdx.toNat = s.pmStackIdx.toNat - st.toNat := by
      rw [heq]
      exact hidx
    rw [hpmm]
    constructor
    · change (List.range (liballocAlloc s st).2.pmStackIdx.toNat).map (liballocAlloc s st).2.slots = _
      have hslots : (liballocAlloc s st).2.slots = s.slots := by rw [heq]; rfl
      have htake : s.live.take (s.pmStackIdx.toNat - st.toNat) =
          (List.range (s.pmStackIdx.toNat - st.toNat)).map s.slots := by
        rw [Pmm.live, ← List.map_take, List.take_range, Nat.min_eq_left (by omega)]
      change _ = pool.take (liballocAlloc s st).2.pmStackIdx.toNat
      rw [hidx', hslots, ← htake, hlive, List.take_take, Nat.min_eq_left (by omega)]
    · change (liballocAlloc s st).2.hhdmOffset = off
      rw [heq]
      exact hb.hhdm
    · intro r hr
      change ∃ p, r.1 = p + off ∧ ticks pageSize p r.2.toNat ⊆
        pool.drop (liballocAlloc s st).2.pmStackIdx.toNat
      rw [hidx', hdrop]
      rcases List.mem_append.mp hr with hr | hr
      · obtain ⟨q, hq, hsub⟩ := hb.above r hr
        exact ⟨q, hq, List.Subset.trans hsub (List.subset_append_right _ _)⟩
      · rw [List.mem_singleton.mp hr]
        exact ⟨p, hp, List.subset_append_left _ _⟩

theorem Backed.run {x y : Pmm × List (Word × BitVec 32)} (hb : Backed pool off x.1 x.2)
    (hflow : ReflTransGen (PageFlow False) x y) : Backed pool off y.1 y.2 := by
  induction hflow with
  | refl => exact hb
  | tail _ hstep ih => exact ih.step hstep

theorem backed_of_pmmInit {entries : List MemmapEntry} (hv : UsableMemmap entries)
    (hinit : pmmInit (some entries) off Pmm.boot = (0, s)) (hoff : PageAligned off)
    (hfits : ∀ q ∈ usablePages entries, q.toNat + off.toNat + 4096 ≤ 2 ^ 64) :
    Pool s.live off ∧ Backed s.live off s [] := by
  have hpost := initPost_of_pmmInit hv hinit
  obtain ⟨rest, hperm⟩ := hpost.exists_perm hv
  have hnodup := hperm.nodup_iff.mp hv.nodup
  have hmem : ∀ q ∈ s.live, q ∈ usablePages entries :=
    fun q hq => hperm.mem_iff.mpr (List.mem_append_left _ hq)
  refine ⟨⟨(List.nodup_append'.mp hnodup).1, fun q hq => hv.pageAligned (hmem q hq),
    fun q hq => hfits q (hmem q hq), hoff, ?_⟩, ?_, hpost.hhdm, fun r hr => by cases hr⟩
  · rintro rfl
    simp [pmmInit] at hinit
  · rw [List.take_of_length_le (by rw [s.length_live])]

end Backed

section BackedRuns

variable {npf : Formatter} {pool : List Word} {off : Word} {o : Objects 64} {L : Layout}
  {k k' u : Kernel} {e : ObjectEvent 64} {ts : List (Transition Kernel (ObjectEvent 64))}

theorem Serving.pagesLast {n : ℕ} (hpool : Pool pool off) (hk : Serving o L k)
    (hb : Backed pool off k.pmm L.runs) (hn : n ≤ 2 ^ 32 - 4208) (htop : TopConsecutive k n) :
    PagesLast k n := by
  intro L' hrep hfull
  obtain rfl := hk.represents.unique hrep
  have hc := htop L hrep hfull
  have hsmall : SmallRequest (BitVec.ofNat 64 n) := by
    unfold SmallRequest
    rw [BitVec.toNat_ofNat, Nat.mod_eq_of_lt (by omega)]
    exact hn
  exact ⟨hb.fresh hpool hc hsmall.inRange.enoughPages, hc⟩

theorem Serving.provided (hpool : Pool pool off) (hk : Serving o L k)
    (hb : Backed pool off k.pmm L.runs) (h : Provided TopConsecutive k e) :
    Provided PagesLast k e := by
  cases e with
  | malloc n p => exact ⟨h.1, hk.pagesLast hpool hb h.1 h.2⟩
  | calloc n p =>
    have hn := h.1
    exact ⟨hn, hk.pagesLast hpool hb (by omega) h.2⟩
  | realloc p n q => exact Or.imp id (Or.imp id fun h => ⟨h.1, hk.pagesLast hpool hb h.1 h.2⟩) h
  | free p => exact trivial
  | write p i c => exact trivial
  | read p i c => exact trivial

/-- The induction is on the run; what backs the heap is handed on with the objects. -/
theorem Serving.run_provided (hpool : Pool pool off) (hrun : Run (HeapStep npf) k ts u)
    (hk : Serving o L k) (hb : Backed pool off k.pmm L.runs) (hobey : o.Obeys (events ts))
    (htop : ∀ t ∈ ts, Provided TopConsecutive t.pre t.act)
    (hkeep : ∀ t ∈ ts, ¬ Releases t.pre t.act) : ∀ t ∈ ts, Provided PagesLast t.pre t.act := by
  induction hrun generalizing o L with
  | nil k => simp
  | @cons k t u e ts hstep hrun ih =>
    have hprov := hk.provided hpool hb (htop _ List.mem_cons_self)
    obtain ⟨L₁, hserving, hflow⟩ := (hk.step hobey.1 hprov hstep).serving
    have hflow : ReflTransGen (PageFlow False) (k.pmm, L.runs) (t.pmm, L₁.runs) :=
      ReflTransGen.mono (fun _ _ h => h.imp (hkeep _ List.mem_cons_self)) _ _ hflow
    have hrest := ih hserving (hb.run hflow) hobey.2
      (fun t ht => htop t (List.mem_cons_of_mem _ ht))
      (fun t ht => hkeep t (List.mem_cons_of_mem _ ht))
    intro x hx
    rcases List.mem_cons.mp hx with rfl | hx
    · exact hprov
    · exact hrest x hx

end BackedRuns

end Olive
