import Olive.Heap.Exhaustion
import Olive.Heap.Install
import Olive.Heap.Edits

/-!
# The search of `kmalloc`

The tests of cases 1 to 4 are exact: a major block is left only if none of its gaps is
large enough, and a place is taken only where the new block fits. The loop visits every
major block before it asks for another one, also when it starts behind the first one.
-/

namespace Olive

open Library Memory

/-- There is room for `need` bytes between the parts `xs` and `ys` of the minor blocks. -/
structure MajorBlock.Fits (B : MajorBlock) (need : ℕ) (xs ys : List MinorBlock) : Prop where
  split : B.minors = xs ++ ys
  room : endOf MinorBlock.stop (B.start + 40) xs + need ≤ startOf MinorBlock.start ys B.stop

def MajorBlock.HasGap (B : MajorBlock) (need : ℕ) : Prop := ∃ xs ys, B.Fits need xs ys

def MajorBlock.free (B : MajorBlock) : ℕ := B.stop - B.start - B.used

section FindPlace

variable {m : Memory 64} {B : MajorBlock} {xs ys : List MinorBlock} {c : MinorBlock} {size : Word}
  {need fuel : ℕ}

theorem MajorBlock.Fits.le_free (h : B.Fits need xs ys) : need ≤ B.free := by
  have hgap := B.packed
  rw [h.split] at hgap
  have hle := hgap.gap_le
  have hroom := h.room
  have hused := B.used_le
  have hlen : (B.minors.map fun b => b.stop - b.start) = B.minors.map fun b => 40 + b.size.toNat := by
    apply List.map_congr_left
    intro b _
    unfold MinorBlock.stop MinorBlock.start
    omega
  rw [← h.split, hlen] at hle
  unfold MajorBlock.free MajorBlock.used at *
  unfold MajorBlock.start MajorBlock.stop at *
  omega

theorem minor_addr_ne_zero (hc : c ∈ B.minors) : c.addr ≠ 0 := by
  intro h
  have hlo := (MajorBlock.minor_bounds hc).1
  unfold MinorBlock.start at hlo
  rw [h] at hlo
  change _ ≤ 0 at hlo
  omega

theorem next_eq_zero_iff (hB : B.Stored m) (hsplit : B.minors = xs ++ c :: ys) :
    m.load64 (minNext c.addr) = (ys.map MinorBlock.addr).headD 0 ∧
      (m.load64 (minNext c.addr) = 0 ↔ ys = []) := by
  have hlinked := hB.linked
  rw [hsplit, List.map_append, List.map_cons] at hlinked
  have hnext : m.load64 (minNext c.addr) = (ys.map MinorBlock.addr).headD 0 :=
    hlinked.neighbours.2
  refine ⟨hnext, ?_⟩
  rw [hnext]
  cases ys with
  | nil => simp
  | cons d ys =>
    have hne : d.addr ≠ 0 := minor_addr_ne_zero (B := B) (by rw [hsplit]; simp)
    simpa using hne

theorem toNat_setWidth64 (s : BitVec 32) : (s.setWidth 64).toNat = s.toNat := by
  rw [BitVec.toNat_setWidth, Nat.mod_eq_of_lt (by have := s.isLt; omega)]

theorem toNat_majSize (hB : B.Stored m) : (loadUInt m (majSize B.addr)).toNat = B.stop - B.start := by
  have hsize : m.load32 (majSize B.addr) = B.pages * lPageSize := hB.size
  have hpages := B.pages_lt
  rw [loadUInt, hsize, toNat_setWidth64, BitVec.toNat_mul, show lPageSize.toNat = 4096 from rfl,
    Nat.mod_eq_of_lt (by omega)]
  unfold MajorBlock.start MajorBlock.stop
  omega

theorem toNat_sub_block {e a : Word} {s : BitVec 32} {hi : ℕ} (he : e.toNat = hi % 2 ^ 64)
    (hle : a.toNat + 40 + s.toNat ≤ hi) (hhi : hi ≤ 2 ^ 64) :
    (e - a - sizeofMinor - s.setWidth 64).toNat = hi - (a.toNat + 40 + s.toNat) := by
  have hs := toNat_setWidth64 s
  generalize s.setWidth 64 = t at hs ⊢
  rw [sizeofMinor]
  bv_omega

/-- The room behind a minor block, as case 4 computes it. -/
theorem toNat_room (hB : B.Stored m) (hsplit : B.minors = xs ++ c :: ys) :
    ((if m.load64 (minNext c.addr) = 0 then B.addr + loadUInt m (majSize B.addr)
      else m.load64 (minNext c.addr)) - c.addr - sizeofMinor - loadUInt m (minSize c.addr)).toNat =
      startOf MinorBlock.start ys B.stop - c.stop := by
  have hc : c ∈ B.minors := by rw [hsplit]; simp
  obtain ⟨hnext, hzero⟩ := next_eq_zero_iff hB hsplit
  have hcsize : loadUInt m (minSize c.addr) = c.size.setWidth 64 :=
    congrArg (BitVec.setWidth 64) (hB.minors c hc).size
  have hend : c.stop ≤ startOf MinorBlock.start ys B.stop := by
    have hpacked := B.packed
    rw [hsplit] at hpacked
    have := (packed_append.mp hpacked).2.2.2
    cases ys with
    | nil => exact this
    | cons d ys => exact this.1
  rw [hcsize]
  cases ys with
  | nil =>
    have hmaj : (B.addr + loadUInt m (majSize B.addr)).toNat = B.stop % 2 ^ 64 := by
      have hle := B.header_le
      rw [BitVec.toNat_add, toNat_majSize hB]
      unfold MajorBlock.start MajorBlock.stop at *
      congr 1
      omega
    rw [if_pos (hzero.mpr rfl)]
    exact toNat_sub_block hmaj hend B.stop_le
  | cons d ys =>
    have hd : d ∈ B.minors := by rw [hsplit]; simp
    have hdstop := MajorBlock.minor_stop_le hd
    have hdsize := d.start_lt_stop
    rw [if_neg (by rw [hzero]; simp), hnext]
    apply toNat_sub_block _ hend
    · rw [startOf_cons]
      omega
    · rw [startOf_cons, Nat.mod_eq_of_lt (by omega)]
      rfl

theorem placeAt_concat (xs : List MinorBlock) (c : MinorBlock) (ys : List MinorBlock) :
    placeAt (xs ++ [c]) ys = if ys = [] then .last c.addr else .gap c.addr := by
  unfold placeAt
  rw [List.getLast?_concat]
  cases ys with
  | nil => rfl
  | cons d ys => rfl

theorem fits_concat_iff (hsplit : B.minors = xs ++ c :: ys) :
    B.Fits need (xs ++ [c]) ys ↔ c.stop + need ≤ startOf MinorBlock.start ys B.stop := by
  constructor
  · intro h
    have hroom := h.room
    rwa [endOf_concat] at hroom
  · intro h
    refine ⟨by rw [hsplit]; simp, ?_⟩
    rwa [endOf_concat]

theorem length_le_of_not_fits {zs ws : List MinorBlock} (hsplit : B.minors = xs ++ c :: ys)
    (hno : ¬ B.Fits need (xs ++ [c]) ys) (h : B.Fits need zs ws) (hle : zs.length ≤ xs.length + 1) :
    zs.length ≤ xs.length := by
  by_contra hlt
  have hsplit' : zs ++ ws = (xs ++ [c]) ++ ys := by rw [← h.split, hsplit]; simp
  have hlen : zs.length = (xs ++ [c]).length := by rw [List.length_append, List.length_singleton]; omega
  obtain ⟨rfl, rfl⟩ := List.append_inj hsplit' hlen
  exact hno h

theorem toNat_need (hneed : size.toNat + 40 < 2 ^ 64) :
    (size + sizeofMinor).toNat = size.toNat + 40 := by
  rw [BitVec.toNat_add, Nat.mod_eq_of_lt]
  · rfl
  · exact hneed

theorem findMinor_succ (hB : B.Stored m) (hneed : size.toNat + 40 < 2 ^ 64)
    (hsplit : B.minors = xs ++ c :: ys) :
    findMinor size B.addr m (fuel + 1) c.addr =
      if c.stop + (size.toNat + 40) ≤ startOf MinorBlock.start ys B.stop
      then .ok (some (placeAt (xs ++ [c]) ys))
      else findMinor size B.addr m fuel ((ys.map MinorBlock.addr).headD 0) := by
  have hc : c ∈ B.minors := by rw [hsplit]; simp
  obtain ⟨hnext, hzero⟩ := next_eq_zero_iff hB hsplit
  have hroom := toNat_room hB hsplit
  have hle : size + sizeofMinor ≤ (if m.load64 (minNext c.addr) = 0
        then B.addr + loadUInt m (majSize B.addr) else m.load64 (minNext c.addr)) - c.addr -
        sizeofMinor - loadUInt m (minSize c.addr) ↔
      c.stop + (size.toNat + 40) ≤ startOf MinorBlock.start ys B.stop := by
    rw [BitVec.le_def, hroom, toNat_need hneed]
    omega
  rw [findMinor, if_neg (minor_addr_ne_zero hc), placeAt_concat]
  dsimp only
  rw [if_congr hle rfl rfl, if_congr hzero rfl rfl, hnext]

/-- Case 4 finds the first cut behind `xs` with enough room, if there is one. The induction
is on the blocks that are left. -/
theorem findMinor_spec (hB : B.Stored m) (hneed : size.toNat + 40 < 2 ^ 64)
    (hsplit : B.minors = xs ++ c :: ys) (hfuel : ys.length + 1 < fuel) :
    (∃ zs ws, findMinor size B.addr m fuel c.addr = .ok (some (placeAt zs ws)) ∧
      B.Fits (size.toNat + 40) zs ws) ∨
    (findMinor size B.addr m fuel c.addr = .ok none ∧
      ∀ zs ws, B.Fits (size.toNat + 40) zs ws → zs.length ≤ xs.length) := by
  induction ys generalizing xs c fuel with
  | nil =>
    obtain ⟨fuel, rfl⟩ : ∃ k, fuel = k + 2 := ⟨fuel - 2, by simp at hfuel; omega⟩
    rw [findMinor_succ hB hneed hsplit]
    split_ifs with hroom
    · exact Or.inl ⟨_, _, rfl, (fits_concat_iff hsplit).mpr hroom⟩
    · refine Or.inr ⟨by simp [findMinor], fun zs ws h => ?_⟩
      apply length_le_of_not_fits hsplit (fun hfits => hroom ((fits_concat_iff hsplit).mp hfits)) h
      have hlen := congrArg List.length (h.split.symm.trans hsplit)
      simp only [List.length_append, List.length_cons, List.length_nil] at hlen
      omega
  | cons d ys ih =>
    obtain ⟨fuel, rfl⟩ : ∃ k, fuel = k + 1 := ⟨fuel - 1, by omega⟩
    have hsplit' : B.minors = (xs ++ [c]) ++ d :: ys := by rw [hsplit]; simp
    rw [findMinor_succ hB hneed hsplit]
    split_ifs with hroom
    · exact Or.inl ⟨_, _, rfl, (fits_concat_iff hsplit).mpr hroom⟩
    · rcases ih hsplit' (by simp at hfuel; omega) with hfound | ⟨hnone, hall⟩
      · exact Or.inl hfound
      · refine Or.inr ⟨hnone, fun zs ws h => ?_⟩
        apply length_le_of_not_fits hsplit (fun hfits => hroom ((fits_concat_iff hsplit).mp hfits)) h
        simpa using hall zs ws h

variable (fuel) in
/-- Cases 2 to 4 find a place exactly if the block has a gap; in an empty block they do not
look for one. -/
theorem findPlace_spec (hB : B.Stored m) (hneed : size.toNat + 40 < 2 ^ 64)
    (hempty : B.minors = [] → size.toNat + 40 ≤ B.free) (hfuel : B.minors.length < fuel) :
    (∃ xs ys, findPlace size B.addr m fuel = .ok (some (placeAt xs ys)) ∧
      B.Fits (size.toNat + 40) xs ys) ∨
    (findPlace size B.addr m fuel = .ok none ∧ ¬ B.HasGap (size.toNat + 40)) := by
  have hfirst : m.load64 (majFirst B.addr) = (B.minors.map MinorBlock.addr).headD 0 := hB.first
  have hused := B.used_le
  have hhead := B.header_le
  unfold findPlace
  rw [hfirst]
  cases hminors : B.minors with
  | nil =>
    refine Or.inl ⟨[], [], by simp [placeAt], by rw [hminors]; rfl, ?_⟩
    have hfree := hempty hminors
    unfold MajorBlock.free MajorBlock.used at hfree
    rw [hminors] at hfree
    rw [endOf_nil, startOf_nil]
    simp only [List.map_nil, List.sum_nil] at hfree
    omega
  | cons c ys =>
    have hc : c ∈ B.minors := by rw [hminors]; simp
    have hne := minor_addr_ne_zero hc
    obtain ⟨hlo, hhi⟩ := MajorBlock.minor_bounds hc
    have hcsize := c.start_lt_stop
    have hstop := B.stop_le
    have hroom : (c.addr - B.addr - sizeofMajor).toNat = c.start - (B.start + 40) := by
      unfold MinorBlock.start MajorBlock.start at *
      rw [sizeofMajor]
      bv_omega
    have hle : size + sizeofMinor ≤ c.addr - B.addr - sizeofMajor ↔
        B.start + 40 + (size.toNat + 40) ≤ c.start := by
      rw [BitVec.le_def, hroom, toNat_need hneed]
      omega
    rw [List.map_cons, List.headD_cons, if_neg hne, if_congr hle rfl rfl]
    split_ifs with hfront
    · exact Or.inl ⟨[], c :: ys, rfl, hminors, hfront⟩
    · rcases findMinor_spec hB hneed (show B.minors = [] ++ _ from hminors)
          (by rw [hminors] at hfuel; simpa using hfuel) with hfound | ⟨hnone, hall⟩
      · exact Or.inl hfound
      · refine Or.inr ⟨hnone, ?_⟩
        rintro ⟨xs, zs, h⟩
        have hxs := List.eq_nil_of_length_eq_zero (Nat.le_zero.mp (hall xs zs h))
        subst hxs
        have hsplit := h.split.symm.trans hminors
        rw [List.nil_append] at hsplit
        subst hsplit
        exact hfront h.room

end FindPlace

/-! ## Visiting the major blocks -/

section Visit

variable {size reqSize : Word} {c c' c'' : Cursor} {j k : ℕ}

theorem Reaches.trans (h : Reaches size reqSize c j c') (h' : Reaches size reqSize c' k c'') :
    Reaches size reqSize c (j + k) c'' := by
  induction h with
  | refl => rwa [Nat.zero_add]
  | continues hstep _ ih => exact .continues hstep (ih h')
  | attaches hstep hattach _ ih =>
    rw [Nat.add_right_comm]
    exact .attaches hstep hattach (ih h')

theorem toNat_majFree {m : Memory 64} {B : MajorBlock} (hB : B.Stored m) :
    (majFree m B.addr).toNat = B.free := by
  have hsize : m.load32 (majSize B.addr) = B.pages * lPageSize := hB.size
  have husage : m.load32 (majUsage B.addr) = BitVec.ofNat 32 B.used := hB.usage
  have hpages := B.pages_lt
  have hused := B.used_le
  have hfree : B.free = B.pages.toNat * 4096 - B.used := by
    unfold MajorBlock.free MajorBlock.stop MajorBlock.start
    omega
  have hle : B.used ≤ B.pages.toNat * 4096 := by
    unfold MajorBlock.stop MajorBlock.start at hused
    omega
  have hprod : (B.pages * lPageSize).toNat = B.pages.toNat * 4096 := by
    rw [BitVec.toNat_mul, show lPageSize.toNat = 4096 from rfl, Nat.mod_eq_of_lt (by omega)]
  rw [majFree, toNat_setWidth64, hsize, husage, hfree, BitVec.toNat_sub_of_le, hprod,
    BitVec.toNat_ofNat, Nat.mod_eq_of_lt (by omega)]
  rw [BitVec.le_def, hprod, BitVec.toNat_ofNat, Nat.mod_eq_of_lt (by omega)]
  exact hle

theorem Heap.Represents.of_same {h h' : Heap} {L : Layout} (hrep : h.Represents L)
    (hmem : h'.mem = h.mem) (hroot : h'.memRoot = h.memRoot)
    (hbest : h'.bestBet = 0 ∨ h'.bestBet ∈ L.addrs) (hinuse : h'.inuse = h.inuse)
    (halloc : h'.allocated = h.allocated) : h'.Represents L := by
  constructor
  · rw [hroot, hrep.root]
  · rw [hmem]
    exact hrep.linked
  · exact hbest
  · rw [hmem]
    exact hrep.stored
  · rw [hinuse, hrep.inuse]
  · rw [halloc, hrep.allocated]

/-- The search changes nothing of the heap but the hint where to start. -/
theorem Heap.Represents.of_sameHeap {h h' : Heap} {L : Layout} (hrep : h.Represents L)
    (hsame : SameHeap h h') (hbest : h'.bestBet = 0 ∨ h'.bestBet ∈ L.addrs) : h'.Represents L :=
  hrep.of_same hsame.mem hsame.memRoot hbest hsame.inuse hsame.allocated

/-- The loop is at a major block of the layout, before it has looked at it. -/
structure Cursor.At (c : Cursor) (L : Layout) (B : MajorBlock) : Prop where
  pc : c.pc = .head
  maj : c.maj = B.addr
  mem : B ∈ L.majors
  represents : c.heap.Represents L

variable {L : Layout} {B : MajorBlock}

theorem noteBest_represents (hat : c.At L B) (diff : Word) :
    (noteBest diff c).heap.Represents L ∧ (noteBest diff c).maj = B.addr ∧
      (noteBest diff c).startedBet = c.startedBet := by
  have hsame := noteBest_sameHeap diff c
  have hrep := hat.represents
  unfold noteBest at hsame ⊢
  split_ifs at hsame ⊢
  · refine ⟨hrep.of_sameHeap hsame (Or.inr ?_), hat.maj, rfl⟩
    change c.maj ∈ L.addrs
    rw [hat.maj]
    exact List.mem_map_of_mem hat.mem
  · exact ⟨hrep, hat.maj, rfl⟩

/-- The loop puts the new block into a gap of `B`. -/
structure Finds (size reqSize : Word) (L : Layout) (c : Cursor) (c' : Cursor) (B : MajorBlock)
    (xs ys : List MinorBlock) : Prop where
  reach : Reaches size reqSize c 0 c'
  mem : B ∈ L.majors
  fits : B.Fits (size.toNat + 40) xs ys
  represents : c'.heap.Represents L
  step : ∃ fuel, kmallocStep size reqSize fuel c' =
    .ok (.returns (install size reqSize B.addr (placeAt xs ys) c'.heap).1
      (install size reqSize B.addr (placeAt xs ys) c'.heap).2)

/-- The loop leaves `B`, which has no gap, and goes on with what `leaveMajor` says. -/
structure Leaves (size reqSize : Word) (L : Layout) (c c' c'' : Cursor) (B : MajorBlock) (pc : Pc) :
    Prop where
  reach : Reaches size reqSize c 0 c'
  full : ¬ B.HasGap (size.toNat + 40)
  step : ∃ fuel, kmallocStep size reqSize fuel c' = .ok (leaveMajor c'' pc)
  maj : c''.maj = B.addr
  startedBet : c''.startedBet = c.startedBet
  represents : c''.heap.Represents L

variable (reqSize) in
theorem Cursor.At.visit (hat : c.At L B) (hneed : size.toNat + 40 < 2 ^ 64) :
    (∃ c' xs ys, Finds size reqSize L c c' B xs ys) ∨
      ∃ c' c'' pc, Leaves size reqSize L c c' c'' B pc := by
  have hstored := hat.represents.stored B hat.mem
  have hdiff := toNat_majFree hstored
  obtain ⟨hrep, hmaj, hbet⟩ := noteBest_represents hat (majFree c.heap.mem c.maj)
  have hhead : ∀ fuel, kmallocStep size reqSize fuel c = .ok
      (if majFree c.heap.mem B.addr < size + sizeofMinor
        then leaveMajor (noteBest (majFree c.heap.mem c.maj) c) .place
        else .continues { noteBest (majFree c.heap.mem c.maj) c with pc := .place }) := by
    intro fuel
    simp only [kmallocStep, hat.pc, headStep, hat.maj, if_neg B.addr_ne]
  generalize noteBest (majFree c.heap.mem c.maj) c = c₁ at hrep hmaj hbet hhead
  have hlt : majFree c.heap.mem B.addr < size + sizeofMinor ↔ B.free < size.toNat + 40 := by
    rw [BitVec.lt_def, hdiff, toNat_need hneed]
  by_cases hfree : B.free < size.toNat + 40
  · -- case 1: the sizes alone say that there is no room
    refine Or.inr ⟨c, c₁, .place, .refl c, ?_, ⟨0, ?_⟩, hmaj, hbet, hrep⟩
    · rintro ⟨xs, ys, hfits⟩
      have := hfits.le_free
      omega
    · rw [hhead, if_pos (hlt.mpr hfree)]
  · have hcont : Reaches size reqSize c 0 { c₁ with pc := .place } := by
      refine @Reaches.continues _ _ _ _ _ _ 0 ?_ (.refl _)
      rw [hhead, if_neg (by rwa [hlt])]
    have hstored₁ := hrep.stored B hat.mem
    rcases findPlace_spec (B.minors.length + 1) hstored₁ hneed
        (fun _ => Nat.le_of_not_lt hfree) (Nat.lt_succ_self _) with
      ⟨xs, ys, hfind, hfits⟩ | ⟨hfind, hfull⟩
    · refine Or.inl ⟨_, xs, ys, hcont, hat.mem, hfits, hrep, B.minors.length + 1, ?_⟩
      simp only [kmallocStep, placeStep, hmaj, hfind]
      rfl
    · refine Or.inr ⟨_, { c₁ with pc := .place }, .head, hcont, hfull, ⟨B.minors.length + 1, ?_⟩,
        hmaj, hbet, hrep⟩
      simp only [kmallocStep, placeStep, hmaj, hfind]
      rfl

/-- How the search ends if the loop starts at `c`: with a place in some major block, or
behind the last one, after it has seen that no block of the layout has room. -/
inductive Searched (size reqSize : Word) (L : Layout) (c : Cursor) : Prop
  | found {c' : Cursor} {B : MajorBlock} {xs ys : List MinorBlock}
      (h : Finds size reqSize L c c' B xs ys)
  | full {c' c'' : Cursor} {B : MajorBlock} {pc : Pc} {fuel : ℕ}
      (reach : Reaches size reqSize c 0 c')
      (hfull : ∀ C ∈ L.majors, ¬ C.HasGap (size.toNat + 40))
      (hstep : kmallocStep size reqSize fuel c' = .ok (.needsBlock c'' pc))
      (hmaj : c''.maj = B.addr) (hlast : L.majors.getLast? = some B)
      (hrep : c''.heap.Represents L)

theorem Searched.of_reaches (hreach : Reaches size reqSize c 0 c')
    (h : Searched size reqSize L c') : Searched size reqSize L c := by
  cases h with
  | found h => exact .found ⟨hreach.trans h.reach, h.mem, h.fits, h.represents, h.step⟩
  | full hreach' hfull hstep hmaj hlast hrep =>
    exact .full (hreach.trans hreach') hfull hstep hmaj hlast hrep

theorem Leaves.next {Bs Cs : List MajorBlock} {C : MajorBlock} {pc : Pc}
    (h : Leaves size reqSize L c c' c'' B pc) (hL : L.majors = Bs ++ B :: C :: Cs) :
    ∃ d : Cursor, Reaches size reqSize c 0 d ∧ d.At L C ∧ d.startedBet = c.startedBet := by
  obtain ⟨fuel, hstep⟩ := h.step
  obtain ⟨hnext, -⟩ := h.represents.next hL
  have hC : C ∈ L.majors := by rw [hL]; simp
  rw [leaveMajor, h.maj, hnext] at hstep
  simp only [List.map_cons, List.headD_cons, ne_eq, C.addr_ne, not_false_eq_true, if_true] at hstep
  refine ⟨_, h.reach.trans (.continues hstep (.refl _)), ⟨rfl, rfl, hC, h.represents⟩, h.startedBet⟩

theorem Leaves.last {Bs : List MajorBlock} {pc : Pc}
    (h : Leaves size reqSize L c c' c'' B pc) (hL : L.majors = Bs ++ [B]) :
    leaveMajor c'' pc = if c.startedBet then
      .continues { c'' with pc := .head, maj := c''.heap.memRoot, startedBet := false }
      else .needsBlock c'' pc := by
  have hzero := (h.represents.next hL).2.mpr rfl
  rw [leaveMajor, h.maj, hzero, h.startedBet]
  simp

/-- A search that has started at the first block. The induction is on the blocks that
are left; those in front have no room. -/
theorem searched_rest {Bs Cs : List MajorBlock} (hneed : size.toNat + 40 < 2 ^ 64)
    (hL : L.majors = Bs ++ B :: Cs) (hbefore : ∀ C ∈ Bs, ¬ C.HasGap (size.toNat + 40))
    (hat : c.At L B) (hbet : c.startedBet = false) : Searched size reqSize L c := by
  induction Cs generalizing Bs B c with
  | nil =>
    rcases hat.visit reqSize hneed with ⟨c', xs, ys, hfinds⟩ | ⟨c', c'', pc, hleaves⟩
    · exact .found hfinds
    · obtain ⟨fuel, hstep⟩ := hleaves.step
      rw [hleaves.last hL, hbet] at hstep
      refine .full hleaves.reach ?_ hstep hleaves.maj (by rw [hL]; simp) hleaves.represents
      intro C hC
      rw [hL, List.mem_append, List.mem_singleton] at hC
      rcases hC with hC | rfl
      · exact hbefore C hC
      · exact hleaves.full
  | cons C Cs ih =>
    rcases hat.visit reqSize hneed with ⟨c', xs, ys, hfinds⟩ | ⟨c', c'', pc, hleaves⟩
    · exact .found hfinds
    · obtain ⟨d, hreach, hatC, hbetd⟩ := hleaves.next hL
      apply Searched.of_reaches hreach
      refine @ih _ _ (Bs ++ [B]) ?_ ?_ hatC (hbetd.trans hbet)
      · rw [hL]
        simp
      · intro D hD
        rw [List.mem_append, List.mem_singleton] at hD
        rcases hD with hD | rfl
        · exact hbefore D hD
        · exact hleaves.full

theorem searched_root (hneed : size.toNat + 40 < 2 ^ 64) (hmajors : L.majors ≠ [])
    (hpc : c.pc = .head) (hmaj : c.maj = c.heap.memRoot) (hrep : c.heap.Represents L)
    (hbet : c.startedBet = false) : Searched size reqSize L c := by
  obtain ⟨B, Bs, hL⟩ := List.exists_cons_of_ne_nil hmajors
  refine @searched_rest _ _ _ _ _ [] _ hneed hL (by simp) ?_ hbet
  refine ⟨hpc, ?_, by rw [hL]; simp, hrep⟩
  rw [hmaj, hrep.root, Layout.addrs, hL]
  rfl

theorem searched_bet {Bs Cs : List MajorBlock} (hneed : size.toNat + 40 < 2 ^ 64)
    (hL : L.majors = Bs ++ B :: Cs) (hat : c.At L B) (hbet : c.startedBet = true) :
    Searched size reqSize L c := by
  induction Cs generalizing Bs B c with
  | nil =>
    rcases hat.visit reqSize hneed with ⟨c', xs, ys, hfinds⟩ | ⟨c', c'', pc, hleaves⟩
    · exact .found hfinds
    · obtain ⟨fuel, hstep⟩ := hleaves.step
      rw [hleaves.last hL, hbet] at hstep
      apply Searched.of_reaches (hleaves.reach.trans (.continues hstep (.refl _)))
      exact searched_root hneed (by rw [hL]; simp) rfl rfl hleaves.represents rfl
  | cons C Cs ih =>
    rcases hat.visit reqSize hneed with ⟨c', xs, ys, hfinds⟩ | ⟨c', c'', pc, hleaves⟩
    · exact .found hfinds
    · obtain ⟨d, hreach, hatC, hbetd⟩ := hleaves.next hL
      apply Searched.of_reaches hreach
      exact @ih _ _ (Bs ++ [B]) (by rw [hL]; simp) hatC (hbetd.trans hbet)

variable (reqSize) in
/-- The search of `kmalloc` sees every major block before it asks for another one, wherever
it starts. -/
theorem searched_startCursor {h : Heap} (hneed : size.toNat + 40 < 2 ^ 64) (hrep : h.Represents L)
    (hmajors : L.majors ≠ []) : Searched size reqSize L (startCursor size h) := by
  unfold startCursor
  dsimp only
  generalize (if h.bestBet ≠ 0 then majFree h.mem h.bestBet else 0) = bestSize
  split_ifs with hstart
  · have hmem : h.bestBet ∈ L.addrs := hrep.best.resolve_left hstart.1
    obtain ⟨B, hB, haddr⟩ := List.mem_map.mp hmem
    obtain ⟨Bs, Cs, hL⟩ := List.append_of_mem hB
    exact searched_bet hneed hL ⟨rfl, haddr.symm, hB, hrep⟩ rfl
  · exact searched_root hneed hmajors rfl rfl hrep rfl

end Visit

end Olive
