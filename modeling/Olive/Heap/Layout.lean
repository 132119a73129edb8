import Olive.Heap.Headers
import Olive.Library.Linked
import Olive.Library.Packing

/-!
# The layout of the heap and its representation in memory

A layout says where the major blocks are and which minor blocks each of them holds. The
bounds of the blocks, and that no two of them overlap, are part of it. `Represents` is the
invariant of the allocator: the lists in memory are the lists of the layout, linked in both
directions, every header agrees with its block, and the counters are the sums over all
blocks. It speaks about the bytes of the headers only, so that what the owners of the
payloads write does not touch it.
-/

namespace Olive

open Library Memory

/-! ## Minor blocks -/

/-- A minor block: the address of its header, the padded and the requested size. -/
structure MinorBlock where
  addr : Word
  size : BitVec 32
  reqSize : BitVec 32
  room : reqSize.toNat + 32 ≤ size.toNat

/-- The pointer `ALIGN` makes of `p`. -/
def alignPtr (p : Word) : Word :=
  let p := p + 16
  let diff := p &&& 15
  p + if diff = 0 then 0 else 16 - diff

namespace MinorBlock

def start (b : MinorBlock) : ℕ := b.addr.toNat

def stop (b : MinorBlock) : ℕ := b.addr.toNat + 40 + b.size.toNat

/-- What `kmalloc` has answered for the block. -/
def payload (b : MinorBlock) : Word := alignPtr (b.addr + sizeofMinor)

def data (b : MinorBlock) : Set ℕ := Set.Ico b.payload.toNat (b.payload.toNat + b.reqSize.toNat)

/-- The addresses of the header, of the byte `ALIGN` writes and of the padding around it. -/
def front (b : MinorBlock) : Set ℕ := Set.Ico b.start (b.start + 56)

/-- The header of the block, but for its links, and the distance `ALIGN` has noted. -/
structure Stored (b : MinorBlock) (maj : Word) (m : Memory 64) : Prop where
  block : (minorAt m b.addr).block = maj
  magic : (minorAt m b.addr).magic = liballocMagic
  size : (minorAt m b.addr).size = b.size
  reqSize : (minorAt m b.addr).reqSize = b.reqSize
  distance : (m (b.payload - 16)).toNat = b.payload.toNat - (b.start + 40)

end MinorBlock

theorem toNat_and_15 (p : Word) : (p &&& 15).toNat = p.toNat % 16 := by
  rw [BitVec.toNat_and]
  exact Nat.and_two_pow_sub_one_eq_mod _ 4

theorem toNat_alignPtr {p : Word} (h : p.toNat + 32 ≤ 2 ^ 64) :
    (alignPtr p).toNat = (p.toNat + 31) / 16 * 16 := by
  have hp : (p + 16).toNat = p.toNat + 16 := by
    rw [BitVec.toNat_add, Nat.mod_eq_of_lt]
    · rfl
    · change p.toNat + 16 < _
      omega
  have hdiff := toNat_and_15 (p + 16)
  rw [hp] at hdiff
  unfold alignPtr
  dsimp only
  generalize p + 16 &&& 15 = diff at hdiff ⊢
  split_ifs with h0
  · subst h0
    bv_omega
  · have hne : diff.toNat ≠ 0 := fun h => h0 (BitVec.eq_of_toNat_eq h)
    bv_omega

/-- The distance is noted in the byte 16 bytes in front of the aligned pointer. -/
theorem align_eq (p : Word) (m : Memory 64) :
    align p m = (alignPtr p, m.store (alignPtr p - 16) 1 (alignPtr p - p).toNat) := by
  unfold align alignPtr
  dsimp only
  generalize p + 16 &&& 15 = diff
  congr 3
  split_ifs with h0
  · bv_omega
  · bv_omega

namespace MinorBlock

variable {b : MinorBlock}

theorem start_lt_stop (b : MinorBlock) : b.start + 72 ≤ b.stop := by
  have hroom := b.room
  unfold start stop
  omega

theorem payload_bounds (h : b.stop ≤ 2 ^ 64) : b.payload.toNat % 16 = 0 ∧
    b.start + 56 ≤ b.payload.toNat ∧ b.payload.toNat < b.start + 72 ∧
    b.payload.toNat + b.reqSize.toNat ≤ b.stop := by
  have hroom := b.room
  have haddr : (b.addr + sizeofMinor).toNat = b.addr.toNat + 40 := by
    unfold stop at h
    rw [BitVec.toNat_add, Nat.mod_eq_of_lt]
    · rfl
    · change b.addr.toNat + 40 < _
      omega
  have hpayload : b.payload.toNat = (b.addr.toNat + 40 + 31) / 16 * 16 := by
    unfold stop at h
    rw [payload, toNat_alignPtr (by omega), haddr]
  rw [hpayload]
  unfold start stop
  omega

theorem data_subset (h : b.stop ≤ 2 ^ 64) : b.data ⊆ Set.Ico (b.start + 56) b.stop := by
  obtain ⟨-, hlo, -, hhi⟩ := payload_bounds h
  exact Set.Ico_subset_Ico hlo hhi

theorem inSpace (h : b.stop ≤ 2 ^ 64) : InSpace b.addr := by
  have hstop := b.start_lt_stop
  unfold InSpace
  unfold start at hstop
  omega

theorem header_subset_front (b : MinorBlock) : headerSpan b.addr ⊆ b.front :=
  headerSpan_subset_Ico le_rfl (by unfold start; omega)

theorem front_subset (b : MinorBlock) : b.front ⊆ Set.Ico b.start b.stop := by
  have hsize := b.start_lt_stop
  exact Set.Ico_subset_Ico le_rfl (by omega)

theorem header_subset (b : MinorBlock) : headerSpan b.addr ⊆ Set.Ico b.start b.stop :=
  b.header_subset_front.trans b.front_subset

theorem Stored.congr {m m' : Memory 64} {maj : Word} (h : b.Stored maj m) (hstop : b.stop ≤ 2 ^ 64)
    (hsame : SameOn b.front m m') : b.Stored maj m' := by
  have hheader : minorAt m' b.addr = minorAt m b.addr := by
    apply minorAt_congr (inSpace hstop)
    exact hsame.mono b.header_subset_front
  have hbyte : m' (b.payload - 16) = m (b.payload - 16) := by
    obtain ⟨-, hlo, hhi, -⟩ := payload_bounds hstop
    apply hsame
    rw [front, Set.mem_Ico]
    bv_omega
  constructor
  · rw [hheader, h.block]
  · rw [hheader, h.magic]
  · rw [hheader, h.size]
  · rw [hheader, h.reqSize]
  · rw [hbyte, h.distance]

end MinorBlock

/-! ## Major blocks -/

/-- A major block: a run of pages with minor blocks behind its header. -/
structure MajorBlock where
  addr : Word
  pages : BitVec 32
  minors : List MinorBlock
  addr_ne : addr ≠ 0
  aligned : PageAligned addr
  pages_lt : pages.toNat < 2 ^ 20
  bound : addr.toNat + pages.toNat * 4096 ≤ 2 ^ 64
  packed : Packed MinorBlock.start MinorBlock.stop (addr.toNat + 40) minors
    (addr.toNat + pages.toNat * 4096)

namespace MajorBlock

def start (B : MajorBlock) : ℕ := B.addr.toNat

def stop (B : MajorBlock) : ℕ := B.addr.toNat + B.pages.toNat * 4096

def span (B : MajorBlock) : Set ℕ := Set.Ico B.start B.stop

def used (B : MajorBlock) : ℕ := 40 + (B.minors.map fun b => 40 + b.size.toNat).sum

/-- The header of the block agrees with it, and the list of its minor blocks is in memory. -/
structure Stored (B : MajorBlock) (m : Memory 64) : Prop where
  pages : (majorAt m B.addr).pages = B.pages
  size : (majorAt m B.addr).size = B.pages * lPageSize
  usage : (majorAt m B.addr).usage = BitVec.ofNat 32 B.used
  first : (majorAt m B.addr).first = (B.minors.map MinorBlock.addr).headD 0
  linked : Linked (fun a => (minorAt m a).prev) (fun a => (minorAt m a).next) 0
    (B.minors.map MinorBlock.addr) 0
  minors : ∀ b ∈ B.minors, b.Stored B.addr m

variable {B : MajorBlock} {b : MinorBlock} {m m' : Memory 64}

theorem stop_le (B : MajorBlock) : B.stop ≤ 2 ^ 64 := B.bound

theorem minor_bounds (hb : b ∈ B.minors) : B.start + 40 ≤ b.start ∧ b.stop ≤ B.stop := by
  obtain ⟨hlo, -, hhi⟩ := B.packed.bounds hb
  exact ⟨hlo, hhi⟩

theorem minor_stop_le (hb : b ∈ B.minors) : b.stop ≤ 2 ^ 64 := (minor_bounds hb).2.trans B.stop_le

theorem used_le (B : MajorBlock) : B.start + B.used ≤ B.stop := by
  have hsum := B.packed.sum_le
  have hlen : (B.minors.map fun b => b.stop - b.start) = B.minors.map fun b => 40 + b.size.toNat := by
    apply List.map_congr_left
    intro b _
    unfold MinorBlock.stop MinorBlock.start
    omega
  rw [hlen] at hsum
  unfold used start stop
  omega

theorem header_le (B : MajorBlock) : B.start + 40 ≤ B.stop := B.packed.le

theorem inSpace (B : MajorBlock) : InSpace B.addr := B.header_le.trans B.stop_le

theorem header_subset (B : MajorBlock) : headerSpan B.addr ⊆ B.span :=
  headerSpan_subset_Ico le_rfl B.header_le

theorem minor_subset (hb : b ∈ B.minors) : Set.Ico b.start b.stop ⊆ Set.Ico (B.start + 40) B.stop := by
  obtain ⟨hlo, hhi⟩ := minor_bounds hb
  exact Set.Ico_subset_Ico hlo hhi

theorem behind_subset (B : MajorBlock) : Set.Ico (B.start + 40) B.stop ⊆ B.span :=
  Set.Ico_subset_Ico (by omega) le_rfl

theorem behind_subset_compl (B : MajorBlock) :
    Set.Ico (B.start + 40) B.stop ⊆ (headerSpan B.addr)ᶜ := by
  rintro x ⟨hx, -⟩ ⟨-, hx'⟩
  unfold start at hx
  omega

/-- A major block is read off its header, but for its own links, and the bytes in front of
its payloads. -/
theorem Stored.of_fronts {p n : Word} (h : B.Stored m)
    (hheader : majorAt m' B.addr = { majorAt m B.addr with prev := p, next := n })
    (hfronts : ∀ b ∈ B.minors, SameOn b.front m m') : B.Stored m' := by
  have hlinks : ∀ a ∈ B.minors.map MinorBlock.addr, minorAt m' a = minorAt m a := by
    intro a ha
    obtain ⟨b, hb, rfl⟩ := List.mem_map.mp ha
    apply minorAt_congr (b.inSpace (minor_stop_le hb))
    exact (hfronts b hb).mono b.header_subset_front
  constructor
  · rw [hheader, h.pages]
  · rw [hheader, h.size]
  · rw [hheader, h.usage]
  · rw [hheader, h.first]
  · apply h.linked.congr
    · exact fun a ha => congrArg MinorHeader.prev (hlinks a ha)
    · exact fun a ha => congrArg MinorHeader.next (hlinks a ha)
  · exact fun b hb => (h.minors b hb).congr (minor_stop_le hb) (hfronts b hb)

theorem Stored.congr (h : B.Stored m) (hsame : SameOn B.span m m') : B.Stored m' := by
  have hheader : majorAt m' B.addr = majorAt m B.addr :=
    majorAt_congr B.inSpace (hsame.mono B.header_subset)
  apply h.of_fronts hheader
  intro b hb
  exact hsame.mono (b.front_subset.trans ((minor_subset hb).trans B.behind_subset))

end MajorBlock

/-! ## Layouts -/

structure Layout where
  majors : List MajorBlock
  apart : majors.Pairwise fun B C => B.stop ≤ C.start ∨ C.stop ≤ B.start

namespace Layout

def addrs (L : Layout) : List Word := L.majors.map MajorBlock.addr

def runs (L : Layout) : List (Word × BitVec 32) := L.majors.map fun B => (B.addr, B.pages)

def blocks (L : Layout) : List MinorBlock := L.majors.flatMap MajorBlock.minors

def bytes (L : Layout) : ℕ := (L.majors.map fun B => B.pages.toNat * 4096).sum

def taken (L : Layout) : ℕ := (L.blocks.map fun b => b.size.toNat).sum

def span (L : Layout) : Set ℕ := {x | ∃ B ∈ L.majors, x ∈ B.span}

end Layout

/-- The memory and the globals of the heap represent the layout. -/
structure Heap.Represents (h : Heap) (L : Layout) : Prop where
  root : h.memRoot = L.addrs.headD 0
  linked : Linked (fun a => (majorAt h.mem a).prev) (fun a => (majorAt h.mem a).next) 0 L.addrs 0
  best : h.bestBet = 0 ∨ h.bestBet ∈ L.addrs
  stored : ∀ B ∈ L.majors, B.Stored h.mem
  inuse : h.inuse = BitVec.ofNat 64 L.taken
  allocated : h.allocated = BitVec.ofNat 64 L.bytes

end Olive
