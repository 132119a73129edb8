import Olive.Library.Runs
import Olive.Vmm.Spec

/-!
# The page tables refine a map from pages to leaf entries

The walk of the hardware reads four entries. Over any run of `vmm_map` and
`vmm_unmap` on any number of page maps, its result for a page is what the last of
these calls for the page has left, and the permissions accumulated over the four
levels are those of the leaf entry alone.
-/

namespace Olive

open Library

/-! ## The hardware -/

/-- What a successful walk yields: the leaf entry, and the permissions the four
entries have in common. -/
structure Translation where
  entry : Word
  writable : Bool
  user : Bool
  executeDisable : Bool
  deriving DecidableEq, Repr

def entryAt (m : Memory 64) (table virt : Word) (shift : ℕ) : Option Word :=
  let e := m.load64 (table + tableIndex virt shift * 8)
  if Present e then some e else none

/-- The four-level walk: an access is writable or allowed to the user if all levels
say so, and execution is disabled if one level does. -/
def hardwareWalk (hhdmOffset : Word) (m : Memory 64) (pm : Pagemap) (virt : Word) :
    Option Translation := do
  let e₄ ← entryAt m pm.pml4 virt 39
  let e₃ ← entryAt m ((e₄ &&& frameMask) + hhdmOffset) virt 30
  let e₂ ← entryAt m ((e₃ &&& frameMask) + hhdmOffset) virt 21
  let e₁ ← entryAt m ((e₂ &&& frameMask) + hhdmOffset) virt 12
  some {
    entry := e₁
    writable := [e₄, e₃, e₂, e₁].all fun e => e &&& pteBitReadWrite ≠ 0
    user := [e₄, e₃, e₂, e₁].all fun e => e &&& pteBitAccessAll ≠ 0
    executeDisable := [e₄, e₃, e₂, e₁].any fun e => e &&& pteBitExecuteDisable ≠ 0 }

/-- The translation with the permissions of the leaf entry alone. -/
def leafTranslation (e : Word) : Translation where
  entry := e
  writable := e &&& pteBitReadWrite ≠ 0
  user := e &&& pteBitAccessAll ≠ 0
  executeDisable := e &&& pteBitExecuteDisable ≠ 0

section Walk

variable {hhdmOffset : Word} {roots : Set Frame} {m : Memory 64} {r : Frame}

theorem tableEntry_permissions (f : Frame) :
    tableEntry f &&& pteBitReadWrite = pteBitReadWrite ∧
      tableEntry f &&& pteBitAccessAll = pteBitAccessAll ∧
      tableEntry f &&& pteBitExecuteDisable = 0 := by
  refine ⟨?_, ?_, ?_⟩
  · apply BitVec.eq_of_getLsbD_eq
    intro i hi
    simp only [tableEntry, BitVec.getLsbD_and, BitVec.getLsbD_or]
    cases pteBitReadWrite.getLsbD i <;> simp
  · apply BitVec.eq_of_getLsbD_eq
    intro i hi
    simp only [tableEntry, BitVec.getLsbD_and, BitVec.getLsbD_or]
    cases pteBitAccessAll.getLsbD i <;> simp
  · apply BitVec.eq_of_getLsbD_eq
    intro i hi
    have hbit : ∀ i < 64, pteBitExecuteDisable.getLsbD i = decide (i = 63) := by decide
    rw [BitVec.getLsbD_and, hbit i hi]
    by_cases h63 : i = 63
    · subst h63
      have hflags : (pteBitPresent ||| pteBitReadWrite ||| pteBitAccessAll).getLsbD 63 = false := by
        decide
      rw [tableEntry, BitVec.or_assoc, BitVec.or_assoc, BitVec.getLsbD_or, getLsbD_frameAddr,
        ← BitVec.or_assoc, hflags]
      rfl
    · simp [h63]

theorem entryAt_eq (f : Frame) (virt : Word) {shift : ℕ} {i : Index}
    (hi : tableIndex virt shift = i.setWidth 64) :
    entryAt m (tableAddr hhdmOffset f) virt shift =
      if Present (tables hhdmOffset m f i) then some (tables hhdmOffset m f i) else none := by
  rw [entryAt, hi]
  rfl

theorem TreeInv.level {T : Tables} (hinv : TreeInv hhdmOffset roots T) (hr : r ∈ roots)
    {p : List Index} {f : Frame} (hp : p.length < 3) (hf : follow (child T) r p = some f)
    (i : Index) :
    (¬ Present (T f i) ∧ child T f i = none) ∨
      ∃ g, T f i = tableEntry g ∧ child T f i = some g ∧
        follow (child T) r (p ++ [i]) = some g := by
  by_cases hpresent : Present (T f i)
  · have hchild : child T f i = some (frameOf (T f i)) := if_pos hpresent
    refine .inr ⟨_, hinv.nonleaf r hr p f hp hf i hpresent, hchild, ?_⟩
    rw [follow_concat, hf]
    exact hchild
  · exact .inl ⟨hpresent, child_eq_none hpresent⟩

/-- On a forest of tables the walk of the hardware is the walk along the path, with
the permissions of the leaf. -/
theorem hardwareWalk_eq (hinv : TreeInv hhdmOffset roots (tables hhdmOffset m)) (hr : r ∈ roots)
    (virt : Word) :
    hardwareWalk hhdmOffset m ⟨tableAddr hhdmOffset r⟩ virt =
      (walk (tables hhdmOffset m) r (pageOf virt)).map leafTranslation := by
  have hmask : ∀ e, (e &&& frameMask) + hhdmOffset = tableAddr hhdmOffset (frameOf e) := fun e => by
    rw [and_frameMask, tableAddr]
  simp only [hardwareWalk, hmask, entryAt_eq _ _ (tableIndex_pml4 virt),
    entryAt_eq _ _ (tableIndex_pdpt virt), entryAt_eq _ _ (tableIndex_pd virt),
    entryAt_eq _ _ (tableIndex_pt virt), walk, pathOf, follow_cons, follow_nil]
  rcases hinv.level hr (p := []) (by simp) rfl (pml4Index (pageOf virt)) with
    ⟨h₄, hc₄⟩ | ⟨f₁, he₄, hc₄, hf₁⟩
  · simp [h₄, hc₄]
  rcases hinv.level hr (by simp) hf₁ (pdptIndex (pageOf virt)) with ⟨h₃, hc₃⟩ | ⟨f₂, he₃, hc₃, hf₂⟩
  · simp [he₄, hc₄, present_tableEntry, frameOf_tableEntry, h₃, hc₃]
  rcases hinv.level hr (by simp) hf₂ (pdIndex (pageOf virt)) with ⟨h₂, hc₂⟩ | ⟨f₃, he₂, hc₂, -⟩
  · simp [he₄, hc₄, he₃, hc₃, present_tableEntry, frameOf_tableEntry, h₂, hc₂]
  have hwritable : pteBitReadWrite ≠ 0#64 := by decide
  have huser : pteBitAccessAll ≠ 0#64 := by decide
  simp only [he₄, hc₄, he₃, hc₃, he₂, hc₂, present_tableEntry, frameOf_tableEntry, if_true,
    Option.bind_eq_bind, Option.bind_some]
  by_cases h₁ : Present (tables hhdmOffset m f₃ (ptIndex (pageOf virt)))
  · simp [h₁, leafTranslation, tableEntry_permissions, hwritable, huser]
  · simp [h₁]

theorem hardwareWalk_congr (hhdmOffset : Word) (m : Memory 64) (pm : Pagemap) {v w : Word}
    (h : pageOf v = pageOf w) :
    hardwareWalk hhdmOffset m pm v = hardwareWalk hhdmOffset m pm w := by
  simp only [hardwareWalk, entryAt, tableIndex_pml4, tableIndex_pdpt, tableIndex_pd, tableIndex_pt, h]

end Walk

/-! ## Runs -/

inductive VmmCall where
  | map (root : Frame) (virt phys flags : Word)
  | unmap (root : Frame) (virt : Word)

variable {σ : Type} [PageAllocator σ]

/-- One call on one of the page maps: `vmm_map` of an aligned address below 2^52 with
flags that are present and leave the address bits alone, or `vmm_unmap` that does not
release the frame. -/
inductive VmmStep (hhdmOffset : Word) (roots : Set Frame) : Vmm σ → VmmCall → Vmm σ → Prop
  | map {s : Vmm σ} {root : Frame} {virt phys flags : Word} (hroot : root ∈ roots)
      (halign : PageAligned phys) (hbound : phys.toNat < 2 ^ 52) (hpresent : Present flags)
      (hclean : flags &&& frameMask = 0) :
      VmmStep hhdmOffset roots s (.map root virt phys flags)
        (vmmMap hhdmOffset s ⟨tableAddr hhdmOffset root⟩ virt phys flags)
  | unmap {s s' : Vmm σ} {root : Frame} {virt : Word} {b : Bool} (hroot : root ∈ roots)
      (h : vmmUnmap hhdmOffset s ⟨tableAddr hhdmOffset root⟩ virt false = .ok (b, s')) :
      VmmStep hhdmOffset roots s (.unmap root virt) s'

abbrev Mappings := Frame → Page → Option Word

/-- What a call means for the leaf entries: `vmm_map` sets the one of its page if it
obtains its tables, `vmm_unmap` removes it. -/
def record (hhdmOffset : Word) (M : Mappings) (t : Transition (Vmm σ) VmmCall) : Mappings :=
  match t.act with
  | .map root virt phys flags => fun r p =>
    if (r = root ∧ p = pageOf virt) ∧ ObtainsTables hhdmOffset t.pre ⟨tableAddr hhdmOffset root⟩ virt
    then some (phys ||| flags) else M r p
  | .unmap root virt => fun r p => if r = root ∧ p = pageOf virt then none else M r p

/-- The leaf entries after a run, by the last call for each page. -/
def mappings (hhdmOffset : Word) (ts : List (Transition (Vmm σ) VmmCall)) : Mappings :=
  ts.foldl (record hhdmOffset) fun _ _ => none

section Run

variable {hhdmOffset : Word} {roots : Set Frame} {s t : Vmm σ} {call : VmmCall}

theorem present_or_flags {phys flags : Word} (h : Present flags) : Present (phys ||| flags) := by
  intro hzero
  apply h
  apply BitVec.eq_of_getLsbD_eq
  intro i hi
  have hbit := congrArg (fun x => x.getLsbD i) hzero
  simp only [BitVec.getLsbD_and, BitVec.getLsbD_or, BitVec.ofNat_eq_ofNat, BitVec.getLsbD_zero]
    at hbit ⊢
  cases h1 : pteBitPresent.getLsbD i
  · simp
  · rw [h1, Bool.and_true, Bool.or_eq_false_iff] at hbit
    rw [hbit.2]
    rfl

theorem VmmStep.spec (hinv : VmmInv hhdmOffset roots s) (h : VmmStep hhdmOffset roots s call t)
    {M : Mappings} (hM : ∀ r ∈ roots, ∀ p, walk (tables hhdmOffset s.mem) r p = M r p) :
    VmmInv hhdmOffset roots t ∧ ∀ r ∈ roots, ∀ p,
      walk (tables hhdmOffset t.mem) r p = record hhdmOffset M ⟨s, call, t⟩ r p := by
  cases h with
  | @map root virt phys flags hroot halign hbound hpresent hclean =>
    refine ⟨vmmMap_inv hinv hroot virt phys flags, fun r hr p => ?_⟩
    rw [vmmMap_walk hinv hroot virt phys flags hr p, if_pos (present_or_flags hpresent), hM r hr p]
    rfl
  | @unmap _ root virt b hroot h =>
    rcases vmmUnmap_spec hinv hroot virt with ⟨hnone, heq⟩ | ⟨pt, m, hpt, hptr, hm, heq⟩
    · rw [heq] at h
      cases h
      refine ⟨hinv, fun r hr p => ?_⟩
      change _ = if r = root ∧ p = pageOf virt then none else M r p
      split_ifs with hsame
      · rw [hsame.1, hsame.2, hnone]
      · exact hM r hr p
    · rw [heq false] at h
      cases h
      refine ⟨hinv.set hroot hpt hptr hm hinv.serves, fun r hr p => ?_⟩
      change walk (tables hhdmOffset m) r p = if r = root ∧ p = pageOf virt then none else M r p
      rw [hm, walk_set hinv.tree hroot hpt hr, if_neg not_present_zero, hM r hr p]

theorem vmmRun_walk {u : Vmm σ} {ts : List (Transition (Vmm σ) VmmCall)}
    (hrun : Run (VmmStep hhdmOffset roots) s ts u) (hinv : VmmInv hhdmOffset roots s)
    {M : Mappings} (hM : ∀ r ∈ roots, ∀ p, walk (tables hhdmOffset s.mem) r p = M r p) :
    VmmInv hhdmOffset roots u ∧ ∀ r ∈ roots, ∀ p,
      walk (tables hhdmOffset u.mem) r p = ts.foldl (record hhdmOffset) M r p := by
  induction hrun generalizing M with
  | nil s => exact ⟨hinv, hM⟩
  | cons hstep _ ih =>
    obtain ⟨hinv', hM'⟩ := hstep.spec hinv hM
    exact ih hinv' hM'

end Run

/-- Page maps with distinct cleared PML4 frames form a forest the page allocator
does not interfere with. -/
theorem VmmInv.of_cleared {hhdmOffset : Word} {roots : Set Frame} {s : Vmm σ}
    (hcleared : ∀ r ∈ roots, ∀ i, tables hhdmOffset s.mem r i = 0)
    (hserves : ServesFrames s.pmm roots) : VmmInv hhdmOffset roots s := by
  refine ⟨.of_cleared hcleared, ?_⟩
  have huse : InUse hhdmOffset roots s.mem = roots := by
    ext f
    constructor
    · rintro ⟨r, hr, q, -, hf⟩
      obtain ⟨-, rfl⟩ := follow_cleared hcleared hr hf
      exact hr
    · exact fun hf => ⟨f, hf, [], by simp, rfl⟩
  rw [huse]
  exact hserves

/-- After any run of `vmm_map` and `vmm_unmap` over page maps that started empty, the
hardware finds for every address of every page map exactly the leaf entry of the last
call for its page, with the permissions of that entry. -/
theorem hardwareWalk_vmmRun {hhdmOffset : Word} {roots : Set Frame} {s u : Vmm σ}
    {ts : List (Transition (Vmm σ) VmmCall)}
    (hcleared : ∀ r ∈ roots, ∀ i, tables hhdmOffset s.mem r i = 0)
    (hserves : ServesFrames s.pmm roots) (hrun : Run (VmmStep hhdmOffset roots) s ts u)
    {r : Frame} (hr : r ∈ roots) (virt : Word) :
    hardwareWalk hhdmOffset u.mem ⟨tableAddr hhdmOffset r⟩ virt =
      (mappings hhdmOffset ts r (pageOf virt)).map leafTranslation := by
  obtain ⟨hinv, hwalk⟩ := vmmRun_walk hrun (VmmInv.of_cleared hcleared hserves)
    (M := fun _ _ => none) fun r hr p => walk_cleared hcleared hr p
  rw [hardwareWalk_eq hinv.tree hr, hwalk r hr]
  rfl

/-- A state with cleared memory and three free frames. -/
def clearedVmm : Vmm Pmm where
  pmm := Pmm.boot.pushAll [0x2000, 0x3000, 0x4000]
  mem := fun _ => 0
  kernelPm := ⟨0⟩
  physicalAddressWidth := 0
  linearAddressWidth := 0
  cr3 := 0
  reports := []

theorem servesFrames_clearedVmm : ServesFrames clearedVmm.pmm {0x1} := by
  have hlive : clearedVmm.pmm.live = [0x2000, 0x3000, 0x4000] := by
    have hpush := (@Pmm.pushAll_spec Pmm.boot [0x2000, 0x3000, 0x4000] (by decide)).1
    exact hpush
  refine servesFrames_pmm (by rw [hlive]; decide) ?_
  rw [hlive]
  intro q hq
  fin_cases hq
  · exact ⟨0x2, by decide, by decide⟩
  · exact ⟨0x3, by decide, by decide⟩
  · exact ⟨0x4, by decide, by decide⟩

theorem hardwareWalk_vmmRun_clearedVmm : ∃ (u : Vmm Pmm) (ts : List (Transition (Vmm Pmm) VmmCall)),
    Run (VmmStep 0xffff800000000000 {0x1}) clearedVmm ts u ∧ ts ≠ [] ∧
    hardwareWalk 0xffff800000000000 u.mem ⟨tableAddr 0xffff800000000000 0x1⟩ 0x400123 =
      (mappings 0xffff800000000000 ts 0x1 (pageOf 0x400123)).map leafTranslation := by
  have hstep : VmmStep 0xffff800000000000 {0x1} clearedVmm (.map 0x1 0x400000 0x5000 3) _ :=
    .map rfl (by decide) (by decide) (by decide) (by decide)
  have hrun := Run.cons hstep (Run.nil _)
  refine ⟨_, _, hrun, List.cons_ne_nil _ _, hardwareWalk_vmmRun ?_ servesFrames_clearedVmm hrun rfl _⟩
  intro r _ i
  exact Memory.load64_zero _

end Olive
