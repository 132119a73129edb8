import Olive.Locks.Discipline

/-!
# Who is in the PMM

The PMM is called under `map_lock` by the VMM and under `liballoc_lock_var` by the heap, and
has no lock of its own. Two contexts are in it at a time exactly when one of them came in
under the one lock while the other was there under the other.
-/

namespace Olive

open Library

variable {ι : Type}

def InPmm (s : System ι Lock Section Kernel) (i : ι) : Prop :=
  .pmm ∈ (s.threads i).holding.sections

def PmmExclusive (s : System ι Lock Section Kernel) : Prop :=
  ∀ i j, InPmm s i → InPmm s j → i = j

/-- The VMM enters the PMM while another context is there for the heap, or the other way
round. -/
def EntersFromOtherModule (s : System ι Lock Section Kernel) (act : Action ι Call) : Prop :=
  ∃ i k j, act = .run i ∧ (s.threads i).code = some (.enter .pmm k) ∧ j ≠ i ∧ InPmm s j ∧
    (.mapLock ∈ (s.threads i).holding.locks ∧ .liballocLockVar ∈ (s.threads j).holding.locks ∨
      .liballocLockVar ∈ (s.threads i).holding.locks ∧ .mapLock ∈ (s.threads j).holding.locks)

theorem pmmExclusive_iff (s : System ι Lock Section Kernel) : PmmExclusive s ↔ s.Exclusive := by
  constructor
  · intro h i j x hi hj
    cases x
    exact h i j hi hj
  · intro h i j hi hj
    exact h i j .pmm hi hj

theorem entersFromOtherModule_iff (s : System ι Lock Section Kernel) (act : Action ι Call) :
    EntersFromOtherModule s act ↔ Meets kernelDiscipline s act := by
  constructor
  · rintro ⟨i, k, j, hact, hcode, hji, hj, hlocks⟩
    refine ⟨i, .pmm, k, j, hact, hcode, hji, hj, ?_⟩
    rcases hlocks with ⟨hi, hj⟩ | ⟨hi, hj⟩
    · exact ⟨_, hi, _, hj, .inl rfl, .inr rfl, nofun⟩
    · exact ⟨_, hi, _, hj, .inr rfl, .inl rfl, nofun⟩
  · rintro ⟨i, x, k, j, hact, hcode, hji, hj, g, hg, g', hg', hguard, hguard', hne⟩
    cases x
    refine ⟨i, k, j, hact, hcode, hji, hj, ?_⟩
    rcases hguard with rfl | rfl <;> rcases hguard' with rfl | rfl
    · exact absurd rfl hne
    · exact .inl ⟨hg, hg'⟩
    · exact .inr ⟨hg, hg'⟩
    · exact absurd rfl hne

variable [DecidableEq ι]

/-- However the calls of the contexts are interleaved, the PMM is used under mutual exclusion
if and only if neither module enters it while a context is there for the other. -/
theorem pmmRun_exclusive_iff (npf : Formatter) {k : Kernel}
    {ts : List (Transition (System ι Lock Section Kernel) (Action ι Call))}
    {u : System ι Lock Section Kernel}
    (hrun : Run (SystemStep (Call.program npf)) (System.start k) ts u) :
    (∀ t ∈ ts, PmmExclusive t.post) ↔ ∀ t ∈ ts, ¬ EntersFromOtherModule t.pre t.act := by
  simp only [pmmExclusive_iff, entersFromOtherModule_iff]
  exact Run.exclusive_iff (Call.program_leads npf) hrun

/-- One context maps a page for which there is no page table yet, another one makes the
first allocation of the heap. -/
def mapAndAllocate : List (Action Bool Call) :=
  [.call false (.vmmMap ⟨0xffff800000001000⟩ 0xffff800000200000 0x200000 3),
    .run false, .run false, .run false,
    .call true (.kmalloc 2 0xffffffff80001234 1), .run true, .run true, .run true]

theorem mapAndAllocate_inPmm :
    (((System.start bootKernel).performAll (Call.program fun _ _ => []) mapAndAllocate).any fun s =>
      decide (.pmm ∈ (s.threads false).holding.sections ∧
        .pmm ∈ (s.threads true).holding.sections)) = true := by
  decide +kernel

theorem pmmRun_notExclusive : ∃ ts u,
    Run (SystemStep (Call.program fun _ _ => [])) (System.start bootKernel : System Bool _ _ _) ts u ∧
      ¬ PmmExclusive u := by
  obtain ⟨u, hu, hin⟩ := (Option.any_eq_true _ _).mp mapAndAllocate_inPmm
  obtain ⟨ts, hrun⟩ := System.run_of_performAll hu
  have hboth := of_decide_eq_true hin
  exact ⟨ts, u, hrun, fun h => nomatch h false true hboth.1 hboth.2⟩

theorem pmmRun_exclusive_iff_mapAndAllocate : ∃ ts u,
    Run (SystemStep (Call.program fun _ _ => [])) (System.start bootKernel : System Bool _ _ _) ts u ∧
      ((∀ t ∈ ts, PmmExclusive t.post) ↔ ∀ t ∈ ts, ¬ EntersFromOtherModule t.pre t.act) := by
  obtain ⟨u, hu, -⟩ := (Option.any_eq_true _ _).mp mapAndAllocate_inPmm
  obtain ⟨ts, hrun⟩ := System.run_of_performAll hu
  exact ⟨ts, u, hrun, pmmRun_exclusive_iff _ hrun⟩

end Olive
