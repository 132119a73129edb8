import Olive.Library.Threads
import Olive.Locks.Liballoc

/-!
# The lock discipline of the kernel

`map_lock` and `liballoc_lock_var` are never held together, `printf_lock` is taken last and
held for one character, and every entry point returns without a lock, on all its paths. The
PMM is entered under `map_lock` or under `liballoc_lock_var`.
-/

namespace Olive

open Library

/-- `printf_lock` is taken after the others, which are not taken one after the other. -/
def lockRank : Lock → ℕ
  | .mapLock => 0
  | .liballocLockVar => 0
  | .printfLock => 1

def pmmGuard : Section → Lock → Prop
  | .pmm, l => l = .mapLock ∨ l = .liballocLockVar

/-- The order of the locks, with the locks a program may take and whether it may end in
`hcf` or in a loop. -/
def lockDiscipline (mayTake : Lock → Prop) (mayStop : Prop) : Discipline Lock Section :=
  ⟨mayTake, lockRank, pmmGuard, mayStop⟩

/-- The discipline of the entry points, which may take all locks and may stop. -/
abbrev kernelDiscipline : Discipline Lock Section := lockDiscipline (fun _ => True) True

structure MayPrint (c : Holding Lock Section) : Prop where
  next : .printfLock ∉ c.locks
  sections : ∀ x ∈ c.sections, ∃ l ∈ c.locks, pmmGuard x l

structure MayCallPmm (c : Holding Lock Section) : Prop where
  next : .printfLock ∉ c.locks
  lock : ∃ l ∈ c.locks, l = .mapLock ∨ l = .liballocLockVar

section Holding

variable {c : Holding Lock Section} {mayTake : Lock → Prop} {mayStop : Prop}

theorem next_printfLock (htake : mayTake .printfLock) (h : .printfLock ∉ c.locks) :
    (lockDiscipline mayTake mayStop).Next c .printfLock := by
  refine ⟨htake, fun l hl => ?_⟩
  cases l with
  | mapLock => exact Nat.zero_lt_one
  | liballocLockVar => exact Nat.zero_lt_one
  | printfLock => exact absurd hl h

theorem MayPrint.guarded (h : MayPrint c) : (lockDiscipline mayTake mayStop).Guarded c :=
  h.sections

theorem MayCallPmm.guarded (h : MayCallPmm c) : (lockDiscipline mayTake mayStop).Guarded c := by
  intro x _
  obtain ⟨l, hl, hguard⟩ := h.lock
  exact ⟨l, hl, hguard⟩

theorem MayCallPmm.mayPrint (h : MayCallPmm c) : MayPrint c :=
  ⟨h.next, fun _ _ => h.lock⟩

theorem MayCallPmm.enter (h : MayCallPmm c) : MayCallPmm (c.enter .pmm) := ⟨h.next, h.lock⟩

theorem mayPrint_none : MayPrint .none := ⟨List.not_mem_nil, nofun⟩

theorem mayCallPmm_mapLock : MayCallPmm (Holding.none.acquire .mapLock) :=
  ⟨by decide, .mapLock, List.mem_cons_self, .inl rfl⟩

theorem mayCallPmm_liballocLockVar : MayCallPmm (Holding.none.acquire .liballocLockVar) :=
  ⟨by decide, .liballocLockVar, List.mem_cons_self, .inr rfl⟩

end Holding

namespace Locked

variable (npf : Formatter) {mayTake : Lock → Prop} {mayStop : Prop} {c : Holding Lock Section}

/-! ## `printf.c` -/

section Printf

variable (htake : mayTake .printfLock) (h : MayPrint c)

include htake h

theorem putchar_leads (ch : Char) : (putchar ch).Leads (lockDiscipline mayTake mayStop) c c := by
  refine (Code.leads_lock (next_printfLock htake h.next)).bind fun _ => ?_
  refine (Code.leads_modify _).bind fun _ => ?_
  refine (Code.leads_unlock h.guarded).bind fun _ => ?_
  exact Code.leads_pure ch

theorem putchars_leads (chs : List Char) :
    (putchars chs).Leads (lockDiscipline mayTake mayStop) c c := by
  induction chs with
  | nil => exact Code.leads_pure ()
  | cons ch chs ih => exact (putchar_leads htake h ch).bind fun _ => ih

theorem printf_leads (fmt : String) (args : List Arg) :
    (printf npf fmt args).Leads (lockDiscipline mayTake mayStop) c c := by
  refine Code.Leads.ite (fun _ => ?_) fun _ => Code.leads_pure _
  exact (putchars_leads htake h _).bind fun _ => Code.leads_pure _

theorem log_leads (level fmt : String) (args : List Arg) :
    (log npf level fmt args).Leads (lockDiscipline mayTake mayStop) c c := by
  refine (printf_leads npf htake h _ _).bind fun _ => ?_
  refine (printf_leads npf htake h _ _).bind fun _ => ?_
  exact Code.leads_pure ()

theorem report_leads (r : Report) : (report npf r).Leads (lockDiscipline mayTake mayStop) c c := by
  unfold report
  cases r.level with
  | warn => exact log_leads npf htake h _ _ _
  | error => exact log_leads npf htake h _ _ _

end Printf

theorem assert_leads (h : MayPrint c) (x : Bool) (text : String) :
    (assert npf x text).Leads kernelDiscipline c c := by
  refine Code.Leads.ite (fun _ => Code.leads_pure ()) fun _ => ?_
  refine (log_leads npf trivial h _ _ _).bind fun _ => ?_
  exact (Code.leads_modify _).bind fun _ => Code.leads_stop trivial

/-! ## `pmm.c` -/

section Pmm

variable (h : MayCallPmm c)

include h

theorem pmmRequestPages_leads (pages : Word) :
    (pmmRequestPages npf pages).Leads kernelDiscipline c c := by
  refine (Code.leads_entry h.enter.guarded).bind fun _ => ?_
  refine (Code.leads_get _).bind fun short => ?_
  refine Code.Leads.ite (fun _ => ?_) fun _ => ?_
  · refine (report_leads npf trivial h.enter.mayPrint _).bind fun _ => ?_
    exact Code.leads_exit.bind fun _ => Code.leads_pure _
  · refine (Code.leads_modify _).bind fun _ => ?_
    refine (Code.leads_get _).bind fun ptr => ?_
    refine (Code.leads_modify _).bind fun _ => ?_
    refine (Code.leads_modify _).bind fun _ => ?_
    exact Code.leads_exit.bind fun _ => Code.leads_pure _

theorem pushFreed_leads (pageAddr : Word) (n : ℕ) (i : Word) :
    (pushFreed npf pageAddr n i).Leads kernelDiscipline c c := by
  induction n generalizing i with
  | zero => exact Code.leads_pure _
  | succ n ih =>
    refine (Code.leads_get _).bind fun full => ?_
    refine Code.Leads.ite (fun _ => ?_) fun _ => ?_
    · exact (report_leads npf trivial h.mayPrint _).bind fun _ => Code.leads_pure _
    · exact (Code.leads_modify _).bind fun _ => ih _

theorem pmmFreePages_leads (ptr pages : Word) :
    (pmmFreePages npf ptr pages).Leads kernelDiscipline c c := by
  have hprint := h.enter.mayPrint
  refine (Code.leads_entry h.enter.guarded).bind fun _ => ?_
  refine (assert_leads npf hprint _ _).bind fun _ => ?_
  refine (assert_leads npf hprint _ _).bind fun _ => ?_
  refine (assert_leads npf hprint _ _).bind fun _ => ?_
  refine (pushFreed_leads npf h.enter _ _ _).bind fun full => ?_
  refine Code.Leads.ite (fun _ => Code.leads_exit) fun _ => ?_
  refine (Code.leads_modify _).bind fun _ => ?_
  exact (Code.leads_modify _).bind fun _ => Code.leads_exit

/-! ## `vmm.c` -/

theorem getBelowPml_leads (pmlPointer index : Word) (force : Bool) :
    (getBelowPml npf pmlPointer index force).Leads kernelDiscipline c c := by
  refine (Code.leads_get _).bind fun present => ?_
  refine Code.Leads.ite (fun _ => Code.leads_get _) fun _ => ?_
  refine Code.Leads.ite (fun _ => Code.leads_pure _) fun _ => ?_
  refine (pmmRequestPages_leads npf h 1).bind fun belowPml => ?_
  refine Code.Leads.ite (fun _ => ?_) fun _ => ?_
  · exact (report_leads npf trivial h.mayPrint _).bind fun _ => Code.leads_pure _
  · refine (Code.leads_modify _).bind fun _ => ?_
    exact (Code.leads_modify _).bind fun _ => Code.leads_get _

theorem pml4ToPt_leads (pml4 virt : Word) (force : Bool) :
    (pml4ToPt npf pml4 virt force).Leads kernelDiscipline c c := by
  refine (getBelowPml_leads npf h _ _ _).bind fun pdpt => ?_
  refine Code.Leads.ite (fun _ => Code.leads_pure _) fun _ => ?_
  refine (getBelowPml_leads npf h _ _ _).bind fun pd => ?_
  refine Code.Leads.ite (fun _ => Code.leads_pure _) fun _ => ?_
  refine (getBelowPml_leads npf h _ _ _).bind fun pt => ?_
  exact Code.Leads.ite (fun _ => Code.leads_pure _) fun _ => Code.leads_pure _

end Pmm

/-! The entry points start and return without a lock. -/

theorem next_none (l : Lock) : kernelDiscipline.Next .none l := ⟨trivial, nofun⟩

theorem release_leads (l : Lock) :
    (spinlockRelease l).Leads kernelDiscipline (Holding.none.acquire l) .none :=
  Code.leads_unlock Discipline.guarded_none

theorem vmmMap_leads (pm : Pagemap) (virt phys flags : Word) :
    (vmmMap npf pm virt phys flags).Leads kernelDiscipline .none .none := by
  have hmap := mayCallPmm_mapLock
  refine (Code.leads_lock (next_none _)).bind fun _ => ?_
  refine (pml4ToPt_leads npf hmap _ _ _).bind fun pt => ?_
  refine Code.Leads.ite (fun _ => ?_) fun _ => ?_
  · exact (report_leads npf trivial hmap.mayPrint _).bind fun _ => release_leads _
  · exact (Code.leads_modify _).bind fun _ => release_leads _

theorem vmmUnmap_leads (pm : Pagemap) (virt : Word) (freePhys : Bool) :
    (vmmUnmap npf pm virt freePhys).Leads kernelDiscipline .none .none := by
  have hmap := mayCallPmm_mapLock
  refine (Code.leads_lock (next_none _)).bind fun _ => ?_
  refine (pml4ToPt_leads npf hmap _ _ _).bind fun pt => ?_
  refine Code.Leads.ite (fun _ => ?_) fun _ => ?_
  · exact (release_leads _).bind fun _ => Code.leads_pure _
  · have hend : (do
        Code.modify fun k => { k with mem := k.mem.store64 (pt + tableIndex virt 12 * 8) 0 }
        spinlockRelease .mapLock
        return true : Program Bool).Leads kernelDiscipline (Holding.none.acquire .mapLock)
          .none := by
      refine (Code.leads_modify _).bind fun _ => ?_
      exact (release_leads _).bind fun _ => Code.leads_pure _
    refine Code.Leads.ite (fun _ => ?_) fun _ => hend
    refine (Code.leads_get _).bind fun entry => ?_
    exact (pmmFreePages_leads npf hmap _ _).bind fun _ => hend

/-! ## `liballoc.c` -/

section Liballoc

theorem liballocAlloc_leads (h : MayCallPmm c) (pages : BitVec 32) :
    (liballocAlloc npf pages).Leads kernelDiscipline c c :=
  (pmmRequestPages_leads npf h _).bind fun _ => Code.leads_get _

theorem allocateNewPage_leads (h : MayCallPmm c) (size : BitVec 32) :
    (allocateNewPage npf size).Leads kernelDiscipline c c := by
  refine (liballocAlloc_leads npf h _).bind fun maj => ?_
  refine Code.Leads.ite (fun _ => ?_) fun _ => ?_
  · refine (Code.leads_modify _).bind fun _ => ?_
    exact (report_leads npf trivial h.mayPrint _).bind fun _ => Code.leads_pure _
  · refine (Code.leads_modify _).bind fun _ => ?_
    exact (Code.leads_modify _).bind fun _ => Code.leads_pure _

variable (heap : Holding Lock Section) (hheap : heap = Holding.none.acquire .liballocLockVar)

include hheap

theorem kmallocFails_leads (size : Word) :
    (kmallocFails npf size).Leads kernelDiscipline heap .none := by
  subst hheap
  refine (release_leads _).bind fun _ => ?_
  refine (report_leads npf trivial mayPrint_none _).bind fun _ => ?_
  exact (report_leads npf trivial mayPrint_none _).bind fun _ => Code.leads_pure _

/-- The induction is on the rounds of the loop, at whose head the lock is held. -/
theorem kmallocLoop_leads (size reqSize : Word) (fuel : ℕ) (v : Search) :
    (kmallocLoop npf size reqSize fuel v).Leads kernelDiscipline heap .none := by
  induction fuel generalizing v with
  | zero => exact Code.leads_stop trivial
  | succ fuel ih =>
    have hpmm : MayCallPmm heap := hheap ▸ mayCallPmm_liballocLockVar
    have hfails := kmallocFails_leads npf heap hheap size
    refine (Code.leads_access _).bind fun next => ?_
    rcases next with e | next
    · exact Code.leads_stop trivial
    · cases next with
      | returns p h =>
        subst hheap
        exact (release_leads _).bind fun _ => Code.leads_pure _
      | breaks h => exact hfails
      | continues cursor => exact ih _
      | needsBlock cursor pc =>
        refine (allocateNewPage_leads npf hpmm _).bind fun new => ?_
        refine (Code.leads_modify _).bind fun _ => ?_
        refine (Code.leads_get _).bind fun next => ?_
        refine Code.Leads.ite (fun _ => hfails) fun _ => ?_
        refine (Code.leads_modify _).bind fun _ => ?_
        exact (Code.leads_get _).bind fun maj => ih _

theorem kmallocSearch_leads (fuel : ℕ) (size reqSize : Word) :
    (kmallocSearch npf fuel size reqSize).Leads kernelDiscipline heap .none :=
  (Code.leads_get _).bind fun v => kmallocLoop_leads npf heap hheap size reqSize fuel v

omit hheap

/-- The recursive call is made after the lock has been released. -/
theorem kmalloc_leads (caller : Word) (fuel : ℕ) (reqSize : Word) :
    (kmalloc npf caller fuel reqSize).Leads kernelDiscipline .none .none := by
  induction fuel generalizing reqSize with
  | zero => exact Code.leads_stop trivial
  | succ fuel ih =>
    have hpmm := mayCallPmm_liballocLockVar
    have hsearch := kmallocSearch_leads npf _ rfl fuel (paddedSize reqSize) reqSize
    refine (Code.leads_lock (next_none _)).bind fun _ => ?_
    refine Code.Leads.ite (fun _ => ?_) fun _ => ?_
    · refine (Code.leads_modify _).bind fun _ => ?_
      refine (log_leads npf trivial hpmm.mayPrint _ _ _).bind fun _ => ?_
      exact (release_leads _).bind fun _ => ih 1
    · refine (Code.leads_get _).bind fun root => ?_
      refine Code.Leads.ite (fun _ => ?_) fun _ => hsearch
      refine (allocateNewPage_leads npf hpmm _).bind fun root => ?_
      refine (Code.leads_modify _).bind fun _ => ?_
      refine Code.Leads.ite (fun _ => ?_) fun _ => hsearch
      refine (release_leads _).bind fun _ => ?_
      exact (report_leads npf trivial mayPrint_none _).bind fun _ => Code.leads_pure _

theorem reportMagic_leads (h : MayPrint c) (level pre : String) (min ptr caller : Word) :
    (reportMagic npf level pre min ptr caller).Leads kernelDiscipline c c := by
  refine (Code.leads_modify _).bind fun _ => ?_
  refine (Code.leads_get _).bind fun magic => ?_
  have hend : ∀ fmt args, (log npf "ERROR" fmt args).Leads kernelDiscipline c c :=
    fun fmt args => log_leads npf trivial h "ERROR" fmt args
  refine Code.Leads.ite (fun _ => ?_) fun _ => Code.Leads.ite (fun _ => hend _ _) fun _ => hend _ _
  refine (Code.leads_modify _).bind fun _ => ?_
  refine (log_leads npf trivial h _ _ _).bind fun _ => ?_
  exact Code.Leads.ite (fun _ => hend _ _) fun _ => hend _ _

theorem kfree_leads (caller ptr : Word) :
    (kfree npf caller ptr).Leads kernelDiscipline .none .none := by
  have hpmm := mayCallPmm_liballocLockVar
  refine Code.Leads.ite (fun _ => ?_) fun _ => ?_
  · exact (Code.leads_modify _).bind fun _ => log_leads npf trivial mayPrint_none _ _ _
  · refine (Code.leads_get _).bind fun ptr => ?_
    refine (Code.leads_lock (next_none _)).bind fun _ => ?_
    refine (Code.leads_get _).bind fun magic => ?_
    refine Code.Leads.ite (fun _ => ?_) fun _ => ?_
    · exact (reportMagic_leads npf hpmm.mayPrint _ _ _ _ _).bind fun _ => release_leads _
    · refine (Code.leads_get _).bind fun maj => ?_
      refine (Code.leads_modify _).bind fun _ => ?_
      refine (Code.leads_modify _).bind fun _ => ?_
      refine (Code.leads_get _).bind fun first => ?_
      refine Code.Leads.ite (fun _ => ?_) fun _ => ?_
      · refine (Code.leads_modify _).bind fun _ => ?_
        refine (Code.leads_get _).bind fun pages => ?_
        exact (pmmFreePages_leads npf hpmm _ _).bind fun _ => release_leads _
      · exact (Code.leads_modify _).bind fun _ => release_leads _

theorem kcalloc_leads (fuel : ℕ) (caller nobj size : Word) :
    (kcalloc npf fuel caller nobj size).Leads kernelDiscipline .none .none := by
  refine (kmalloc_leads npf caller fuel _).bind fun p => ?_
  refine Code.Leads.ite (fun _ => Code.leads_stop trivial) fun _ => ?_
  exact (Code.leads_modify _).bind fun _ => Code.leads_pure _

theorem krealloc_leads (fuel : ℕ) (caller here p size : Word) :
    (krealloc npf fuel caller here p size).Leads kernelDiscipline .none .none := by
  have hpmm := mayCallPmm_liballocLockVar
  refine Code.Leads.ite (fun _ => ?_) fun _ => ?_
  · exact (kfree_leads npf here p).bind fun _ => Code.leads_pure _
  · refine Code.Leads.ite (fun _ => kmalloc_leads npf here fuel size) fun _ => ?_
    refine (Code.leads_get _).bind fun ptr => ?_
    refine (Code.leads_lock (next_none _)).bind fun _ => ?_
    refine (Code.leads_get _).bind fun magic => ?_
    refine Code.Leads.ite (fun _ => ?_) fun _ => ?_
    · refine (reportMagic_leads npf hpmm.mayPrint _ _ _ _ _).bind fun _ => ?_
      exact (release_leads _).bind fun _ => Code.leads_pure _
    · refine (Code.leads_get _).bind fun realSize => ?_
      refine Code.Leads.ite (fun _ => ?_) fun _ => ?_
      · refine (Code.leads_modify _).bind fun _ => ?_
        exact (release_leads _).bind fun _ => Code.leads_pure _
      · refine (release_leads _).bind fun _ => ?_
        refine (kmalloc_leads npf here fuel size).bind fun ptr => ?_
        refine (Code.leads_modify _).bind fun _ => ?_
        exact (kfree_leads npf here p).bind fun _ => Code.leads_pure _

end Liballoc

end Locked

theorem Call.program_leads (npf : Formatter) (call : Call) :
    (call.program npf).Leads kernelDiscipline .none .none := by
  cases call with
  | putchar ch =>
    exact (Locked.putchar_leads trivial mayPrint_none ch).bind fun _ => Code.leads_pure ()
  | printf fmt args =>
    exact (Locked.printf_leads npf trivial mayPrint_none fmt args).bind fun _ => Code.leads_pure ()
  | vmmMap pm virt phys flags => exact Locked.vmmMap_leads npf pm virt phys flags
  | vmmUnmap pm virt freePhys =>
    exact (Locked.vmmUnmap_leads npf pm virt freePhys).bind fun _ => Code.leads_pure ()
  | kmalloc fuel caller reqSize =>
    exact (Locked.kmalloc_leads npf caller fuel reqSize).bind fun _ => Code.leads_pure ()
  | kcalloc fuel caller nobj size =>
    exact (Locked.kcalloc_leads npf fuel caller nobj size).bind fun _ => Code.leads_pure ()
  | krealloc fuel caller here p size =>
    exact (Locked.krealloc_leads npf fuel caller here p size).bind fun _ => Code.leads_pure ()
  | kfree caller ptr => exact Locked.kfree_leads npf caller ptr
  | idtLoad => exact Code.leads_modify _

/-- What a state of the kernel is to be free of. -/
structure LockSafe {ι : Type} (s : System ι Lock Section Kernel) : Prop where
  /-- No context tries to take a lock it holds. -/
  noSelfAcquire : ∀ i l k, (s.threads i).code = some (.acquire l k) → l ∉ (s.threads i).holding.locks
  /-- A lock has at most one holder. -/
  oneHolder : ∀ i j l, l ∈ (s.threads i).holding.locks → l ∈ (s.threads j).holding.locks → i = j
  /-- No set of contexts waits for itself. -/
  noDeadlock : ∀ C, ¬ s.Deadlock C
  /-- A context holds no lock when a call returns, and between two calls. -/
  noneOnReturn : ∀ i, (s.threads i).code = some (.ret ()) ∨ (s.threads i).code = none →
    (s.threads i).holding.locks = []

/-- From free locks on, every state that any number of contexts reach is safe. -/
theorem lockRun_safe (npf : Formatter) {ι : Type} [DecidableEq ι] {k : Kernel}
    {ts : List (Transition (System ι Lock Section Kernel) (Action ι Call))}
    {u : System ι Lock Section Kernel}
    (hrun : Run (SystemStep (Call.program npf)) (System.start k) ts u) :
    LockSafe u ∧ ∀ t ∈ ts, LockSafe t.pre ∧ LockSafe t.post := by
  have hsafe : ∀ s : System ι Lock Section Kernel, Disciplined kernelDiscipline s → LockSafe s := by
    intro s hs
    refine ⟨fun i l k hcode => hs.notMem_of_acquire hcode, hs.consistent.unique, hs.not_deadlock, ?_⟩
    rintro i (hcode | hcode)
    · rw [hs.holding_of_ret hcode]
      rfl
    · rw [hs.idle i hcode]
      rfl
  obtain ⟨hu, hts⟩ := (disciplined_start k).run (Call.program_leads npf) hrun
  exact ⟨hsafe u hu, fun t ht => ⟨hsafe _ (hts t ht).1, hsafe _ (hts t ht).2⟩⟩

/-- The kernel before its first call, with a console. -/
def bootKernel : Kernel where
  toHeap := .boot .boot fun _ => 0
  errorCount := 0
  possibleOverruns := 0
  ftCtx := true
  console := []
  interruptFlag := false

/-- Two contexts print, and the second one finds `printf_lock` taken. -/
def printTwice : List (Action Bool Call) :=
  [.call false (.putchar 'A'), .run false, .call true (.putchar 'B')]

theorem printTwice_waits :
    (((System.start bootKernel).performAll (Call.program fun _ _ => []) printTwice).any fun s =>
      s.world.locked .printfLock) = true := by
  decide +kernel

theorem lockRun_safe_printTwice : ∃ ts u,
    Run (SystemStep (Call.program fun _ _ => [])) (System.start bootKernel : System Bool _ _ _) ts u ∧
      u.world.locked .printfLock = true ∧ LockSafe u := by
  obtain ⟨u, hu, hlocked⟩ := (Option.any_eq_true _ _).mp printTwice_waits
  obtain ⟨ts, hrun⟩ := System.run_of_performAll hu
  exact ⟨ts, u, hrun, hlocked, (lockRun_safe _ hrun).1⟩

end Olive
