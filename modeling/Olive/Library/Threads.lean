import Olive.Library.Code
import Olive.Library.Runs

/-!
# Threads that share locks

Each of any number of threads runs one call after the other. The steps of the threads are
interleaved, and between any two of them the shared state may change in any way, so that a
statement about all runs does not rest on how large the atomic accesses of a program are.
If all calls keep a discipline, no thread waits for itself or, with others, for ever. A
section is exclusive as long as the threads that meet in it were not let in by different
locks.
-/

namespace Olive.Library

variable {ι A L X S : Type}

/-- A thread with the rest of the call it runs, if it runs one. -/
structure Thread (L X S : Type) : Type 1 where
  code : Option (Code L X S Unit)
  holding : Holding L X

structure System (ι L X S : Type) : Type 1 where
  world : World L S
  threads : ι → Thread L X S

inductive Action (ι A : Type) where
  | call (i : ι) (a : A)
  | run (i : ι)
  | returns (i : ι)
  | other

namespace System

def start (shared : S) : System ι L X S :=
  ⟨⟨shared, fun _ => false⟩, fun _ => ⟨none, .none⟩⟩

/-- The thread is in `spinlock_acquire`, and the lock is taken. -/
def Waits (s : System ι L X S) (i : ι) (l : L) : Prop :=
  (∃ k, (s.threads i).code = some (.acquire l k)) ∧ s.world.locked l = true

/-- All threads of a set wait for locks that threads of the set hold. -/
def Deadlock (s : System ι L X S) (C : Set ι) : Prop :=
  C.Nonempty ∧ ∀ i ∈ C, ∃ l, s.Waits i l ∧ ∃ j ∈ C, l ∈ (s.threads j).holding.locks

def Exclusive (s : System ι L X S) : Prop :=
  ∀ i j x, x ∈ (s.threads i).holding.sections → x ∈ (s.threads j).holding.sections → i = j

end System

/-- The step enters a section that another thread was let into by another lock. -/
def Meets (D : Discipline L X) (s : System ι L X S) (act : Action ι A) : Prop :=
  ∃ i x k j, act = .run i ∧ (s.threads i).code = some (.enter x k) ∧ j ≠ i ∧
    x ∈ (s.threads j).holding.sections ∧
    ∃ g ∈ (s.threads i).holding.locks, ∃ g' ∈ (s.threads j).holding.locks,
      D.guard x g ∧ D.guard x g' ∧ g ≠ g'

variable [DecidableEq ι] [DecidableEq L] [DecidableEq X]

/-- The step of one thread, or of what is not modelled (`other`). -/
inductive SystemStep (program : A → Code L X S Unit) :
    System ι L X S → Action ι A → System ι L X S → Prop
  | call {s : System ι L X S} {i : ι} {a : A} (hidle : (s.threads i).code = none) :
      SystemStep program s (.call i a)
        ⟨s.world, Function.update s.threads i ⟨some (program a), (s.threads i).holding⟩⟩
  | run {s : System ι L X S} {i : ι} {m m' : Code L X S Unit} {w : World L S} {c : Holding L X}
      (hcode : (s.threads i).code = some m)
      (hstep : m.step s.world (s.threads i).holding = some (w, c, m')) :
      SystemStep program s (.run i) ⟨w, Function.update s.threads i ⟨some m', c⟩⟩
  | spin {s : System ι L X S} {i : ι} {l : L} (hwaits : s.Waits i l) :
      SystemStep program s (.run i) s
  | returns {s : System ι L X S} {i : ι} (hcode : (s.threads i).code = some (.ret ())) :
      SystemStep program s (.returns i)
        ⟨s.world, Function.update s.threads i ⟨none, (s.threads i).holding⟩⟩
  | other {s : System ι L X S} (shared : S) :
      SystemStep program s .other ⟨{ s.world with shared := shared }, s.threads⟩

/-- The next step of a thread, computed; `other` has none. -/
def System.perform (program : A → Code L X S Unit) (s : System ι L X S) :
    Action ι A → Option (System ι L X S)
  | .call i a =>
    match (s.threads i).code with
    | none => some
        ⟨s.world, Function.update s.threads i ⟨some (program a), (s.threads i).holding⟩⟩
    | some _ => none
  | .run i =>
    match (s.threads i).code with
    | none => none
    | some m => (m.step s.world (s.threads i).holding).map fun next =>
        ⟨next.1, Function.update s.threads i ⟨some next.2.2, next.2.1⟩⟩
  | .returns i =>
    match (s.threads i).code with
    | some (.ret ()) => some ⟨s.world, Function.update s.threads i ⟨none, (s.threads i).holding⟩⟩
    | _ => none
  | .other => none

def System.performAll (program : A → Code L X S Unit) (s : System ι L X S) :
    List (Action ι A) → Option (System ι L X S)
  | [] => some s
  | act :: acts =>
    match s.perform program act with
    | some t => t.performAll program acts
    | none => none

theorem System.step_of_perform {program : A → Code L X S Unit} {s t : System ι L X S}
    {act : Action ι A} (h : s.perform program act = some t) : SystemStep program s act t := by
  cases act with
  | call i a =>
    cases hcode : (s.threads i).code with
    | none =>
      simp only [perform, hcode] at h
      cases h
      exact .call hcode
    | some m => simp [perform, hcode] at h
  | run i =>
    cases hcode : (s.threads i).code with
    | none => simp [perform, hcode] at h
    | some m =>
      simp only [perform, hcode, Option.map_eq_some_iff] at h
      obtain ⟨⟨w, c, m'⟩, hstep, rfl⟩ := h
      exact .run hcode hstep
  | returns i =>
    cases hcode : (s.threads i).code with
    | none => simp [perform, hcode] at h
    | some m =>
      cases m with
      | ret a =>
        simp only [perform, hcode] at h
        cases h
        exact .returns hcode
      | _ => simp [perform, hcode] at h
  | other => cases h

theorem System.run_of_performAll {program : A → Code L X S Unit} {acts : List (Action ι A)}
    {s t : System ι L X S} (h : s.performAll program acts = some t) :
    ∃ ts, Run (SystemStep program) s ts t := by
  induction acts generalizing s with
  | nil =>
    cases h
    exact ⟨[], .nil _⟩
  | cons act acts ih =>
    cases hu : s.perform program act with
    | none => simp [performAll, hu] at h
    | some u =>
      simp only [performAll, hu] at h
      obtain ⟨ts, hts⟩ := ih h
      exact ⟨_, .cons (step_of_perform hu) hts⟩

/-- What a discipline of all calls makes true in every state. -/
structure Disciplined (D : Discipline L X) (s : System ι L X S) : Prop where
  consistent : Consistent s.world.locked fun i => (s.threads i).holding
  leads : ∀ i m, (s.threads i).code = some m → m.Leads D (s.threads i).holding .none
  idle : ∀ i, (s.threads i).code = none → (s.threads i).holding = .none
  guarded : ∀ i, D.Guarded (s.threads i).holding

section Discipline

variable {D : Discipline L X} {program : A → Code L X S Unit} {s t : System ι L X S}
  {act : Action ι A}

omit [DecidableEq L] [DecidableEq X] in
theorem holding_update (threads : ι → Thread L X S) (i : ι) (th : Thread L X S) :
    (fun j => (Function.update threads i th j).holding) =
      Function.update (fun j => (threads j).holding) i th.holding := by
  funext j
  by_cases hj : j = i
  · subst hj
    simp
  · simp [hj]

omit [DecidableEq ι] in
theorem disciplined_start (shared : S) : Disciplined D (System.start shared : System ι L X S) := by
  refine ⟨⟨?_, ?_, ?_⟩, ?_, ?_, ?_⟩
  · simp [System.start, Holding.none]
  · simp [System.start, Holding.none]
  · simp [System.start, Holding.none]
  · simp [System.start]
  · simp [System.start]
  · exact fun _ => Discipline.guarded_none

omit [DecidableEq L] [DecidableEq X] in
theorem forall_update {P : Thread L X S → Prop} {threads : ι → Thread L X S} {i : ι}
    {th : Thread L X S} (hth : P th) (h : ∀ j, P (threads j)) (j : ι) :
    P (Function.update threads i th j) := by
  by_cases hj : j = i
  · subst hj
    rwa [Function.update_self]
  · rw [Function.update_of_ne hj]
    exact h j

theorem Disciplined.update (h : Disciplined D s) {i : ι} {code : Option (Code L X S Unit)}
    (hleads : ∀ m, code = some m → m.Leads D (s.threads i).holding .none)
    (hidle : code = none → (s.threads i).holding = .none) :
    Disciplined D ⟨s.world, Function.update s.threads i ⟨code, (s.threads i).holding⟩⟩ where
  consistent := by
    rw [holding_update, Function.update_eq_self]
    exact h.consistent
  leads := forall_update (P := fun th => ∀ m, th.code = some m → m.Leads D th.holding .none)
    hleads h.leads
  idle := forall_update (P := fun th => th.code = none → th.holding = .none) hidle h.idle
  guarded := forall_update (P := fun th => D.Guarded th.holding) (h.guarded i) h.guarded

/-- The step lemma: a step of any thread keeps the system disciplined. -/
theorem Disciplined.step (hprogram : ∀ a, (program a).Leads D .none .none)
    (h : Disciplined D s) (hst : SystemStep program s act t) : Disciplined D t := by
  cases hst with
  | @call i a hidle =>
    refine h.update (fun m hm => ?_) (by simp)
    cases hm
    rw [h.idle i hidle]
    exact hprogram a
  | @run i m m' w c hcode hstep =>
    obtain ⟨hleads, hguarded, hlocks⟩ := (h.leads i m hcode).step (h.guarded i) hstep
    refine ⟨?_, ?_, ?_, ?_⟩
    · rw [holding_update]
      exact h.consistent.step hlocks
    · refine forall_update (P := fun th => ∀ m, th.code = some m → m.Leads D th.holding .none)
        (fun n hn => ?_) h.leads
      cases hn
      exact hleads
    · exact forall_update (P := fun th => th.code = none → th.holding = .none) (by simp) h.idle
    · exact forall_update (P := fun th => D.Guarded th.holding) hguarded h.guarded
  | spin hwaits => exact h
  | @returns i hcode => exact h.update (by simp) fun _ => h.leads i _ hcode
  | other shared => exact ⟨h.consistent, h.leads, h.idle, h.guarded⟩

/-- The run lemma: every state of a run is disciplined. -/
theorem Disciplined.run {ts : List (Transition (System ι L X S) (Action ι A))}
    (hprogram : ∀ a, (program a).Leads D .none .none) (h : Disciplined D s)
    (hrun : Run (SystemStep program) s ts t) :
    Disciplined D t ∧ ∀ x ∈ ts, Disciplined D x.pre ∧ Disciplined D x.post :=
  hrun.invariant (fun _ _ _ hs hst => hs.step hprogram hst) h

omit [DecidableEq ι] in
theorem Disciplined.notMem_of_acquire (h : Disciplined D s) {i : ι} {l : L}
    {k : Code L X S Unit} (hcode : (s.threads i).code = some (.acquire l k)) :
    l ∉ (s.threads i).holding.locks :=
  (h.leads i _ hcode).1.notMem

omit [DecidableEq ι] in
theorem Disciplined.holding_of_ret (h : Disciplined D s) {i : ι}
    (hcode : (s.threads i).code = some (.ret ())) : (s.threads i).holding = .none :=
  h.leads i _ hcode

omit [DecidableEq ι] in
/-- A lock of the highest rank among those waited for is held by a thread that waits for
none of the others. -/
theorem Disciplined.not_deadlock [Finite L] (h : Disciplined D s) (C : Set ι) : ¬ s.Deadlock C := by
  rintro ⟨⟨i₀, hi₀⟩, hwait⟩
  have hne : {l | ∃ i ∈ C, s.Waits i l}.Nonempty := by
    obtain ⟨l, hl, -⟩ := hwait i₀ hi₀
    exact ⟨l, i₀, hi₀, hl⟩
  obtain ⟨l, ⟨i, hi, hl⟩, hmax⟩ := Set.exists_max_image _ D.rank (Set.toFinite _) hne
  obtain ⟨l₁, hl₁, j, hj, hholds⟩ := hwait i hi
  have hl₁_eq : l₁ = l := by
    obtain ⟨⟨k, hk⟩, -⟩ := hl
    obtain ⟨⟨k₁, hk₁⟩, -⟩ := hl₁
    rw [hk] at hk₁
    cases hk₁
    rfl
  subst hl₁_eq
  obtain ⟨l₂, hl₂, -⟩ := hwait j hj
  obtain ⟨k₂, hk₂⟩ := hl₂.1
  have hlt : D.rank l₁ < D.rank l₂ := (h.leads j _ hk₂).1.rank l₁ hholds
  exact absurd (hmax l₂ ⟨j, hj, hl₂⟩) (not_le.mpr hlt)

end Discipline

/-! ## Sections -/

section Sections

variable {D : Discipline L X} {program : A → Code L X S Unit} {s t : System ι L X S}
  {act : Action ι A}

theorem sections_of_step {m m' : Code L X S Unit} {w w' : World L S} {c c' : Holding L X}
    (hstep : m.step w c = some (w', c', m')) :
    (∃ x, m = .enter x m' ∧ c'.sections = x :: c.sections) ∨
      c'.sections ⊆ c.sections ∧ ∀ x, m ≠ .enter x m' := by
  cases m with
  | enter x k =>
    cases hstep
    exact .inl ⟨x, rfl, rfl⟩
  | leave x k =>
    cases hstep
    exact .inr ⟨fun y hy => List.mem_of_mem_erase hy, by simp⟩
  | acquire l k =>
    by_cases hl : w.locked l
    · simp [Code.step, hl] at hstep
    · simp only [Code.step, hl] at hstep
      cases hstep
      exact .inr ⟨fun y hy => hy, by simp⟩
  | release l k =>
    cases hstep
    exact .inr ⟨fun y hy => hy, by simp⟩
  | atomic f k =>
    cases hstep
    exact .inr ⟨fun y hy => hy, by simp⟩
  | ret a => cases hstep
  | stop => cases hstep

omit [DecidableEq ι] [DecidableEq L] [DecidableEq X] in
theorem System.Exclusive.mono (h : s.Exclusive)
    (hle : ∀ i, (t.threads i).holding.sections ⊆ (s.threads i).holding.sections) : t.Exclusive :=
  fun i j x hi hj => h i j x (hle i hi) (hle j hj)

omit [DecidableEq L] [DecidableEq X] in
theorem System.Exclusive.enter_iff (hs : s.Exclusive) {i : ι} {x : X} {w : World L S}
    {code : Option (Code L X S Unit)} {c : Holding L X}
    (hsections : c.sections = x :: (s.threads i).holding.sections) :
    (⟨w, Function.update s.threads i ⟨code, c⟩⟩ : System ι L X S).Exclusive ↔
      ∀ j, j ≠ i → x ∉ (s.threads j).holding.sections := by
  constructor
  · intro hex j hji hj
    refine hji (hex j i x ?_ ?_)
    · simpa [hji] using hj
    · simp [hsections]
  · intro halone
    have hin : ∀ j y, y ∈ (Function.update s.threads i ⟨code, c⟩ j).holding.sections →
        (y = x ∧ j = i) ∨ y ∈ (s.threads j).holding.sections := by
      intro j y hy
      by_cases hji : j = i
      · subst hji
        rw [Function.update_self, hsections, List.mem_cons] at hy
        exact hy.imp_left fun h => ⟨h, rfl⟩
      · rw [Function.update_of_ne hji] at hy
        exact .inr hy
    intro j j' y hj hj'
    by_contra hne
    rcases hin j y hj with ⟨rfl, rfl⟩ | hold
    · rcases hin j' y hj' with ⟨-, hji'⟩ | hold'
      · exact hne hji'.symm
      · exact halone j' (Ne.symm hne) hold'
    · rcases hin j' y hj' with ⟨rfl, rfl⟩ | hold'
      · exact halone j hne hold
      · exact hne (hs j j' y hold hold')

omit [DecidableEq ι] in
/-- The lock under which a thread is in a section is not held by the thread that comes in,
which therefore comes in under another one. -/
theorem Disciplined.meets_iff (hI : Disciplined D s) {i : ι} {x : X} {k : Code L X S Unit}
    (hcode : (s.threads i).code = some (.enter x k)) :
    Meets D s (.run i : Action ι A) ↔ ∃ j, j ≠ i ∧ x ∈ (s.threads j).holding.sections := by
  constructor
  · rintro ⟨i', x', k', j, hact, hcode', hji, hj, -⟩
    cases hact
    rw [hcode] at hcode'
    cases hcode'
    exact ⟨j, hji, hj⟩
  · rintro ⟨j, hji, hj⟩
    obtain ⟨g, hg, hguard⟩ := (hI.leads i _ hcode).1 x List.mem_cons_self
    obtain ⟨g', hg', hguard'⟩ := hI.guarded j x hj
    refine ⟨i, x, k, j, rfl, hcode, hji, hj, g, hg, g', hg', hguard, hguard', ?_⟩
    rintro rfl
    exact hji (hI.consistent.unique j i g hg' hg)

omit [DecidableEq ι] [DecidableEq L] [DecidableEq X] in
theorem not_meets (hno : ∀ i x k, act = .run i → (s.threads i).code ≠ some (.enter x k)) :
    ¬ Meets D s act := by
  rintro ⟨i, x, k, j, hact, hcode, -⟩
  exact hno i x k hact hcode

/-- From a state in which sections are exclusive, a step keeps them so unless it enters
one that a thread is in with another lock: two threads with the same lock are the same. -/
theorem Disciplined.exclusive_iff (hI : Disciplined D s) (hs : s.Exclusive)
    (hst : SystemStep program s act t) : t.Exclusive ↔ ¬ Meets D s act := by
  have hmono : (∀ i, (t.threads i).holding.sections ⊆ (s.threads i).holding.sections) →
      (∀ i x k, act = .run i → (s.threads i).code ≠ some (.enter x k)) →
      (t.Exclusive ↔ ¬ Meets D s act) :=
    fun hle hno => iff_of_true (hs.mono hle) (not_meets hno)
  have hupdate : ∀ {i} {th : Thread L X S}, th.holding.sections ⊆ (s.threads i).holding.sections →
      ∀ j, (Function.update s.threads i th j).holding.sections ⊆ (s.threads j).holding.sections := by
    intro i th hth j
    by_cases hji : j = i
    · subst hji
      rwa [Function.update_self]
    · rw [Function.update_of_ne hji]
      exact List.Subset.refl _
  cases hst with
  | @call i a hidle => exact hmono (hupdate (List.Subset.refl _)) (by simp)
  | @returns i hcode => exact hmono (hupdate (List.Subset.refl _)) (by simp)
  | other shared => exact hmono (fun i => List.Subset.refl _) (by simp)
  | @spin i l hwaits =>
    obtain ⟨⟨k, hk⟩, -⟩ := hwaits
    refine hmono (fun i => List.Subset.refl _) fun j x k' hact => ?_
    cases hact
    simp [hk]
  | @run i m m' w c hcode hstep =>
    rcases sections_of_step hstep with ⟨x, rfl, hsections⟩ | ⟨hle, hno⟩
    · rw [hs.enter_iff hsections, hI.meets_iff hcode]
      simp only [not_exists, not_and]
    · refine hmono (hupdate hle) fun j x k hact hcode' => ?_
      cases hact
      rw [hcode] at hcode'
      cases hcode'
      cases hstep
      exact hno x rfl

/-- In a run of disciplined calls, sections are exclusive throughout if and only if no
step lets a thread in where another thread was let in by another lock. -/
theorem Run.exclusive_iff {shared : S} {ts : List (Transition (System ι L X S) (Action ι A))}
    (hprogram : ∀ a, (program a).Leads D .none .none)
    (hrun : Run (SystemStep program) (System.start shared) ts t) :
    (∀ x ∈ ts, x.post.Exclusive) ↔ ∀ x ∈ ts, ¬ Meets D x.pre x.act := by
  refine hrun.forall_post_iff (I := Disciplined D) (fun _ _ _ hI hs hst => hI.exclusive_iff hs hst)
    (fun _ _ _ hI _ hst => hI.step hprogram hst) (disciplined_start shared) ?_
  intro i j x hi
  simp [System.start, Holding.none] at hi

end Sections

end Olive.Library
