import Mathlib.Tactic

/-!
# Programs with locks

A program is the tree of its steps: taking and releasing a spinlock, entering and leaving
a section of code, and an atomic access to the shared state, whose answer decides how it
goes on. Next to a program stands what the thread running it holds. A discipline says in
which order locks may be taken and which locks guard a section; `Leads` is the statement
that a program keeps it, whatever the shared state answers, and what it holds at its end.
-/

namespace Olive.Library

/-- Programs over locks `L`, sections `X` and a shared state `S` that return an `α`. -/
inductive Code (L X S α : Type) : Type 1
  | ret (a : α)
  | acquire (l : L) (k : Code L X S α)
  | release (l : L) (k : Code L X S α)
  | enter (x : X) (k : Code L X S α)
  | leave (x : X) (k : Code L X S α)
  | atomic {β : Type} (f : S → β × S) (k : β → Code L X S α)
  | stop

variable {L X S α β : Type}

namespace Code

protected def bind : Code L X S α → (α → Code L X S β) → Code L X S β
  | ret a, f => f a
  | acquire l k, f => acquire l (k.bind f)
  | release l k, f => release l (k.bind f)
  | enter x k, f => enter x (k.bind f)
  | leave x k, f => leave x (k.bind f)
  | atomic g k, f => atomic g fun b => (k b).bind f
  | stop, _ => stop

instance : Monad (Code L X S) where
  pure := ret
  bind := Code.bind

theorem bind_ret (m : Code L X S α) : m.bind ret = m := by
  induction m with
  | ret a => rfl
  | acquire l k ih => exact congrArg (acquire l) ih
  | release l k ih => exact congrArg (release l) ih
  | enter x k ih => exact congrArg (enter x) ih
  | leave x k ih => exact congrArg (leave x) ih
  | atomic f k ih => exact congrArg (atomic f) (funext ih)
  | stop => rfl

theorem bind_bind {γ : Type} (m : Code L X S α) (f : α → Code L X S β) (g : β → Code L X S γ) :
    (m.bind f).bind g = m.bind fun a => (f a).bind g := by
  induction m with
  | ret a => rfl
  | acquire l k ih => exact congrArg (acquire l) ih
  | release l k ih => exact congrArg (release l) ih
  | enter x k ih => exact congrArg (enter x) ih
  | leave x k ih => exact congrArg (leave x) ih
  | atomic f k ih => exact congrArg (atomic f) (funext ih)
  | stop => rfl

instance : LawfulMonad (Code L X S) :=
  LawfulMonad.mk' (Code L X S) bind_ret (fun _ _ => rfl) bind_bind

/-! The single steps as programs. -/

def lock (l : L) : Code L X S Unit := acquire l (ret ())
def unlock (l : L) : Code L X S Unit := release l (ret ())
def entry (x : X) : Code L X S Unit := enter x (ret ())
def exit (x : X) : Code L X S Unit := leave x (ret ())

def access (f : S → β × S) : Code L X S β := atomic f ret

def get (f : S → β) : Code L X S β := access fun s => (f s, s)

def modify (f : S → S) : Code L X S Unit := access fun s => ((), f s)

end Code

/-- The locks a thread holds, the last one taken first, and the sections it is in. -/
structure Holding (L X : Type) where
  locks : List L
  sections : List X

namespace Holding

def none : Holding L X := ⟨[], []⟩

def acquire (c : Holding L X) (l : L) : Holding L X := { c with locks := l :: c.locks }

def enter (c : Holding L X) (x : X) : Holding L X := { c with sections := x :: c.sections }

def release [DecidableEq L] (c : Holding L X) (l : L) : Holding L X :=
  { c with locks := c.locks.erase l }

def leave [DecidableEq X] (c : Holding L X) (x : X) : Holding L X :=
  { c with sections := c.sections.erase x }

@[simp] theorem locks_acquire (c : Holding L X) (l : L) : (c.acquire l).locks = l :: c.locks := rfl

@[simp] theorem release_acquire [DecidableEq L] (c : Holding L X) (l : L) :
    (c.acquire l).release l = c := by
  simp [release, acquire]

@[simp] theorem leave_enter [DecidableEq X] (c : Holding L X) (x : X) : (c.enter x).leave x = c := by
  simp [leave, enter]

end Holding

/-- Which locks a program may take, and in the order of which ranks; a section is entered
under one of the locks that guard it. `mayStop` says whether a program may end without
returning. -/
structure Discipline (L X : Type) where
  mayTake : L → Prop
  rank : L → ℕ
  guard : X → L → Prop
  mayStop : Prop

namespace Discipline

variable (D : Discipline L X)

structure Next (c : Holding L X) (l : L) : Prop where
  mayTake : D.mayTake l
  rank : ∀ h ∈ c.locks, D.rank h < D.rank l

def Guarded (c : Holding L X) : Prop := ∀ x ∈ c.sections, ∃ l ∈ c.locks, D.guard x l

variable {D} {c : Holding L X} {l : L}

theorem Next.notMem (h : D.Next c l) : l ∉ c.locks := by
  intro hl
  exact lt_irrefl _ (h.rank l hl)

theorem Guarded.acquire (h : D.Guarded c) : D.Guarded (c.acquire l) := by
  intro x hx
  obtain ⟨g, hg, hguard⟩ := h x hx
  exact ⟨g, List.mem_cons_of_mem _ hg, hguard⟩

theorem guarded_none : D.Guarded (Holding.none : Holding L X) := by
  intro x hx
  cases hx

variable [DecidableEq X]

theorem Guarded.leave {x : X} (h : D.Guarded c) : D.Guarded (c.leave x) :=
  fun y hy => h y (List.mem_of_mem_erase hy)

end Discipline

variable [DecidableEq L] [DecidableEq X]

/-- A thread that holds `c` keeps the discipline when it runs the program, and holds `d`
when the program returns. -/
def Code.Leads (D : Discipline L X) : Code L X S α → Holding L X → Holding L X → Prop
  | .ret _, c, d => c = d
  | .acquire l k, c, d => D.Next c l ∧ k.Leads D (c.acquire l) d
  | .release l k, c, d => l ∈ c.locks ∧ D.Guarded (c.release l) ∧ k.Leads D (c.release l) d
  | .enter x k, c, d => D.Guarded (c.enter x) ∧ k.Leads D (c.enter x) d
  | .leave x k, c, d => k.Leads D (c.leave x) d
  | .atomic f k, c, d => ∀ s, (k (f s).1).Leads D c d
  | .stop, _, _ => D.mayStop

namespace Code

variable {D : Discipline L X} {c d e : Holding L X} {m : Code L X S α}

theorem Leads.bind {f : α → Code L X S β} (hm : m.Leads D c d) (hf : ∀ a, (f a).Leads D d e) :
    (m >>= f).Leads D c e := by
  change (m.bind f).Leads D c e
  induction m generalizing c with
  | ret a =>
    cases hm
    exact hf a
  | acquire l k ih => exact ⟨hm.1, ih hm.2⟩
  | release l k ih => exact ⟨hm.1, hm.2.1, ih hm.2.2⟩
  | enter x k ih => exact ⟨hm.1, ih hm.2⟩
  | leave x k ih => exact ih hm
  | atomic g k ih => exact fun s => ih _ (hm s)
  | stop => exact hm

theorem leads_pure (a : α) : (pure a : Code L X S α).Leads D c c := rfl

theorem leads_lock {l : L} (h : D.Next c l) :
    (lock l : Code L X S Unit).Leads D c (c.acquire l) := ⟨h, rfl⟩

theorem leads_unlock {l : L} (h : D.Guarded c) :
    (unlock l : Code L X S Unit).Leads D (c.acquire l) c := by
  refine ⟨List.mem_cons_self, ?_, ?_⟩
  · rwa [Holding.release_acquire]
  · exact Holding.release_acquire c l

theorem leads_entry {x : X} (h : D.Guarded (c.enter x)) :
    (entry x : Code L X S Unit).Leads D c (c.enter x) := ⟨h, rfl⟩

theorem leads_exit {x : X} : (exit x : Code L X S Unit).Leads D (c.enter x) c :=
  Holding.leave_enter c x

theorem leads_access (f : S → β × S) : (access f : Code L X S β).Leads D c c := fun _ => rfl

theorem leads_get (f : S → β) : (get f : Code L X S β).Leads D c c := fun _ => rfl

theorem leads_modify (f : S → S) : (modify f : Code L X S Unit).Leads D c c := fun _ => rfl

theorem leads_stop (h : D.mayStop) : (stop : Code L X S α).Leads D c d := h

theorem Leads.ite {p : Prop} [Decidable p] {m n : Code L X S α} (hm : p → m.Leads D c d)
    (hn : ¬ p → n.Leads D c d) : (if p then m else n).Leads D c d := by
  split_ifs with h
  · exact hm h
  · exact hn h

end Code

/-! ## Running a program -/

/-- What all threads share: the state and the flags of the spinlocks. -/
structure World (L S : Type) where
  shared : S
  locked : L → Bool

/-- The next step of a program; there is none at its end, and while it waits for a lock. -/
def Code.step (w : World L S) (c : Holding L X) :
    Code L X S α → Option (World L S × Holding L X × Code L X S α)
  | .ret _ => .none
  | .acquire l k =>
    if w.locked l then .none
    else some ({ w with locked := Function.update w.locked l true }, c.acquire l, k)
  | .release l k =>
    some ({ w with locked := Function.update w.locked l false }, c.release l, k)
  | .enter x k => some (w, c.enter x, k)
  | .leave x k => some (w, c.leave x, k)
  | .atomic f k => some ({ w with shared := (f w.shared).2 }, c, k (f w.shared).1)
  | .stop => .none

/-- What a step of a disciplined program does to the locks. -/
inductive LockStep (D : Discipline L X) (locked : L → Bool) (c : Holding L X) :
    (L → Bool) → Holding L X → Prop
  | acquire {l : L} (hfree : locked l = false) (hnext : D.Next c l) :
      LockStep D locked c (Function.update locked l true) (c.acquire l)
  | release {l : L} (hheld : l ∈ c.locks) :
      LockStep D locked c (Function.update locked l false) (c.release l)
  | keep {c' : Holding L X} (hlocks : c'.locks = c.locks) : LockStep D locked c locked c'

section Step

variable {D : Discipline L X} {w w₁ : World L S} {c c₁ d : Holding L X} {m m₁ : Code L X S α}

/-- A step keeps the discipline, and with it that sections are guarded. -/
theorem Code.Leads.step (hm : m.Leads D c d) (hguard : D.Guarded c)
    (hstep : m.step w c = some (w₁, c₁, m₁)) :
    m₁.Leads D c₁ d ∧ D.Guarded c₁ ∧ LockStep D w.locked c w₁.locked c₁ := by
  cases m with
  | ret a => cases hstep
  | acquire l k =>
    by_cases hl : w.locked l
    · simp [Code.step, hl] at hstep
    · simp only [Code.step, hl] at hstep
      cases hstep
      exact ⟨hm.2, hguard.acquire, .acquire (by simpa using hl) hm.1⟩
  | release l k =>
    cases hstep
    exact ⟨hm.2.2, hm.2.1, .release hm.1⟩
  | enter x k =>
    cases hstep
    exact ⟨hm.2, hm.1, .keep rfl⟩
  | leave x k =>
    cases hstep
    exact ⟨hm, hguard.leave, .keep rfl⟩
  | atomic f k =>
    cases hstep
    exact ⟨hm w.shared, hguard, .keep rfl⟩
  | stop => cases hstep

end Step

/-! ## The flags and the holders -/

/-- A lock's flag is set while a thread holds it, and only one thread does. -/
structure Consistent {ι : Type} (locked : L → Bool) (holding : ι → Holding L X) : Prop where
  locked_iff : ∀ l, locked l = true ↔ ∃ i, l ∈ (holding i).locks
  unique : ∀ i j l, l ∈ (holding i).locks → l ∈ (holding j).locks → i = j
  nodup : ∀ i, (holding i).locks.Nodup

section Consistent

variable {ι : Type} {D : Discipline L X} {locked locked₁ : L → Bool} {holding : ι → Holding L X}
  {i : ι} {c₁ : Holding L X}

omit [DecidableEq L] [DecidableEq X] in
theorem Consistent.notMem (h : Consistent locked holding) {l : L} (hfree : locked l = false) (j : ι) :
    l ∉ (holding j).locks := by
  intro hj
  have hlocked := (h.locked_iff l).mpr ⟨j, hj⟩
  rw [hfree] at hlocked
  cases hlocked

variable [DecidableEq ι]

omit [DecidableEq L] [DecidableEq X] in
theorem mem_update_acquire (l l' : L) (j : ι) :
    l' ∈ (Function.update holding i ((holding i).acquire l) j).locks ↔
      (l' = l ∧ j = i) ∨ l' ∈ (holding j).locks := by
  by_cases hj : j = i
  · subst hj
    simp
  · rw [Function.update_of_ne hj]
    simp [hj]

omit [DecidableEq X] in
theorem Consistent.mem_update_release (h : Consistent locked holding) {l : L}
    (hl : l ∈ (holding i).locks) (l' : L) (j : ι) :
    l' ∈ (Function.update holding i ((holding i).release l) j).locks ↔
      l' ≠ l ∧ l' ∈ (holding j).locks := by
  by_cases hj : j = i
  · subst hj
    rw [Function.update_self]
    exact (h.nodup j).mem_erase_iff
  · rw [Function.update_of_ne hj]
    constructor
    · intro hl'
      refine ⟨?_, hl'⟩
      rintro rfl
      exact hj (h.unique _ _ _ hl' hl)
    · exact And.right

omit [DecidableEq L] [DecidableEq X] in
theorem nodup_update (h : Consistent locked holding) (hc : c₁.locks.Nodup) (j : ι) :
    (Function.update holding i c₁ j).locks.Nodup := by
  by_cases hj : j = i
  · subst hj
    rwa [Function.update_self]
  · rw [Function.update_of_ne hj]
    exact h.nodup j

omit [DecidableEq X] in
theorem Consistent.step (h : Consistent locked holding)
    (hstep : LockStep D locked (holding i) locked₁ c₁) :
    Consistent locked₁ (Function.update holding i c₁) := by
  cases hstep with
  | @acquire l hfree hnext =>
    have hnone := h.notMem hfree
    refine ⟨fun l' => ?_, fun j j' l' hj hj' => ?_,
      nodup_update h (List.nodup_cons.mpr ⟨hnone i, h.nodup i⟩)⟩
    · simp only [mem_update_acquire]
      by_cases hl : l' = l
      · subst hl
        simp only [Function.update_self, true_iff]
        exact ⟨i, by simp⟩
      · rw [Function.update_of_ne hl, h.locked_iff]
        simp [hl]
    · rw [mem_update_acquire] at hj hj'
      rcases hj with ⟨rfl, rfl⟩ | hj <;> rcases hj' with ⟨hl, rfl⟩ | hj'
      · rfl
      · exact absurd hj' (hnone j')
      · exact absurd (hl ▸ hj) (hnone j)
      · exact h.unique _ _ _ hj hj'
  | @release l hheld =>
    refine ⟨fun l' => ?_, fun j j' l' hj hj' => ?_, nodup_update h ((h.nodup i).erase l)⟩
    · simp only [h.mem_update_release hheld]
      by_cases hl : l' = l
      · subst hl
        simp
      · rw [Function.update_of_ne hl, h.locked_iff]
        simp [hl]
    · rw [h.mem_update_release hheld] at hj hj'
      exact h.unique _ _ _ hj.2 hj'.2
  | keep hlocks =>
    have heq : ∀ j, (Function.update holding i c₁ j).locks = (holding j).locks := by
      intro j
      by_cases hj : j = i
      · rw [hj, Function.update_self, hlocks]
      · rw [Function.update_of_ne hj]
    refine ⟨fun l => ?_, fun j j' l hj hj' => ?_, fun j => ?_⟩
    · simp only [heq, h.locked_iff]
    · rw [heq] at hj hj'
      exact h.unique _ _ _ hj hj'
    · rw [heq]
      exact h.nodup j

end Consistent

end Olive.Library
