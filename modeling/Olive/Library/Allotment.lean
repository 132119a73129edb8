import Mathlib.Logic.ExistsUnique
import Mathlib.Data.Set.Basic

/-!
# Resources with exactly one owner

A pool of resources is allotted when each of them has exactly one owner and nothing
outside the pool has any. The only change needed is that one resource moves from
its owner to another one while all others stay where they are.
-/

namespace Olive.Library

variable {Q O : Type*}

/-- Every resource of the pool has exactly one owner, and no other resource has one. -/
structure Allotted (pool : Set Q) (owns : Q → O → Prop) : Prop where
  owner : ∀ q ∈ pool, ∃! o, owns q o
  pool : ∀ q o, owns q o → q ∈ pool

/-- `owns'` is `owns` after `q` came to `o`. -/
structure Moved (owns owns' : Q → O → Prop) (q : Q) (o : O) : Prop where
  here : ∀ o', owns' q o' ↔ o' = o
  elsewhere : ∀ q', q' ≠ q → ∀ o', owns' q' o' ↔ owns q' o'

section

variable {pool : Set Q} {owns owns' : Q → O → Prop} {q : Q} {o o' : O}

theorem Allotted.unique (h : Allotted pool owns) (ho : owns q o) (ho' : owns q o') : o = o' :=
  (h.owner q (h.pool q o ho)).unique ho ho'

theorem Allotted.move (h : Allotted pool owns) (hq : q ∈ pool) (hmove : Moved owns owns' q o) :
    Allotted pool owns' where
  owner := by
    intro q' hq'
    by_cases heq : q' = q
    · subst heq
      exact ⟨o, (hmove.here o).mpr rfl, fun o' ho' => (hmove.here o').mp ho'⟩
    · obtain ⟨o', ho', huniq⟩ := h.owner q' hq'
      refine ⟨o', (hmove.elsewhere q' heq o').mpr ho', fun o'' ho'' => ?_⟩
      exact huniq o'' ((hmove.elsewhere q' heq o'').mp ho'')
  pool := by
    intro q' o' ho'
    by_cases heq : q' = q
    · exact heq ▸ hq
    · exact h.pool q' o' ((hmove.elsewhere q' heq o').mp ho')

end

end Olive.Library
