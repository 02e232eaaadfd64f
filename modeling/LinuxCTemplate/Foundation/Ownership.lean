import Mathlib.Logic.Basic

/-!
# Ownership of a lock

`Owned owner Holds` states that a lock's owner field names the one agent whose
program point lies inside the critical section.  The rules say how a step of one
agent keeps this: it takes the free lock and enters, it leaves and gives the lock
back, or it does neither.
-/

namespace LinuxCTemplate.Foundation

universe u

variable {Agent : Type u} {owner : Option Agent} {Holds Holds' : Agent → Prop} {self : Agent}

/-- What a step of one agent does to a lock and to its own place inside or outside the
critical section. -/
inductive LockStep (self : Agent) : Option Agent → Bool → Option Agent → Bool → Prop where
  | stay (owner : Option Agent) (inside : Bool) : LockStep self owner inside owner inside
  | acquire (inside : Bool) : LockStep self none inside (some self) true
  | release (owner : Option Agent) : LockStep self owner true none false

/-- The owner of the lock is the agent that is in the critical section. -/
def Owned (owner : Option Agent) (Holds : Agent → Prop) : Prop :=
  ∀ agent, owner = some agent ↔ Holds agent

namespace Owned

theorem unique (owned : Owned owner Holds) {left right : Agent}
    (inLeft : Holds left) (inRight : Holds right) : left = right := by
  have ownerLeft := (owned left).mpr inLeft
  have ownerRight := (owned right).mpr inRight
  exact Option.some.inj (ownerLeft.symm.trans ownerRight)

theorem congr (owned : Owned owner Holds) (same : ∀ agent, Holds' agent ↔ Holds agent) :
    Owned owner Holds' :=
  fun agent => (owned agent).trans (same agent).symm

/-- Nobody is in the critical section of a free lock. -/
theorem free (owned : Owned none Holds) (agent : Agent) : ¬ Holds agent := by
  intro holds
  cases (owned agent).mpr holds

theorem acquire (owned : Owned none Holds) (entered : Holds' self)
    (others : ∀ agent, agent ≠ self → (Holds' agent ↔ Holds agent)) :
    Owned (some self) Holds' := by
  intro agent
  constructor
  · intro isSelf
    cases isSelf
    exact entered
  · intro holds
    by_cases same : agent = self
    · rw [same]
    · exact (owned.free agent ((others agent same).mp holds)).elim

theorem release (owned : Owned owner Holds) (wasInside : Holds self) (left : ¬ Holds' self)
    (others : ∀ agent, agent ≠ self → (Holds' agent ↔ Holds agent)) :
    Owned none Holds' := by
  intro agent
  constructor
  · intro impossible
    cases impossible
  · intro holds
    by_cases same : agent = self
    · exact (left (same ▸ holds)).elim
    · exact (same (owned.unique ((others agent same).mp holds) wasInside)).elim

/-- A step of `self` keeps ownership. -/
theorem step {owner' : Option Agent} {inside inside' : Bool} (owned : Owned owner Holds)
    (moved : LockStep self owner inside owner' inside')
    (before : Holds self ↔ inside = true) (after : Holds' self ↔ inside' = true)
    (others : ∀ agent, agent ≠ self → (Holds' agent ↔ Holds agent)) :
    Owned owner' Holds' := by
  cases moved with
  | stay =>
      apply owned.congr
      intro agent
      by_cases same : agent = self
      · subst same
        exact after.trans before.symm
      · exact others agent same
  | acquire => exact owned.acquire (after.mpr rfl) others
  | release =>
      refine owned.release (before.mpr rfl) ?_ others
      intro holds
      cases after.mp holds

end Owned

end LinuxCTemplate.Foundation
