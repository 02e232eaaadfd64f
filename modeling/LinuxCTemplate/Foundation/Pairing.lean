import Mathlib.Data.List.Basic

/-!
# Events in pairs

Opening and closing events take turns, and each closing event is one for the opening event
before it.  In between there may be one opening event that has not been closed.
-/

namespace LinuxCTemplate.Foundation

universe u

variable {Event : Type u} {Closes : Event → Event → Prop} {events later : List Event}
  {opening closing : Event}

/-- Every opening event is closed before the next one. -/
inductive Paired (Closes : Event → Event → Prop) : List Event → Prop where
  | nil : Paired Closes []
  | pair {events : List Event} {opening closing : Event} : Paired Closes events →
      Closes opening closing → Paired Closes (events ++ [opening, closing])

/-- All but the last event are in pairs; the last one is to be closed. -/
def Pending (Closes : Event → Event → Prop) (opening : Event) (events : List Event) : Prop :=
  ∃ before, Paired Closes before ∧ events = before ++ [opening]

theorem Paired.opened (paired : Paired Closes events) (opening : Event) :
    Pending Closes opening (events ++ [opening]) :=
  ⟨events, paired, rfl⟩

theorem Pending.closed (pending : Pending Closes opening events) (closes : Closes opening closing) :
    Paired Closes (events ++ [closing]) := by
  obtain ⟨before, paired, rfl⟩ := pending
  rw [List.append_assoc]
  exact paired.pair closes

end LinuxCTemplate.Foundation
