import Mathlib.Data.List.Basic

/-!
# Histories

A history is the list of events of a run, oldest first.  `Justified` states that
every event is allowed by the events before it, and `before` cuts a history at the
first event of some kind.  Both are described by what appending one event does,
which is how a run extends its history.
-/

namespace LinuxCTemplate.Foundation.History

universe u

variable {Event : Type u}

/-- Every event of the history is allowed by the events before it. -/
def Justified (Allowed : List Event → Event → Prop) (history : List Event) : Prop :=
  ∀ past event rest, history = past ++ event :: rest → Allowed past event

@[simp] theorem justified_nil (Allowed : List Event → Event → Prop) :
    Justified Allowed [] := by
  intro past event rest split
  cases past <;> cases split

theorem justified_append_singleton {Allowed : List Event → Event → Prop}
    {history : List Event} {event : Event} :
    Justified Allowed (history ++ [event]) ↔
      Justified Allowed history ∧ Allowed history event := by
  constructor
  · intro justified
    refine ⟨?_, justified history event [] rfl⟩
    intro past earlier rest split
    apply justified past earlier (rest ++ [event])
    rw [split, List.append_assoc, List.cons_append]
  · rintro ⟨justified, allowed⟩ past last rest split
    rcases List.eq_nil_or_concat rest with empty | ⟨front, final, nonempty⟩
    · subst empty
      obtain ⟨rfl, sameEvent⟩ := List.append_inj' split rfl
      cases sameEvent
      exact allowed
    · rw [nonempty, List.concat_eq_append, ← List.cons_append, ← List.append_assoc] at split
      obtain ⟨rfl, _⟩ := List.append_inj' split rfl
      exact justified past last front rfl

/-- An event that must not occur later than another one does not. -/
theorem Justified.not_mem_after {Allowed : List Event → Event → Prop}
    {history past rest : List Event} {event : Event}
    (justified : Justified Allowed history) (split : history = past ++ event :: rest)
    {later : Event} (excluded : ∀ before, Allowed before later → event ∉ before) :
    later ∉ rest := by
  intro member
  obtain ⟨middle, last, rfl⟩ := List.append_of_mem member
  have allowed := justified (past ++ event :: middle) later last (by rw [split]; simp)
  exact excluded _ allowed (by simp)

/-- The part of a history before its first event of some kind. -/
def before (kind : Event → Bool) (history : List Event) : List Event :=
  history.takeWhile fun event => !kind event

/-- After the first event of the kind nothing is added. -/
theorem before_append_of_any {kind : Event → Bool} {history : List Event}
    (occurred : history.any kind) (later : List Event) :
    before kind (history ++ later) = before kind history := by
  induction history with
  | nil => simp at occurred
  | cons event history ih =>
      cases first : kind event with
      | true => simp [before, first]
      | false =>
          have rest : history.any kind = true := by simpa [first] using occurred
          have tail := ih rest
          simp only [before, List.cons_append, List.takeWhile_cons, first, Bool.not_false,
            if_true] at tail ⊢
          rw [tail]

end LinuxCTemplate.Foundation.History
