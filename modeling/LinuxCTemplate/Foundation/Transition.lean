import Mathlib.Logic.Relation
import Mathlib.Data.List.Forall2

/-!
# Labelled transition systems

A machine is a set of start states and a labelled step relation.  A run is kept
together with its history, the list of states it left and of the actions taken
there, so that a statement about a run can quantify over the states visited and
over the steps made.  The module supplies the induction principles, the
forward-simulation rule and runs by evaluation; it fixes no particular program.
-/

namespace LinuxCTemplate.Foundation

universe u v w x

/-- A labelled transition system. -/
structure Machine (State : Type u) (Action : Type v) where
  Start : State → Prop
  Step : State → Action → State → Prop

namespace Machine

variable {State : Type u} {Action : Type v} {State' : Type w} {Action' : Type x}
variable {machine : Machine State Action}

/-- `Run history state`: from some start state the steps of `history`, each
entry holding the state a step left and its action, lead to `state`. -/
inductive Run (machine : Machine State Action) : List (State × Action) → State → Prop where
  | start {state : State} : machine.Start state → Run machine [] state
  | step {history : List (State × Action)} {state next : State} {action : Action} :
      Run machine history state → machine.Step state action next →
      Run machine (history ++ [(state, action)]) next

/-- The end states of runs. -/
def Reachable (machine : Machine State Action) (state : State) : Prop :=
  ∃ history, machine.Run history state

theorem Reachable.start {state : State} (initial : machine.Start state) :
    machine.Reachable state :=
  ⟨[], .start initial⟩

theorem Reachable.step {state next : State} {action : Action}
    (reachable : machine.Reachable state) (taken : machine.Step state action next) :
    machine.Reachable next := by
  obtain ⟨history, run⟩ := reachable
  exact ⟨_, run.step taken⟩

/-- Invariance rule.  The step case may use that the state left is reachable,
so an invariant can be proved on top of those already established. -/
theorem Reachable.invariant {Inv : State → Prop}
    (initial : ∀ state, machine.Start state → Inv state)
    (preserved : ∀ state action next, machine.Reachable state → Inv state →
      machine.Step state action next → Inv next)
    {state : State} (reachable : machine.Reachable state) : Inv state := by
  obtain ⟨history, run⟩ := reachable
  induction run with
  | start atStart => exact initial _ atStart
  | step run taken ih => exact preserved _ _ _ ⟨_, run⟩ ih taken

/-- What no step changes is the same throughout a run. -/
theorem Run.unchanged {Value : Sort*} (value : State → Value)
    (same : ∀ state action next, machine.Reachable state → machine.Step state action next →
      value next = value state)
    {history : List (State × Action)} {state : State} (run : machine.Run history state) :
    ∀ entry ∈ history, value entry.1 = value state := by
  induction run with
  | start => simp
  | step run taken ih =>
      intro entry member
      rw [same _ _ _ ⟨_, run⟩ taken]
      rcases List.mem_append.mp member with earlier | last
      · exact ih entry earlier
      · rw [List.mem_singleton] at last
        rw [last]

/-- `Visits` holds of a run when it holds of every state the run has been in. -/
def Visits (history : List (State × Action)) (state : State) (Prop' : State → Prop) : Prop :=
  (∀ entry ∈ history, Prop' entry.1) ∧ Prop' state

/-- What every visited state satisfies, the state after each step satisfies. -/
theorem Run.visits_next {Prop' : State → Prop} {history : List (State × Action)} {state : State}
    (run : machine.Run history state) (visits : Visits history state Prop') :
    ∀ entry ∈ history, ∃ next, machine.Step entry.1 entry.2 next ∧ Prop' next := by
  induction run with
  | start => simp
  | @step history state next action run taken ih =>
      intro entry member
      rcases List.mem_append.mp member with earlier | last
      · apply ih _ entry earlier
        constructor
        · exact fun entry member => visits.1 entry (List.mem_append_left _ member)
        · exact visits.1 (state, action) (by simp)
      · rw [List.mem_singleton] at last
        subst last
        exact ⟨next, taken, visits.2⟩

/-- Invariance along one run whose steps all meet a condition on the state they
leave. -/
theorem Run.invariant_of_steps {Inv : State → Prop} (Allowed : State → Action → Prop)
    (initial : ∀ state, machine.Start state → Inv state)
    (preserved : ∀ state action next, machine.Reachable state → Inv state →
      Allowed state action → machine.Step state action next → Inv next)
    {history : List (State × Action)} {state : State}
    (run : machine.Run history state)
    (allowed : ∀ entry ∈ history, Allowed entry.1 entry.2) :
    Visits history state Inv := by
  induction run with
  | start atStart => exact ⟨by simp, initial _ atStart⟩
  | @step history state next action run taken ih =>
      have earlier := ih fun entry member =>
        allowed entry (List.mem_append_left _ member)
      have last := allowed (state, action) (by simp)
      refine ⟨?_, preserved _ _ _ ⟨_, run⟩ earlier.2 last taken⟩
      intro entry member
      rcases List.mem_append.mp member with before | now
      · exact earlier.1 entry before
      · rw [List.mem_singleton] at now
        subst now
        exact earlier.2

/-- Every state that a run has left is reachable. -/
theorem Run.reachable_of_mem {history : List (State × Action)} {state : State}
    (run : machine.Run history state) : ∀ entry ∈ history, machine.Reachable entry.1 := by
  have visits : Visits history state machine.Reachable :=
    run.invariant_of_steps (fun _ _ => True) (fun _ => Reachable.start)
      (fun _ _ _ _ before _ taken => before.step taken) fun _ _ => trivial
  exact visits.1

/-- A finite sequence of steps between two states, each meeting a condition on
the state it leaves and its action. -/
def Path (machine : Machine State Action) (Allowed : State → Action → Prop) :
    State → State → Prop :=
  Relation.ReflTransGen fun state next =>
    ∃ action, Allowed state action ∧ machine.Step state action next

theorem Path.reachable {Allowed : State → Action → Prop} {state last : State}
    (path : machine.Path Allowed state last) (reachable : machine.Reachable state) :
    machine.Reachable last := by
  induction path with
  | refl => exact reachable
  | tail _ taken ih =>
      obtain ⟨_, _, step⟩ := taken
      exact ih.step step

/-- Forward simulation.  If every step of `machine` is matched by a step of
`spec` whose label is the observation of that step, then every run of `machine`
is matched, state by state, by a run of `spec` with the observed labels. -/
theorem Run.simulate {spec : Machine State' Action'} {Related : State → State' → Prop}
    {observe : State → Action → Action'}
    (initial : ∀ state, machine.Start state → ∃ abstract, spec.Start abstract ∧
      Related state abstract)
    (matched : ∀ state action next abstract, machine.Reachable state →
      Related state abstract → machine.Step state action next →
      ∃ abstract', spec.Step abstract (observe state action) abstract' ∧
        Related next abstract')
    {history : List (State × Action)} {state : State}
    (run : machine.Run history state) :
    ∃ history' abstract, spec.Run history' abstract ∧ Related state abstract ∧
      List.Forall₂ (fun entry entry' => Related entry.1 entry'.1 ∧
        entry'.2 = observe entry.1 entry.2) history history' := by
  induction run with
  | start atStart =>
      obtain ⟨abstract, abstractStart, related⟩ := initial _ atStart
      exact ⟨[], abstract, .start abstractStart, related, .nil⟩
  | @step history state next action run taken ih =>
      obtain ⟨history', abstract, abstractRun, related, earlier⟩ := ih
      obtain ⟨abstract', abstractStep, related'⟩ :=
        matched _ _ _ _ ⟨_, run⟩ related taken
      refine ⟨_, abstract', abstractRun.step abstractStep, related', ?_⟩
      exact List.rel_append earlier (.cons ⟨related, rfl⟩ .nil)

/-! ## Runs by evaluation -/

section Evaluation

variable {step : State → Action → Option State} {allowed : State → Action → Bool}
  {state last : State} {actions : List Action}

/-- Make a list of steps, if each is allowed and possible when its turn comes. -/
def runWhile (step : State → Action → Option State) (allowed : State → Action → Bool)
    (state : State) : List Action → Option State
  | [] => some state
  | action :: actions =>
      if allowed state action then
        match step state action with
        | none => none
        | some next => runWhile step allowed next actions
      else
        none

theorem runWhile_cons {action : Action}
    (ran : runWhile step allowed state (action :: actions) = some last) :
    allowed state action = true ∧
      ∃ next, step state action = some next ∧ runWhile step allowed next actions = some last := by
  rw [runWhile] at ran
  split at ran
  next isAllowed =>
    cases taken : step state action with
    | none => simp [taken] at ran
    | some next =>
        simp only [taken] at ran
        exact ⟨isAllowed, next, rfl, ran⟩
  next => cases ran

/-- Steps made by evaluation continue a run. -/
theorem Run.continue_evaluated {history : List (State × Action)}
    (isStep : ∀ state action next, step state action = some next → machine.Step state action next)
    (before : machine.Run history state) (ran : runWhile step allowed state actions = some last) :
    ∃ more, machine.Run (history ++ more) last ∧ more.map Prod.snd = actions ∧
      ∀ entry ∈ more, allowed entry.1 entry.2 = true := by
  induction actions generalizing state history with
  | nil =>
      cases ran
      exact ⟨[], by simpa using before, rfl, by simp⟩
  | cons action actions ih =>
      obtain ⟨isAllowed, next, taken, rest⟩ := runWhile_cons ran
      obtain ⟨more, after, labels, all⟩ := ih (before.step (isStep _ _ _ taken)) rest
      refine ⟨(state, action) :: more, by simpa using after, by simp [labels], ?_⟩
      intro entry member
      rcases List.mem_cons.mp member with rfl | later
      · exact isAllowed
      · exact all entry later

/-- A run checked by evaluation. -/
theorem exists_runWhile (step : State → Action → Option State)
    (allowed : State → Action → Bool) (state : State) (actions : List Action)
    (Holds : State → Prop) [DecidablePred Holds]
    (checked : (runWhile step allowed state actions).any (fun last => decide (Holds last)) = true) :
    ∃ last, runWhile step allowed state actions = some last ∧ Holds last := by
  cases ran : runWhile step allowed state actions with
  | none => simp [ran] at checked
  | some last =>
      rw [ran] at checked
      exact ⟨last, rfl, of_decide_eq_true checked⟩

end Evaluation

end Machine

end LinuxCTemplate.Foundation
