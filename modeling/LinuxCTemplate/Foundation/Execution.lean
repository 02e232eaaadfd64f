import LinuxCTemplate.Foundation.Transition

/-!
# Infinite runs

An execution is an infinite run of a machine in which nothing happens at some moments.
Progress is stated with leads-to over the moments of an execution.  The rules carry a
safety property along, count a rank down, and turn fairness into progress: steps that are
possible again and again are made again and again.
-/

namespace LinuxCTemplate.Foundation

universe u v

/-! ## Leads-to -/

/-- Whenever `P` holds, `Q` holds at that moment or later. -/
def LeadsTo (P Q : Nat → Prop) : Prop := ∀ n, P n → ∃ m, n ≤ m ∧ Q m

namespace LeadsTo

variable {P P' Q Q' R S : Nat → Prop}

theorem of_imp (imp : ∀ n, P n → Q n) : LeadsTo P Q :=
  fun n here => ⟨n, Nat.le_refl n, imp n here⟩

theorem trans (first : LeadsTo P Q) (second : LeadsTo Q R) : LeadsTo P R := by
  intro n here
  obtain ⟨m, later, there⟩ := first n here
  obtain ⟨k, latest, last⟩ := second m there
  exact ⟨k, Nat.le_trans later latest, last⟩

theorem mono (before : ∀ n, P' n → P n) (leads : LeadsTo P Q) (after : ∀ n, Q n → Q' n) :
    LeadsTo P' Q' :=
  ((of_imp before).trans leads).trans (of_imp after)

theorem or (left : LeadsTo P R) (right : LeadsTo Q R) : LeadsTo (fun n => P n ∨ Q n) R := by
  rintro n (here | here)
  · exact left n here
  · exact right n here

/-- What comes one moment after what is led to. -/
theorem next (leads : LeadsTo P Q) (step : ∀ n, Q n → R (n + 1)) : LeadsTo P R := by
  intro n here
  obtain ⟨m, later, there⟩ := leads n here
  exact ⟨m + 1, Nat.le_succ_of_le later, step m there⟩

/-- Progress-safety-progress: what holds on the way unless `S` comes first. -/
theorem along (leads : LeadsTo P Q) (kept : ∀ n, R n → R (n + 1) ∨ S (n + 1)) :
    LeadsTo (fun n => P n ∧ R n) fun n => Q n ∧ R n ∨ S n := by
  rintro n ⟨here, holds⟩
  obtain ⟨m, later, there⟩ := leads n here
  have onTheWay : ∀ k, R (n + k) ∨ ∃ j ≤ k, S (n + j) := by
    intro k
    induction k with
    | zero => exact Or.inl holds
    | succ k ih =>
        rcases ih with still | ⟨j, before, came⟩
        · rcases kept _ still with still | came
          · exact Or.inl still
          · exact Or.inr ⟨k + 1, Nat.le_refl _, came⟩
        · exact Or.inr ⟨j, Nat.le_succ_of_le before, came⟩
  obtain ⟨k, rfl⟩ := Nat.exists_eq_add_of_le later
  rcases onTheWay k with still | ⟨j, _, came⟩
  · exact ⟨n + k, later, Or.inl ⟨there, still⟩⟩
  · exact ⟨n + j, Nat.le_add_right n j, Or.inr came⟩

/-- A rank that is counted down until `Q`. -/
theorem of_rank (rank : Nat → Nat)
    (down : ∀ r, LeadsTo (fun n => P n ∧ rank n = r) fun n => P n ∧ rank n < r ∨ Q n) :
    LeadsTo P Q := by
  have fromRank : ∀ r n, P n → rank n = r → ∃ m, n ≤ m ∧ Q m := by
    intro r
    induction r using Nat.strongRecOn with
    | ind r ih =>
        intro n here isRank
        obtain ⟨m, later, ⟨there, less⟩ | reached⟩ := down r n ⟨here, isRank⟩
        · obtain ⟨k, latest, reached⟩ := ih (rank m) less m there rfl
          exact ⟨k, Nat.le_trans later latest, reached⟩
        · exact ⟨m, later, reached⟩
  exact fun n here => fromRank _ n here rfl

end LeadsTo

/-- What is kept from each moment to the next is kept for good. -/
theorem kept_of_le {P : Nat → Prop} {n : Nat} (here : P n)
    (kept : ∀ m, n ≤ m → P m → P (m + 1)) : ∀ m, n ≤ m → P m := by
  intro m later
  induction later with
  | refl => exact here
  | step later ih => exact kept _ later ih

namespace Machine

variable {State : Type u} {Action : Type v} {machine : Machine State Action}

/-- An infinite run.  At a moment without a label nothing happens. -/
structure Execution (machine : Machine State Action) where
  state : Nat → State
  label : Nat → Option Action
  start : machine.Start (state 0)
  rest : ∀ n, label n = none → state (n + 1) = state n
  step : ∀ n action, label n = some action → machine.Step (state n) action (state (n + 1))

namespace Execution

variable (exec : machine.Execution) {Helpful : State → Action → Prop}

theorem reachable (n : Nat) : machine.Reachable (exec.state n) := by
  induction n with
  | zero => exact .start exec.start
  | succ n ih =>
      cases label : exec.label n with
      | none =>
          rw [exec.rest n label]
          exact ih
      | some action => exact ih.step (exec.step n action label)

/-- What every step keeps is kept from a moment to the next. -/
theorem kept {P : State → Prop} {n : Nat} (here : P (exec.state n))
    (step : ∀ action, exec.label n = some action →
      machine.Step (exec.state n) action (exec.state (n + 1)) → P (exec.state (n + 1))) :
    P (exec.state (n + 1)) := by
  cases label : exec.label n with
  | none =>
      rw [exec.rest n label]
      exact here
  | some action => exact step action label (exec.step n action label)

/-! ## Fairness -/

/-- One of the steps is made at the moment. -/
def Takes (Helpful : State → Action → Prop) (n : Nat) : Prop :=
  ∃ action, exec.label n = some action ∧ Helpful (exec.state n) action

/-- One of the steps is possible at the moment. -/
def Enables (Helpful : State → Action → Prop) (n : Nat) : Prop :=
  ∃ action next, Helpful (exec.state n) action ∧ machine.Step (exec.state n) action next

/-- Strong fairness: steps that are possible again and again are made again and again. -/
def Fair (Helpful : State → Action → Prop) : Prop :=
  (∀ n, ∃ m, n ≤ m ∧ exec.Enables Helpful m) → ∀ n, ∃ m, n ≤ m ∧ exec.Takes Helpful m

variable {exec} {P : Nat → Prop}

/-- What only one of the steps ends, and what ends, one of the steps ends. -/
theorem takes_of_ends (persists : ∀ n, P n → ¬ exec.Takes Helpful n → P (n + 1))
    (ends : LeadsTo P fun n => ¬ P n) : LeadsTo P fun n => P n ∧ exec.Takes Helpful n := by
  intro n here
  by_contra never
  have still : ∀ m, n ≤ m → P m := by
    refine kept_of_le here fun m later holds => persists m holds fun taken => ?_
    exact never ⟨m, later, holds, taken⟩
  obtain ⟨m, later, ended⟩ := ends n here
  exact ended (still m later)

/-- What only a fair step ends, and as long as it lasts lets this step be possible again and
again, ends by this step. -/
theorem Fair.takes (fair : exec.Fair Helpful)
    (persists : ∀ n, P n → ¬ exec.Takes Helpful n → P (n + 1))
    (possible : LeadsTo P fun n => P n → exec.Enables Helpful n) :
    LeadsTo P fun n => P n ∧ exec.Takes Helpful n := by
  intro n here
  by_contra never
  have still : ∀ m, n ≤ m → P m := by
    refine kept_of_le here fun m later holds => persists m holds fun taken => ?_
    exact never ⟨m, later, holds, taken⟩
  have again : ∀ k, ∃ m, k ≤ m ∧ exec.Enables Helpful m := by
    intro k
    obtain ⟨m, later, enabled⟩ := possible _ (still (max n k) (Nat.le_max_left n k))
    have fromN := Nat.le_trans (Nat.le_max_left n k) later
    exact ⟨m, Nat.le_trans (Nat.le_max_right n k) later, enabled (still m fromN)⟩
  obtain ⟨m, later, taken⟩ := fair again n
  exact never ⟨m, later, still m later, taken⟩

/-- Fairness is about what is yet to come. -/
theorem Fair.of_takes {N : Nat} (takes : ∀ n, N ≤ n → exec.Enables Helpful n →
    ∃ m, n ≤ m ∧ exec.Takes Helpful m) : exec.Fair Helpful := by
  intro again n
  obtain ⟨m, later, enabled⟩ := again (max n N)
  obtain ⟨k, latest, taken⟩ := takes m (Nat.le_trans (Nat.le_max_right n N) later) enabled
  exact ⟨k, Nat.le_trans (Nat.le_max_left n N) (Nat.le_trans later latest), taken⟩

/-- An execution that comes to rest where none of the steps is possible is fair. -/
theorem Fair.of_rest {N : Nat} {last : State} (rest : ∀ n, N ≤ n → exec.state n = last)
    (stuck : ∀ action next, Helpful last action → ¬ machine.Step last action next) :
    exec.Fair Helpful := by
  apply Fair.of_takes
  rintro m later ⟨action, next, helpful, taken⟩
  rw [rest m later] at helpful taken
  exact (stuck action next helpful taken).elim

/-! ## Parts of a machine -/

section Parts

universe u' v'

variable {Part : Type u'} {PartAction : Type v'} {partMachine : Machine Part PartAction}

/-- What an execution is for a part of the machine.  When a step is none of the part, nothing
happens there. -/
def project (exec : machine.Execution) (part : State → Part)
    (act : State → Action → Option PartAction)
    (starts : ∀ state, machine.Start state → partMachine.Start (part state))
    (rests : ∀ state action next, machine.Step state action next → act state action = none →
      part next = part state)
    (steps : ∀ state action next, machine.Step state action next →
      ∀ own ∈ act state action, partMachine.Step (part state) own (part next)) :
    partMachine.Execution where
  state n := part (exec.state n)
  label n := (exec.label n).bind (act (exec.state n))
  start := starts _ exec.start
  rest n noLabel := by
    cases label : exec.label n with
    | none => rw [exec.rest n label]
    | some action =>
        rw [label] at noLabel
        exact rests _ _ _ (exec.step n action label) noLabel
  step n own isOwn := by
    obtain ⟨action, label, acts⟩ := Option.bind_eq_some_iff.mp isOwn
    exact steps _ _ _ (exec.step n action label) own acts

/-- A part is scheduled fairly if, from some moment on, its steps are the fair ones of the
machine for as long as it waits to make one. -/
theorem Fair.of_machine {part : partMachine.Execution} {Own : Part → PartAction → Prop}
    (fair : exec.Fair Helpful) {N : Nat} {P : Nat → Prop}
    (enables : ∀ n, N ≤ n → part.Enables Own n → P n ∧ exec.Enables Helpful n)
    (persists : ∀ n, N ≤ n → P n → ¬ part.Takes Own n → P (n + 1))
    (takes : ∀ n, N ≤ n → P n → exec.Takes Helpful n → part.Takes Own n) : part.Fair Own := by
  intro again n
  by_contra never
  have notTaken : ∀ m, n ≤ m → ¬ part.Takes Own m :=
    fun m later taken => never ⟨m, later, taken⟩
  obtain ⟨start, later, enabled⟩ := again (max n N)
  have fromN := Nat.le_trans (Nat.le_max_right n N) later
  have fromHere := Nat.le_trans (Nat.le_max_left n N) later
  have waits : ∀ m, start ≤ m → P m :=
    kept_of_le (enables start fromN enabled).1 fun m latest holds =>
      persists m (Nat.le_trans fromN latest) holds (notTaken m (Nat.le_trans fromHere latest))
  have possible : ∀ k, ∃ m, k ≤ m ∧ exec.Enables Helpful m := by
    intro k
    obtain ⟨m, later, enabled⟩ := again (max k N)
    exact ⟨m, Nat.le_trans (Nat.le_max_left k N) later,
      (enables m (Nat.le_trans (Nat.le_max_right k N) later) enabled).2⟩
  obtain ⟨m, latest, taken⟩ := fair possible start
  exact notTaken m (Nat.le_trans fromHere latest)
    (takes m (Nat.le_trans fromN latest) (waits m latest) taken)

end Parts

end Execution

/-! ## Runs that come to rest -/

section Evaluation

variable {step : State → Action → Option State} {allowed : State → Action → Bool}

theorem runWhile_append (state : State) (left right : List Action) :
    runWhile step allowed state (left ++ right) =
      (runWhile step allowed state left).bind fun middle =>
        runWhile step allowed middle right := by
  induction left generalizing state with
  | nil => rfl
  | cons action left ih =>
      simp only [List.cons_append, runWhile]
      split
      · cases step state action with
        | none => rfl
        | some next => exact ih next
      · rfl

/-- The state after the first `n` of the steps. -/
def stateAfter (step : State → Action → Option State) (start : State) (actions : List Action)
    (n : Nat) : State :=
  (runWhile step (fun _ _ => true) start (actions.take n)).getD start

variable {start last : State} {actions : List Action}

theorem run_take (ran : runWhile step (fun _ _ => true) start actions = some last) (n : Nat) :
    runWhile step (fun _ _ => true) start (actions.take n) =
      some (stateAfter step start actions n) := by
  unfold stateAfter
  rw [← List.take_append_drop n actions, runWhile_append] at ran
  obtain ⟨middle, evaluated, _⟩ := Option.bind_eq_some_iff.mp ran
  rw [evaluated, Option.getD_some]

/-- The execution that makes the steps of a run and then rests. -/
def Execution.ofRun (isStep : ∀ state action next, step state action = some next →
    machine.Step state action next) (initial : machine.Start start)
    (ran : runWhile step (fun _ _ => true) start actions = some last) : machine.Execution where
  state := stateAfter step start actions
  label n := actions[n]?
  start := initial
  rest n noLabel := by
    have past := List.getElem?_eq_none_iff.mp noLabel
    rw [stateAfter, stateAfter, List.take_of_length_le past,
      List.take_of_length_le (Nat.le_succ_of_le past)]
  step n action label := by
    have evaluated := run_take ran (n + 1)
    rw [List.take_add_one, label, Option.toList_some, runWhile_append, run_take ran n] at evaluated
    simp only [Option.bind_some, runWhile, if_true] at evaluated
    cases taken : step (stateAfter step start actions n) action with
    | none =>
        rw [taken] at evaluated
        cases evaluated
    | some next =>
        rw [taken, Option.some.injEq] at evaluated
        exact evaluated ▸ isStep _ _ _ taken

/-- Behind its last step the execution is at rest. -/
theorem Execution.ofRun_rest {isStep : ∀ state action next, step state action = some next →
    machine.Step state action next} {initial : machine.Start start}
    {ran : runWhile step (fun _ _ => true) start actions = some last} {n : Nat}
    (past : actions.length ≤ n) : (Execution.ofRun isStep initial ran).state n = last := by
  have evaluated := run_take ran n
  rw [List.take_of_length_le past, ran, Option.some.injEq] at evaluated
  exact evaluated.symm

/-- Some execution makes the steps of a run and then rests. -/
theorem Execution.exists_ofRun (isStep : ∀ state action next, step state action = some next →
    machine.Step state action next) (initial : machine.Start start)
    (ran : runWhile step (fun _ _ => true) start actions = some last) :
    ∃ exec : machine.Execution, (∀ n, exec.state n = stateAfter step start actions n) ∧
      ∀ n, actions.length ≤ n → exec.state n = last :=
  ⟨.ofRun isStep initial ran, fun _ => rfl, fun _ => ofRun_rest⟩

end Evaluation

end Machine

end LinuxCTemplate.Foundation
