import Mathlib.Algebra.Ring.Nat
import LinuxCTemplate.Threadwq.Handover
import LinuxCTemplate.Threadwq.Shutdown

/-!
# The exit counter

`kill_online_worker` requests the exit of a worker by `exit++`, once per polling round,
and `thread_func` takes any value but 0 for a request.  The counter has 32 bits: after a
multiple of 2^32 rounds it is 0 again, and a worker that evaluates its loop test then goes
back to serving.  At any other time the request stands.
-/

namespace LinuxCTemplate.Threadwq

open Foundation

variable {Job : Type}

/-- The polling rounds made so far, each with its `exit++`. -/
def rounds (log : List (Event Job)) : Nat :=
  log.countP Event.isRequest

@[simp] theorem rounds_append (left right : List (Event Job)) :
    rounds (left ++ right) = rounds left + rounds right :=
  List.countP_append

theorem rounds_pos_iff {log : List (Event Job)} :
    0 < rounds log ↔ log.any Event.isRequest = true := by
  unfold rounds
  rw [List.countP_pos_iff, List.any_eq_true]

/-- `exit` is the number of rounds, as far as 32 bits can count. -/
def Counts (twq : Threadwq Job) : Prop :=
  twq.exit.toNat = rounds twq.log % 2 ^ 32

theorem Counts.exit_eq_zero_iff {twq : Threadwq Job} (counts : Counts twq) :
    twq.exit = 0 ↔ 2 ^ 32 ∣ rounds twq.log := by
  unfold Counts at counts
  rw [Nat.dvd_iff_mod_eq_zero, ← counts, ← UInt32.toNat_inj]
  rfl

theorem Counts.kept {twq next : Threadwq Job} (counts : Counts twq) (exit : next.exit = twq.exit)
    (sameRounds : rounds next.log = rounds twq.log) : Counts next := by
  unfold Counts
  rw [exit, sameRounds]
  exact counts

/-! ## The steps -/

theorem Writes.rounds {role : Role} {twq next : Threadwq Job} (writes : Writes role twq next)
    (notController : role ≠ .controller) : rounds next.log = rounds twq.log := by
  obtain ⟨events, moreLog, noRequest⟩ := writes.noRequest notController
  rw [moreLog, rounds_append]
  exact Nat.add_eq_left.mpr (List.countP_eq_zero.mpr noRequest)

theorem workerStep_exit {self : Nat} {ret : Int} {twq next : Threadwq Job}
    (step : workerStep self ret twq = some next) : next.exit = twq.exit := by
  obtain ⟨_, _, moves⟩ := workerStep_moves step
  cases moves with
  | dequeue | serveNext | flushNext | flushDequeue =>
      unfold dequeueOneJob
      split <;> rfl
  | _ => rfl

/-- The `exit++` of a polling round. -/
theorem Counts.increment {twq next : Threadwq Job} (counts : Counts twq)
    (exit : next.exit = twq.exit + 1) (log : next.log = twq.log ++ [.exitRequest]) :
    Counts next := by
  unfold Counts at counts ⊢
  have oneMore : rounds next.log = rounds twq.log + 1 := by
    rw [log, rounds_append]
    rfl
  rw [exit, oneMore, UInt32.toNat_add, counts]
  exact Nat.mod_add_mod ..

theorem Counts.controller {self : Nat} {twq next : Threadwq Job} (counts : Counts twq)
    (step : controllerStep self twq = some next) : Counts next := by
  obtain ⟨_, _, moves⟩ := controllerStep_moves step
  cases moves with
  | increment => exact counts.increment rfl rfl
  | broadcast => exact counts.kept (by rw [signal_eq]) (by rw [signal_eq])
  | join => exact counts.kept rfl (by simp [rounds, Event.isRequest])
  | _ => exact counts.kept rfl rfl

theorem Counts.change [DecidableEq Job] {self : Nat} {twq next : Threadwq Job}
    (counts : Counts twq) (change : Change self twq next) : Counts next := by
  cases change with
  | worker ret step =>
      exact counts.kept (workerStep_exit step) ((workerStep_writes step).rounds nofun)
  | controller step => exact counts.controller step
  | enqueue => exact counts.kept rfl (by simp [enqueue, rounds, Event.isRequest])
  | lock thread acquired =>
      obtain ⟨_, rfl⟩ := lock_eq_some.mp acquired
      exact counts.kept rfl rfl
  | unlock => exact counts.kept rfl rfl
  | signal => exact counts.kept (by rw [signal_eq]) (by rw [signal_eq])
  | spurious woken =>
      obtain ⟨_, rfl⟩ := spuriousWakeup_eq_some.mp woken
      exact counts.kept rfl rfl
  | finish job ran =>
      obtain ⟨_, rfl⟩ := execFinishRcu_eq_some.mp ran
      exact counts.kept rfl (by simp [rounds, Event.isRequest])

theorem counts_of_reachable [DecidableEq Job] {sys : System Job}
    (reachable : (System.machine Job).Reachable sys) (index : Nat) : Counts (sys.twq index) :=
  System.queue_invariant (fun _ twq => Counts twq) (fun _ _ _ => rfl)
    (fun _ _ _ counts change => counts.change change) reachable index

/-! ## Sticky requests -/

/-- A worker that has left its loop does not come back to it. -/
theorem leaving_workerStep {self : Nat} {ret : Int} {twq next : Threadwq Job}
    (step : workerStep self ret twq = some next) (leaving : twq.worker.leaving = true) :
    next.worker.leaving = true := by
  obtain ⟨_, pc, moves⟩ := workerStep_moves step
  rw [pc] at leaving
  cases moves with
  | callStart site | inStart site | callRcu site =>
      cases site <;> cases leaving
      rfl
  | flushNext | flushDequeue =>
      unfold dequeueOneJob
      split <;> rfl
  | callWorkerExit | skipWorkerExit | setExitAck | unregister => rfl
  | _ => cases leaving

theorem leaving_change [DecidableEq Job] {self : Nat} {twq next : Threadwq Job}
    (change : Change self twq next) (leaving : twq.worker.leaving = true) :
    next.worker.leaving = true :=
  change.worker_keeps rfl (fun _ _ => leaving_workerStep) leaving

namespace System

variable [DecidableEq Job]

/-- The step is the worker's evaluation of `twq->exit == 0` after the first `exit++`. -/
def TestsRequest (index : Nat) (sys : System Job) (action : Action Job) : Prop :=
  (∃ ret, action = .worker index ret) ∧ (sys.twq index).worker = .loopTest ∧
    (sys.twq index).log.any Event.isRequest = true

/-- The worker evaluates the test to false, and never comes back to its loop. -/
def LeavesLoop (index : Nat) (sys : System Job) (action : Action Job) : Prop :=
  (sys.twq index).exit ≠ 0 ∧
    ∀ next, sys.step action = some next → ∀ later,
      (machine Job).Path (fun _ _ => True) next later → (later.twq index).worker.leaving = true

theorem leavesLoop_iff {index : Nat} {sys : System Job} {action : Action Job}
    (reachable : (machine Job).Reachable sys) (tests : TestsRequest index sys action) :
    LeavesLoop index sys action ↔ ¬ 2 ^ 32 ∣ rounds (sys.twq index).log := by
  have zero := (counts_of_reachable reachable index).exit_eq_zero_iff
  rw [← zero]
  constructor
  · exact fun leaves => leaves.1
  · intro nonzero
    refine ⟨nonzero, fun next taken later path => ?_⟩
    have reachable' := reachable.step taken
    refine path_keeps (fun twq => twq.worker.leaving = true) (fun _ _ => leaving_change)
      reachable' path ?_
    obtain ⟨⟨ret, rfl⟩, atTest, _⟩ := tests
    simp only [System.step, workerStep, atTest, if_neg nonzero] at taken
    split at taken <;> cases taken
    rw [setTwq_twq_self]
    rfl

/-- Fewer than 2^32 rounds do not bring the counter back to 0. -/
theorem leavesLoop_of_few_rounds {history : List (System Job × Action Job)} {sys : System Job}
    (run : (machine Job).Run history sys) {index : Nat}
    (few : rounds (sys.twq index).log < 2 ^ 32) :
    ∀ entry ∈ history, TestsRequest index entry.1 entry.2 →
      LeavesLoop index entry.1 entry.2 := by
  intro entry member tests
  refine (leavesLoop_iff (run.reachable_of_mem entry member) tests).mpr fun divides => ?_
  have made : 0 < rounds (entry.1.twq index).log := rounds_pos_iff.mpr tests.2.2
  have atMost : rounds (entry.1.twq index).log ≤ rounds (sys.twq index).log :=
    (log_prefix_of_run run index entry member).sublist.countP_le
  have wrapped : 2 ^ 32 ≤ rounds (entry.1.twq index).log := Nat.le_of_dvd made divides
  omega

/-! ## Rounds without end -/

/-- A step of the controlling thread, seen from its queue. -/
theorem reachable_controllerStep {index : Nat} {sys : System Job} {twq : Threadwq Job}
    (reachable : (machine Job).Reachable sys)
    (step : controllerStep index (sys.twq index) = some twq) :
    ∃ next, (machine Job).Reachable next ∧ next.twq index = twq := by
  refine ⟨sys.setTwq index twq, ?_, setTwq_twq_self ..⟩
  have taken : (machine Job).Step sys (.controller index) (sys.setTwq index twq) := by
    change (controllerStep index (sys.twq index)).map (sys.setTwq index) = _
    rw [step]
    rfl
  exact reachable.step taken

/-- The worker is about to evaluate its loop test while the exiting thread is about to
begin a polling round, after `made` of them. -/
structure BeforeRound (index made : Nat) (sys : System Job) : Prop where
  worker : (sys.twq index).worker = .loopTest
  controller : (sys.twq index).controller = .lock
  mutex : (sys.twq index).mutex = none
  exitAck : (sys.twq index).exitAck = 0
  rounds : rounds (sys.twq index).log = made

/-- The exiting thread makes a round while the worker does not move. -/
theorem BeforeRound.next {index made : Nat} {sys : System Job}
    (reachable : (machine Job).Reachable sys) (before : BeforeRound index made sys) :
    ∃ next, (machine Job).Reachable next ∧ BeforeRound index (made + 1) next := by
  obtain ⟨worker, controller, mutex, exitAck, isMade⟩ := before
  have lock : controllerStep index (sys.twq index) = some
      { sys.twq index with mutex := some (.controller index), controller := .increment } := by
    simp [controllerStep, controller, Threadwq.lock, mutex]
  obtain ⟨sys₁, reachable₁, locked⟩ := reachable_controllerStep reachable lock
  have increment : controllerStep index (sys₁.twq index) = some { sys₁.twq index with
      exit := (sys₁.twq index).exit + 1
      controller := .broadcast
      log := (sys₁.twq index).log ++ [.exitRequest] } := by
    rw [locked]
    rfl
  obtain ⟨sys₂, reachable₂, incremented⟩ := reachable_controllerStep reachable₁ increment
  -- The worker is not asleep, so the broadcast reaches nobody.
  have awake : (sys₂.twq index).worker = .loopTest := by
    rw [incremented, locked]
    exact worker
  have broadcast : controllerStep index (sys₂.twq index) =
      some { sys₂.twq index with controller := .unlock } := by
    have atBroadcast : (sys₂.twq index).controller = .broadcast := by rw [incremented]
    simp only [controllerStep, atBroadcast, Threadwq.signal, awake]
  obtain ⟨sys₃, reachable₃, signalled⟩ := reachable_controllerStep reachable₂ broadcast
  have unlock : controllerStep index (sys₃.twq index) =
      some { Threadwq.unlock (sys₃.twq index) with controller := .testAck } := by
    rw [signalled]
    rfl
  obtain ⟨sys₄, reachable₄, unlocked⟩ := reachable_controllerStep reachable₃ unlock
  have noAck : (sys₄.twq index).exitAck = 0 := by
    rw [unlocked, signalled, incremented, locked]
    exact exitAck
  have testAck : controllerStep index (sys₄.twq index) =
      some { sys₄.twq index with controller := .lock } := by
    have atTestAck : (sys₄.twq index).controller = .testAck := by rw [unlocked]
    simp [controllerStep, atTestAck, noAck]
  obtain ⟨sys₅, reachable₅, tested⟩ := reachable_controllerStep reachable₄ testAck
  refine ⟨sys₅, reachable₅, ?_⟩
  constructor
  case worker =>
    rw [tested, unlocked, signalled]
    exact awake
  case controller => rw [tested]
  case mutex =>
    rw [tested, unlocked]
    rfl
  case exitAck =>
    rw [tested]
    exact noAck
  case rounds =>
    rw [tested, unlocked, signalled, incremented, locked]
    change Threadwq.rounds ((sys.twq index).log ++ [.exitRequest]) = made + 1
    rw [rounds_append, isMade]
    rfl

theorem exists_beforeRound {index : Nat} {sys : System Job}
    (reachable : (machine Job).Reachable sys) (before : BeforeRound index 0 sys) (made : Nat) :
    ∃ next, (machine Job).Reachable next ∧ BeforeRound index made next := by
  induction made with
  | zero => exact ⟨sys, reachable, before⟩
  | succ made ih =>
      obtain ⟨next, reachable', before'⟩ := ih
      exact before'.next reachable'

end System

/-- The exit request of a run is sticky if and only if the worker never evaluates its loop
test when the number of polling rounds is a multiple of 2^32. -/
theorem exit_sticky_iff [DecidableEq Job] {history : List (System Job × Action Job)}
    {sys : System Job} (run : (System.machine Job).Run history sys) (index : Nat) :
    (∀ entry ∈ history, System.TestsRequest index entry.1 entry.2 →
        System.LeavesLoop index entry.1 entry.2) ↔
      ∀ entry ∈ history, System.TestsRequest index entry.1 entry.2 →
        ¬ 2 ^ 32 ∣ rounds (entry.1.twq index).log := by
  constructor
  · intro sticky entry member tests
    have reachable := run.reachable_of_mem entry member
    exact (System.leavesLoop_iff reachable tests).mp (sticky entry member tests)
  · intro odd entry member tests
    have reachable := run.reachable_of_mem entry member
    exact (System.leavesLoop_iff reachable tests).mpr (odd entry member tests)

/-- The worker has come up and `threadwq_exit` is called before its first loop test. -/
def exitAtOnceRun : List (Action Nat) :=
  [.worker 0 0, .worker 0 0, .controller 0, .controller 0]

/-- While the worker does not get to its loop test, the exiting thread makes 2^32 rounds. -/
theorem exit_not_sticky :
    ¬ ∀ (history : List (System Nat × Action Nat)) (sys : System Nat) (index : Nat),
      (System.machine Nat).Run history sys →
      ∀ entry ∈ history, System.TestsRequest index entry.1 entry.2 →
        System.LeavesLoop index entry.1 entry.2 := by
  intro sticky
  obtain ⟨sys, ran, worker, controller, mutex, exitAck, noRounds⟩ := System.exists_run
    (System.boot ⟨true, true⟩ ⟨1, .rr, 0⟩) exitAtOnceRun
    (fun sys => (sys.twq 0).worker = .loopTest ∧ (sys.twq 0).controller = .lock ∧
      (sys.twq 0).mutex = none ∧ (sys.twq 0).exitAck = 0 ∧ rounds (sys.twq 0).log = 0) (by decide)
  have reachable := System.reachable_of_run (System.boot_initial _ _ rfl) ran
  obtain ⟨late, ⟨history, run⟩, before⟩ := System.exists_beforeRound reachable
    ⟨worker, controller, mutex, exitAck, noRounds⟩ (2 ^ 32)
  have workerIdle : (late.add (.worker 0)).isIdle = true := by
    by_contra busy
    have inside := (System.jobs_of_reachable ⟨history, run⟩).caller 0 (Bool.not_eq_true _ ▸ busy)
    rw [before.worker] at inside
    cases inside
  have requested : (late.twq 0).log.any Event.isRequest = true := by
    rw [← rounds_pos_iff, before.rounds]
    exact Nat.two_pow_pos 32
  have able : (late.step (.worker 0 0)).isSome = true := by
    by_cases noRequest : (late.twq 0).exit = 0
    · simp [System.step, workerIdle, workerStep, before.worker, noRequest]
    · simp [System.step, workerIdle, workerStep, before.worker, noRequest]
  obtain ⟨next, step⟩ := Option.isSome_iff_exists.mp able
  have tests : System.TestsRequest 0 late (.worker 0 0) := ⟨⟨0, rfl⟩, before.worker, requested⟩
  have leaves := sticky _ _ 0 (run.step step) (late, .worker 0 0) (by simp) tests
  have wrapped : 2 ^ 32 ∣ rounds (late.twq 0).log :=
    before.rounds ▸ Nat.dvd_refl _
  exact (System.leavesLoop_iff ⟨history, run⟩ tests).mp leaves wrapped

/-- The worker evaluates its loop test after the first round. -/
theorem exit_sticky_iff_one_round :
    ∃ history sys, (System.machine Nat).Run history sys ∧ (sys.twq 0).worker = .flushDequeue ∧
      ((∀ entry ∈ history, System.TestsRequest 0 entry.1 entry.2 →
          System.LeavesLoop 0 entry.1 entry.2) ↔
        ∀ entry ∈ history, System.TestsRequest 0 entry.1 entry.2 →
          ¬ 2 ^ 32 ∣ rounds (entry.1.twq 0).log) := by
  obtain ⟨sys, ran, leaves⟩ := System.exists_run (System.boot ⟨true, true⟩ ⟨1, .rr, 0⟩)
    (exitAtOnceRun ++ [.controller 0, .controller 0, .worker 0 0])
    (fun sys => (sys.twq 0).worker = .flushDequeue) (by decide)
  obtain ⟨history, run, _⟩ := System.exists_history (System.boot_initial _ _ rfl) ran
  exact ⟨history, sys, run, leaves, exit_sticky_iff run 0⟩

end LinuxCTemplate.Threadwq
