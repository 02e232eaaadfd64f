import LinuxCTemplate.Threadwq.ExitCounter
import LinuxCTemplate.Threadwq.Quiet

/-!
# `threadwq_exit` returns

Under a fair scheduler and with jobs whose `cb_start` returns, once no more jobs are put on
the queue, a called `threadwq_exit` returns, whatever the worker was doing when it was called.
The exiting thread broadcasts in every polling round, so a sleeping worker is woken; the worker
then finds `exit` set, flushes what is left, and sets `exit_ack`.

The only way round this is the wrap of the exit counter: a worker that evaluates its loop
test just when a multiple of 2^32 rounds has been made goes back to serving.
-/

namespace LinuxCTemplate.Threadwq

open Foundation Machine

variable {Job : Type}

/-- `threadwq_exit` has been called. -/
def ControllerPc.exitCalled : ControllerPc → Bool
  | .pollRunning | .online => false
  | _ => true

theorem ControllerPc.joining_cases {pc : ControllerPc} (joining : pc.joining = true) :
    pc = .join ∨ pc = .returned := by
  cases pc <;> first | exact Or.inl rfl | exact Or.inr rfl | cases joining

/-! ## How far the worker is from its end -/

/-- How far the worker is from its end, if the queue is empty and `exit` is set. -/
def WorkerPc.stopRank : WorkerPc Job → Nat
  | .returned => 0
  | .unregister => 1
  | .setExitAck => 2
  | .callWorkerExit => 3
  | .dequeueNext .flush => 4
  | .callRcu .flush _ => 5
  | .inStart .flush _ => 6
  | .callStart .flush _ => 7
  | .flushDequeue => 8
  | .loopTest => 9
  | .waitUnlock => 10
  | .woken => 11
  | .blocked => 12
  | .condWait => 13
  | .waitLock => 14
  | .dequeueNext .serve => 15
  | .callRcu .serve _ => 16
  | .inStart .serve _ => 17
  | .callStart .serve _ => 18
  | .dequeue => 19
  | .setRunning => 20
  | .callWorkerInit => 21

/-- How far the worker is from its end, with the jobs that are queued. -/
def stopRank (twq : Threadwq Job) : Nat := queueRank WorkerPc.stopRank twq

/-- Each step of a worker that finds `exit` set brings it nearer to its end. -/
theorem stopRank_workerMoves {self : Nat} {ret : Int} {pc : WorkerPc Job}
    {twq next : Threadwq Job} (here : twq.worker = pc) (moves : WorkerMoves self ret twq pc next)
    (requested : pc = .loopTest → twq.exit ≠ 0) : stopRank next < stopRank twq := by
  cases moves with
  | nextRound _ _ _ zero => exact (requested rfl zero).elim
  | dequeue | serveNext | flushNext =>
      apply queueRank_dequeueOneJob <;> rw [here] <;> simp [WorkerPc.stopRank]
  | flushDequeue =>
      have cleared : stopRank { twq with accl := 0 } = stopRank twq := rfl
      rw [← cleared]
      apply queueRank_dequeueOneJob
      · intro job
        rw [here]
        simp [WorkerPc.stopRank]
      · rw [here]
        simp [WorkerPc.stopRank]
  | callStart site | inStart site | callRcu site =>
      refine Nat.add_lt_add_left ?_ _
      rw [here]
      cases site <;> simp [WorkerPc.stopRank]
  | _ =>
      refine Nat.add_lt_add_left ?_ _
      rw [here]
      simp [WorkerPc.stopRank]

namespace System

variable [DecidableEq Job] {sys next : System Job} {action : Action Job} {index : Nat}

/-- A called `threadwq_exit` goes on until it returns. -/
theorem exiting_step (step : sys.step action = some next)
    (exiting : (sys.twq index).controller.exitCalled = true) :
    (next.twq index).controller.exitCalled = true := by
  by_cases own : action = .controller index
  · subst own
    cases step_moves step with
    | controller moved =>
        obtain ⟨_, here, moves⟩ := controllerStep_moves moved
        rw [here] at exiting
        rw [setTwq_twq_self]
        cases moves <;> first | rfl | cases exiting
  · rw [step_controller_of_others step own]
    exact exiting

/-- The end of the worker is its end. -/
theorem returned_step (step : sys.step action = some next)
    (returned : (sys.twq index).worker = .returned) : (next.twq index).worker = .returned := by
  rw [step_worker_of_awake step _ (by rw [returned]; exact nofun), returned]
  rintro ⟨ret, rfl⟩
  cases step_moves step with
  | worker idle moved =>
      obtain ⟨_, here, moves⟩ := workerStep_moves moved
      rw [returned] at here
      subst here
      cases moves

end System

/-! ## The exiting thread -/

section Stopping

variable [DecidableEq Job] {exec : (System.machine Job).Execution} {index : Nat}

theorem exiting_of_le {n m : Nat} (later : n ≤ m)
    (exiting : (queueAt exec index n).controller.exitCalled = true) :
    (queueAt exec index m).controller.exitCalled = true := by
  refine kept_of_le (P := fun k => (queueAt exec index k).controller.exitCalled = true) exiting ?_ m
    later
  intro k _ exiting
  exact exec.kept (P := fun sys => (sys.twq index).controller.exitCalled = true) exiting
    fun _ _ step => System.exiting_step step exiting

theorem returned_of_le {n m : Nat} (later : n ≤ m)
    (returned : (queueAt exec index n).worker = .returned) :
    (queueAt exec index m).worker = .returned := by
  refine kept_of_le (P := fun k => (queueAt exec index k).worker = .returned) returned ?_ m later
  intro k _ returned
  exact exec.kept (P := fun sys => (sys.twq index).worker = .returned) returned
    fun _ _ step => System.returned_step step returned

/-- The exiting thread comes to a broadcast, its request made, or is past its polling
loop. -/
theorem broadcast_of_exiting (fair : FairFor exec index) :
    LeadsTo (fun n => (queueAt exec index n).controller.exitCalled = true) fun n =>
      ((queueAt exec index n).controller = .broadcast ∧
        (queueAt exec index n).log.any Event.isRequest = true) ∨
      (queueAt exec index n).controller.joining = true := by
  have ofIncrement : LeadsTo (fun n => (queueAt exec index n).controller = .increment) fun n =>
      ((queueAt exec index n).controller = .broadcast ∧
        (queueAt exec index n).log.any Event.isRequest = true) ∨
      (queueAt exec index n).controller.joining = true := by
    refine controller_next fair rfl (by simp) fun n next later moves => ?_
    rw [later]
    cases moves
    exact Or.inl ⟨rfl, by simp [Event.isRequest]⟩
  have ofLock : LeadsTo (fun n => (queueAt exec index n).controller = .lock) _ :=
    LeadsTo.trans (controller_follows fair rfl (fun _ => freedAgain fair) fun twq next moved => by
      cases moved
      rfl) ofIncrement
  have ofTestAck : LeadsTo (fun n => (queueAt exec index n).controller = .testAck) fun n =>
      ((queueAt exec index n).controller = .broadcast ∧
        (queueAt exec index n).log.any Event.isRequest = true) ∨
      (queueAt exec index n).controller.joining = true := by
    have tested : LeadsTo (fun n => (queueAt exec index n).controller = .testAck) fun n =>
        (queueAt exec index n).controller = .lock ∨ (queueAt exec index n).controller = .join := by
      refine controller_next fair rfl (by simp) fun n next later moves => ?_
      rw [later]
      cases moves with
      | acked => exact Or.inr rfl
      | again => exact Or.inl rfl
    refine tested.trans (ofLock.or (LeadsTo.of_imp fun n joined => Or.inr ?_))
    rw [joined]
    rfl
  have ofUnlock := (testAck_of_unlock fair).trans ofTestAck
  have ofBroadcast := (unlock_of_broadcast fair).trans ofUnlock
  intro n exiting
  cases here : (queueAt exec index n).controller <;> rw [here] at exiting <;> try cases exiting
  case lock => exact ofLock n here
  case increment => exact ofIncrement n here
  case broadcast => exact ofBroadcast n here
  case unlock => exact ofUnlock n here
  case testAck => exact ofTestAck n here
  case join | returned => exact ⟨n, Nat.le_refl n, Or.inr (by rw [here]; rfl)⟩

/-- A joined worker has acknowledged. -/
theorem acked_of_joining {n : Nat} (joining : (queueAt exec index n).controller.joining = true) :
    (queueAt exec index n).worker.acked = true := by
  have shutdown := shutdown_of_reachable (exec.reachable n) index
  exact shutdown.acked.mp (shutdown.joining joining)

theorem requested_of_exiting (fair : FairFor exec index) :
    LeadsTo (fun n => (queueAt exec index n).controller.exitCalled = true)
      fun n => (queueAt exec index n).log.any Event.isRequest = true := by
  refine (broadcast_of_exiting fair).trans (LeadsTo.of_imp fun n => ?_)
  rintro (⟨_, requested⟩ | joining)
  · exact requested
  · have acked := acked_of_joining joining
    apply (shutdown_of_reachable (exec.reachable n) index).leaving
    change (queueAt exec index n).worker.leaving = true
    generalize (queueAt exec index n).worker = pc at acked ⊢
    cases pc <;> first | rfl | cases acked

/-- The broadcast of a polling round wakes the worker. -/
theorem awake_of_exiting (fair : FairFor exec index) :
    LeadsTo (fun n => (queueAt exec index n).controller.exitCalled = true)
      fun n => (queueAt exec index n).worker ≠ .blocked := by
  have ofBroadcast : LeadsTo (fun n => (queueAt exec index n).controller = .broadcast)
      fun n => (queueAt exec index n).worker ≠ .blocked := by
    refine controller_next fair rfl (by nofun) fun n next later moves => ?_
    rw [later]
    cases moves
    exact signal_worker_ne_blocked _
  have ofJoining : LeadsTo (fun n => (queueAt exec index n).controller.joining = true)
      fun n => (queueAt exec index n).worker ≠ .blocked := by
    refine LeadsTo.of_imp fun n joining asleep => ?_
    have acked := acked_of_joining joining
    rw [asleep] at acked
    cases acked
  refine (broadcast_of_exiting fair).trans ((LeadsTo.mono ?_ ofBroadcast fun _ => id).or ofJoining)
  exact fun n here => here.1

/-! ## The worker -/

/-- At the moment the worker evaluates its loop test after a multiple of 2^32 rounds. -/
def WrapsAt (exec : (System.machine Job).Execution) (index n : Nat) : Prop :=
  ∃ action, exec.label n = some action ∧ System.TestsRequest index (exec.state n) action ∧
    2 ^ 32 ∣ rounds (queueAt exec index n).log

variable {N : Nat}

/-- An awake worker comes nearer to its end. -/
theorem stopRank_of_awake (fair : FairFor exec index) (returns : CallbacksReturn exec index)
    (quiet : QuietFrom exec index N)
    (requested : ∀ n, N ≤ n → (queueAt exec index n).log.any Event.isRequest = true)
    (noWrap : ∀ n, N ≤ n → ¬ WrapsAt exec index n) (rank : Nat) {pc : WorkerPc Job}
    (moves : pc.moves = true) :
    LeadsTo (fun n => N ≤ n ∧ (queueAt exec index n).worker = pc ∧
        stopRank (queueAt exec index n) = rank)
      fun n => N ≤ n ∧ stopRank (queueAt exec index n) < rank := by
  refine queueRank_of_awake fair returns quiet moves ?_ rank
  rintro n later here ret next acts moved
  refine stopRank_workerMoves here moved ?_
  rintro rfl zero
  obtain ⟨action, label, own⟩ := acts
  have counts := counts_of_reachable (exec.reachable n) index
  exact noWrap n later
    ⟨action, label, ⟨own, here, requested n later⟩, counts.exit_eq_zero_iff.mp zero⟩

/-- A sleeping worker is woken by the exiting thread. -/
theorem stopRank_of_blocked (fair : FairFor exec index) (quiet : QuietFrom exec index N)
    (exiting : (queueAt exec index N).controller.exitCalled = true) (rank : Nat) :
    LeadsTo (fun n => N ≤ n ∧ (queueAt exec index n).worker = .blocked ∧
        stopRank (queueAt exec index n) = rank)
      fun n => N ≤ n ∧ stopRank (queueAt exec index n) < rank := by
  have kept : ∀ n, (N ≤ n ∧ (queueAt exec index n).worker = .blocked ∧
        stopRank (queueAt exec index n) = rank) →
      (N ≤ n + 1 ∧ (queueAt exec index (n + 1)).worker = .blocked ∧
        stopRank (queueAt exec index (n + 1)) = rank) ∨
      (N ≤ n + 1 ∧ stopRank (queueAt exec index (n + 1)) < rank) := by
    rintro n ⟨later, asleep, isRank⟩
    have quietHere := (quiet (n + 1) (Nat.le_succ_of_le later)).trans (quiet n later).symm
    cases label : exec.label n with
    | none =>
        left
        rw [queueAt, exec.rest n label]
        exact ⟨Nat.le_succ_of_le later, asleep, isRank⟩
    | some action =>
        have step := exec.step n action label
        obtain ⟨others, sleep⟩ := System.step_worker_of_blocked step asleep
        have sameHand : (queueAt exec index (n + 1)).worker.inHand =
            (queueAt exec index n).worker.inHand := by
          rcases sleep with still | woken
          · rw [still, asleep]
          · rw [woken, asleep]
            rfl
        have sameLfq := System.lfq_of_quiet (exec.reachable n) step others sameHand quietHere
        rw [stopRank, queueRank, asleep] at isRank
        rcases sleep with still | woken
        · refine Or.inl ⟨Nat.le_succ_of_le later, still, ?_⟩
          rw [stopRank, queueRank, sameLfq, still, isRank]
        · refine Or.inr ⟨Nat.le_succ_of_le later, ?_⟩
          rw [stopRank, queueRank, sameLfq, woken, ← isRank]
          exact Nat.lt_succ_self _
  have wakes : LeadsTo (fun n => N ≤ n) fun n => (queueAt exec index n).worker ≠ .blocked :=
    LeadsTo.mono (fun n later => exiting_of_le later exiting) (awake_of_exiting fair) fun _ => id
  intro n here
  obtain ⟨m, later, ⟨awake, _, asleep, _⟩ | nearer⟩ := (wakes.along
    (R := fun n => N ≤ n ∧ (queueAt exec index n).worker = .blocked ∧
      stopRank (queueAt exec index n) = rank)
    (S := fun n => N ≤ n ∧ stopRank (queueAt exec index n) < rank) kept) n ⟨here.1, here⟩
  · exact (awake asleep).elim
  · exact ⟨m, later, nearer⟩

/-- The worker of a queue that is being left comes to its end. -/
theorem worker_returns (fair : FairFor exec index) (returns : CallbacksReturn exec index)
    (quiet : QuietFrom exec index N)
    (exiting : (queueAt exec index N).controller.exitCalled = true)
    (requested : ∀ n, N ≤ n → (queueAt exec index n).log.any Event.isRequest = true)
    (noWrap : ∀ n, N ≤ n → ¬ WrapsAt exec index n) :
    LeadsTo (fun n => N ≤ n) fun n => (queueAt exec index n).worker = .returned := by
  refine LeadsTo.of_rank (fun n => stopRank (queueAt exec index n)) fun rank n here => ?_
  obtain ⟨later, isRank⟩ := here
  cases moves : (queueAt exec index n).worker.moves with
  | true =>
      obtain ⟨m, latest, nearer⟩ := stopRank_of_awake fair returns quiet requested noWrap rank
        moves n ⟨later, rfl, isRank⟩
      exact ⟨m, latest, Or.inl nearer⟩
  | false =>
      rcases WorkerPc.stops moves with asleep | returned
      · obtain ⟨m, latest, nearer⟩ := stopRank_of_blocked fair quiet exiting rank n
          ⟨later, asleep, isRank⟩
        exact ⟨m, latest, Or.inl nearer⟩
      · exact ⟨n, Nat.le_refl n, Or.inr returned⟩

/-! ## The join -/

/-- The controlling thread is at the point, and the worker has returned. -/
def Left (exec : (System.machine Job).Execution) (index : Nat) (pc : ControllerPc) (n : Nat) :
    Prop :=
  (queueAt exec index n).controller = pc ∧ (queueAt exec index n).worker = .returned

theorem Left.of_others {pc : ControllerPc} (inside : pc ≠ .online) {n : Nat}
    (left : Left exec index pc n) (others : ¬ exec.Takes (ControllerActs index) n) :
    Left exec index pc (n + 1) :=
  ⟨controller_persists inside n left.1 others, returned_of_le (Nat.le_succ n) left.2⟩

theorem returned_of_join (fair : FairFor exec index) :
    LeadsTo (Left exec index .join) fun n => (queueAt exec index n).controller = .returned := by
  refine (controller_takes fair (Or.inr rfl) (by nofun) (fun n left => left.1)
    (fun _ n left => left.2) fun n left => left.of_others (by nofun)).next ?_
  rintro n ⟨left, acts⟩
  obtain ⟨next, later, moved⟩ := controller_moves_of_takes left.1 acts
  rw [later]
  cases moved
  rfl

theorem join_of_testAck (fair : FairFor exec index) :
    LeadsTo (Left exec index .testAck) (Left exec index .join) := by
  refine (controller_takes fair (Or.inl rfl) (by nofun) (fun n left => left.1) (by nofun)
    fun n left => left.of_others (by nofun)).next ?_
  rintro n ⟨left, acts⟩
  refine ⟨?_, returned_of_le (Nat.le_succ n) left.2⟩
  obtain ⟨next, later, moved⟩ := controller_moves_of_takes left.1 acts
  rw [later]
  cases moved with
  | acked => rfl
  | again noAck =>
      have shutdown := shutdown_of_reachable (exec.reachable n) index
      exact (shutdown.acked.mpr (by rw [left.2]; rfl) noAck).elim

/-- Once the worker has returned, `threadwq_exit` returns. -/
theorem controller_returns (fair : FairFor exec index) :
    LeadsTo (fun n => (queueAt exec index n).controller.exitCalled = true ∧
        (queueAt exec index n).worker = .returned)
      fun n => (queueAt exec index n).controller = .returned := by
  have tested : LeadsTo (fun n => (queueAt exec index n).controller.exitCalled = true) fun n =>
      (queueAt exec index n).controller = .testAck ∨
        (queueAt exec index n).controller.joining = true := by
    refine (broadcast_of_exiting fair).trans (LeadsTo.or ?_ (LeadsTo.of_imp fun n => Or.inr))
    refine LeadsTo.mono (fun n here => here.1) ?_ fun n => Or.inl
    exact (unlock_of_broadcast fair).trans (testAck_of_unlock fair)
  have left : LeadsTo _ _ := tested.along
    (R := fun n => (queueAt exec index n).worker = .returned) (S := fun _ => False)
    fun n returned => Or.inl (returned_of_le (Nat.le_succ n) returned)
  refine left.trans fun n => ?_
  rintro (⟨testing | joining, returned⟩ | impossible)
  · exact ((join_of_testAck fair).trans (returned_of_join fair)) n ⟨testing, returned⟩
  · rcases ControllerPc.joining_cases joining with atJoin | isReturned
    · exact returned_of_join fair n ⟨atJoin, returned⟩
    · exact ⟨n, Nat.le_refl n, isReturned⟩
  · exact impossible.elim

/-- Unless the exit counter is zero whenever the worker looks, `threadwq_exit` returns. -/
theorem returned_of_noWrap (fair : FairFor exec index) (returns : CallbacksReturn exec index)
    {n k : Nat}
    (exiting : (queueAt exec index n).controller.exitCalled = true)
    (quiet : QuietFrom exec index n) (noWrap : ∀ m, k ≤ m → ¬ WrapsAt exec index m) :
    ∃ m, n ≤ m ∧ (queueAt exec index m).controller = .returned := by
  obtain ⟨N, later, isRequested⟩ :=
    requested_of_exiting fair (max n k) (exiting_of_le (Nat.le_max_left n k) exiting)
  have fromN := Nat.le_trans (Nat.le_max_left n k) later
  have fromK := Nat.le_trans (Nat.le_max_right n k) later
  have requested : ∀ m, N ≤ m → (queueAt exec index m).log.any Event.isRequest = true := by
    intro m latest
    obtain ⟨event, happened, isRequest⟩ := List.any_eq_true.mp isRequested
    exact List.any_eq_true.mpr ⟨event, mem_log_of_le latest happened, isRequest⟩
  have quietN : QuietFrom exec index N := fun m latest =>
    (quiet m (Nat.le_trans fromN latest)).trans (quiet N fromN).symm
  obtain ⟨j, afterN, returned⟩ := worker_returns fair returns quietN
    (exiting_of_le fromN exiting) requested (fun m latest => noWrap m (Nat.le_trans fromK latest))
    N (Nat.le_refl N)
  have exitingJ := exiting_of_le (Nat.le_trans fromN afterN) exiting
  obtain ⟨m, afterJ, isReturned⟩ := controller_returns fair j ⟨exitingJ, returned⟩
  exact ⟨m, Nat.le_trans fromN (Nat.le_trans afterN afterJ), isReturned⟩

/-- In a run under a fair scheduler in which every `cb_start` of the queue returns, a
`threadwq_exit` that is called on a queue to which no more jobs are added returns, or again
and again the worker evaluates its loop test just when the exit counter is zero. -/
theorem threadwq_exit_returns (fair : FairFor exec index) (returns : CallbacksReturn exec index)
    {n : Nat}
    (exiting : (queueAt exec index n).controller.exitCalled = true)
    (quiet : QuietFrom exec index n) :
    (∃ m, n ≤ m ∧ (queueAt exec index m).controller = .returned) ∨
      ∀ k, ∃ m, k ≤ m ∧ WrapsAt exec index m := by
  by_cases wraps : ∀ k, ∃ m, k ≤ m ∧ WrapsAt exec index m
  · exact Or.inr wraps
  · simp only [not_forall, not_exists, not_and] at wraps
    obtain ⟨k, noWrap⟩ := wraps
    exact Or.inl (returned_of_noWrap fair returns exiting quiet noWrap)

end Stopping

/-- `threadwq_exit` is called while the worker sleeps and a job is just being added; the
exiting thread wakes the worker, which serves the job and leaves. -/
def leavingRun : List (Action Nat) :=
  List.flatten [List.replicate 6 (.worker 0 0),
    [.controller 0, .call (.producer 0) (.threadwqAddJob 0) 7, .add (.producer 0)],
    List.replicate 5 (.controller 0), List.replicate 3 (.add (.producer 0)),
    List.replicate 11 (.worker 0 0), [.rcu 0 7], List.replicate 2 (.controller 0)]

theorem threadwq_exit_returns_leavingRun :
    ∃ (exec : (System.machine Nat).Execution) (n : Nat), FairFor exec 0 ∧ CallbacksReturn exec 0 ∧
      (queueAt exec 0 n).controller = .lock ∧ (queueAt exec 0 n).lfq = [7] ∧
      (queueAt exec 0 n).worker = .blocked ∧ QuietFrom exec 0 n ∧
      ((∃ m, n ≤ m ∧ (queueAt exec 0 m).controller = .returned) ∨
        ∀ k, ∃ m, k ≤ m ∧ WrapsAt exec 0 m) := by
  obtain ⟨last, ran, worker, controller, rcu, isEnqueued, returned⟩ := System.exists_run
    (System.boot ⟨true, true⟩ ⟨1, .rr, 0⟩) leavingRun
    (fun last => (last.twq 0).worker.moves = false ∧ (last.twq 0).controller = .returned ∧
      (last.twq 0).rcu = [] ∧ enqueued (last.twq 0).log = [7] ∧
      ∀ action ∈ leavingRun, ∀ thread ∈ action.thread?, last.add thread = .idle) (by decide)
  have initial := @System.boot_initial Nat ⟨true, true⟩ ⟨1, .rr, 0⟩ rfl
  let exec : (System.machine Nat).Execution := .ofRun (fun _ _ _ taken => taken) initial ran
  have rest : ∀ n, leavingRun.length ≤ n → exec.state n = last := fun _ => Execution.ofRun_rest
  have resting : Resting 0 last :=
    ⟨worker, Or.inr controller, rcu, System.idle_of_run ran (fun _ => rfl) returned⟩
  have fair : FairFor exec 0 := .of_rest rest resting
  have returns : CallbacksReturn exec 0 := .of_rest rest resting
  have atTen : (queueAt exec 0 10).controller = .lock ∧ (queueAt exec 0 10).lfq = [7] ∧
      (queueAt exec 0 10).worker = .blocked := by
    change ((stateAfter System.step (System.boot ⟨true, true⟩ ⟨1, .rr, 0⟩)
      leavingRun 10).twq 0).controller = .lock ∧ ((stateAfter System.step
      (System.boot ⟨true, true⟩ ⟨1, .rr, 0⟩) leavingRun 10).twq 0).lfq = [7] ∧
      ((stateAfter System.step (System.boot ⟨true, true⟩ ⟨1, .rr, 0⟩)
      leavingRun 10).twq 0).worker = .blocked
    decide
  have onlySeven : ∀ m, 10 ≤ m → enqueued (queueAt exec 0 m).log = [7] := by
    have onTheWay : ∀ m < leavingRun.length, 10 ≤ m → enqueued ((stateAfter System.step
        (System.boot ⟨true, true⟩ ⟨1, .rr, 0⟩) leavingRun m).twq 0).log = [7] := by decide
    intro m later
    by_cases past : leavingRun.length ≤ m
    · rw [queueAt, rest m past, isEnqueued]
    · exact onTheWay m (Nat.lt_of_not_le past) later
  have quiet : QuietFrom exec 0 10 := fun m later =>
    (onlySeven m later).trans (onlySeven 10 (Nat.le_refl 10)).symm
  obtain ⟨atLock, queued, asleep⟩ := atTen
  exact ⟨exec, 10, fair, returns, atLock, queued, asleep, quiet,
    threadwq_exit_returns fair returns (by rw [atLock]; rfl) quiet⟩

end LinuxCTemplate.Threadwq
