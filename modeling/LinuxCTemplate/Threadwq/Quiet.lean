import LinuxCTemplate.Threadwq.Service

/-!
# A queue that is left alone

When no more jobs are put on a queue, each step of its worker brings it nearer to what it
will do in the end.  If nobody asks it to stop either, it serves what is left and goes to
sleep, and if nobody wakes it, it sleeps for good.
-/

namespace LinuxCTemplate.Threadwq

open Foundation Machine

variable {Job : Type}

/-! ## Ranks of a queue -/

/-- Each job that is queued may cost one more round. -/
def queueRank (rank : WorkerPc Job → Nat) (twq : Threadwq Job) : Nat :=
  22 * twq.lfq.length + rank twq.worker

/-- A dequeue lowers the rank. -/
theorem queueRank_dequeueOneJob {rank : WorkerPc Job → Nat} {twq : Threadwq Job}
    (found : Job → WorkerPc Job) (empty : WorkerPc Job)
    (nextJob : ∀ job, rank (found job) < 22 + rank twq.worker)
    (noJob : rank empty < rank twq.worker) :
    queueRank rank (twq.dequeueOneJob found empty) < queueRank rank twq := by
  unfold dequeueOneJob
  split
  next => exact Nat.add_lt_add_left noJob _
  next job rest nonempty =>
    have less := nextJob job
    simp only [queueRank, nonempty, List.length_cons]
    omega

variable [DecidableEq Job]

namespace System

variable {sys next : System Job} {action : Action Job} {index : Nat}

/-- Others change the contents of the queue only by putting jobs on it. -/
theorem lfq_of_quiet (reachable : (machine Job).Reachable sys) (step : sys.step action = some next)
    (others : ¬ WorkerActs index sys action)
    (sameHand : (next.twq index).worker.inHand = (sys.twq index).worker.inHand)
    (quiet : enqueued (next.twq index).log = enqueued (sys.twq index).log) :
    (next.twq index).lfq = (sys.twq index).lfq := by
  have before := congrArg List.length (delivery_of_reachable reachable index).queue
  have after := congrArg List.length
    (delivery_of_reachable (reachable.step step) index).queue
  obtain ⟨events, moreLog, _⟩ := step_writes step index
  have moreStarted : (started (next.twq index).log).length =
      (started (sys.twq index).log).length + (started events).length := by
    rw [moreLog, started_append, List.length_append]
  rw [quiet, sameHand] at after
  simp only [List.length_append] at before after
  exact ((step_lfq_of_others step others).eq_of_length_le (by omega)).symm

end System

section Quiet

variable {exec : (System.machine Job).Execution} {index : Nat}

/-- From the moment on no job is put on the queue. -/
def QuietFrom (exec : (System.machine Job).Execution) (index n : Nat) : Prop :=
  ∀ m, n ≤ m → enqueued (queueAt exec index m).log = enqueued (queueAt exec index n).log

variable {N : Nat}

/-- The contents of the queue are changed by the worker only. -/
theorem lfq_of_others {n : Nat} (quiet : QuietFrom exec index N) (later : N ≤ n)
    (sameHand : (queueAt exec index (n + 1)).worker.inHand = (queueAt exec index n).worker.inHand)
    (others : ¬ exec.Takes (WorkerActs index) n) :
    (queueAt exec index (n + 1)).lfq = (queueAt exec index n).lfq := by
  have quietHere := (quiet (n + 1) (Nat.le_succ_of_le later)).trans (quiet n later).symm
  cases label : exec.label n with
  | none => rw [queueAt, exec.rest n label]
  | some action =>
      exact System.lfq_of_quiet (exec.reachable n) (exec.step n action label)
        (fun own => others ⟨action, label, own⟩) sameHand quietHere

/-- An awake worker lowers the rank, if its steps do. -/
theorem queueRank_of_awake (fair : FairFor exec index) (returns : CallbacksReturn exec index)
    (quiet : QuietFrom exec index N) {pc : WorkerPc Job} (moves : pc.moves = true)
    {rank : WorkerPc Job → Nat}
    (lowers : ∀ n, N ≤ n → (queueAt exec index n).worker = pc → ∀ ret next,
      exec.Takes (WorkerActs index) n → WorkerMoves index ret (queueAt exec index n) pc next →
        queueRank rank next < queueRank rank (queueAt exec index n)) (r : Nat) :
    LeadsTo (fun n => N ≤ n ∧ (queueAt exec index n).worker = pc ∧
        queueRank rank (queueAt exec index n) = r)
      fun n => N ≤ n ∧ queueRank rank (queueAt exec index n) < r := by
  have awake : pc ≠ .blocked := by
    rintro rfl
    cases moves
  refine (worker_takes fair (P := fun n => N ≤ n ∧ (queueAt exec index n).worker = pc ∧
    queueRank rank (queueAt exec index n) = r) moves (fun _ => returns)
    (fun n holds => holds.2.1) ?_).next ?_
  · rintro n ⟨later, here, isRank⟩ others
    have same := worker_persists awake n here others
    refine ⟨Nat.le_succ_of_le later, same, ?_⟩
    rw [← isRank, queueRank, queueRank, same, here,
      lfq_of_others quiet later (by rw [same, here]) others]
  · rintro n ⟨⟨later, here, rfl⟩, acts⟩
    refine ⟨Nat.le_succ_of_le later, ?_⟩
    obtain ⟨ret, next, after, moved⟩ := worker_moves_of_takes here acts
    rw [after]
    exact lowers n later here ret next acts moved

end Quiet

/-! ## Going to sleep -/

/-- How far the worker is from its sleep, if the queue is empty and `exit` is not set. -/
def WorkerPc.sleepRank : WorkerPc Job → Nat
  | .condWait => 1
  | .waitLock => 2
  | .dequeueNext _ => 3
  | .callRcu _ _ => 4
  | .inStart _ _ => 5
  | .callStart _ _ => 6
  | .dequeue => 7
  | .loopTest => 8
  | .waitUnlock => 9
  | .woken => 10
  | .setRunning => 11
  | .callWorkerInit => 12
  | _ => 0

omit [DecidableEq Job] in
/-- Each step of a worker that finds `exit` clear brings it nearer to its sleep. -/
theorem sleepRank_workerMoves {self : Nat} {ret : Int} {pc : WorkerPc Job}
    {twq next : Threadwq Job} (here : twq.worker = pc) (moves : WorkerMoves self ret twq pc next)
    (staying : pc.leaving = false) (zero : twq.exit = 0) :
    queueRank WorkerPc.sleepRank next < queueRank WorkerPc.sleepRank twq := by
  cases moves with
  | leaveLoop nonzero => exact (nonzero zero).elim
  | dequeue | serveNext =>
      apply queueRank_dequeueOneJob <;> rw [here] <;> simp [WorkerPc.sleepRank]
  | flushNext | flushDequeue | callWorkerExit | skipWorkerExit | setExitAck | unregister =>
      cases staying
  | _ =>
      refine Nat.add_lt_add_left ?_ _
      rw [here]
      simp [WorkerPc.sleepRank]

section Sleep

variable {exec : (System.machine Job).Execution} {index N : Nat}

/-- On a queue that is left alone the worker comes to sleep. -/
theorem asleep_of_quiet (fair : FairFor exec index) (returns : CallbacksReturn exec index)
    (quiet : QuietFrom exec index N)
    (serving : ∀ n, N ≤ n → (queueAt exec index n).log.any Event.isRequest = false) :
    LeadsTo (fun n => N ≤ n) fun n => (queueAt exec index n).worker = .blocked := by
  have staying : ∀ n, N ≤ n → (queueAt exec index n).worker.leaving = false := by
    intro n later
    by_contra leaving
    have requested := (shutdown_of_reachable (exec.reachable n) index).leaving
      (Bool.not_eq_false _ ▸ leaving)
    cases (serving n later).symm.trans requested
  have zero : ∀ n, N ≤ n → (queueAt exec index n).exit = 0 := by
    intro n later
    by_contra nonzero
    have requested := (shutdown_of_reachable (exec.reachable n) index).requested nonzero
    cases (serving n later).symm.trans requested
  refine LeadsTo.of_rank (fun n => queueRank WorkerPc.sleepRank (queueAt exec index n))
    fun r n here => ?_
  obtain ⟨later, isRank⟩ := here
  cases moves : (queueAt exec index n).worker.moves with
  | true =>
      obtain ⟨m, latest, nearer⟩ := queueRank_of_awake fair returns quiet moves
        (fun n later here ret next _ moved =>
          sleepRank_workerMoves here moved (here ▸ staying n later) (zero n later))
        r n ⟨later, rfl, isRank⟩
      exact ⟨m, latest, Or.inl nearer⟩
  | false =>
      rcases WorkerPc.stops moves with asleep | returned
      · exact ⟨n, Nat.le_refl n, Or.inr asleep⟩
      · have left := staying n later
        rw [returned] at left
        cases left

end Sleep

end LinuxCTemplate.Threadwq
