import LinuxCTemplate.Threadwq.AddReturns
import LinuxCTemplate.Threadwq.Quiet

/-!
# An add function that nobody disturbs

`rr4idle_add_job` may find a queue locked whenever it comes by.  It does so for some time
only if nobody else is at the queue: while it looks for a queue it puts no job on one, so
that the worker goes to sleep, and the mutex is free from then on.
-/

namespace LinuxCTemplate.Threadwq

open Foundation Machine

variable {Job : Type} [DecidableEq Job]

omit [DecidableEq Job] in
theorem AddPc.locks_eq_false_of_searching {pc : AddPc Job} (searching : pc.searching = true)
    {index : Nat} : pc.locks index = false := by
  cases pc <;> first | rfl | cases searching

namespace System

variable {sys next : System Job} {action : Action Job} {thread : Thread} {index : Nat}

/-- A step of an add function, when all but one are idle and this one looks for a queue. -/
theorem addStep_of_searching (step : sys.step action = some next)
    (alone : ∀ other, other ≠ thread → (sys.add other).isIdle = true)
    (searching : (sys.add thread).searching = true) (isAdder : action.role = .adder)
    (index : Nat) : (next.twq index).log = (sys.twq index).log ∧
      (next.twq index).worker = (sys.twq index).worker := by
  cases step_moves step with
  | call => exact ⟨rfl, rfl⟩
  | @add caller _ moved =>
      obtain ⟨pc, here, moves⟩ := addStep_moves moved
      by_cases own : caller = thread
      · subst own
        rw [here] at searching
        cases moves with
        | tryLock =>
            refine forall_setTwq (fun other later => later.log = (sys.twq other).log ∧
              later.worker = (sys.twq other).worker) ?_ (fun _ _ => ⟨rfl, rfl⟩) index
            exact ⟨rfl, rfl⟩
        | readIdx | tryLockFails => exact ⟨rfl, rfl⟩
        | _ => cases searching
      · have isIdle := alone caller own
        rw [here, moves.active] at isIdle
        cases isIdle
  | _ => cases isAdder

/-- While the only add function looks for a queue no job is put on one. -/
theorem enqueued_of_searching (step : sys.step action = some next)
    (alone : ∀ other, other ≠ thread → (sys.add other).isIdle = true)
    (searching : (sys.add thread).searching = true) (index : Nat) :
    enqueued (next.twq index).log = enqueued (sys.twq index).log := by
  by_cases isAdder : action.role = .adder
  · rw [(addStep_of_searching step alone searching isAdder index).1]
  · exact (step_writes step index).enqueued isAdder

/-- Nobody wakes the worker. -/
theorem blocked_of_searching (step : sys.step action = some next)
    (alone : ∀ other, other ≠ thread → (sys.add other).isIdle = true)
    (searching : (sys.add thread).searching = true)
    (online : (sys.twq index).controller = .online) (calm : action ≠ .spurious index)
    (asleep : (sys.twq index).worker = .blocked) : (next.twq index).worker = .blocked := by
  by_cases isAdder : action.role = .adder
  · rw [(addStep_of_searching step alone searching isAdder index).2, asleep]
  · cases step_moves step with
    | @worker other ret twq _ moved =>
        by_cases same : index = other
        · subst same
          obtain ⟨_, here, moves⟩ := workerStep_moves moved
          rw [asleep] at here
          subst here
          cases moves
        · rw [setTwq_twq_of_ne _ _ same, asleep]
    | @controller other twq moved =>
        by_cases same : index = other
        · subst same
          obtain ⟨_, here, moves⟩ := controllerStep_moves moved
          rw [online] at here
          subst here
          cases moves
          rw [setTwq_twq_self]
          exact asleep
        · rw [setTwq_twq_of_ne _ _ same, asleep]
    | call | add => exact (isAdder rfl).elim
    | @spurious other =>
        rw [setTwq_twq_of_ne]
        · exact asleep
        · rintro rfl
          exact calm rfl
    | rcu =>
        rw [← asleep]
        refine forall_setTwq (fun other later => later.worker = (sys.twq other).worker) ?_
          (fun _ _ => rfl) index
        rfl

/-- The mutex of a queue whose worker sleeps. -/
theorem free_of_asleep (reachable : (machine Job).Reachable sys)
    (alone : ∀ other, other ≠ thread → (sys.add other).isIdle = true)
    (searching : (sys.add thread).searching = true)
    (online : (sys.twq index).controller = .online)
    (asleep : (sys.twq index).worker = .blocked) : (sys.twq index).mutex = none := by
  by_contra taken
  obtain ⟨other, owner⟩ := Option.ne_none_iff_exists'.mp taken
  rcases ((mutexes_of_reachable reachable).owner index other).mp owner with
    locks | ⟨_, locks⟩ | ⟨_, locks⟩
  · by_cases own : other = thread
    · subst own
      rw [AddPc.locks_eq_false_of_searching searching] at locks
      cases locks
    · rw [AddPc.locks_eq_false_of_isIdle (alone other own)] at locks
      cases locks
  · rw [asleep] at locks
    cases locks
  · rw [online] at locks
    cases locks

end System

section Undisturbed

variable {exec : (System.machine Job).Execution} {thread : Thread} {index N : Nat}

/-- From the moment on no other add function is at work, and the worker of the queue is
neither asked to stop nor woken without a signal. -/
structure Undisturbed (exec : (System.machine Job).Execution) (thread : Thread)
    (index N : Nat) : Prop where
  alone : ∀ n, N ≤ n → ∀ other, other ≠ thread → ((exec.state n).add other).isIdle = true
  online : ∀ n, N ≤ n → (queueAt exec index n).controller = .online
  serving : ∀ n, N ≤ n → (queueAt exec index n).log.any Event.isRequest = false
  calm : ∀ n, N ≤ n → exec.label n ≠ some (.spurious index)

/-- Beside a queue of the pool on which nobody else is at work every add function returns. -/
theorem idle_of_undisturbed (fair : exec.Fair (AddActs thread)) (used : FairForUsed exec thread)
    (inPool : index < poolOf exec) (fairQueue : FairFor exec index)
    (returns : CallbacksReturn exec index)
    (undisturbed : Undisturbed exec thread index N) :
    LeadsTo (fun n => N ≤ n) fun n => (exec.state n).add thread = .idle := by
  intro n later
  by_contra never
  have searching : ∀ m, n ≤ m → ((exec.state m).add thread).searching = true := by
    intro m latest
    by_contra placing
    rw [Bool.not_eq_true] at placing
    obtain ⟨k, after, idle⟩ := idle_of_placing fair used m placing
    exact never ⟨k, Nat.le_trans latest after, idle⟩
  have fromN : ∀ {m}, n ≤ m → N ≤ m := Nat.le_trans later
  have quiet : QuietFrom exec index n := by
    refine kept_of_le (P := fun m => enqueued (queueAt exec index m).log =
      enqueued (queueAt exec index n).log) rfl fun m latest same => ?_
    apply exec.kept (P := fun sys => enqueued (sys.twq index).log =
      enqueued (queueAt exec index n).log) same
    intro action label step
    rw [System.enqueued_of_searching step (undisturbed.alone m (fromN latest))
      (searching m latest)]
    exact same
  obtain ⟨start, fromHere, asleep⟩ := asleep_of_quiet fairQueue returns quiet
    (fun m latest => undisturbed.serving m (fromN latest)) n (Nat.le_refl n)
  have sleeps : ∀ m, start ≤ m → (queueAt exec index m).worker = .blocked := by
    refine kept_of_le asleep fun m latest asleep => ?_
    have afterN := Nat.le_trans fromHere latest
    apply exec.kept (P := fun sys => (sys.twq index).worker = .blocked) asleep
    intro action label step
    refine System.blocked_of_searching step (undisturbed.alone m (fromN afterN))
      (searching m afterN) (undisturbed.online m (fromN afterN)) ?_ asleep
    rintro rfl
    exact undisturbed.calm m (fromN afterN) label
  obtain ⟨m, latest, idle | ⟨_, _, taken⟩⟩ := idle_or_findsLocked fair used inPool start trivial
  · exact never ⟨m, Nat.le_trans fromHere latest, idle⟩
  · have afterN := Nat.le_trans fromHere latest
    exact taken (System.free_of_asleep (exec.reachable m) (undisturbed.alone m (fromN afterN))
      (searching m afterN) (undisturbed.online m (fromN afterN)) (sleeps m latest))

end Undisturbed

end LinuxCTemplate.Threadwq
