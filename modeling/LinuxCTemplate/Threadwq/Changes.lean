import LinuxCTemplate.Foundation.History
import LinuxCTemplate.Threadwq.Moves

/-!
# What a step of the process does to one queue

Seen from one queue, every step of the process is a step of its worker, a step of
its controlling thread, one library operation of an add function, a wake-up without
a signal, or a finished callback; all other steps leave the queue alone.  The
invariants of a queue are proved once for these changes.

Two facts about the add functions enter here: a worker adds jobs only from inside a
`cb_start`, and the job an add function is about to enqueue is on no queue yet.
-/

namespace LinuxCTemplate.Threadwq

open Foundation

variable {Job : Type}

/-! ## Reading the log -/

/-- Jobs put on the queue, in sequence. -/
def enqueued (log : List (Event Job)) : List Job :=
  log.filterMap fun
    | .enqueue _ job => some job
    | _ => none

/-- Jobs put on the queue by one thread. -/
def enqueuedBy (thread : Thread) (log : List (Event Job)) : List Job :=
  log.filterMap fun
    | .enqueue caller job => if caller = thread then some job else none
    | _ => none

/-- Jobs whose `cb_start` has been called, in call order. -/
def started (log : List (Event Job)) : List Job :=
  log.filterMap fun
    | .cbStart job => some job
    | _ => none

/-- Jobs whose `cb_start` has returned. -/
def startReturned (log : List (Event Job)) : List Job :=
  log.filterMap fun
    | .cbStartReturn job => some job
    | _ => none

/-- Jobs passed to `call_rcu`. -/
def handedToRcu (log : List (Event Job)) : List Job :=
  log.filterMap fun
    | .callRcu job => some job
    | _ => none

/-- Jobs whose `cb_finish` has been called. -/
def finished (log : List (Event Job)) : List Job :=
  log.filterMap fun
    | .cbFinish job => some job
    | _ => none

/-- The `exit++` of `kill_online_worker`. -/
def Event.isRequest : Event Job → Bool
  | .exitRequest => true
  | _ => false

section Append

variable (left right : List (Event Job)) (thread : Thread)

@[simp] theorem enqueued_append : enqueued (left ++ right) = enqueued left ++ enqueued right :=
  List.filterMap_append

@[simp] theorem enqueuedBy_append :
    enqueuedBy thread (left ++ right) = enqueuedBy thread left ++ enqueuedBy thread right :=
  List.filterMap_append

@[simp] theorem started_append : started (left ++ right) = started left ++ started right :=
  List.filterMap_append

end Append

theorem mem_enqueued {log : List (Event Job)} {job : Job} :
    job ∈ enqueued log ↔ ∃ caller, Event.enqueue caller job ∈ log := by
  simp only [enqueued, List.mem_filterMap]
  constructor
  · rintro ⟨event, member, found⟩
    cases event <;> cases found
    exact ⟨_, member⟩
  · rintro ⟨caller, member⟩
    exact ⟨_, member, rfl⟩

theorem mem_started {log : List (Event Job)} {job : Job} :
    job ∈ started log ↔ Event.cbStart job ∈ log := by
  simp only [started, List.mem_filterMap]
  constructor
  · rintro ⟨event, member, found⟩
    cases event <;> cases found
    exact member
  · intro member
    exact ⟨_, member, rfl⟩

theorem mem_startReturned {log : List (Event Job)} {job : Job} :
    job ∈ startReturned log ↔ Event.cbStartReturn job ∈ log := by
  simp only [startReturned, List.mem_filterMap]
  constructor
  · rintro ⟨event, member, found⟩
    cases event <;> cases found
    exact member
  · intro member
    exact ⟨_, member, rfl⟩

theorem mem_handedToRcu {log : List (Event Job)} {job : Job} :
    job ∈ handedToRcu log ↔ Event.callRcu job ∈ log := by
  simp only [handedToRcu, List.mem_filterMap]
  constructor
  · rintro ⟨event, member, found⟩
    cases event <;> cases found
    exact member
  · intro member
    exact ⟨_, member, rfl⟩

theorem enqueuedBy_subset {thread : Thread} {log : List (Event Job)} :
    enqueuedBy thread log ⊆ enqueued log := by
  intro job member
  simp only [enqueuedBy, List.mem_filterMap] at member
  obtain ⟨event, member, found⟩ := member
  cases event <;> try cases found
  rename_i caller other
  by_cases sameCaller : caller = thread
  · simp only [sameCaller, if_true, Option.some.injEq] at found
    subst found
    exact mem_enqueued.mpr ⟨_, member⟩
  · simp [sameCaller] at found

/-! ## Changes of one queue -/

/-- The ways a step of the process changes the queue `self`. -/
inductive Change [DecidableEq Job] (self : Nat) : Threadwq Job → Threadwq Job → Prop where
  | worker {twq next : Threadwq Job} (ret : Int) :
      workerStep self ret twq = some next → Change self twq next
  | controller {twq next : Threadwq Job} :
      controllerStep self twq = some next → Change self twq next
  | enqueue {twq : Threadwq Job} (caller : Thread) (job : Job) :
      (caller = .worker self → twq.worker.inCallback = true) → job ∉ enqueued twq.log →
      Change self twq (twq.enqueue caller job)
  | lock {twq next : Threadwq Job} (thread : Thread) :
      twq.lock thread = some next → Change self twq next
  | unlock (twq : Threadwq Job) : Change self twq twq.unlock
  | signal (twq : Threadwq Job) : Change self twq twq.signal
  | spurious {twq next : Threadwq Job} :
      twq.spuriousWakeup = some next → Change self twq next
  | finish {twq next : Threadwq Job} (job : Job) :
      execFinishRcu job twq = some next → Change self twq next

/-! ## Who writes the log -/

/-- The parts of the program by whose steps the log grows. -/
inductive Role where
  | worker
  | controller
  | adder
  | rcu
  deriving DecidableEq, Repr

def Event.role : Event Job → Role
  | .cbStart _ | .cbStartReturn _ | .callRcu _ | .workerInit | .workerExit => .worker
  | .exitRequest | .exitReturn => .controller
  | .enqueue _ _ => .adder
  | .cbFinish _ => .rcu

/-- The log has grown by events of one role. -/
def Writes (role : Role) (twq next : Threadwq Job) : Prop :=
  ∃ events, next.log = twq.log ++ events ∧ ∀ event ∈ events, event.role = role

section Writes

variable {role : Role} {twq next : Threadwq Job}

theorem writes_nothing (sameLog : next.log = twq.log) : Writes role twq next :=
  ⟨[], by rw [sameLog, List.append_nil], fun _ member => (List.not_mem_nil member).elim⟩

theorem writes_one {event : Event Job} (moreLog : next.log = twq.log ++ [event])
    (isOwn : event.role = role) : Writes role twq next :=
  ⟨[event], moreLog, fun _ member => List.mem_singleton.mp member ▸ isOwn⟩

/-- A reading of the log that ignores the events of the role. -/
theorem Writes.filterMap {Value : Type*} (writes : Writes role twq next)
    (read : Event Job → Option Value)
    (ignores : ∀ event : Event Job, event.role = role → read event = none) :
    next.log.filterMap read = twq.log.filterMap read := by
  obtain ⟨events, moreLog, own⟩ := writes
  have nothing : events.filterMap read = [] :=
    List.filterMap_eq_nil_iff.mpr fun event member => ignores event (own event member)
  rw [moreLog, List.filterMap_append, nothing, List.append_nil]

theorem Writes.enqueued (writes : Writes role twq next) (notAdder : role ≠ .adder) :
    enqueued next.log = enqueued twq.log := by
  apply writes.filterMap
  intro event isOwn
  subst isOwn
  cases event <;> first | rfl | exact (notAdder rfl).elim

theorem Writes.finished (writes : Writes role twq next) (notRcu : role ≠ .rcu) :
    finished next.log = finished twq.log := by
  apply writes.filterMap
  intro event isOwn
  subst isOwn
  cases event <;> first | rfl | exact (notRcu rfl).elim

/-- Only the controlling thread requests the exit. -/
theorem Writes.noRequest (writes : Writes role twq next) (notController : role ≠ .controller) :
    ∃ events, next.log = twq.log ++ events ∧ ∀ event ∈ events, ¬ event.isRequest = true := by
  obtain ⟨events, moreLog, own⟩ := writes
  refine ⟨events, moreLog, fun event member isRequest => ?_⟩
  have isOwn := own event member
  cases event <;> cases isRequest
  exact notController isOwn.symm

theorem Writes.any_isRequest (writes : Writes role twq next) (notController : role ≠ .controller) :
    next.log.any Event.isRequest = twq.log.any Event.isRequest := by
  obtain ⟨events, moreLog, noRequest⟩ := writes.noRequest notController
  rw [moreLog, List.any_append, List.any_eq_false.mpr noRequest, Bool.or_false]

end Writes

/-! ## Steps of the queue's own threads -/

theorem dequeueOneJob_log (found : Job → WorkerPc Job) (empty : WorkerPc Job)
    (twq : Threadwq Job) : (dequeueOneJob found empty twq).log = twq.log := by
  unfold dequeueOneJob
  split <;> rfl

theorem workerStep_writes {self : Nat} {ret : Int} {twq next : Threadwq Job}
    (step : workerStep self ret twq = some next) : Writes .worker twq next := by
  obtain ⟨_, _, moves⟩ := workerStep_moves step
  cases moves with
  | callWorkerInit | callStart | inStart | callRcu | callWorkerExit => exact writes_one rfl rfl
  | dequeue | serveNext | flushNext | flushDequeue =>
      exact writes_nothing (dequeueOneJob_log ..)
  | _ => exact writes_nothing rfl

/-- The worker enqueues nothing by itself; it adds jobs through an add function. -/
theorem workerStep_enqueued {self : Nat} {ret : Int} {twq next : Threadwq Job}
    (step : workerStep self ret twq = some next) : enqueued next.log = enqueued twq.log :=
  (workerStep_writes step).enqueued nofun

theorem controllerStep_writes {self : Nat} {twq next : Threadwq Job}
    (step : controllerStep self twq = some next) : Writes .controller twq next := by
  obtain ⟨_, _, moves⟩ := controllerStep_moves step
  cases moves with
  | increment | join => exact writes_one rfl rfl
  | broadcast => exact writes_nothing (signal_log twq)
  | _ => exact writes_nothing rfl

/-- The controlling thread does nothing to the worker but signal it. -/
theorem controllerStep_worker {self : Nat} {twq next : Threadwq Job}
    (step : controllerStep self twq = some next) :
    next.worker = twq.worker ∨ next.worker = twq.signal.worker := by
  obtain ⟨_, _, moves⟩ := controllerStep_moves step
  cases moves with
  | broadcast => exact Or.inr rfl
  | _ => exact Or.inl rfl

/-- What the steps of the worker keep of its program point, all changes keep, unless the
worker is asleep. -/
theorem Change.worker_keeps [DecidableEq Job] {self : Nat} {twq next : Threadwq Job}
    {keeps : WorkerPc Job → Bool} (awake : keeps .blocked = false)
    (kept : ∀ ret next, workerStep self ret twq = some next → keeps twq.worker = true →
      keeps next.worker = true)
    (change : Change self twq next) (before : keeps twq.worker = true) :
    keeps next.worker = true := by
  have notBlocked : twq.worker ≠ .blocked := by
    intro blocked
    rw [blocked, awake] at before
    cases before
  have afterSignal : keeps twq.signal.worker = true := by
    rcases signal_worker twq with same | ⟨blocked, _⟩
    · rw [same]
      exact before
    · exact (notBlocked blocked).elim
  cases change with
  | worker ret step => exact kept ret next step before
  | controller step =>
      rcases controllerStep_worker step with same | signalled
      · rw [same]
        exact before
      · rw [signalled]
        exact afterSignal
  | enqueue | unlock => exact before
  | lock thread acquired =>
      obtain ⟨_, rfl⟩ := lock_eq_some.mp acquired
      exact before
  | signal => exact afterSignal
  | spurious woken => exact (notBlocked (spuriousWakeup_eq_some.mp woken).1).elim
  | finish job ran =>
      obtain ⟨_, rfl⟩ := execFinishRcu_eq_some.mp ran
      exact before

end LinuxCTemplate.Threadwq
