import LinuxCTemplate.Threadwq.Delivery

/-!
# Leaving a queue

`threadwq_exit` returns after it has joined the worker, which by then has left its
loop, has flushed the queue and has called `worker_exit`.  The worker leaves the loop
only after the first `exit++`, and its last dequeue finds the queue empty, so every
job enqueued before that increment has been started, and so has every job enqueued by
a `cb_start` of this worker, since none is running any more.

`exit` is an unsigned counter that may wrap around; nothing below depends on its
value after the worker has seen it to be nonzero once.
-/

namespace LinuxCTemplate.Threadwq

open Foundation

variable {Job : Type}

/-! ## Program points of the worker by what lies behind it -/

/-- The worker has found `exit` to be nonzero. -/
def WorkerPc.leaving : WorkerPc Job → Bool
  | .callStart .flush _ | .inStart .flush _ | .callRcu .flush _ | .dequeueNext .flush
  | .flushDequeue | .callWorkerExit | .setExitAck | .unregister | .returned => true
  | _ => false

/-- The worker has made its last dequeue. -/
def WorkerPc.drained : WorkerPc Job → Bool
  | .callWorkerExit | .setExitAck | .unregister | .returned => true
  | _ => false

/-- The worker has called `worker_exit`. -/
def WorkerPc.exited : WorkerPc Job → Bool
  | .setExitAck | .unregister | .returned => true
  | _ => false

/-- The worker has set `exit_ack`. -/
def WorkerPc.acked : WorkerPc Job → Bool
  | .unregister | .returned => true
  | _ => false

/-- The worker is in `wait4job`. -/
def WorkerPc.waiting : WorkerPc Job → Bool
  | .waitLock | .condWait | .blocked | .woken | .waitUnlock => true
  | _ => false

/-- The controlling thread is past the polling loop of `kill_online_worker`. -/
def ControllerPc.joining : ControllerPc → Bool
  | .join | .returned => true
  | _ => false

/-- The controlling thread is in the polling loop of `kill_online_worker`. -/
def ControllerPc.polling : ControllerPc → Bool
  | .lock | .increment | .broadcast | .unlock | .testAck => true
  | _ => false

theorem WorkerPc.leaving_of_drained {pc : WorkerPc Job} (drained : pc.drained = true) :
    pc.leaving = true := by
  cases pc <;> first | rfl | cases drained

theorem WorkerPc.not_waiting_of_acked {pc : WorkerPc Job} (acked : pc.acked = true) :
    pc.waiting = false := by
  cases pc <;> first | rfl | cases acked

theorem WorkerPc.not_inCallback_of_drained {pc : WorkerPc Job} (drained : pc.drained = true) :
    pc.inCallback = false := by
  cases pc <;> first | rfl | cases drained

/-! ## Jobs owed -/

def Event.isWorkerExit : Event Job → Bool
  | .workerExit => true
  | _ => false

def Event.isExitReturn : Event Job → Bool
  | .exitReturn => true
  | _ => false

/-- The queue owes the job a run: it was enqueued before the first `exit++`, or by a
`cb_start` of this queue's worker. -/
def Owed (self : Nat) (log : List (Event Job)) (job : Job) : Prop :=
  job ∈ enqueued (History.before Event.isRequest log) ∨
    job ∈ enqueuedBy (.worker self) log

theorem Owed.enqueued {self : Nat} {log : List (Event Job)} {job : Job}
    (owed : Owed self log job) : job ∈ enqueued log := by
  rcases owed with early | own
  · obtain ⟨caller, member⟩ := mem_enqueued.mp early
    exact mem_enqueued.mpr ⟨caller, (List.takeWhile_prefix _).subset member⟩
  · exact enqueuedBy_subset own

/-- After the first `exit++` only the worker's own jobs are added to what is owed. -/
theorem Owed.of_append {self : Nat} {log : List (Event Job)} {event : Event Job} {job : Job}
    (requested : log.any Event.isRequest = true)
    (notOwn : ∀ other, event ≠ .enqueue (.worker self) other)
    (owed : Owed self (log ++ [event]) job) : Owed self log job := by
  rcases owed with early | own
  · rw [History.before_append_of_any requested] at early
    exact Or.inl early
  · rw [enqueuedBy_append, List.mem_append] at own
    rcases own with own | last
    · exact Or.inr own
    · simp only [enqueuedBy, List.mem_filterMap, List.mem_singleton] at last
      obtain ⟨found, rfl, isOwn⟩ := last
      cases found <;> try cases isOwn
      rename_i caller other
      by_cases sameCaller : caller = .worker self
      · exact (notOwn other (by rw [sameCaller])).elim
      · simp [sameCaller] at isOwn

/-! ## The invariant -/

/-- A `cb_start` happens before `worker_exit` and before the return of
`threadwq_exit`. -/
def StartAllowed (past : List (Event Job)) : Event Job → Prop
  | .cbStart _ => Event.workerExit ∉ past ∧ Event.exitReturn ∉ past
  | _ => True

structure Shutdown (index : Nat) (twq : Threadwq Job) : Prop where
  requested : twq.exit ≠ 0 → twq.log.any Event.isRequest = true
  leaving : twq.worker.leaving = true → twq.log.any Event.isRequest = true
  drained : twq.worker.drained = true → ∀ job, Owed index twq.log job → job ∈ started twq.log
  acked : twq.exitAck ≠ 0 ↔ twq.worker.acked = true
  joining : twq.controller.joining = true → twq.exitAck ≠ 0
  joined : twq.controller = .returned → twq.worker = .returned
  workerExit : twq.log.countP Event.isWorkerExit =
    if twq.worker.exited && twq.ops.workerExit then 1 else 0
  returned : twq.log.any Event.isExitReturn = true ↔ twq.controller = .returned
  allowed : History.Justified StartAllowed twq.log

/-- The program point moves without crossing one of the marks that the invariant
speaks of. -/
structure SamePhase (pc next : WorkerPc Job) : Prop where
  leaving : next.leaving = true → pc.leaving = true
  drained : next.drained = true → pc.drained = true
  exited : next.exited = pc.exited
  acked : next.acked = pc.acked
  returned : pc = .returned → next = .returned

theorem SamePhase.refl (pc : WorkerPc Job) : SamePhase pc pc :=
  ⟨id, id, rfl, rfl, id⟩

/-- Up to the last dequeue only the way out of the loop is a change of phase. -/
theorem samePhase_of_not_drained {pc next : WorkerPc Job} (notExited : pc.exited = false)
    (notDrained : next.drained = false) (leaving : next.leaving = true → pc.leaving = true) :
    SamePhase pc next where
  leaving := leaving
  drained isDrained := by
    rw [notDrained] at isDrained
    cases isDrained
  exited := by
    rw [notExited]
    cases next <;> first | rfl | cases notDrained
  acked := by
    have notAcked : pc.acked = false := by
      cases pc <;> first | rfl | cases notExited
    rw [notAcked]
    cases next <;> first | rfl | cases notDrained
  returned := by
    rintro rfl
    cases notExited

/-- A program point of the loop. -/
theorem samePhase_of_looping {pc next : WorkerPc Job} (notExited : pc.exited = false)
    (looping : next.leaving = false) : SamePhase pc next := by
  apply samePhase_of_not_drained notExited
  · cases next <;> first | rfl | cases looping
  · rw [looping]
    exact nofun

theorem samePhase_signal (twq : Threadwq Job) : SamePhase twq.worker twq.signal.worker := by
  rcases signal_worker twq with same | ⟨wasBlocked, nowWoken⟩
  · rw [same]
    exact .refl _
  · rw [wasBlocked, nowWoken]
    exact ⟨by simp [WorkerPc.leaving], by simp [WorkerPc.drained], rfl, rfl, nofun⟩

namespace Shutdown

variable {self : Nat} {twq next : Threadwq Job}

theorem threadwqInit (ops : ThreadwqOps) (busy : UInt32) :
    Shutdown self (threadwqInit ops busy : Threadwq Job) where
  requested nonzero := (nonzero rfl).elim
  leaving := nofun
  drained := nofun
  acked := ⟨fun nonzero => (nonzero rfl).elim, nofun⟩
  joining := nofun
  joined := nofun
  workerExit := rfl
  returned := ⟨nofun, nofun⟩
  allowed := History.justified_nil _

/-- Before the worker has returned, the controlling thread has not. -/
theorem controller_ne_returned (inv : Shutdown self twq) (running : twq.worker ≠ .returned) :
    twq.controller ≠ .returned :=
  fun isReturned => running (inv.joined isReturned)

theorem requested_append {log : List (Event Job)} {event : Event Job}
    (requested : log.any Event.isRequest = true) :
    (log ++ [event]).any Event.isRequest = true := by
  rw [List.any_append, requested, Bool.true_or]

/-- Once the worker has made its last dequeue, what others do is owed to nobody. -/
theorem drained_append (inv : Shutdown self twq) {event : Event Job}
    (notOwn : ∀ other, event ≠ .enqueue (.worker self) other)
    (isDrained : twq.worker.drained = true) (job : Job)
    (owed : Owed self (twq.log ++ [event]) job) : job ∈ started (twq.log ++ [event]) := by
  have owedBefore :=
    owed.of_append (inv.leaving (WorkerPc.leaving_of_drained isDrained)) notOwn
  rw [started_append]
  exact List.mem_append_left _ (inv.drained isDrained job owedBefore)

/-- A step of some other kind than those that move the marks. -/
theorem move (inv : Shutdown self twq) (sameLog : next.log = twq.log)
    (sameExit : next.exit = twq.exit) (sameAck : next.exitAck = twq.exitAck)
    (sameController : next.controller = twq.controller) (sameOps : next.ops = twq.ops)
    (phase : SamePhase twq.worker next.worker) : Shutdown self next where
  requested nonzero := by
    rw [sameLog]
    exact inv.requested (sameExit ▸ nonzero)
  leaving isLeaving := by
    rw [sameLog]
    exact inv.leaving (phase.leaving isLeaving)
  drained isDrained := by
    rw [sameLog]
    exact inv.drained (phase.drained isDrained)
  acked := by rw [sameAck, phase.acked, inv.acked]
  joining isJoining := by
    rw [sameAck]
    exact inv.joining (sameController ▸ isJoining)
  joined isReturned := phase.returned (inv.joined (sameController ▸ isReturned))
  workerExit := by rw [sameLog, phase.exited, sameOps, inv.workerExit]
  returned := by rw [sameLog, sameController, inv.returned]
  allowed := sameLog ▸ inv.allowed

/-- An event that is neither `worker_exit` nor the return of `threadwq_exit`. -/
theorem note (inv : Shutdown self twq) {event : Event Job}
    (moreLog : next.log = twq.log ++ [event])
    (notExit : event.isWorkerExit = false) (notReturn : event.isExitReturn = false)
    (notOwn : twq.worker.drained = true → ∀ job, event ≠ .enqueue (.worker self) job)
    (isAllowed : StartAllowed twq.log event)
    (sameExit : next.exit = twq.exit) (sameAck : next.exitAck = twq.exitAck)
    (sameController : next.controller = twq.controller) (sameOps : next.ops = twq.ops)
    (phase : SamePhase twq.worker next.worker) : Shutdown self next where
  requested nonzero := by
    rw [moreLog]
    exact requested_append (inv.requested (sameExit ▸ nonzero))
  leaving isLeaving := by
    rw [moreLog]
    exact requested_append (inv.leaving (phase.leaving isLeaving))
  drained isDrained job owed := by
    have wasDrained := phase.drained isDrained
    rw [moreLog] at owed ⊢
    exact inv.drained_append (notOwn wasDrained) wasDrained job owed
  acked := by rw [sameAck, phase.acked, inv.acked]
  joining isJoining := by
    rw [sameAck]
    exact inv.joining (sameController ▸ isJoining)
  joined isReturned := phase.returned (inv.joined (sameController ▸ isReturned))
  workerExit := by
    rw [moreLog, List.countP_append, phase.exited, sameOps, inv.workerExit]
    simp [notExit]
  returned := by
    rw [moreLog, List.any_append, sameController, ← inv.returned]
    simp [notReturn]
  allowed := by
    rw [moreLog, History.justified_append_singleton]
    exact ⟨inv.allowed, isAllowed⟩

theorem workerExit_notMem (inv : Shutdown self twq) (notExited : twq.worker.exited = false) :
    Event.workerExit ∉ twq.log := by
  have count := inv.workerExit
  rw [notExited, Bool.false_and] at count
  intro member
  exact List.countP_eq_zero.mp count _ member rfl

theorem exitReturn_notMem (inv : Shutdown self twq) (running : twq.worker ≠ .returned) :
    Event.exitReturn ∉ twq.log := by
  intro member
  exact inv.controller_ne_returned running
    (inv.returned.mp (List.any_eq_true.mpr ⟨_, member, rfl⟩))

/-- A dequeue in the loop of `thread_func`. -/
theorem dequeue_serve (inv : Shutdown self twq)
    (phase : ∀ next : WorkerPc Job, next.leaving = false → SamePhase twq.worker next) :
    Shutdown self (twq.dequeueOneJob (.callStart .serve) .waitLock) := by
  unfold dequeueOneJob
  split <;> exact inv.move rfl rfl rfl rfl rfl (phase _ rfl)

/-- A dequeue of the flush.  When it finds nothing, everything enqueued has been
started. -/
theorem dequeue_flush (inv : Shutdown self twq) (delivery : Delivery twq)
    (isLeaving : twq.worker.leaving = true) (noHand : twq.worker.inHand = [])
    (notExited : twq.worker.exited = false) (notAcked : twq.worker.acked = false)
    (running : twq.worker ≠ .returned) :
    Shutdown self (twq.dequeueOneJob (.callStart .flush) .callWorkerExit) := by
  unfold dequeueOneJob
  split
  next isEmpty =>
    have allStarted : ∀ job, Owed self twq.log job → job ∈ started twq.log := by
      intro job owed
      have member := owed.enqueued
      rw [delivery.queue, noHand, isEmpty, List.append_nil, List.append_nil] at member
      exact member
    exact
      { requested := inv.requested
        leaving := fun _ => inv.leaving isLeaving
        drained := fun _ => allStarted
        acked := inv.acked.trans (by rw [notAcked]; exact Iff.rfl)
        joining := inv.joining
        joined := fun isReturned => (inv.controller_ne_returned running isReturned).elim
        workerExit := inv.workerExit.trans (by rw [notExited]; rfl)
        returned := inv.returned
        allowed := inv.allowed }
  next job rest isCons =>
    refine inv.move rfl rfl rfl rfl rfl ⟨fun _ => isLeaving, nofun, ?_, ?_, ?_⟩
    · rw [notExited]
      rfl
    · rw [notAcked]
      rfl
    · exact fun isReturned => (running isReturned).elim

/-! ### Steps of the worker that move a mark -/

/-- The loop test finds `exit` set. -/
theorem leaveLoop (inv : Shutdown self twq) (pc : twq.worker = .loopTest)
    (nonzero : twq.exit ≠ 0) : Shutdown self { twq with worker := .flushDequeue } where
  requested := inv.requested
  leaving _ := inv.requested nonzero
  drained := nofun
  acked := by
    have acked := inv.acked
    rwa [pc] at acked
  joining := inv.joining
  joined isReturned :=
    (inv.controller_ne_returned (by rw [pc]; exact nofun) isReturned).elim
  workerExit := by
    have count := inv.workerExit
    rwa [pc] at count
  returned := inv.returned
  allowed := inv.allowed

/-- `worker_exit` is called. -/
theorem noteWorkerExit (inv : Shutdown self twq) (pc : twq.worker = .callWorkerExit)
    (present : twq.ops.workerExit = true) :
    Shutdown self { twq with worker := .setExitAck, log := twq.log ++ [.workerExit] } where
  requested _ := requested_append (inv.leaving (by rw [pc]; rfl))
  leaving _ := requested_append (inv.leaving (by rw [pc]; rfl))
  drained _ := inv.drained_append (by simp) (by rw [pc]; rfl)
  acked := by
    have acked := inv.acked
    rwa [pc] at acked
  joining := inv.joining
  joined isReturned :=
    (inv.controller_ne_returned (by rw [pc]; exact nofun) isReturned).elim
  workerExit := by
    rw [List.countP_append, inv.workerExit, pc]
    simp [WorkerPc.exited, Event.isWorkerExit, present]
  returned := by
    rw [List.any_append, ← inv.returned]
    simp [Event.isExitReturn]
  allowed := by
    rw [History.justified_append_singleton]
    exact ⟨inv.allowed, trivial⟩

/-- There is no `worker_exit` to call. -/
theorem skipWorkerExit (inv : Shutdown self twq) (pc : twq.worker = .callWorkerExit)
    (absent : twq.ops.workerExit = false) :
    Shutdown self { twq with worker := .setExitAck } where
  requested := inv.requested
  leaving _ := inv.leaving (by rw [pc]; rfl)
  drained _ := inv.drained (by rw [pc]; rfl)
  acked := by
    have acked := inv.acked
    rwa [pc] at acked
  joining := inv.joining
  joined isReturned :=
    (inv.controller_ne_returned (by rw [pc]; exact nofun) isReturned).elim
  workerExit := by
    rw [inv.workerExit, pc, absent]
    rfl
  returned := inv.returned
  allowed := inv.allowed

/-- The worker sets `exit_ack`. -/
theorem acknowledge (inv : Shutdown self twq) (pc : twq.worker = .setExitAck) :
    Shutdown self { twq with exitAck := 1, worker := .unregister } where
  requested := inv.requested
  leaving _ := inv.leaving (by rw [pc]; rfl)
  drained _ := inv.drained (by rw [pc]; rfl)
  acked := ⟨fun _ => rfl, fun _ => (by decide : (1 : UInt32) ≠ 0)⟩
  joining _ := (by decide : (1 : UInt32) ≠ 0)
  joined isReturned :=
    (inv.controller_ne_returned (by rw [pc]; exact nofun) isReturned).elim
  workerExit := by
    have count := inv.workerExit
    rwa [pc] at count
  returned := inv.returned
  allowed := inv.allowed

theorem worker {ret : Int} (inv : Shutdown self twq) (delivery : Delivery twq)
    (step : workerStep self ret twq = some next) : Shutdown self next := by
  obtain ⟨_, pc, moves⟩ := workerStep_moves step
  cases moves with
  | callWorkerInit =>
      exact inv.note rfl rfl rfl (fun _ => nofun) trivial rfl rfl rfl rfl
        (samePhase_of_looping (by rw [pc]; rfl) rfl)
  | skipWorkerInit | setRunning | nextRound | waitLock | condWait | woken | waitUnlock =>
      exact inv.move rfl rfl rfl rfl rfl (samePhase_of_looping (by rw [pc]; rfl) rfl)
  | leaveLoop nonzero => exact inv.leaveLoop pc nonzero
  | dequeue | serveNext =>
      exact inv.dequeue_serve fun next => samePhase_of_looping (by rw [pc]; rfl)
  | callStart site job =>
      have isAllowed : StartAllowed twq.log (.cbStart job) :=
        ⟨inv.workerExit_notMem (by rw [pc]; rfl), inv.exitReturn_notMem (by rw [pc]; exact nofun)⟩
      have phase : SamePhase twq.worker (.inStart site job) := by
        rw [pc]
        exact samePhase_of_not_drained rfl rfl (by cases site <;> exact id)
      exact inv.note rfl rfl rfl (fun _ => nofun) isAllowed rfl rfl rfl rfl phase
  | inStart site | callRcu site =>
      refine inv.note rfl rfl rfl (fun _ => nofun) trivial rfl rfl rfl rfl ?_
      rw [pc]
      exact samePhase_of_not_drained rfl rfl (by cases site <;> exact id)
  | flushNext =>
      exact inv.dequeue_flush delivery (by rw [pc]; rfl) (by rw [pc]; rfl) (by rw [pc]; rfl)
        (by rw [pc]; rfl) (by rw [pc]; exact nofun)
  | flushDequeue =>
      have cleared : Shutdown self { twq with accl := 0 } :=
        inv.move rfl rfl rfl rfl rfl (.refl _)
      have delivery' : Delivery { twq with accl := 0 } := delivery.move rfl rfl rfl (.refl _)
      exact cleared.dequeue_flush delivery' (by rw [pc]; rfl) (by rw [pc]; rfl) (by rw [pc]; rfl)
        (by rw [pc]; rfl) (by rw [pc]; exact nofun)
  | callWorkerExit present => exact inv.noteWorkerExit pc present
  | skipWorkerExit absent => exact inv.skipWorkerExit pc absent
  | setExitAck => exact inv.acknowledge pc
  | unregister =>
      refine inv.move rfl rfl rfl rfl rfl ?_
      rw [pc]
      exact ⟨fun _ => rfl, fun _ => rfl, rfl, rfl, fun _ => rfl⟩

theorem signal (inv : Shutdown self twq) : Shutdown self twq.signal := by
  refine inv.move ?_ ?_ ?_ ?_ ?_ (samePhase_signal twq) <;> rw [signal_eq]

/-- A move of the controlling thread before it joins the worker. -/
theorem moveController (inv : Shutdown self twq) (pc : ControllerPc)
    (here : twq.controller ≠ .returned) (notReturned : pc ≠ .returned)
    (ack : pc.joining = true → twq.exitAck ≠ 0) :
    Shutdown self { twq with controller := pc } where
  requested := inv.requested
  leaving := inv.leaving
  drained := inv.drained
  acked := inv.acked
  joining := ack
  joined isReturned := (notReturned isReturned).elim
  workerExit := inv.workerExit
  returned := ⟨fun inLog => (here (inv.returned.mp inLog)).elim,
    fun isReturned => (notReturned isReturned).elim⟩
  allowed := inv.allowed

/-- The controlling thread makes `exit++`. -/
theorem noteRequest (inv : Shutdown self twq) (pc : twq.controller = .increment) :
    Shutdown self { twq with
      exit := twq.exit + 1
      controller := .broadcast
      log := twq.log ++ [.exitRequest] } where
  requested _ := by simp [Event.isRequest]
  leaving _ := by simp [Event.isRequest]
  drained := inv.drained_append (by simp)
  acked := inv.acked
  joining := nofun
  joined := nofun
  workerExit := by
    rw [List.countP_append, inv.workerExit]
    simp [Event.isWorkerExit]
  returned := by
    have notReturned := inv.returned
    rw [pc] at notReturned
    rw [List.any_append]
    simpa [Event.isExitReturn] using notReturned
  allowed := by
    rw [History.justified_append_singleton]
    exact ⟨inv.allowed, trivial⟩

/-- `pthread_join` finds that the worker has returned. -/
theorem noteReturn (inv : Shutdown self twq) (pc : twq.controller = .join)
    (returned : twq.worker = .returned) :
    Shutdown self { twq with controller := .returned, log := twq.log ++ [.exitReturn] } where
  requested nonzero := requested_append (inv.requested nonzero)
  leaving isLeaving := requested_append (inv.leaving isLeaving)
  drained := inv.drained_append (by simp)
  acked := inv.acked
  joining _ := inv.joining (by rw [pc]; rfl)
  joined _ := returned
  workerExit := by
    rw [List.countP_append, inv.workerExit]
    simp [Event.isWorkerExit]
  returned := by simp [Event.isExitReturn]
  allowed := by
    rw [History.justified_append_singleton]
    exact ⟨inv.allowed, trivial⟩

theorem controller (inv : Shutdown self twq)
    (step : controllerStep self twq = some next) : Shutdown self next := by
  obtain ⟨_, pc, moves⟩ := controllerStep_moves step
  cases moves with
  | poll => exact inv
  | running | online | again =>
      exact inv.moveController _ (by rw [pc]; exact nofun) nofun nofun
  | lock =>
      have held : Shutdown self { twq with mutex := some (.controller self) } :=
        inv.move rfl rfl rfl rfl rfl (.refl _)
      exact held.moveController _ (by rw [pc]; exact nofun) nofun nofun
  | increment => exact inv.noteRequest pc
  | broadcast =>
      exact inv.signal.moveController _ (by rw [signal_controller, pc]; exact nofun) nofun nofun
  | unlock =>
      have released : Shutdown self twq.unlock := inv.move rfl rfl rfl rfl rfl (.refl _)
      exact released.moveController _ (by rw [unlock, pc]; exact nofun) nofun nofun
  | acked nonzero => exact inv.moveController _ (by rw [pc]; exact nofun) nofun fun _ => nonzero
  | join returned => exact inv.noteReturn pc returned

theorem change [DecidableEq Job] (inv : Shutdown self twq) (delivery : Delivery twq)
    (change : Change self twq next) : Shutdown self next := by
  cases change with
  | worker ret step => exact inv.worker delivery step
  | controller step => exact inv.controller step
  | enqueue caller job inside _ =>
      refine inv.note rfl rfl rfl ?_ trivial rfl rfl rfl rfl (.refl _)
      rintro isDrained other same
      cases same
      have isInside := inside rfl
      rw [WorkerPc.not_inCallback_of_drained isDrained] at isInside
      cases isInside
  | lock thread acquired =>
      obtain ⟨_, rfl⟩ := lock_eq_some.mp acquired
      exact inv.move rfl rfl rfl rfl rfl (.refl _)
  | unlock => exact inv.move rfl rfl rfl rfl rfl (.refl _)
  | signal => exact inv.signal
  | spurious woken =>
      obtain ⟨wasBlocked, rfl⟩ := spuriousWakeup_eq_some.mp woken
      refine inv.move rfl rfl rfl rfl rfl ?_
      rw [wasBlocked]
      exact ⟨nofun, nofun, rfl, rfl, nofun⟩
  | finish job ran =>
      obtain ⟨_, rfl⟩ := execFinishRcu_eq_some.mp ran
      exact inv.note rfl rfl rfl (fun _ => nofun) trivial rfl rfl rfl rfl (.refl _)

end Shutdown

theorem shutdown_of_reachable [DecidableEq Job] {sys : System Job}
    (reachable : (System.machine Job).Reachable sys) (index : Nat) :
    Shutdown index (sys.twq index) := by
  have both := System.queue_invariant (fun index twq => Delivery twq ∧ Shutdown index twq)
    (fun _ ops busy => ⟨Delivery.threadwqInit ops busy, Shutdown.threadwqInit ops busy⟩)
    (fun _ _ _ inv change => ⟨inv.1.change change, inv.2.change inv.1 change⟩) reachable
  exact (both index).2

/-! ## What `threadwq_exit` guarantees -/

/-- A queue after the return of `threadwq_exit`.  Every job owed has been started once
and handed to `call_rcu` once; `worker_exit`, where there is one, has been called once
and after the last `cb_start`; and no `cb_start` follows the return. -/
structure CleanExit [DecidableEq Job] (index : Nat) (twq : Threadwq Job) : Prop where
  started_once : ∀ job, Owed index twq.log job → (started twq.log).count job = 1
  handed_once : ∀ job, Owed index twq.log job → (handedToRcu twq.log).count job = 1
  workerExit_once : twq.log.countP Event.isWorkerExit = if twq.ops.workerExit then 1 else 0
  workerExit_last : ∀ past rest, twq.log = past ++ .workerExit :: rest →
    ∀ job, Event.cbStart job ∉ rest
  return_last : ∀ past rest, twq.log = past ++ .exitReturn :: rest →
    ∀ job, Event.cbStart job ∉ rest

/-- When the worker has returned, the jobs started are those handed to `call_rcu`. -/
theorem Delivery.started_eq_handedToRcu {twq : Threadwq Job} (inv : Delivery twq)
    (returned : twq.worker = .returned) : started twq.log = handedToRcu twq.log := by
  rw [inv.starting, inv.handing, returned]
  simp [WorkerPc.inStarted, WorkerPc.unhanded]

theorem clean_exit [DecidableEq Job] {sys : System Job}
    (reachable : (System.machine Job).Reachable sys) (index : Nat)
    (returned : (sys.twq index).controller = .returned) :
    CleanExit index (sys.twq index) := by
  have delivery := delivery_of_reachable reachable index
  have inv := shutdown_of_reachable reachable index
  have workerReturned := inv.joined returned
  have allStarted := inv.drained (by rw [workerReturned]; rfl)
  constructor
  case started_once =>
    intro job owed
    exact List.count_eq_one_of_mem delivery.started_nodup (allStarted job owed)
  case handed_once =>
    intro job owed
    rw [← delivery.started_eq_handedToRcu workerReturned]
    exact List.count_eq_one_of_mem delivery.started_nodup (allStarted job owed)
  case workerExit_once =>
    rw [inv.workerExit, workerReturned]
    rfl
  case workerExit_last =>
    exact fun past rest split job => inv.allowed.not_mem_after split fun _ allowed => allowed.1
  case return_last =>
    exact fun past rest split job => inv.allowed.not_mem_after split fun _ allowed => allowed.2

/-- A job is added and the exit is requested before the worker looks at either.  The
flush starts the job, whose `cb_start` adds a follow-up, and then the follow-up. -/
def followUpRun : List (Action Nat) :=
  [.worker 0 0, .worker 0 0, .controller 0, .controller 0,
    .call (.producer 0) (.threadwqAddJob 0) 7, .add (.producer 0),
    .controller 0, .controller 0, .controller 0, .controller 0,
    .worker 0 0, .worker 0 0, .worker 0 0,
    .call (.worker 0) (.threadwqAddJob 0) 8,
    .add (.worker 0), .add (.worker 0), .add (.worker 0), .add (.worker 0)] ++
  List.replicate 10 (.worker 0 0) ++ [.controller 0, .controller 0]

theorem clean_exit_follow_up :
    ∃ sys, System.run (System.boot ⟨true, true⟩ ⟨1, .rr, 0⟩) followUpRun = some sys ∧
      (sys.twq 0).log = [.workerInit, .enqueue (.producer 0) 7, .exitRequest, .cbStart 7,
        .enqueue (.worker 0) 8, .cbStartReturn 7, .callRcu 7, .cbStart 8, .cbStartReturn 8,
        .callRcu 8, .workerExit, .exitReturn] ∧
      CleanExit 0 (sys.twq 0) := by
  obtain ⟨sys, ran, log, returned⟩ := System.exists_run
    (System.boot ⟨true, true⟩ ⟨1, .rr, 0⟩) followUpRun
    (fun sys => (sys.twq 0).log = [.workerInit, .enqueue (.producer 0) 7, .exitRequest, .cbStart 7,
        .enqueue (.worker 0) 8, .cbStartReturn 7, .callRcu 7, .cbStart 8, .cbStartReturn 8,
        .callRcu 8, .workerExit, .exitReturn] ∧
      (sys.twq 0).controller = .returned) (by decide)
  have reachable := System.reachable_of_run (System.boot_initial _ _ rfl) ran
  exact ⟨sys, ran, log, clean_exit reachable 0 returned⟩

end LinuxCTemplate.Threadwq
