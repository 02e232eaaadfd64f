import Mathlib.Data.List.Nodup
import LinuxCTemplate.Threadwq.Jobs

/-!
# Jobs are delivered once and in sequence

The worker dequeues at four places.  At each of them the job taken from the head of
the queue becomes the job in hand, so the jobs enqueued so far are always the jobs
started, the job in hand, and the queue.  A started job is in its `cb_start`, or on
its way to `call_rcu`, or has been passed to it; a callback run by `call_rcu` was
passed to it before.
-/

namespace LinuxCTemplate.Threadwq

open Foundation

variable {Job : Type}

/-- The job dequeued and not yet started. -/
def WorkerPc.inHand : WorkerPc Job → List Job
  | .callStart _ job => [job]
  | _ => []

/-- The job inside its `cb_start`. -/
def WorkerPc.inStarted : WorkerPc Job → List Job
  | .inStart _ job => [job]
  | _ => []

/-- The job whose `cb_start` has returned and that is not yet passed to `call_rcu`. -/
def WorkerPc.unhanded : WorkerPc Job → List Job
  | .callRcu _ job => [job]
  | _ => []

/-- Two program points at which the worker has the same jobs. -/
structure SameJobs (pc pc' : WorkerPc Job) : Prop where
  inHand : pc.inHand = pc'.inHand
  inStarted : pc.inStarted = pc'.inStarted
  unhanded : pc.unhanded = pc'.unhanded

theorem SameJobs.refl (pc : WorkerPc Job) : SameJobs pc pc := ⟨rfl, rfl, rfl⟩

/-- What must have happened before a job callback step. -/
def JobEventAllowed (past : List (Event Job)) : Event Job → Prop
  | .cbStartReturn job => job ∈ started past
  | .callRcu job => job ∈ startReturned past
  | .cbFinish job => job ∈ handedToRcu past
  | _ => True

/-- The invariant of one queue. -/
structure Delivery (twq : Threadwq Job) : Prop where
  queue : enqueued twq.log = started twq.log ++ twq.worker.inHand ++ twq.lfq
  starting : started twq.log = startReturned twq.log ++ twq.worker.inStarted
  handing : startReturned twq.log = handedToRcu twq.log ++ twq.worker.unhanded
  finishing : (handedToRcu twq.log).Perm (finished twq.log ++ twq.rcu)
  nodup : (enqueued twq.log).Nodup
  allowed : History.Justified JobEventAllowed twq.log

/-- The events that concern no job. -/
def Event.isJobless : Event Job → Bool
  | .workerInit | .workerExit | .exitRequest | .exitReturn => true
  | _ => false

namespace Delivery

variable {twq next : Threadwq Job}

theorem threadwqInit (ops : ThreadwqOps) (busy : UInt32) :
    Delivery (threadwqInit ops busy : Threadwq Job) where
  queue := rfl
  starting := rfl
  handing := rfl
  finishing := .nil
  nodup := .nil
  allowed := History.justified_nil _

/-- A move between program points that hold the same jobs. -/
theorem move (inv : Delivery twq) (sameLog : next.log = twq.log)
    (sameLfq : next.lfq = twq.lfq) (sameRcu : next.rcu = twq.rcu)
    (same : SameJobs next.worker twq.worker) : Delivery next where
  queue := by rw [sameLog, same.inHand, sameLfq, inv.queue]
  starting := by rw [sameLog, same.inStarted, inv.starting]
  handing := by rw [sameLog, same.unhanded, inv.handing]
  finishing := by
    rw [sameLog, sameRcu]
    exact inv.finishing
  nodup := sameLog ▸ inv.nodup
  allowed := sameLog ▸ inv.allowed

/-- An event that concerns no job. -/
theorem note (inv : Delivery twq) {event : Event Job} (jobless : event.isJobless = true)
    (moreLog : next.log = twq.log ++ [event])
    (sameLfq : next.lfq = twq.lfq) (sameRcu : next.rcu = twq.rcu)
    (same : SameJobs next.worker twq.worker) : Delivery next := by
  have sameEnqueued : enqueued next.log = enqueued twq.log := by
    rw [moreLog]
    cases event <;> cases jobless <;> simp [enqueued]
  have sameStart : started next.log = started twq.log := by
    rw [moreLog]
    cases event <;> cases jobless <;> simp [started]
  have sameReturned : startReturned next.log = startReturned twq.log := by
    rw [moreLog]
    cases event <;> cases jobless <;> simp [startReturned]
  have sameHanded : handedToRcu next.log = handedToRcu twq.log := by
    rw [moreLog]
    cases event <;> cases jobless <;> simp [handedToRcu]
  have sameFinished : finished next.log = finished twq.log := by
    rw [moreLog]
    cases event <;> cases jobless <;> simp [finished]
  constructor
  case queue => rw [sameEnqueued, sameStart, same.inHand, sameLfq, inv.queue]
  case starting => rw [sameStart, sameReturned, same.inStarted, inv.starting]
  case handing => rw [sameReturned, sameHanded, same.unhanded, inv.handing]
  case finishing =>
    rw [sameHanded, sameFinished, sameRcu]
    exact inv.finishing
  case nodup => exact sameEnqueued ▸ inv.nodup
  case allowed =>
    rw [moreLog, History.justified_append_singleton]
    refine ⟨inv.allowed, ?_⟩
    cases event <;> trivial

/-- A dequeue from a program point that holds no job, as `dequeue` does not. -/
theorem dequeueOneJob (inv : Delivery twq) (site : Site) (empty : WorkerPc Job)
    (holdsNone : SameJobs twq.worker .dequeue) (emptyHoldsNone : SameJobs empty .dequeue) :
    Delivery (twq.dequeueOneJob (.callStart site) empty) := by
  unfold Threadwq.dequeueOneJob
  split
  next isEmpty =>
    refine inv.move rfl rfl rfl ⟨?_, ?_, ?_⟩
    · exact emptyHoldsNone.inHand.trans holdsNone.inHand.symm
    · exact emptyHoldsNone.inStarted.trans holdsNone.inStarted.symm
    · exact emptyHoldsNone.unhanded.trans holdsNone.unhanded.symm
  next job rest isCons =>
    have queue := inv.queue
    have starting := inv.starting
    have handing := inv.handing
    rw [holdsNone.inHand, isCons] at queue
    rw [holdsNone.inStarted] at starting
    rw [holdsNone.unhanded] at handing
    constructor
    case queue => simpa [WorkerPc.inHand] using queue
    case starting => exact starting
    case handing => exact handing
    case finishing => exact inv.finishing
    case nodup => exact inv.nodup
    case allowed => exact inv.allowed

theorem callStart (inv : Delivery twq) {site : Site} {job : Job}
    (pc : twq.worker = .callStart site job) (sameLfq : next.lfq = twq.lfq)
    (sameRcu : next.rcu = twq.rcu) (nextPc : next.worker = .inStart site job)
    (moreLog : next.log = twq.log ++ [.cbStart job]) : Delivery next := by
  obtain ⟨queue, starting, handing, finishing, nodup, allowed⟩ := inv
  rw [pc] at queue starting handing
  constructor
  case queue => simpa [moreLog, nextPc, sameLfq, enqueued, started, WorkerPc.inHand] using queue
  case starting =>
    simpa [moreLog, nextPc, started, startReturned, WorkerPc.inStarted] using starting
  case handing =>
    simpa [moreLog, nextPc, startReturned, handedToRcu, WorkerPc.unhanded] using handing
  case finishing => simpa [moreLog, sameRcu, handedToRcu, finished] using finishing
  case nodup => simpa [moreLog, enqueued] using nodup
  case allowed =>
    rw [moreLog, History.justified_append_singleton]
    exact ⟨allowed, trivial⟩

theorem startReturn (inv : Delivery twq) {site : Site} {job : Job}
    (pc : twq.worker = .inStart site job) :
    Delivery { twq with worker := .callRcu site job, log := twq.log ++ [.cbStartReturn job] } := by
  obtain ⟨queue, starting, handing, finishing, nodup, allowed⟩ := inv
  rw [pc] at queue starting handing
  constructor
  case queue => simpa [enqueued, started, WorkerPc.inHand] using queue
  case starting => simpa [started, startReturned, WorkerPc.inStarted] using starting
  case handing => simpa [startReturned, handedToRcu, WorkerPc.unhanded] using handing
  case finishing => simpa [handedToRcu, finished] using finishing
  case nodup => simpa [enqueued] using nodup
  case allowed =>
    rw [History.justified_append_singleton]
    refine ⟨allowed, ?_⟩
    change job ∈ started twq.log
    rw [starting]
    simp [WorkerPc.inStarted]

theorem callRcu (inv : Delivery twq) {site : Site} {job : Job}
    (pc : twq.worker = .callRcu site job) :
    Delivery { twq with
      worker := .dequeueNext site
      rcu := twq.rcu ++ [job]
      log := twq.log ++ [.callRcu job] } := by
  obtain ⟨queue, starting, handing, finishing, nodup, allowed⟩ := inv
  rw [pc] at queue starting handing
  constructor
  case queue => simpa [enqueued, started, WorkerPc.inHand] using queue
  case starting => simpa [started, startReturned, WorkerPc.inStarted] using starting
  case handing => simpa [startReturned, handedToRcu, WorkerPc.unhanded] using handing
  case finishing =>
    have added := finishing.append_right [job]
    simpa [handedToRcu, finished] using added
  case nodup => simpa [enqueued] using nodup
  case allowed =>
    rw [History.justified_append_singleton]
    refine ⟨allowed, ?_⟩
    change job ∈ startReturned twq.log
    rw [handing]
    simp [WorkerPc.unhanded]

theorem enqueue (inv : Delivery twq) {caller : Thread} {job : Job}
    (fresh : job ∉ enqueued twq.log) : Delivery (twq.enqueue caller job) := by
  obtain ⟨queue, starting, handing, finishing, nodup, allowed⟩ := inv
  unfold Threadwq.enqueue
  constructor
  case queue =>
    have queue' : List.filterMap _ twq.log = _ := queue
    simp [enqueued, started, queue', List.append_assoc]
  case starting => simpa [started, startReturned] using starting
  case handing => simpa [startReturned, handedToRcu] using handing
  case finishing => simpa [handedToRcu, finished] using finishing
  case nodup =>
    rw [enqueued_append]
    refine List.Nodup.append nodup (List.nodup_singleton job) ?_
    intro other isEnqueued isJob
    have same : other = job := by simpa [enqueued] using isJob
    exact fresh (same ▸ isEnqueued)
  case allowed =>
    rw [History.justified_append_singleton]
    exact ⟨allowed, trivial⟩

theorem finish [DecidableEq Job] (inv : Delivery twq) {job : Job} (queued : job ∈ twq.rcu) :
    Delivery { twq with rcu := twq.rcu.erase job, log := twq.log ++ [.cbFinish job] } := by
  obtain ⟨queue, starting, handing, finishing, nodup, allowed⟩ := inv
  constructor
  case queue => simpa [enqueued, started] using queue
  case starting => simpa [started, startReturned] using starting
  case handing => simpa [startReturned, handedToRcu] using handing
  case finishing =>
    have taken : (finished twq.log ++ twq.rcu).Perm
        (finished twq.log ++ ([job] ++ twq.rcu.erase job)) :=
      (List.perm_cons_erase queued).append_left _
    have moved := finishing.trans taken
    simpa [handedToRcu, finished] using moved
  case nodup => simpa [enqueued] using nodup
  case allowed =>
    rw [History.justified_append_singleton]
    refine ⟨allowed, ?_⟩
    exact finishing.mem_iff.mpr (List.mem_append_right _ queued)

/-! ## Steps -/

theorem worker {self : Nat} {ret : Int} (inv : Delivery twq)
    (step : workerStep self ret twq = some next) : Delivery next := by
  obtain ⟨_, pc, moves⟩ := workerStep_moves step
  cases moves with
  | callWorkerInit | callWorkerExit =>
      exact inv.note rfl rfl rfl rfl (by rw [pc]; exact ⟨rfl, rfl, rfl⟩)
  | callStart => exact inv.callStart pc rfl rfl rfl rfl
  | inStart => exact inv.startReturn pc
  | callRcu => exact inv.callRcu pc
  | dequeue | serveNext =>
      exact inv.dequeueOneJob .serve .waitLock (by rw [pc]; exact ⟨rfl, rfl, rfl⟩) ⟨rfl, rfl, rfl⟩
  | flushNext =>
      exact inv.dequeueOneJob .flush .callWorkerExit (by rw [pc]; exact ⟨rfl, rfl, rfl⟩)
        ⟨rfl, rfl, rfl⟩
  | flushDequeue =>
      have cleared : Delivery { twq with accl := 0 } := inv.move rfl rfl rfl (.refl _)
      exact cleared.dequeueOneJob .flush .callWorkerExit (by rw [pc]; exact ⟨rfl, rfl, rfl⟩)
        ⟨rfl, rfl, rfl⟩
  | _ => exact inv.move rfl rfl rfl (by rw [pc]; exact ⟨rfl, rfl, rfl⟩)

/-- Waking the worker moves no job. -/
theorem signal (inv : Delivery twq) : Delivery twq.signal := by
  rw [signal_eq]
  rcases signal_worker twq with same | ⟨wasBlocked, nowWoken⟩
  · exact inv.move rfl rfl rfl (by rw [same]; exact .refl _)
  · exact inv.move rfl rfl rfl (by rw [nowWoken, wasBlocked]; exact ⟨rfl, rfl, rfl⟩)

theorem controller {self : Nat} (inv : Delivery twq)
    (step : controllerStep self twq = some next) : Delivery next := by
  obtain ⟨_, _, moves⟩ := controllerStep_moves step
  cases moves with
  | increment | join => exact inv.note rfl rfl rfl rfl (.refl _)
  | broadcast => exact inv.signal.move rfl rfl rfl (.refl _)
  | _ => exact inv.move rfl rfl rfl (.refl _)

theorem change [DecidableEq Job] {self : Nat} (inv : Delivery twq)
    (change : Change self twq next) : Delivery next := by
  cases change with
  | worker ret step => exact inv.worker step
  | controller step => exact inv.controller step
  | enqueue caller job _ fresh => exact inv.enqueue fresh
  | lock thread acquired =>
      obtain ⟨_, rfl⟩ := lock_eq_some.mp acquired
      exact inv.move rfl rfl rfl (.refl _)
  | unlock => exact inv.move rfl rfl rfl (.refl _)
  | signal => exact inv.signal
  | spurious woken =>
      obtain ⟨wasBlocked, rfl⟩ := spuriousWakeup_eq_some.mp woken
      exact inv.move rfl rfl rfl (by rw [wasBlocked]; exact ⟨rfl, rfl, rfl⟩)
  | finish job ran =>
      obtain ⟨queued, rfl⟩ := execFinishRcu_eq_some.mp ran
      exact inv.finish queued

/-! ## Consequences -/

theorem started_nodup (inv : Delivery twq) : (started twq.log).Nodup := by
  have nodup := inv.nodup
  rw [inv.queue, List.append_assoc] at nodup
  exact nodup.of_append_left

theorem handedToRcu_nodup (inv : Delivery twq) : (handedToRcu twq.log).Nodup := by
  have nodup := inv.started_nodup
  rw [inv.starting, inv.handing, List.append_assoc] at nodup
  exact nodup.of_append_left

theorem finished_nodup (inv : Delivery twq) : (finished twq.log).Nodup :=
  (inv.finishing.nodup_iff.mp inv.handedToRcu_nodup).of_append_left

end Delivery

theorem delivery_of_reachable [DecidableEq Job] {sys : System Job}
    (reachable : (System.machine Job).Reachable sys) (index : Nat) :
    Delivery (sys.twq index) :=
  System.queue_invariant (fun _ twq => Delivery twq)
    (fun _ ops busy => Delivery.threadwqInit ops busy)
    (fun _ _ _ inv change => inv.change change) reachable index

/-- What a client of a queue may rely on.  The jobs enqueued are those started, in
call order, then the job in hand, then the queue.  The jobs passed to `call_rcu` are
those started, but for the one still in its `cb_start` or just returned from it; each
is passed once, after its `cb_start` returned.  A `cb_finish` runs at most once per
job, after its `cb_start` returned, and no `cb_start` of the job follows it. -/
structure DeliveredInOrder (twq : Threadwq Job) : Prop where
  fifo : enqueued twq.log = started twq.log ++ twq.worker.inHand ++ twq.lfq
  enqueued_once : (enqueued twq.log).Nodup
  handed : started twq.log =
    handedToRcu twq.log ++ twq.worker.unhanded ++ twq.worker.inStarted
  handed_once : (handedToRcu twq.log).Nodup
  handed_after : ∀ past job rest, twq.log = past ++ .callRcu job :: rest →
    Event.cbStartReturn job ∈ past
  finished_once : (finished twq.log).Nodup
  finished_after : ∀ past job rest, twq.log = past ++ .cbFinish job :: rest →
    Event.cbStartReturn job ∈ past ∧ Event.cbStart job ∉ rest

/-- A callback of `call_rcu` for a job comes after the return of its `cb_start`, and
its `cb_start` is not called again. -/
theorem Delivery.finished_after {twq : Threadwq Job} (inv : Delivery twq)
    {past rest : List (Event Job)} {job : Job}
    (split : twq.log = past ++ .cbFinish job :: rest) :
    Event.cbStartReturn job ∈ past ∧ Event.cbStart job ∉ rest := by
  obtain ⟨before, after, pastSplit⟩ :=
    List.append_of_mem (mem_handedToRcu.mp (inv.allowed past _ rest split))
  have returnedBefore : Event.cbStartReturn job ∈ before := by
    apply mem_startReturned.mp
    apply inv.allowed before (.callRcu job) (after ++ .cbFinish job :: rest)
    rw [split, pastSplit]
    simp
  obtain ⟨earlier, later, beforeSplit⟩ := List.append_of_mem returnedBefore
  have startedEarlier : job ∈ started earlier := by
    apply inv.allowed earlier (.cbStartReturn job)
      (later ++ .callRcu job :: after ++ .cbFinish job :: rest)
    rw [split, pastSplit, beforeSplit]
    simp
  refine ⟨?_, ?_⟩
  · rw [pastSplit]
    exact List.mem_append_left _ returnedBefore
  · intro again
    have nodup := inv.started_nodup
    rw [split, started_append] at nodup
    have inPast : job ∈ started past := by
      rw [pastSplit, beforeSplit]
      simp [startedEarlier]
    have inRest : job ∈ started (.cbFinish job :: rest) :=
      mem_started.mpr (List.mem_cons_of_mem _ again)
    exact (List.disjoint_of_nodup_append nodup) inPast inRest

/-- In every reachable state every queue delivers its jobs once and in sequence. -/
theorem delivered_in_order [DecidableEq Job] {sys : System Job}
    (reachable : (System.machine Job).Reachable sys) (index : Nat) :
    DeliveredInOrder (sys.twq index) := by
  have inv := delivery_of_reachable reachable index
  constructor
  case fifo => exact inv.queue
  case enqueued_once => exact inv.nodup
  case handed => rw [inv.starting, inv.handing]
  case handed_once => exact inv.handedToRcu_nodup
  case handed_after =>
    exact fun past job rest split => mem_startReturned.mp (inv.allowed past _ rest split)
  case finished_once => exact inv.finished_nodup
  case finished_after => exact fun past job rest split => inv.finished_after split

/-- Two producers add 7 and 8 side by side.  The worker serves them, sleeps, and is woken
without a signal.  Job 9 is added while the exit is requested, and is flushed.  The callbacks
of 7 and 8 are run the other way round. -/
def flushedRun : List (Action Nat) :=
  List.flatten [[.worker 0 0, .worker 0 0, .controller 0,
    .call (.producer 0) (.threadwqAddJob 0) 7, .call (.producer 1) (.threadwqAddJob 0) 8,
    .add (.producer 0), .add (.producer 1)], List.replicate 10 (.worker 0 0),
    List.replicate 3 (.add (.producer 0)), List.replicate 3 (.add (.producer 1)),
    List.replicate 2 (.worker 0 0), [.spurious 0], List.replicate 6 (.worker 0 0),
    List.replicate 5 (.controller 0),
    [.call (.producer 0) (.threadwqAddJob 0) 9, .add (.producer 0)],
    List.replicate 11 (.worker 0 0), [.rcu 0 8, .rcu 0 7, .rcu 0 9]]

theorem delivered_in_order_flushedRun :
    ∃ sys : System Nat, System.run (System.boot ⟨true, true⟩ ⟨1, .rr, 0⟩) flushedRun = some sys ∧
      enqueued (sys.twq 0).log = [7, 8, 9] ∧ handedToRcu (sys.twq 0).log = [7, 8, 9] ∧
      finished (sys.twq 0).log = [8, 7, 9] ∧ (sys.twq 0).worker = .returned ∧
      DeliveredInOrder (sys.twq 0) := by
  obtain ⟨sys, ran, queued, handed, done, returned⟩ := System.exists_run
    (System.boot ⟨true, true⟩ ⟨1, .rr, 0⟩) flushedRun
    (fun sys => enqueued (sys.twq 0).log = [7, 8, 9] ∧ handedToRcu (sys.twq 0).log = [7, 8, 9] ∧
      finished (sys.twq 0).log = [8, 7, 9] ∧ (sys.twq 0).worker = .returned) (by decide +kernel)
  have reachable := System.reachable_of_run (System.boot_initial _ _ rfl) ran
  exact ⟨sys, ran, queued, handed, done, returned, delivered_in_order reachable 0⟩

end LinuxCTemplate.Threadwq
