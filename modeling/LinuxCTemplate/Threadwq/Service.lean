import LinuxCTemplate.Threadwq.Drain
import LinuxCTemplate.Threadwq.Fairness
import Mathlib.Data.List.Infix

/-!
# Every job is served, or the wake-up is lost

Under a fair scheduler and before any exit is requested, a job that is on a queue is run
to its `cb_finish`, whatever the other threads do, unless from some moment on the worker
sleeps on a queue that nobody is working on.  The lost wake-up of `wait4job` is thus the
only way in which a job starves.

What decreases is counted in rounds of the worker: each `cb_start` brings the job one
place nearer, and between two of them the worker passes its program points in the order
of `roundRank`.
-/

namespace LinuxCTemplate.Threadwq

open Foundation Machine

variable {Job : Type}

/-! ## What stands between a job and its start -/

/-- The jobs that are not yet started, the next one first. -/
def waiting (twq : Threadwq Job) : List Job :=
  twq.worker.inHand ++ twq.lfq

/-- How far the worker is from its next `cb_start`. -/
def WorkerPc.roundRank : WorkerPc Job → Nat
  | .dequeue | .dequeueNext _ => 1
  | .callRcu _ _ | .loopTest => 2
  | .inStart _ _ | .waitUnlock | .setRunning => 3
  | .woken | .callWorkerInit => 4
  | .blocked => 5
  | .condWait => 6
  | .waitLock => 7
  | _ => 0

/-- How far the worker is from the start of the job. -/
def serveRank [DecidableEq Job] (job : Job) (twq : Threadwq Job) : Nat :=
  8 * (waiting twq).idxOf job + twq.worker.roundRank

variable [DecidableEq Job]

/-- A dequeue in the loop brings the worker nearer to a job that is there. -/
theorem serveRank_dequeue {job : Job} {twq : Threadwq Job} (noHand : twq.worker.inHand = [])
    (atDequeue : twq.worker.roundRank = 1) (waits : job ∈ waiting twq) :
    job ∈ waiting (twq.dequeueOneJob (.callStart .serve) .waitLock) ∧
      serveRank job (twq.dequeueOneJob (.callStart .serve) .waitLock) < serveRank job twq := by
  rw [waiting, noHand, List.nil_append] at waits
  unfold dequeueOneJob
  split
  next empty =>
    rw [empty] at waits
    cases waits
  next first rest nonempty =>
    rw [nonempty] at waits
    have before : serveRank job twq = 8 * (first :: rest).idxOf job + 1 := by
      rw [serveRank, waiting, noHand, nonempty, atDequeue, List.nil_append]
    refine ⟨waits, ?_⟩
    rw [before]
    exact Nat.lt_succ_self _

/-- Each step of a serving worker brings it nearer to the start of a job that waits. -/
theorem serveRank_workerMoves {self : Nat} {ret : Int} {job : Job} {pc : WorkerPc Job}
    {twq next : Threadwq Job} (here : twq.worker = pc) (moves : WorkerMoves self ret twq pc next)
    (serving : twq.exit = 0) (looping : pc.leaving = false) (waits : job ∈ waiting twq) :
    job ∈ waiting next ∧ serveRank job next < serveRank job twq ∨ job ∈ started next.log := by
  -- The jobs that wait are the same.
  have nearer : waiting next = waiting twq →
      next.worker.roundRank < twq.worker.roundRank →
      job ∈ waiting next ∧ serveRank job next < serveRank job twq := by
    intro same less
    refine ⟨same ▸ waits, ?_⟩
    rw [serveRank, serveRank, same]
    exact Nat.add_lt_add_left less _
  cases moves with
  | leaveLoop nonzero => exact (nonzero serving).elim
  | flushNext | flushDequeue | callWorkerExit | skipWorkerExit | setExitAck | unregister =>
      cases looping
  | dequeue | serveNext =>
      exact Or.inl (serveRank_dequeue (by rw [here]; rfl) (by rw [here]; rfl) waits)
  | callStart site first =>
      rw [waiting, here] at waits
      rcases List.mem_cons.mp waits with rfl | later
      · exact Or.inr (mem_started.mpr (List.mem_append_right _ (List.mem_singleton_self _)))
      · by_cases same : job = first
        · rw [same]
          exact Or.inr (mem_started.mpr (List.mem_append_right _ (List.mem_singleton_self _)))
        · refine Or.inl ⟨later, ?_⟩
          have further : (first :: twq.lfq).idxOf job = twq.lfq.idxOf job + 1 :=
            List.idxOf_cons_ne _ (Ne.symm same)
          simp only [serveRank, waiting, here, WorkerPc.inHand, WorkerPc.roundRank,
            List.nil_append, List.singleton_append, further]
          omega
  | _ =>
      refine Or.inl (nearer ?_ ?_)
      · simp [waiting, here, WorkerPc.inHand, Threadwq.unlock]
      · rw [here]
        simp [WorkerPc.roundRank]

namespace System

variable {sys next : System Job} {action : Action Job} {index : Nat} {thread : Thread}

omit [DecidableEq Job] in
/-- Only the worker takes jobs from its queue. -/
theorem controllerStep_lfq {self : Nat} {twq next : Threadwq Job}
    (step : controllerStep self twq = some next) : next.lfq = twq.lfq := by
  obtain ⟨_, _, moves⟩ := controllerStep_moves step
  cases moves with
  | broadcast => exact signal_lfq twq
  | _ => rfl

omit [DecidableEq Job] in
theorem lfq_setTwq {other : Nat} {twq : Threadwq Job}
    (longer : (sys.twq other).lfq <+: twq.lfq) (index : Nat) :
    (sys.twq index).lfq <+: ((sys.setTwq other twq).twq index).lfq :=
  forall_setTwq (fun other later => (sys.twq other).lfq <+: later.lfq) longer
    (fun _ _ => List.prefix_rfl) index

omit [DecidableEq Job] in
theorem addStep_lfq (step : sys.addStep thread = some next) (index : Nat) :
    (sys.twq index).lfq <+: (next.twq index).lfq := by
  obtain ⟨_, _, moves⟩ := addStep_moves step
  cases moves with
  | enqueue | enqueueLocked => exact lfq_setTwq (List.prefix_append _ _) index
  | signal =>
      refine lfq_setTwq ?_ index
      rw [signal_lfq]
  | unlock | lock | tryLock =>
      refine lfq_setTwq ?_ index
      exact List.prefix_rfl
  | rrRead | rrReset | rrAdvance | readIdx | tryLockFails | setIdx => exact List.prefix_rfl

theorem step_lfq_of_others (step : sys.step action = some next)
    (others : ¬ WorkerActs index sys action) :
    (sys.twq index).lfq <+: (next.twq index).lfq := by
  cases step_moves step with
  | @worker other ret =>
      have different : index ≠ other := by
        rintro rfl
        exact others ⟨ret, rfl⟩
      rw [setTwq_twq_of_ne sys _ different]
  | controller moved =>
      refine lfq_setTwq ?_ index
      rw [controllerStep_lfq moved]
  | call => exact List.prefix_rfl
  | add moved => exact addStep_lfq moved index
  | spurious | rcu =>
      refine lfq_setTwq ?_ index
      exact List.prefix_rfl

/-- Nobody takes a waiting job from the worker. -/
theorem waiting_of_others {job : Job} (step : sys.step action = some next)
    (others : ¬ WorkerActs index sys action)
    (same : (next.twq index).worker.inHand = (sys.twq index).worker.inHand)
    (waits : job ∈ waiting (sys.twq index)) :
    job ∈ waiting (next.twq index) ∧
      (waiting (next.twq index)).idxOf job = (waiting (sys.twq index)).idxOf job := by
  have longer : waiting (sys.twq index) <+: waiting (next.twq index) := by
    rw [waiting, waiting, same, List.prefix_append_right_inj]
    exact step_lfq_of_others step others
  exact ⟨longer.subset waits, (longer.idxOf_eq_of_mem waits).symm⟩

/-- A sleeping worker stays asleep or is woken. -/
theorem step_worker_of_blocked (step : sys.step action = some next)
    (asleep : (sys.twq index).worker = .blocked) :
    ¬ WorkerActs index sys action ∧
      ((next.twq index).worker = .blocked ∨ (next.twq index).worker = .woken) := by
  have bySignal : (sys.twq index).signal.worker = .woken := by
    unfold Threadwq.signal
    rw [asleep]
  constructor
  · rintro ⟨ret, rfl⟩
    cases step_moves step with
    | worker idle moved =>
        obtain ⟨_, here, moves⟩ := workerStep_moves moved
        rw [asleep] at here
        subst here
        cases moves
  · cases step_moves step with
    | @worker other ret twq idle moved =>
        by_cases same : index = other
        · subst same
          obtain ⟨_, here, moves⟩ := workerStep_moves moved
          rw [asleep] at here
          subst here
          cases moves
        · rw [setTwq_twq_of_ne _ _ same]
          exact Or.inl asleep
    | @controller other twq moved =>
        by_cases same : index = other
        · subst same
          rw [setTwq_twq_self]
          rcases controllerStep_worker moved with unmoved | signalled
          · exact Or.inl (unmoved.trans asleep)
          · exact Or.inr (signalled.trans bySignal)
        · rw [setTwq_twq_of_ne _ _ same]
          exact Or.inl asleep
    | call => exact Or.inl asleep
    | add moved =>
        rcases addStep_worker moved index with unmoved | signalled
        · exact Or.inl (unmoved.trans asleep)
        · exact Or.inr (signalled.trans bySignal)
    | @spurious other =>
        by_cases same : index = other
        · subst same
          rw [setTwq_twq_self]
          exact Or.inr rfl
        · rw [setTwq_twq_of_ne _ _ same]
          exact Or.inl asleep
    | @rcu other =>
        left
        by_cases same : index = other
        · subst same
          rw [setTwq_twq_self]
          exact asleep
        · rw [setTwq_twq_of_ne _ _ same]
          exact asleep

end System

/-! ## Service -/

section Serving

variable {exec : (System.machine Job).Execution} {index : Nat}

/-- From the moment on there is a job in the queue, every producer has finished its sequence
on it, and the worker sleeps. -/
def StrandedFrom (exec : (System.machine Job).Execution) (index n : Nat) : Prop :=
  ∀ m, n ≤ m → System.Stranded index (exec.state m)

/-- Before an exit is requested the worker is in its loop. -/
theorem looping_of_noRequest {sys : System Job} (reachable : (System.machine Job).Reachable sys)
    (noRequest : (sys.twq index).log.any Event.isRequest = false) :
    (sys.twq index).exit = 0 ∧ (sys.twq index).worker.leaving = false := by
  have shutdown := shutdown_of_reachable reachable index
  constructor
  · by_contra nonzero
    rw [shutdown.requested nonzero] at noRequest
    cases noRequest
  · by_contra leaving
    rw [shutdown.leaving (Bool.not_eq_false _ ▸ leaving)] at noRequest
    cases noRequest

/-- A worker that is never woken on a queue with jobs leaves them stranded. -/
theorem strandedFrom_of_asleep (fair : FairFor exec index) {n : Nat}
    (serving : ∀ m, n ≤ m → (queueAt exec index m).log.any Event.isRequest = false)
    (asleep : ∀ m, n ≤ m → (queueAt exec index m).worker = .blocked)
    (queued : ∀ m, n ≤ m → (queueAt exec index m).lfq ≠ []) : StrandedFrom exec index n := by
  intro m later
  refine ⟨serving m later, queued m later, asleep m later, fun thread => ?_⟩
  by_contra inside
  obtain ⟨k, latest, unlocking⟩ := unlock_of_inSequence fair m (Bool.not_eq_false _ ▸ inside)
  have awake := System.awake_of_unlock (exec.reachable k) unlocking
  exact awake (asleep k (Nat.le_trans later latest))

/-- The job waits, and the worker is so far from its start. -/
def WaitsAt (exec : (System.machine Job).Execution) (index : Nat) (job : Job) (rank n : Nat) :
    Prop :=
  job ∈ waiting (queueAt exec index n) ∧ serveRank job (queueAt exec index n) = rank

/-- The job has been started, or the worker has come nearer to it. -/
def Nearer (exec : (System.machine Job).Execution) (index : Nat) (job : Job) (rank n : Nat) :
    Prop :=
  job ∈ waiting (queueAt exec index n) ∧ serveRank job (queueAt exec index n) < rank ∨
    job ∈ started (queueAt exec index n).log

/-- Steps of others leave the distance as it is. -/
theorem WaitsAt.of_others {job : Job} {rank n : Nat} (waits : WaitsAt exec index job rank n)
    {pc : WorkerPc Job} (awake : pc ≠ .blocked) (here : (queueAt exec index n).worker = pc)
    (others : ¬ exec.Takes (WorkerActs index) n) :
    (queueAt exec index (n + 1)).worker = pc ∧ WaitsAt exec index job rank (n + 1) := by
  have same := worker_persists awake n here others
  refine ⟨same, ?_⟩
  cases label : exec.label n with
  | none =>
      rw [WaitsAt, queueAt, exec.rest n label]
      exact waits
  | some action =>
      have notOwn : ¬ WorkerActs index (exec.state n) action :=
        fun own => others ⟨action, label, own⟩
      obtain ⟨still, place⟩ := System.waiting_of_others (exec.step n action label) notOwn
        (congrArg WorkerPc.inHand (same.trans here.symm)) waits.1
      refine ⟨still, ?_⟩
      rw [← waits.2, serveRank, serveRank, place, same, here]

/-- An awake worker comes nearer. -/
theorem nearer_of_awake (fair : FairFor exec index) (returns : CallbacksReturn exec index)
    (serving : ∀ n, (queueAt exec index n).log.any Event.isRequest = false) (job : Job)
    (rank : Nat) {pc : WorkerPc Job} (moves : pc.moves = true) :
    LeadsTo (fun n => (queueAt exec index n).worker = pc ∧ WaitsAt exec index job rank n)
      (Nearer exec index job rank) := by
  have awake : pc ≠ .blocked := by
    rintro rfl
    cases moves
  have taken : LeadsTo _ _ := worker_takes fair moves (fun _ => returns)
    (fun _ (holds : _ ∧ WaitsAt exec index job rank _) => holds.1)
    fun n holds others => holds.2.of_others awake holds.1 others
  refine taken.next ?_
  rintro n ⟨⟨here, waits, rfl⟩, acts⟩
  obtain ⟨ret, next, later, moved⟩ := worker_moves_of_takes here acts
  have looping := looping_of_noRequest (exec.reachable n) (serving n)
  rw [Nearer, later]
  exact serveRank_workerMoves here moved looping.1 (here ▸ looping.2) waits

/-- A sleeping worker is woken, and so comes nearer, or leaves its jobs stranded. -/
theorem nearer_of_blocked (fair : FairFor exec index)
    (serving : ∀ n, (queueAt exec index n).log.any Event.isRequest = false) (job : Job)
    (rank : Nat) :
    LeadsTo (fun n => (queueAt exec index n).worker = .blocked ∧ WaitsAt exec index job rank n)
      fun n => Nearer exec index job rank n ∨ StrandedFrom exec index n := by
  have kept : ∀ n, (queueAt exec index n).worker = .blocked ∧ WaitsAt exec index job rank n →
      ((queueAt exec index (n + 1)).worker = .blocked ∧ WaitsAt exec index job rank (n + 1)) ∨
        Nearer exec index job rank (n + 1) := by
    rintro n ⟨asleep, waits, isRank⟩
    cases label : exec.label n with
    | none =>
        left
        rw [WaitsAt, queueAt, exec.rest n label]
        exact ⟨asleep, waits, isRank⟩
    | some action =>
        have step := exec.step n action label
        obtain ⟨others, sleep⟩ := System.step_worker_of_blocked step asleep
        have sameHand : (queueAt exec index (n + 1)).worker.inHand =
            (queueAt exec index n).worker.inHand := by
          rcases sleep with still | woken
          · rw [still, asleep]
          · rw [woken, asleep]
            rfl
        obtain ⟨still, place⟩ := System.waiting_of_others step others sameHand waits
        rw [serveRank, asleep] at isRank
        rcases sleep with asleep' | woken
        · refine Or.inl ⟨asleep', still, ?_⟩
          rw [serveRank, place, asleep', isRank]
        · refine Or.inr (Or.inl ⟨still, ?_⟩)
          rw [serveRank, place, woken, ← isRank]
          exact Nat.lt_succ_self _
  intro n here
  by_cases woken : ∃ m, n ≤ m ∧ ¬ ((queueAt exec index m).worker = .blocked ∧
      WaitsAt exec index job rank m)
  · have leads : LeadsTo (fun m => m = n) fun m =>
        ¬ ((queueAt exec index m).worker = .blocked ∧ WaitsAt exec index job rank m) := by
      rintro _ rfl
      exact woken
    obtain ⟨m, later, ⟨ended, still⟩ | nearer⟩ := (leads.along kept) n ⟨rfl, here⟩
    · exact (ended still).elim
    · exact ⟨m, later, Or.inl nearer⟩
  · have always : ∀ m, n ≤ m → (queueAt exec index m).worker = .blocked ∧
        WaitsAt exec index job rank m :=
      fun m later => not_not.mp fun asleep => woken ⟨m, later, asleep⟩
    refine ⟨n, Nat.le_refl n, Or.inr ?_⟩
    refine strandedFrom_of_asleep fair (fun m _ => serving m) (fun m later => (always m later).1) ?_
    intro m later empty
    obtain ⟨asleep, waits, _⟩ := always m later
    rw [waiting, asleep, empty] at waits
    cases waits

theorem started_of_waiting (fair : FairFor exec index) (returns : CallbacksReturn exec index)
    (serving : ∀ n, (queueAt exec index n).log.any Event.isRequest = false) (job : Job) :
    LeadsTo (fun n => job ∈ waiting (queueAt exec index n))
      fun n => job ∈ started (queueAt exec index n).log ∨ StrandedFrom exec index n := by
  refine LeadsTo.of_rank (fun n => serveRank job (queueAt exec index n)) fun rank n waits => ?_
  have nearer : ∃ m, n ≤ m ∧ (Nearer exec index job rank m ∨ StrandedFrom exec index m) := by
    cases moves : (queueAt exec index n).worker.moves with
    | true =>
        obtain ⟨m, later, nearer⟩ :=
          nearer_of_awake fair returns serving job rank moves n ⟨rfl, waits⟩
        exact ⟨m, later, Or.inl nearer⟩
    | false =>
        rcases WorkerPc.stops moves with asleep | returned
        · exact nearer_of_blocked fair serving job rank n ⟨asleep, waits⟩
        · have looping := (looping_of_noRequest (exec.reachable n) (serving n)).2
          rw [returned] at looping
          cases looping
  obtain ⟨m, later, (⟨still, less⟩ | isStarted) | stranded⟩ := nearer
  · exact ⟨m, later, Or.inl ⟨still, less⟩⟩
  · exact ⟨m, later, Or.inr (Or.inl isStarted)⟩
  · exact ⟨m, later, Or.inr (Or.inr stranded)⟩

/-! ## From the start to the end of a job -/

/-- A callback that is passed to `call_rcu` is run. -/
theorem finished_of_handed (fair : FairFor exec index) (job : Job) :
    LeadsTo (fun n => job ∈ handedToRcu (queueAt exec index n).log)
      fun n => job ∈ finished (queueAt exec index n).log := by
  intro n handed
  by_contra never
  have enabled : ∀ m, n ≤ m → exec.Enables (RcuActs index job) m := by
    intro m later
    have stillHanded := mem_log_of_le later (mem_handedToRcu.mp handed)
    have queued := (System.mem_rcu_iff (exec.reachable m)).mpr
      ⟨mem_handedToRcu.mpr stillHanded, fun isFinished => never ⟨m, later, isFinished⟩⟩
    obtain ⟨next, step⟩ : ∃ next, (exec.state m).step (.rcu index job) = some next := by
      simp only [System.step, execFinishRcu, if_pos queued, Option.map_some]
      exact ⟨_, rfl⟩
    exact ⟨.rcu index job, next, rfl, step⟩
  have taken : LeadsTo (fun m => n ≤ m) fun m => n ≤ m ∧ exec.Takes (RcuActs index job) m :=
    (fair.rcu job).takes (fun _ later _ => Nat.le_succ_of_le later)
      (LeadsTo.of_imp fun m _ => enabled m)
  obtain ⟨m, _, later, _, label, rfl⟩ := taken n (Nat.le_refl n)
  have isFinished : job ∈ finished (queueAt exec index (m + 1)).log := by
    have step : (exec.state m).step (.rcu index job) = some (exec.state (m + 1)) :=
      exec.step m _ label
    unfold queueAt
    generalize exec.state (m + 1) = next at step ⊢
    cases System.step_moves step with
    | rcu =>
        rw [System.setTwq_twq_self]
        simp [finished]
  exact never ⟨m + 1, Nat.le_succ_of_le later, isFinished⟩

/-- A `cb_start` that has been called returns, and its job is passed to `call_rcu`. -/
theorem handed_of_started (fair : FairFor exec index) (returns : CallbacksReturn exec index)
    (job : Job) :
    LeadsTo (fun n => job ∈ started (queueAt exec index n).log)
      fun n => job ∈ handedToRcu (queueAt exec index n).log := by
  have ofCallRcu : ∀ site, LeadsTo (fun n => (queueAt exec index n).worker = .callRcu site job)
      fun n => job ∈ handedToRcu (queueAt exec index n).log := by
    intro site
    refine (worker_takes fair rfl (by simp [WorkerPc.inCallback]) (fun _ => id)
      (worker_persists (by simp))).next ?_
    rintro n ⟨here, taken⟩
    obtain ⟨ret, next, later, moved⟩ := worker_moves_of_takes here taken
    rw [later]
    cases moved
    simp [handedToRcu]
  have ofInStart : ∀ site, LeadsTo (fun n => (queueAt exec index n).worker = .inStart site job)
      fun n => (queueAt exec index n).worker = .callRcu site job := by
    intro site
    refine (worker_takes fair rfl (fun _ => returns) (fun _ => id)
      (worker_persists (by simp))).next ?_
    rintro n ⟨here, taken⟩
    obtain ⟨ret, next, later, moved⟩ := worker_moves_of_takes here taken
    rw [later]
    cases moved
    rfl
  intro n isStarted
  have delivery := delivery_of_reachable (exec.reachable n) index
  rw [delivery.starting, delivery.handing, List.mem_append, List.mem_append] at isStarted
  rcases isStarted with (handed | unhanded) | inStarted
  · exact ⟨n, Nat.le_refl n, handed⟩
  · cases here : (queueAt exec index n).worker <;> rw [queueAt] at here <;>
      rw [here] at unhanded <;> try cases unhanded
    case callRcu.head site => exact ofCallRcu site n here
    case tail => contradiction
  · cases here : (queueAt exec index n).worker <;> rw [queueAt] at here <;>
      rw [here] at inStarted <;> try cases inStarted
    case inStart.head site => exact ((ofInStart site).trans (ofCallRcu site)) n here
    case tail => contradiction

/-- In a run under a fair scheduler in which every `cb_start` of the queue returns and no exit
is requested, every job put on the queue is run to its `cb_finish`, or from some moment on it
lies in the queue of a sleeping worker that no producer is going to wake. -/
theorem finished_or_stranded (fair : FairFor exec index) (returns : CallbacksReturn exec index)
    (serving : ∀ n, (queueAt exec index n).log.any Event.isRequest = false) {n : Nat} {job : Job}
    (isEnqueued : job ∈ enqueued (queueAt exec index n).log) :
    (∃ m, n ≤ m ∧ job ∈ finished (queueAt exec index m).log) ∨
      ∃ m, n ≤ m ∧ ∀ later, m ≤ later →
        System.Stranded index (exec.state later) ∧ job ∈ (queueAt exec index later).lfq := by
  have startedOrWaiting : ∀ m, n ≤ m → job ∈ started (queueAt exec index m).log ∨
      job ∈ waiting (queueAt exec index m) := by
    intro m later
    obtain ⟨caller, happened⟩ := mem_enqueued.mp isEnqueued
    have member := mem_enqueued.mpr ⟨caller, mem_log_of_le later happened⟩
    rwa [(delivery_of_reachable (exec.reachable m) index).queue, List.append_assoc,
      List.mem_append] at member
  by_cases isStarted : ∃ m, n ≤ m ∧ job ∈ started (queueAt exec index m).log
  · left
    obtain ⟨m, later, isStarted⟩ := isStarted
    obtain ⟨k, latest, isFinished⟩ :=
      ((handed_of_started fair returns job).trans (finished_of_handed fair job)) m isStarted
    exact ⟨k, Nat.le_trans later latest, isFinished⟩
  · right
    have waits : ∀ m, n ≤ m → job ∈ waiting (queueAt exec index m) :=
      fun m later => (startedOrWaiting m later).resolve_left fun now => isStarted ⟨m, later, now⟩
    obtain ⟨m, later, now | stranded⟩ :=
      started_of_waiting fair returns serving job n (waits n (Nat.le_refl n))
    · exact (isStarted ⟨m, later, now⟩).elim
    · refine ⟨m, later, fun k latest => ⟨stranded k latest, ?_⟩⟩
      have waiting := waits k (Nat.le_trans later latest)
      rwa [Threadwq.waiting, (stranded k latest).blocked] at waiting

end Serving

/-- Job 7 is added while the worker comes up, and is run to its `cb_finish`.  Job 8 is added
and signalled after the worker has found the queue empty and before it sleeps. -/
def overtakenRun : List (Action Nat) :=
  List.flatten [[.worker 0 0, .worker 0 0, .controller 0,
    .call (.producer 0) (.threadwqAddJob 0) 7, .add (.producer 0)],
    List.replicate 5 (.worker 0 0), List.replicate 3 (.add (.producer 0)),
    [.worker 0 0, .call (.producer 1) (.threadwqAddJob 0) 8],
    List.replicate 4 (.add (.producer 1)), List.replicate 2 (.worker 0 0), [.rcu 0 7]]

/-- Each of the two ways a job can go. -/
theorem finished_or_stranded_overtakenRun :
    ∃ (exec : (System.machine Nat).Execution) (n : Nat), FairFor exec 0 ∧
      CallbacksReturn exec 0 ∧ (∀ n, (queueAt exec 0 n).log.any Event.isRequest = false) ∧
      enqueued (queueAt exec 0 n).log = [7, 8] ∧
      (∃ m, n ≤ m ∧ 7 ∈ finished (queueAt exec 0 m).log) ∧
      ∃ m, n ≤ m ∧ ∀ later, m ≤ later →
        System.Stranded 0 (exec.state later) ∧ 8 ∈ (queueAt exec 0 later).lfq := by
  obtain ⟨last, ran, worker, controller, rcu, noRequest, onlyEight, onlySeven, returned⟩ :=
    System.exists_run (System.boot ⟨true, true⟩ ⟨1, .rr, 0⟩) overtakenRun
    (fun last => (last.twq 0).worker.moves = false ∧ (last.twq 0).controller = .online ∧
      (last.twq 0).rcu = [] ∧ (last.twq 0).log.any Event.isRequest = false ∧
      (last.twq 0).lfq = [8] ∧ finished (last.twq 0).log = [7] ∧
      ∀ action ∈ overtakenRun, ∀ thread ∈ action.thread?, last.add thread = .idle)
    (by decide +kernel)
  have initial := @System.boot_initial Nat ⟨true, true⟩ ⟨1, .rr, 0⟩ rfl
  have isStep : ∀ sys action next, System.step sys action = some next →
      (System.machine Nat).Step sys action next := fun _ _ _ taken => taken
  obtain ⟨exec, states, rest⟩ := Execution.exists_ofRun isStep initial ran
  have resting : Resting 0 last :=
    ⟨worker, Or.inl controller, rcu, System.idle_of_run ran (fun _ => rfl) returned⟩
  have fair : FairFor exec 0 := .of_rest rest resting
  have returns : CallbacksReturn exec 0 := .of_rest rest resting
  have serving : ∀ n, (queueAt exec 0 n).log.any Event.isRequest = false := by
    intro n
    by_contra requested
    obtain ⟨event, happened, isRequest⟩ := List.any_eq_true.mp (Bool.not_eq_false _ ▸ requested)
    have later := mem_log_of_le (Nat.le_max_left n overtakenRun.length) happened
    rw [queueAt, rest _ (Nat.le_max_right _ _)] at later
    rw [List.any_eq_true.mpr ⟨event, later, isRequest⟩] at noRequest
    cases noRequest
  have isEnqueued : enqueued (queueAt exec 0 16).log = [7, 8] := by
    rw [queueAt, states]
    decide +kernel
  have sevenIn : 7 ∈ enqueued (queueAt exec 0 16).log := by simp [isEnqueued]
  have eightIn : 8 ∈ enqueued (queueAt exec 0 16).log := by simp [isEnqueued]
  have isKept : ∀ m job, job ∈ finished (queueAt exec 0 m).log →
      job ∈ finished (last.twq 0).log := by
    intro m job isFinished
    obtain ⟨event, happened, isFinish⟩ := List.mem_filterMap.mp isFinished
    have later := mem_log_of_le (Nat.le_max_left m overtakenRun.length) happened
    rw [queueAt, rest _ (Nat.le_max_right _ _)] at later
    exact List.mem_filterMap.mpr ⟨event, later, isFinish⟩
  refine ⟨exec, 16, fair, returns, serving, isEnqueued, ?_, ?_⟩
  · -- Job 7 leaves the queue.
    refine (finished_or_stranded fair returns serving sevenIn).resolve_right ?_
    rintro ⟨m, _, stranded⟩
    have queued := (stranded (max m overtakenRun.length) (Nat.le_max_left _ _)).2
    rw [queueAt, rest _ (Nat.le_max_right _ _), onlyEight] at queued
    cases List.mem_singleton.mp queued
  · -- Job 8 is never started.
    refine (finished_or_stranded fair returns serving eightIn).resolve_left ?_
    rintro ⟨m, _, isFinished⟩
    have isLast := isKept m 8 isFinished
    rw [onlySeven] at isLast
    cases List.mem_singleton.mp isLast

end LinuxCTemplate.Threadwq
