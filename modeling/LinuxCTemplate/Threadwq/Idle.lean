import LinuxCTemplate.Threadwq.Mutex

/-!
# Is the worker idle when `rr4idle_add_job` picks it?

`rr4idle_add_job` takes a free mutex for the sign of an idle worker.  But the worker
holds the mutex only while it goes to sleep or comes back from it, so the mutex is
just as free while the worker runs a job, or while jobs are queued.

What the free mutex does give is that nothing changes for the worse: a queue that is
empty and whose worker holds no job when the mutex is taken is still so when the job
is enqueued.  So the policy dispatches to idle workers in every run in which each
successful `pthread_mutex_trylock` finds an idle one.
-/

namespace LinuxCTemplate.Threadwq

open Foundation

variable {Job : Type}

/-- The worker has dequeued a job whose `cb_start` has not returned yet. -/
def WorkerPc.hasJob : WorkerPc Job → Bool
  | .callStart _ _ | .inStart _ _ => true
  | _ => false

theorem WorkerPc.not_inCallback_of_noJob {pc : WorkerPc Job} (noJob : pc.hasJob = false) :
    pc.inCallback = false := by
  cases pc <;> first | rfl | cases noJob

/-- The queue is empty and its worker holds no job. -/
def Idle (twq : Threadwq Job) : Prop :=
  twq.lfq = [] ∧ twq.worker.hasJob = false

instance [DecidableEq Job] (twq : Threadwq Job) : Decidable (Idle twq) :=
  inferInstanceAs (Decidable (twq.lfq = [] ∧ twq.worker.hasJob = false))

/-- A change of a queue that adds no job and leaves an idle queue idle. -/
structure Calm (twq next : Threadwq Job) : Prop where
  shorter : next.lfq.length ≤ twq.lfq.length
  idle : Idle twq → Idle next

theorem Calm.of_same {twq next : Threadwq Job} (sameLfq : next.lfq = twq.lfq)
    (hasJob : twq.worker.hasJob = false → next.worker.hasJob = false) : Calm twq next where
  shorter := Nat.le_of_eq (by rw [sameLfq])
  idle idle := ⟨sameLfq.trans idle.1, hasJob idle.2⟩

theorem calm_signal (twq : Threadwq Job) : Calm twq twq.signal := by
  apply Calm.of_same (signal_lfq twq)
  rcases signal_worker twq with same | ⟨_, woken⟩
  · rw [same]
    exact id
  · rw [woken]
    exact fun _ => rfl

theorem calm_dequeueOneJob (twq : Threadwq Job) (found : Job → WorkerPc Job)
    {empty : WorkerPc Job} (noJob : empty.hasJob = false) :
    Calm twq (twq.dequeueOneJob found empty) := by
  unfold dequeueOneJob
  split
  next isEmpty => exact ⟨Nat.le_refl _, fun idle => ⟨idle.1, noJob⟩⟩
  next job rest isCons =>
    constructor
    · rw [isCons]
      exact Nat.le_succ _
    · intro idle
      rw [idle.1] at isCons
      cases isCons

theorem workerStep_calm {self : Nat} {ret : Int} {twq next : Threadwq Job}
    (step : workerStep self ret twq = some next) : Calm twq next := by
  obtain ⟨_, pc, moves⟩ := workerStep_moves step
  cases moves with
  | dequeue | serveNext | flushNext => exact calm_dequeueOneJob twq _ rfl
  | flushDequeue =>
      have calm : Calm { twq with accl := 0 }
          (dequeueOneJob (.callStart .flush) .callWorkerExit { twq with accl := 0 }) :=
        calm_dequeueOneJob _ _ rfl
      exact ⟨calm.shorter, calm.idle⟩
  | callStart =>
      refine .of_same ?_ ?_
      · rfl
      · intro noJob
        rw [pc] at noJob
        cases noJob
  | _ => exact .of_same rfl fun _ => rfl

theorem controllerStep_calm {self : Nat} {twq next : Threadwq Job}
    (step : controllerStep self twq = some next) : Calm twq next := by
  obtain ⟨_, _, moves⟩ := controllerStep_moves step
  cases moves with
  | broadcast => exact ⟨(calm_signal twq).shorter, (calm_signal twq).idle⟩
  | _ => exact .of_same rfl id

/-! ## The policy -/

/-- The program points of `threadwq_man_add_job` under `threadwq_man_ops_rr4idle`. -/
def AddPc.viaRr4idle : AddPc Job → Bool
  | .enqueue _ _ | .lock _ | .rrRead _ | .rrAdvance _ _ => false
  | _ => true

/-- `rr4idle_add_job` has picked the queue and has not yet enqueued its job. -/
def AddPc.claims (index : Nat) : AddPc Job → Bool
  | .setIdx idx _ | .enqueueLocked idx _ => idx.toNat == index
  | _ => false

theorem AddPc.locks_of_claims {index : Nat} {pc : AddPc Job} (claims : pc.claims index = true) :
    pc.locks index = true := by
  cases pc <;> first | exact claims | cases claims

namespace System

/-- If the action is a `pthread_mutex_trylock` of `rr4idle_add_job` that succeeds, then the
queue is idle. -/
def findsIdle [DecidableEq Job] (sys : System Job) : Action Job → Bool
  | .add thread =>
      match sys.add thread with
      | .tryLock idx _ =>
          let twq := sys.twq (if sys.man.twqPoolNr ≤ idx then 0 else idx).toNat
          twq.mutex.isSome || decide (Idle twq)
      | _ => true
  | _ => true

/-- If the action is the enqueue of `rr4idle_add_job`, then the queue is empty and its
worker is not inside a `cb_start`. -/
def DispatchesToIdle (sys : System Job) (action : Action Job) : Prop :=
  ∀ thread idx job, action = .add thread → sys.add thread = .enqueueLocked idx job →
    (sys.twq idx.toNat).lfq = [] ∧ (sys.twq idx.toNat).worker.inCallback = false

/-- The invariant of a process that adds all jobs with `rr4idle_add_job`. -/
structure Dispatching (sys : System Job) : Prop where
  policy : ∀ thread, (sys.add thread).viaRr4idle = true
  claimed : ∀ thread index, (sys.add thread).claims index = true → Idle (sys.twq index)
  short : ∀ index, (sys.twq index).lfq.length ≤ 1

theorem Initial.dispatching {sys : System Job} (initial : Initial sys) : Dispatching sys where
  policy thread := by
    rw [initial.add]
    rfl
  claimed thread index claims := by
    rw [initial.add] at claims
    cases claims
  short index := by
    obtain ⟨ops, busy, fresh⟩ := initial.twq index
    rw [fresh]
    exact Nat.zero_le 1

theorem Dispatching.setTwq {sys : System Job} (inv : Dispatching sys) {index : Nat}
    {twq : Threadwq Job} (calm : Calm (sys.twq index) twq) :
    Dispatching (sys.setTwq index twq) where
  policy := inv.policy
  claimed thread :=
    forall_setTwq (fun other later => (sys.add thread).claims other = true → Idle later)
      (fun claims => calm.idle (inv.claimed thread index claims))
      fun other _ => inv.claimed thread other
  short :=
    forall_setTwq (fun _ later => later.lfq.length ≤ 1)
      (Nat.le_trans calm.shorter (inv.short index)) fun other _ => inv.short other

/-- A thread moves on; a queue it picks is idle. -/
theorem Dispatching.setAdd {sys : System Job} (inv : Dispatching sys) (thread : Thread)
    {pc : AddPc Job} (policy : pc.viaRr4idle = true)
    (claimed : ∀ index, pc.claims index = true → Idle (sys.twq index)) :
    Dispatching (sys.setAdd thread pc) where
  policy other := by
    by_cases same : other = thread
    · subst same
      rw [setAdd_add_self]
      exact policy
    · rw [setAdd_add_of_ne _ _ same]
      exact inv.policy other
  claimed other index claims := by
    by_cases same : other = thread
    · subst same
      rw [setAdd_add_self] at claims
      exact claimed index claims
    · rw [setAdd_add_of_ne _ _ same] at claims
      exact inv.claimed other index claims
  short := inv.short

theorem Dispatching.setIdx {sys : System Job} (inv : Dispatching sys) (idx : UInt32) :
    Dispatching (sys.setIdx idx) where
  policy := inv.policy
  claimed := inv.claimed
  short := inv.short

/-- The enqueue: the mutex keeps everybody else from picking the queue. -/
theorem Dispatching.place {sys : System Job} (inv : Dispatching sys) (mutexes : Mutexes sys)
    {thread : Thread} {idx : UInt32} {job : Job}
    (pc : sys.add thread = .enqueueLocked idx job) :
    Dispatching ((sys.place thread idx.toNat job).setAdd thread (.signal idx.toNat)) := by
  have claims : (sys.add thread).claims idx.toNat = true := by
    rw [pc]
    exact beq_self_eq_true _
  have idle := inv.claimed thread idx.toNat claims
  constructor
  case policy =>
    intro other
    by_cases same : other = thread
    · subst same
      rw [setAdd_add_self]
      rfl
    · rw [setAdd_add_of_ne _ _ same, place_add]
      exact inv.policy other
  case claimed =>
    intro other index claims'
    by_cases same : other = thread
    · subst same
      rw [setAdd_add_self] at claims'
      cases claims'
    · rw [setAdd_add_of_ne _ _ same, place_add] at claims'
      have different : index ≠ idx.toNat := by
        rintro rfl
        have left : sys.Holds idx.toNat other := Or.inl (AddPc.locks_of_claims claims')
        have right : sys.Holds idx.toNat thread := Or.inl (AddPc.locks_of_claims claims)
        exact same ((mutexes.owner idx.toNat).unique left right)
      rw [setAdd_twq, place_twq, setTwq_twq_of_ne _ _ different]
      exact inv.claimed other index claims'
  case short =>
    intro index
    rw [setAdd_twq, place_twq]
    by_cases same : index = idx.toNat
    · rw [same, setTwq_twq_self]
      simp [enqueue, idle.1]
    · rw [setTwq_twq_of_ne _ _ same]
      exact inv.short index

theorem Dispatching.addStep {sys next : System Job} (inv : Dispatching sys)
    (mutexes : Mutexes sys) {thread : Thread} [DecidableEq Job]
    (found : sys.findsIdle (.add thread) = true) (step : sys.addStep thread = some next) :
    Dispatching next := by
  have policy := inv.policy thread
  obtain ⟨point, pc, moves⟩ := addStep_moves step
  rw [pc] at policy
  cases moves with
  | enqueue | lock | rrRead | rrReset | rrAdvance => cases policy
  | signal index => exact (inv.setTwq (calm_signal _)).setAdd thread rfl nofun
  | unlock index =>
      have calm : Calm (sys.twq index) (Threadwq.unlock (sys.twq index)) := .of_same rfl id
      exact (inv.setTwq calm).setAdd thread rfl nofun
  | readIdx | tryLockFails => exact inv.setAdd thread rfl nofun
  | tryLock idx job free =>
      have idle : Idle (sys.twq (sys.tried idx).toNat) := by
        unfold tried at free ⊢
        simpa only [findsIdle, pc, free, Option.isSome_none, Bool.false_or,
          decide_eq_true_eq] using found
      have calm : Calm (sys.twq (sys.tried idx).toNat)
          { sys.twq (sys.tried idx).toNat with mutex := some thread } := .of_same rfl id
      apply (inv.setTwq calm).setAdd thread rfl
      intro index claims
      obtain rfl := beq_iff_eq.mp claims
      rw [setTwq_twq_self]
      exact idle
  | setIdx idx job =>
      refine (inv.setIdx (idx + 1)).setAdd thread rfl fun index claims => ?_
      exact inv.claimed thread index (by rw [pc]; exact claims)
  | enqueueLocked idx job => exact inv.place mutexes pc

variable [DecidableEq Job]

theorem Dispatching.step {sys next : System Job} {action : Action Job}
    (inv : Dispatching sys) (mutexes : Mutexes sys) (rr4idle : sys.man.ops = .rr4idle)
    (viaManager : action.viaManager = true) (found : sys.findsIdle action = true)
    (step : sys.step action = some next) : Dispatching next := by
  cases step_moves step with
  | worker idle moved => exact inv.setTwq (workerStep_calm moved)
  | controller moved => exact inv.setTwq (controllerStep_calm moved)
  | @call thread entry job =>
      cases entry with
      | threadwqAddJob => cases viaManager
      | threadwqManAddJob =>
          have moved : Dispatching (sys.setAdd thread (.readIdx job)) :=
            inv.setAdd thread rfl nofun
          simp only [entryPc, rr4idle]
          exact ⟨moved.policy, moved.claimed, moved.short⟩
  | add moved => exact inv.addStep mutexes found moved
  | spurious => exact inv.setTwq (.of_same rfl fun _ => rfl)
  | rcu => exact inv.setTwq (.of_same rfl id)

end System

/-- A run that adds all its jobs with `rr4idle_add_job`. -/
structure UsesRr4idle [DecidableEq Job] (history : List (System Job × Action Job))
    (sys : System Job) : Prop where
  run : (System.machine Job).Run history sys
  ops : sys.man.ops = .rr4idle
  viaManager : ∀ entry ∈ history, entry.2.viaManager = true

/-- If in a run every `pthread_mutex_trylock` that succeeds finds an idle queue, then every
job is enqueued on an empty queue whose worker is not inside a `cb_start`, and no queue
ever holds more than one job. -/
theorem rr4idle_dispatches_to_idle [DecidableEq Job]
    {history : List (System Job × Action Job)} {sys : System Job}
    (uses : UsesRr4idle history sys)
    (found : ∀ entry ∈ history, entry.1.findsIdle entry.2 = true) :
    (∀ entry ∈ history, System.DispatchesToIdle entry.1 entry.2) ∧
      Machine.Visits history sys fun state => ∀ index, (state.twq index).lfq.length ≤ 1 := by
  have invariant : Machine.Visits history sys
      fun state => state.man.ops = .rr4idle → System.Dispatching state := by
    refine uses.run.invariant_of_steps
      (fun state action => action.viaManager = true ∧ state.findsIdle action = true) ?_ ?_
      fun entry member => ⟨uses.viaManager entry member, found entry member⟩
    · intro state start _
      exact System.Initial.dispatching start
    · rintro state action next reachable inv ⟨viaManager, finds⟩ step rr4idle
      have before : state.man.ops = .rr4idle := (System.step_ops step).symm.trans rr4idle
      exact (inv before).step (System.mutexes_of_reachable reachable) before viaManager
        finds step
  have visited : ∀ entry ∈ history, System.Dispatching entry.1 := by
    intro entry member
    exact invariant.1 entry member ((System.run_ops uses.run entry member).trans uses.ops)
  refine ⟨?_, fun entry member => (visited entry member).short, (invariant.2 uses.ops).short⟩
  rintro entry member thread idx job _ pc
  have idle := (visited entry member).claimed thread idx.toNat
    (by rw [pc]; exact beq_self_eq_true _)
  exact ⟨idle.1, WorkerPc.not_inCallback_of_noJob idle.2⟩

/-! ## Every other run can go wrong -/

namespace System

/-- A thread that holds the mutex and is about to enqueue on a queue that is not idle. -/
theorem misdispatch [DecidableEq Job] {sys : System Job} {thread : Thread} {idx : UInt32}
    {job : Job} (pc : sys.add thread = .enqueueLocked idx job)
    (busy : (sys.twq idx.toNat).lfq ≠ [] ∨ (sys.twq idx.toNat).worker.inCallback = true) :
    (∃ next, sys.step (.add thread) = some next) ∧ ¬ DispatchesToIdle sys (.add thread) := by
  constructor
  · refine ⟨(sys.place thread idx.toNat job).setAdd thread (.signal idx.toNat), ?_⟩
    simp only [System.step, System.addStep, pc]
  · intro dispatches
    obtain ⟨empty, outside⟩ := dispatches thread idx job rfl pc
    rcases busy with queued | inside
    · exact queued empty
    · rw [outside] at inside
      cases inside

/-- Once `pthread_mutex_trylock` has succeeded, the thread gets to its enqueue by itself. -/
theorem path_to_enqueueLocked [DecidableEq Job] {sys : System Job} {thread : Thread}
    {idx picked : UInt32} {job : Job} (pc : sys.add thread = .tryLock idx job)
    (isPicked : (if sys.man.twqPoolNr ≤ idx then 0 else idx) = picked)
    (free : (sys.twq picked.toNat).mutex = none) :
    ∃ later, (machine Job).Path (fun _ action => action.viaManager = true) sys later ∧
      later.add = Function.update sys.add thread (.enqueueLocked picked job) ∧
      later.twq picked.toNat = { sys.twq picked.toNat with mutex := some thread } := by
  have taken : sys.step (.add thread) = some ((sys.setTwq picked.toNat
      { sys.twq picked.toNat with mutex := some thread }).setAdd thread
        (.setIdx picked job)) := by
    simp only [System.step, System.addStep, pc, isPicked, lock, free]
  generalize isLocked : (sys.setTwq picked.toNat
      { sys.twq picked.toNat with mutex := some thread }).setAdd thread
        (.setIdx picked job) = locked at taken
  have atSetIdx : locked.add thread = .setIdx picked job := by
    rw [← isLocked, setAdd_add_self]
  have advanced : locked.step (.add thread) = some ((locked.setIdx (picked + 1)).setAdd thread
      (.enqueueLocked picked job)) := by
    simp only [System.step, System.addStep, atSetIdx]
  refine ⟨_, (Relation.ReflTransGen.single ⟨_, rfl, taken⟩).tail ⟨_, rfl, advanced⟩, ?_, ?_⟩
  · rw [← isLocked]
    exact Function.update_idem ..
  · rw [setAdd_twq, setIdx_twq, ← isLocked, setAdd_twq, setTwq_twq_self]

/-- A `pthread_mutex_trylock` that succeeds on a queue that is not idle can lead to a job
enqueued on a queue that is not empty or whose worker is inside a `cb_start`: the thread
just goes on, at most after one step of that worker. -/
theorem misdispatch_of_not_findsIdle [DecidableEq Job] {sys : System Job}
    (reachable : (machine Job).Reachable sys) {thread : Thread}
    (notFound : sys.findsIdle (.add thread) = false) :
    ∃ later next, (machine Job).Path (fun _ action => action.viaManager = true) sys later ∧
      later.step (.add thread) = some next ∧ ¬ DispatchesToIdle later (.add thread) := by
  have jobs := jobs_of_reachable reachable
  unfold findsIdle at notFound
  cases pc : sys.add thread <;> simp only [pc] at notFound <;> try cases notFound
  case tryLock idx job =>
    generalize isPicked : (if sys.man.twqPoolNr ≤ idx then 0 else idx) = picked at notFound
    rw [Bool.or_eq_false_iff, Option.isSome_eq_false_iff, Option.isNone_iff_eq_none,
      decide_eq_false_iff_not] at notFound
    obtain ⟨free, notIdle⟩ := notFound
    obtain ⟨later, path, sameAdd, sameTwq⟩ := path_to_enqueueLocked pc isPicked free
    have atEnqueue : later.add thread = .enqueueLocked picked job := by
      rw [sameAdd, Function.update_self]
    by_cases queued : (sys.twq picked.toNat).lfq = []
    · have hasJob : (sys.twq picked.toNat).worker.hasJob = true := by
        by_contra noJob
        exact notIdle ⟨queued, Bool.eq_false_iff.mpr noJob⟩
      cases workerPc : (sys.twq picked.toNat).worker <;> rw [workerPc] at hasJob <;>
        try cases hasJob
      case inStart.refl site started =>
        obtain ⟨⟨next, step⟩, wrong⟩ :=
          misdispatch atEnqueue (Or.inr (by rw [sameTwq, workerPc]; rfl))
        exact ⟨later, next, path, step, wrong⟩
      case callStart.refl site inHand =>
        -- The worker has dequeued a job; let it call `cb_start` first.
        have noAdd : (sys.add (.worker picked.toNat)).isIdle = true := by
          by_contra active
          have inside := jobs.caller _ (Bool.eq_false_iff.mpr active)
          rw [workerPc] at inside
          cases inside
        have different : Thread.worker picked.toNat ≠ thread := by
          rintro rfl
          rw [pc] at noAdd
          cases noAdd
        obtain ⟨twq, moved, nowInside⟩ : ∃ twq,
            workerStep picked.toNat 0 (later.twq picked.toNat) = some twq ∧
              twq.worker.inCallback = true := by
          rw [sameTwq]
          simp only [workerStep, workerPc]
          exact ⟨_, rfl, rfl⟩
        have step : later.step (.worker picked.toNat 0) =
            some (later.setTwq picked.toNat twq) := by
          simp only [System.step, moved, sameAdd, Function.update_of_ne different, noAdd]
          rfl
        have stillAtEnqueue : (later.setTwq picked.toNat twq).add thread =
            .enqueueLocked picked job := atEnqueue
        obtain ⟨⟨next, step'⟩, wrong⟩ :=
          misdispatch stillAtEnqueue (Or.inr (by rw [setTwq_twq_self]; exact nowInside))
        exact ⟨_, next, path.tail ⟨_, rfl, step⟩, step', wrong⟩
    · obtain ⟨⟨next, step⟩, wrong⟩ := misdispatch atEnqueue (Or.inl (by rw [sameTwq]; exact queued))
      exact ⟨later, next, path, step, wrong⟩

end System

/-! ## A busy worker -/

/-- One started queue.  The manager gives it a job, and two more while the first one is in
its `cb_start`; the last is about to be enqueued. -/
def busyWorkerRun : List (Action Nat) :=
  List.replicate 3 (.worker 0 0) ++ [.controller 0] ++
  [.call (.producer 0) .threadwqManAddJob 7] ++ List.replicate 6 (.add (.producer 0)) ++
  List.replicate 2 (.worker 0 0) ++
  [.call (.producer 0) .threadwqManAddJob 8] ++ List.replicate 6 (.add (.producer 0)) ++
  [.call (.producer 0) .threadwqManAddJob 9] ++ List.replicate 3 (.add (.producer 0))

/-- One queue, whose worker is asleep when the manager gives it a job. -/
def sleepingWorkerRun : List (Action Nat) :=
  List.replicate 6 (.worker 0 0) ++
  [.call (.producer 0) .threadwqManAddJob 7] ++ List.replicate 4 (.add (.producer 0))

theorem rr4idle_misdispatch :
    ∃ history, ∃ sys : System Nat, UsesRr4idle history sys ∧
      (∃ entry ∈ history, ¬ System.DispatchesToIdle entry.1 entry.2) ∧
      (sys.twq 0).worker = .inStart .serve 7 ∧ (sys.twq 0).lfq = [8, 9] := by
  obtain ⟨sys, ran, pc, busy, queued, rr4idle⟩ := System.exists_run
    (System.boot ⟨true, true⟩ ⟨1, .rr4idle, 0⟩) busyWorkerRun
    (fun sys => sys.add (.producer 0) = .enqueueLocked 0 9 ∧
      (sys.twq 0).worker = .inStart .serve 7 ∧ (sys.twq 0).lfq = [8] ∧
      sys.man.ops = .rr4idle) (by decide)
  obtain ⟨history, run, labels, _⟩ := System.exists_history (System.boot_initial _ _ rfl) ran
  obtain ⟨⟨next, step⟩, wrong⟩ := System.misdispatch pc (Or.inr (congrArg WorkerPc.inCallback busy))
  have longer : (System.machine Nat).Run (history ++ [(sys, .add (.producer 0))]) next :=
    run.step step
  have viaManager : ∀ action ∈ busyWorkerRun, action.viaManager = true := by decide
  refine ⟨history ++ [(sys, .add (.producer 0))], next, ⟨longer, ?_, ?_⟩,
    ⟨(sys, .add (.producer 0)), by simp, wrong⟩, ?_⟩
  · rw [System.step_ops step, rr4idle]
  · intro entry member
    rcases List.mem_append.mp member with earlier | last
    · exact viaManager _ (labels ▸ List.mem_map_of_mem earlier)
    · rw [List.mem_singleton.mp last]
      rfl
  · simp only [System.step, System.addStep, pc] at step
    cases step
    exact ⟨busy, by simp [enqueue, queued]⟩

theorem rr4idle_dispatches_to_idle_sleeping :
    ∃ history, ∃ sys : System Nat, UsesRr4idle history sys ∧ (sys.twq 0).lfq = [7] ∧
      (∀ entry ∈ history, System.DispatchesToIdle entry.1 entry.2) ∧
      Machine.Visits history sys fun state => ∀ index, (state.twq index).lfq.length ≤ 1 := by
  obtain ⟨sys, ran, queued, rr4idle⟩ := System.exists_runWhile System.findsIdle
    (System.boot ⟨true, true⟩ ⟨1, .rr4idle, 0⟩) sleepingWorkerRun
    (fun sys => (sys.twq 0).lfq = [7] ∧ sys.man.ops = .rr4idle) (by decide)
  obtain ⟨history, run, labels, found⟩ := System.exists_history (System.boot_initial _ _ rfl) ran
  have viaManager : ∀ action ∈ sleepingWorkerRun, action.viaManager = true := by decide
  have uses : UsesRr4idle history sys :=
    ⟨run, rr4idle, fun entry member => viaManager _ (labels ▸ List.mem_map_of_mem member)⟩
  exact ⟨history, sys, uses, queued, rr4idle_dispatches_to_idle uses found⟩

end LinuxCTemplate.Threadwq
