import LinuxCTemplate.Threadwq.System

/-!
# The moves of the process

Each step of the process as one case of an inductive type, with the conditions under which
it is made and the state it leads to: the steps of a worker and of a controlling thread on
their queue, the steps of the add functions, and from these all steps.
-/

namespace LinuxCTemplate.Threadwq

variable {Job : Type}

/-! ## Inversion of the library operations -/

theorem lock_eq_some {thread : Thread} {twq next : Threadwq Job} :
    twq.lock thread = some next ↔
      twq.mutex = none ∧ next = { twq with mutex := some thread } := by
  unfold lock
  cases twq.mutex with
  | none => simp [eq_comm]
  | some holder => simp

theorem spuriousWakeup_eq_some {twq next : Threadwq Job} :
    twq.spuriousWakeup = some next ↔
      twq.worker = .blocked ∧ next = { twq with worker := .woken } := by
  unfold spuriousWakeup
  cases twq.worker <;> simp [eq_comm]

theorem execFinishRcu_eq_some [DecidableEq Job] {job : Job} {twq next : Threadwq Job} :
    execFinishRcu job twq = some next ↔
      job ∈ twq.rcu ∧
        next = { twq with rcu := twq.rcu.erase job, log := twq.log ++ [.cbFinish job] } := by
  unfold execFinishRcu
  by_cases member : job ∈ twq.rcu <;> simp [member, eq_comm]

/-- A signal changes nothing but the program point of a sleeping worker. -/
theorem signal_eq (twq : Threadwq Job) :
    twq.signal = { twq with worker := twq.signal.worker } := by
  unfold signal
  cases twq.worker <;> rfl

theorem signal_worker (twq : Threadwq Job) :
    twq.signal.worker = twq.worker ∨
      (twq.worker = .blocked ∧ twq.signal.worker = .woken) := by
  unfold signal
  cases pc : twq.worker <;> simp [pc]

theorem signal_worker_ne_blocked (twq : Threadwq Job) : twq.signal.worker ≠ .blocked := by
  unfold signal
  cases pc : twq.worker <;> simp [pc]

@[simp] theorem signal_log (twq : Threadwq Job) : twq.signal.log = twq.log := by
  rw [signal_eq]

@[simp] theorem signal_lfq (twq : Threadwq Job) : twq.signal.lfq = twq.lfq := by
  rw [signal_eq]

@[simp] theorem signal_mutex (twq : Threadwq Job) : twq.signal.mutex = twq.mutex := by
  rw [signal_eq]

@[simp] theorem signal_controller (twq : Threadwq Job) :
    twq.signal.controller = twq.controller := by
  rw [signal_eq]

@[simp] theorem signal_inCallback (twq : Threadwq Job) :
    twq.signal.worker.inCallback = twq.worker.inCallback := by
  rcases signal_worker twq with same | ⟨wasBlocked, nowWoken⟩
  · rw [same]
  · rw [wasBlocked, nowWoken]
    rfl

/-! ## The threads of a queue -/

theorem countRound_eq (twq : Threadwq Job) :
    countRound twq = { twq with
      busy := (countRound twq).busy
      cnt := (countRound twq).cnt
      busyAcc := (countRound twq).busyAcc } := by
  unfold countRound
  split <;> rfl

theorem countJob_eq (twq : Threadwq Job) (site : Site) :
    countJob twq site = { twq with
      busyAcc := (countJob twq site).busyAcc
      accl := (countJob twq site).accl } := by
  cases site <;> rfl

/-- The steps of `thread_func`, by the program point of the worker. -/
inductive WorkerMoves (self : Nat) (ret : Int) (twq : Threadwq Job) :
    WorkerPc Job → Threadwq Job → Prop where
  | callWorkerInit : twq.ops.workerInit = true → ret = 0 →
      WorkerMoves self ret twq .callWorkerInit
        { twq with worker := .setRunning, log := twq.log ++ [.workerInit] }
  | skipWorkerInit : twq.ops.workerInit = false →
      WorkerMoves self ret twq .callWorkerInit { twq with worker := .setRunning }
  | setRunning :
      WorkerMoves self ret twq .setRunning
        { twq with running := 1, cnt := 0, busyAcc := 0, worker := .loopTest }
  | nextRound (busy cnt busyAcc : UInt32) : twq.exit = 0 →
      WorkerMoves self ret twq .loopTest { twq with busy, cnt, busyAcc, worker := .dequeue }
  | leaveLoop : twq.exit ≠ 0 →
      WorkerMoves self ret twq .loopTest { twq with worker := .flushDequeue }
  | dequeue :
      WorkerMoves self ret twq .dequeue (dequeueOneJob (.callStart .serve) .waitLock twq)
  | callStart (site : Site) (job : Job) (busyAcc accl : UInt32) :
      WorkerMoves self ret twq (.callStart site job)
        { twq with
          busyAcc
          accl
          worker := .inStart site job
          log := twq.log ++ [.cbStart job] }
  | inStart (site : Site) (job : Job) :
      WorkerMoves self ret twq (.inStart site job)
        { twq with worker := .callRcu site job, log := twq.log ++ [.cbStartReturn job] }
  | callRcu (site : Site) (job : Job) :
      WorkerMoves self ret twq (.callRcu site job)
        { twq with
          worker := .dequeueNext site
          rcu := twq.rcu ++ [job]
          log := twq.log ++ [.callRcu job] }
  | serveNext :
      WorkerMoves self ret twq (.dequeueNext .serve)
        (dequeueOneJob (.callStart .serve) .waitLock twq)
  | flushNext :
      WorkerMoves self ret twq (.dequeueNext .flush)
        (dequeueOneJob (.callStart .flush) .callWorkerExit twq)
  | waitLock : twq.mutex = none →
      WorkerMoves self ret twq .waitLock
        { twq with mutex := some (.worker self), worker := .condWait }
  | condWait :
      WorkerMoves self ret twq .condWait { Threadwq.unlock twq with worker := .blocked }
  | woken : twq.mutex = none →
      WorkerMoves self ret twq .woken
        { twq with mutex := some (.worker self), worker := .waitUnlock }
  | waitUnlock :
      WorkerMoves self ret twq .waitUnlock { Threadwq.unlock twq with worker := .loopTest }
  | flushDequeue :
      WorkerMoves self ret twq .flushDequeue
        (dequeueOneJob (.callStart .flush) .callWorkerExit { twq with accl := 0 })
  | callWorkerExit : twq.ops.workerExit = true →
      WorkerMoves self ret twq .callWorkerExit
        { twq with worker := .setExitAck, log := twq.log ++ [.workerExit] }
  | skipWorkerExit : twq.ops.workerExit = false →
      WorkerMoves self ret twq .callWorkerExit { twq with worker := .setExitAck }
  | setExitAck :
      WorkerMoves self ret twq .setExitAck { twq with exitAck := 1, worker := .unregister }
  | unregister : WorkerMoves self ret twq .unregister { twq with worker := .returned }

theorem workerStep_moves {self : Nat} {ret : Int} {twq next : Threadwq Job}
    (step : workerStep self ret twq = some next) :
    ∃ point, twq.worker = point ∧ WorkerMoves self ret twq point next := by
  refine ⟨_, rfl, ?_⟩
  unfold workerStep at step
  cases pc : twq.worker <;> simp only [pc] at step
  case callWorkerInit =>
    split at step
    next present =>
      split at step <;> cases step
      rename_i succeeds
      exact .callWorkerInit present (not_not.mp succeeds)
    next absent =>
      cases step
      exact .skipWorkerInit (Bool.eq_false_iff.mpr absent)
  case loopTest =>
    split at step
    next zero =>
      cases step
      rw [countRound_eq]
      exact .nextRound _ _ _ zero
    next nonzero =>
      cases step
      exact .leaveLoop nonzero
  case callStart site job =>
    cases step
    rw [countJob_eq]
    exact .callStart site job _ _
  case dequeueNext site =>
    cases site <;> cases step
    · exact .serveNext
    · exact .flushNext
  case waitLock =>
    obtain ⟨locked, acquired, rfl⟩ := Option.map_eq_some_iff.mp step
    obtain ⟨free, rfl⟩ := lock_eq_some.mp acquired
    exact .waitLock free
  case woken =>
    obtain ⟨locked, acquired, rfl⟩ := Option.map_eq_some_iff.mp step
    obtain ⟨free, rfl⟩ := lock_eq_some.mp acquired
    exact .woken free
  case callWorkerExit =>
    split at step
    next present =>
      cases step
      exact .callWorkerExit present
    next absent =>
      cases step
      exact .skipWorkerExit (Bool.eq_false_iff.mpr absent)
  case blocked | returned => cases step
  all_goals
    cases step
    constructor

/-- The steps of `threadwq_exec` and `threadwq_exit`, by the program point of the
controlling thread. -/
inductive ControllerMoves (self : Nat) (twq : Threadwq Job) :
    ControllerPc → Threadwq Job → Prop where
  | poll : twq.running = 0 → ControllerMoves self twq .pollRunning twq
  | running : twq.running ≠ 0 →
      ControllerMoves self twq .pollRunning { twq with controller := .online }
  | online : ControllerMoves self twq .online { twq with controller := .lock }
  | lock : twq.mutex = none →
      ControllerMoves self twq .lock
        { twq with mutex := some (.controller self), controller := .increment }
  | increment :
      ControllerMoves self twq .increment
        { twq with
          exit := twq.exit + 1
          controller := .broadcast
          log := twq.log ++ [.exitRequest] }
  | broadcast : ControllerMoves self twq .broadcast { signal twq with controller := .unlock }
  | unlock :
      ControllerMoves self twq .unlock { Threadwq.unlock twq with controller := .testAck }
  | acked : twq.exitAck ≠ 0 → ControllerMoves self twq .testAck { twq with controller := .join }
  | again : twq.exitAck = 0 → ControllerMoves self twq .testAck { twq with controller := .lock }
  | join : twq.worker = .returned →
      ControllerMoves self twq .join
        { twq with controller := .returned, log := twq.log ++ [.exitReturn] }

theorem controllerStep_moves {self : Nat} {twq next : Threadwq Job}
    (step : controllerStep self twq = some next) :
    ∃ point, twq.controller = point ∧ ControllerMoves self twq point next := by
  refine ⟨_, rfl, ?_⟩
  unfold controllerStep at step
  cases pc : twq.controller <;> simp only [pc] at step
  case pollRunning =>
    split at step
    next nonzero =>
      cases step
      exact .running nonzero
    next zero =>
      cases step
      exact .poll (not_not.mp zero)
  case lock =>
    obtain ⟨locked, acquired, rfl⟩ := Option.map_eq_some_iff.mp step
    obtain ⟨free, rfl⟩ := lock_eq_some.mp acquired
    exact .lock free
  case testAck =>
    split at step
    next nonzero =>
      cases step
      exact .acked nonzero
    next zero =>
      cases step
      exact .again (not_not.mp zero)
  case join =>
    split at step
    next returned =>
      cases step
      exact .join returned
    next => cases step
  case returned => cases step
  all_goals
    cases step
    constructor

namespace System

/-! ## Updates -/

@[simp] theorem setTwq_add (sys : System Job) (index : Nat) (twq : Threadwq Job) :
    (sys.setTwq index twq).add = sys.add := rfl

@[simp] theorem setTwq_twq_self (sys : System Job) (index : Nat) (twq : Threadwq Job) :
    (sys.setTwq index twq).twq index = twq := by
  simp [setTwq]

theorem setTwq_twq_of_ne (sys : System Job) {index other : Nat} (twq : Threadwq Job)
    (different : other ≠ index) : (sys.setTwq index twq).twq other = sys.twq other := by
  simp [setTwq, different]

/-- What holds of every queue after a change of one of them. -/
theorem forall_setTwq {sys : System Job} {index : Nat} {twq : Threadwq Job}
    (Holds : Nat → Threadwq Job → Prop) (changed : Holds index twq)
    (others : ∀ other, other ≠ index → Holds other (sys.twq other)) (other : Nat) :
    Holds other ((sys.setTwq index twq).twq other) :=
  (Function.forall_update_iff sys.twq Holds).mpr ⟨changed, others⟩ other

@[simp] theorem setAdd_twq (sys : System Job) (thread : Thread) (pc : AddPc Job) :
    (sys.setAdd thread pc).twq = sys.twq := rfl

@[simp] theorem setAdd_added (sys : System Job) (thread : Thread) (pc : AddPc Job) :
    (sys.setAdd thread pc).added = sys.added := rfl

@[simp] theorem setAdd_man (sys : System Job) (thread : Thread) (pc : AddPc Job) :
    (sys.setAdd thread pc).man = sys.man := rfl

@[simp] theorem setAdd_placed (sys : System Job) (thread : Thread) (pc : AddPc Job) :
    (sys.setAdd thread pc).placed = sys.placed := rfl

@[simp] theorem setAdd_add_self (sys : System Job) (thread : Thread) (pc : AddPc Job) :
    (sys.setAdd thread pc).add thread = pc := by
  simp [setAdd]

theorem setAdd_add_of_ne (sys : System Job) {thread other : Thread} (pc : AddPc Job)
    (different : other ≠ thread) : (sys.setAdd thread pc).add other = sys.add other := by
  simp [setAdd, different]

@[simp] theorem setIdx_twq (sys : System Job) (idx : UInt32) :
    (sys.setIdx idx).twq = sys.twq := rfl

@[simp] theorem setIdx_add (sys : System Job) (idx : UInt32) :
    (sys.setIdx idx).add = sys.add := rfl

@[simp] theorem place_twq (sys : System Job) (thread : Thread) (index : Nat) (job : Job) :
    (sys.place thread index job).twq =
      (sys.setTwq index (Threadwq.enqueue thread job (sys.twq index))).twq := rfl

@[simp] theorem place_add (sys : System Job) (thread : Thread) (index : Nat) (job : Job) :
    (sys.place thread index job).add = sys.add := rfl

@[simp] theorem place_added (sys : System Job) (thread : Thread) (index : Nat) (job : Job) :
    (sys.place thread index job).added = sys.added := rfl

@[simp] theorem place_man (sys : System Job) (thread : Thread) (index : Nat) (job : Job) :
    (sys.place thread index job).man = sys.man := rfl

@[simp] theorem place_placed (sys : System Job) (thread : Thread) (index : Nat) (job : Job) :
    (sys.place thread index job).placed = sys.placed ++ [(index, job)] := rfl

/-! ## The add functions -/

/-- The queue that `rr4idle_add_job` tries with the index `idx`. -/
def tried (sys : System Job) (idx : UInt32) : UInt32 :=
  if sys.man.twqPoolNr ≤ idx then 0 else idx

/-- The steps of an add function, by its program point. -/
inductive AddMoves (sys : System Job) (thread : Thread) : AddPc Job → System Job → Prop where
  | enqueue (index : Nat) (job : Job) :
      AddMoves sys thread (.enqueue index job)
        ((sys.place thread index job).setAdd thread (.lock index))
  | lock (index : Nat) : (sys.twq index).mutex = none →
      AddMoves sys thread (.lock index)
        ((sys.setTwq index { sys.twq index with mutex := some thread }).setAdd thread
          (.signal index))
  | signal (index : Nat) :
      AddMoves sys thread (.signal index)
        ((sys.setTwq index (Threadwq.signal (sys.twq index))).setAdd thread (.unlock index))
  | unlock (index : Nat) :
      AddMoves sys thread (.unlock index)
        ((sys.setTwq index (Threadwq.unlock (sys.twq index))).setAdd thread .idle)
  | rrRead (job : Job) :
      AddMoves sys thread (.rrRead job) (sys.setAdd thread (.rrAdvance sys.man.twqIdx job))
  | rrReset (idx : UInt32) (job : Job) : sys.man.twqPoolNr ≤ idx →
      AddMoves sys thread (.rrAdvance idx job)
        ((sys.setIdx 0).setAdd thread (.enqueue 0 job))
  | rrAdvance (idx : UInt32) (job : Job) : ¬ sys.man.twqPoolNr ≤ idx →
      AddMoves sys thread (.rrAdvance idx job)
        ((sys.setIdx (sys.man.twqIdx + 1)).setAdd thread (.enqueue idx.toNat job))
  | readIdx (job : Job) :
      AddMoves sys thread (.readIdx job) (sys.setAdd thread (.tryLock sys.man.twqIdx job))
  | tryLockFails (idx : UInt32) (job : Job) (holder : Thread) :
      (sys.twq (sys.tried idx).toNat).mutex = some holder →
      AddMoves sys thread (.tryLock idx job)
        (sys.setAdd thread (.tryLock (sys.tried idx + 1) job))
  | tryLock (idx : UInt32) (job : Job) : (sys.twq (sys.tried idx).toNat).mutex = none →
      AddMoves sys thread (.tryLock idx job)
        ((sys.setTwq (sys.tried idx).toNat
          { sys.twq (sys.tried idx).toNat with mutex := some thread }).setAdd thread
            (.setIdx (sys.tried idx) job))
  | setIdx (idx : UInt32) (job : Job) :
      AddMoves sys thread (.setIdx idx job)
        ((sys.setIdx (idx + 1)).setAdd thread (.enqueueLocked idx job))
  | enqueueLocked (idx : UInt32) (job : Job) :
      AddMoves sys thread (.enqueueLocked idx job)
        ((sys.place thread idx.toNat job).setAdd thread (.signal idx.toNat))

theorem addStep_moves {sys next : System Job} {thread : Thread}
    (step : sys.addStep thread = some next) :
    ∃ point, sys.add thread = point ∧ AddMoves sys thread point next := by
  refine ⟨_, rfl, ?_⟩
  unfold addStep at step
  cases pc : sys.add thread <;> simp only [pc] at step
  case idle => cases step
  case lock index =>
    obtain ⟨locked, acquired, rfl⟩ := Option.map_eq_some_iff.mp step
    obtain ⟨free, rfl⟩ := lock_eq_some.mp acquired
    exact .lock index free
  case rrAdvance idx job =>
    split at step
    next past =>
      cases step
      exact .rrReset idx job past
    next inside =>
      cases step
      exact .rrAdvance idx job inside
  case tryLock idx job =>
    have isTried : (if sys.man.twqPoolNr ≤ idx then 0 else idx) = sys.tried idx := rfl
    rw [isTried] at step
    cases mutex : (sys.twq (sys.tried idx).toNat).mutex with
    | none =>
        simp only [Threadwq.lock, mutex] at step
        cases step
        exact .tryLock idx job mutex
    | some holder =>
        simp only [Threadwq.lock, mutex] at step
        cases step
        exact .tryLockFails idx job holder mutex
  all_goals
    cases step
    constructor

/-- An add function that makes a step is not idle. -/
theorem AddMoves.active {sys next : System Job} {thread : Thread} {pc : AddPc Job}
    (moves : AddMoves sys thread pc next) : pc.isIdle = false := by
  cases moves <;> rfl

/-! ## All steps -/

/-- The steps of the process. -/
inductive Moves [DecidableEq Job] (sys : System Job) : Action Job → System Job → Prop where
  | worker {index : Nat} {ret : Int} {twq : Threadwq Job} :
      (sys.add (.worker index)).isIdle = true →
      workerStep index ret (sys.twq index) = some twq →
      Moves sys (.worker index ret) (sys.setTwq index twq)
  | controller {index : Nat} {twq : Threadwq Job} :
      controllerStep index (sys.twq index) = some twq →
      Moves sys (.controller index) (sys.setTwq index twq)
  | call {thread : Thread} {entry : Entry} {job : Job} :
      (sys.add thread).isIdle = true → sys.mayCall thread = true → job ∉ sys.added →
      Moves sys (.call thread entry job)
        { sys.setAdd thread (sys.entryPc entry job) with added := job :: sys.added }
  | add {thread : Thread} {next : System Job} :
      sys.addStep thread = some next → Moves sys (.add thread) next
  | spurious {index : Nat} : (sys.twq index).worker = .blocked →
      Moves sys (.spurious index) (sys.setTwq index { sys.twq index with worker := .woken })
  | rcu {index : Nat} {job : Job} : job ∈ (sys.twq index).rcu →
      Moves sys (.rcu index job) (sys.setTwq index
        { sys.twq index with
          rcu := (sys.twq index).rcu.erase job
          log := (sys.twq index).log ++ [.cbFinish job] })

theorem step_moves [DecidableEq Job] {sys next : System Job} {action : Action Job}
    (step : sys.step action = some next) : Moves sys action next := by
  unfold System.step at step
  cases action with
  | worker index ret =>
      simp only at step
      split at step
      next idle =>
        obtain ⟨twq, moved, rfl⟩ := Option.map_eq_some_iff.mp step
        exact .worker idle moved
      next => cases step
  | controller index =>
      obtain ⟨twq, moved, rfl⟩ := Option.map_eq_some_iff.mp step
      exact .controller moved
  | call thread entry job =>
      simp only [Bool.and_eq_true, decide_eq_true_eq] at step
      split at step
      next conditions =>
        cases step
        exact .call conditions.1.1 conditions.1.2 conditions.2
      next => cases step
  | add thread => exact .add step
  | spurious index =>
      obtain ⟨twq, moved, rfl⟩ := Option.map_eq_some_iff.mp step
      obtain ⟨asleep, rfl⟩ := spuriousWakeup_eq_some.mp moved
      exact .spurious asleep
  | rcu index job =>
      obtain ⟨twq, moved, rfl⟩ := Option.map_eq_some_iff.mp step
      obtain ⟨member, rfl⟩ := execFinishRcu_eq_some.mp moved
      exact .rcu member

end System

end LinuxCTemplate.Threadwq
