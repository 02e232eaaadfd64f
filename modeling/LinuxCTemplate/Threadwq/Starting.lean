import LinuxCTemplate.Threadwq.Fairness

/-!
# `threadwq_exec` returns

Under a fair scheduler the worker comes to its loop, if its `worker_init` succeeds, and sets
`running` on the way.  It never clears it, so that the thread that polls it goes on.
-/

namespace LinuxCTemplate.Threadwq

open Foundation Machine

variable {Job : Type}

/-- The worker has set `running`. -/
def WorkerPc.launched : WorkerPc Job → Bool
  | .callWorkerInit | .setRunning => false
  | _ => true

/-- What a step does to `running`: it is never cleared, and no worker comes to its loop without
setting it. -/
structure Launches (twq next : Threadwq Job) : Prop where
  running : twq.running ≠ 0 → next.running ≠ 0
  worker : next.worker.launched = true → twq.worker.launched = true ∨ next.running ≠ 0

theorem Launches.refl (twq : Threadwq Job) : Launches twq twq := ⟨id, Or.inl⟩

theorem launches_dequeueOneJob {found : Job → WorkerPc Job} {empty : WorkerPc Job}
    {twq : Threadwq Job} (launched : twq.worker.launched = true) :
    Launches twq (twq.dequeueOneJob found empty) := by
  unfold dequeueOneJob
  split <;> exact ⟨id, fun _ => Or.inl launched⟩

theorem launches_worker {self : Nat} {ret : Int} {twq next : Threadwq Job}
    (step : workerStep self ret twq = some next) : Launches twq next := by
  obtain ⟨pc, here, moves⟩ := workerStep_moves step
  cases moves with
  | callWorkerInit | skipWorkerInit => exact ⟨id, nofun⟩
  | setRunning => exact ⟨fun _ => by simp, fun _ => Or.inr (by simp)⟩
  | dequeue | serveNext | flushNext => exact launches_dequeueOneJob (by rw [here]; rfl)
  | flushDequeue =>
      have launched : twq.worker.launched = true := by
        rw [here]
        rfl
      have dequeues := @launches_dequeueOneJob Job (.callStart .flush) .callWorkerExit
        { twq with accl := 0 } launched
      exact ⟨dequeues.running, fun _ => Or.inl launched⟩
  | _ => exact ⟨id, fun _ => Or.inl (by rw [here]; rfl)⟩

theorem launches_signal (twq : Threadwq Job) : Launches twq twq.signal := by
  unfold signal
  split
  next asleep => exact ⟨id, fun _ => Or.inl (by rw [asleep]; rfl)⟩
  next => exact .refl twq

theorem launches_controller {self : Nat} {twq next : Threadwq Job}
    (step : controllerStep self twq = some next) : Launches twq next := by
  obtain ⟨pc, _, moves⟩ := controllerStep_moves step
  cases moves with
  | broadcast => exact ⟨(launches_signal twq).running, (launches_signal twq).worker⟩
  | _ => exact ⟨id, Or.inl⟩

variable [DecidableEq Job]

namespace System

variable {sys next : System Job} {action : Action Job}

theorem launches_step (step : sys.step action = some next) (index : Nat) :
    Launches (sys.twq index) (next.twq index) := by
  have onQueue : ∀ (other : Nat) (twq : Threadwq Job), Launches (sys.twq other) twq →
      Launches (sys.twq index) ((sys.setTwq other twq).twq index) :=
    fun other twq launches => forall_setTwq (fun other later => Launches (sys.twq other) later)
      launches (fun _ _ => .refl _) index
  cases step_moves step with
  | worker _ moved => exact onQueue _ _ (launches_worker moved)
  | controller moved => exact onQueue _ _ (launches_controller moved)
  | call => exact .refl _
  | add moved =>
      obtain ⟨_, _, moves⟩ := addStep_moves moved
      cases moves with
      | enqueue | enqueueLocked | unlock | lock | tryLock => exact onQueue _ _ ⟨id, Or.inl⟩
      | signal => exact onQueue _ _ (launches_signal _)
      | rrRead | rrReset | rrAdvance | readIdx | tryLockFails | setIdx => exact .refl _
  | spurious asleep => exact onQueue _ _ ⟨id, fun _ => Or.inl (by rw [asleep]; rfl)⟩
  | rcu => exact onQueue _ _ ⟨id, Or.inl⟩

/-- A worker that is past the start has set `running`. -/
theorem running_of_launched (reachable : (machine Job).Reachable sys) (index : Nat)
    (launched : (sys.twq index).worker.launched = true) : (sys.twq index).running ≠ 0 := by
  revert launched
  apply reachable.invariant
  · intro sys start launched
    obtain ⟨ops, busy, fresh⟩ := start.twq index
    rw [fresh] at launched
    cases launched
  · intro sys action next _ ih step launched
    have launches := launches_step step index
    rcases launches.worker launched with before | running
    · exact launches.running (ih before)
    · exact running

end System

section Starting

variable {exec : (System.machine Job).Execution} {index : Nat}

theorem launched_of_setRunning (fair : FairFor exec index) :
    LeadsTo (fun n => (queueAt exec index n).worker = .setRunning)
      fun n => (queueAt exec index n).worker.launched = true := by
  refine (worker_takes fair rfl (by simp [WorkerPc.inCallback]) (fun _ => id)
    (worker_persists (by simp))).next ?_
  rintro n ⟨here, taken⟩
  obtain ⟨ret, next, later, moved⟩ := worker_moves_of_takes here taken
  rw [later]
  cases moved
  rfl

theorem setRunning_of_callWorkerInit (fair : FairFor exec index) :
    LeadsTo (fun n => (queueAt exec index n).worker = .callWorkerInit)
      fun n => (queueAt exec index n).worker = .setRunning := by
  refine (worker_takes fair rfl (by simp [WorkerPc.inCallback]) (fun _ => id)
    (worker_persists (by simp))).next ?_
  rintro n ⟨here, taken⟩
  obtain ⟨ret, next, later, moved⟩ := worker_moves_of_takes here taken
  rw [later]
  cases moved <;> rfl

theorem running_leads (fair : FairFor exec index) :
    LeadsTo (fun _ => True) fun n => (queueAt exec index n).running ≠ 0 := by
  have ofSetRunning := launched_of_setRunning fair
  have launched : LeadsTo (fun _ => True)
      fun n => (queueAt exec index n).worker.launched = true := by
    intro n _
    cases here : (queueAt exec index n).worker
    case callWorkerInit =>
      exact ((setRunning_of_callWorkerInit fair).trans ofSetRunning) n here
    case setRunning => exact ofSetRunning n here
    all_goals exact ⟨n, Nat.le_refl n, (congrArg WorkerPc.launched here).trans rfl⟩
  exact launched.mono (fun _ => id) fun n =>
    System.running_of_launched (exec.reachable n) index

/-- The polling loop of `threadwq_exec` ends once `running` is set. -/
theorem online_of_running (fair : FairFor exec index) :
    LeadsTo (fun n => (queueAt exec index n).running ≠ 0 ∧
        (queueAt exec index n).controller = .pollRunning)
      fun n => (queueAt exec index n).controller = .online := by
  refine (fair.controller.takes (P := fun n => (queueAt exec index n).running ≠ 0 ∧
    (queueAt exec index n).controller = .pollRunning) ?_ ?_).next ?_
  · rintro n ⟨running, polling⟩ others
    refine ⟨?_, controller_persists (by simp) n polling others⟩
    exact exec.kept (P := fun sys => (sys.twq index).running ≠ 0) running
      fun _ _ step => (System.launches_step step index).running running
  · refine LeadsTo.of_imp fun n _ => ?_
    rintro ⟨running, polling⟩
    refine ⟨.controller index, (exec.state n).setTwq index
      { queueAt exec index n with controller := .online }, ⟨rfl, by simp [polling]⟩, ?_⟩
    change (controllerStep index (queueAt exec index n)).map _ = _
    simp [controllerStep, polling, running]
  · rintro n ⟨⟨running, polling⟩, acts⟩
    obtain ⟨next, later, moved⟩ := controller_moves_of_takes polling acts
    rw [later]
    cases moved with
    | poll zero => exact (running zero).elim
    | running => rfl

/-- In a run under a fair scheduler `threadwq_exec` returns. -/
theorem threadwq_exec_returns (fair : FairFor exec index) :
    LeadsTo (fun n => (queueAt exec index n).controller = .pollRunning)
      fun n => (queueAt exec index n).controller = .online := by
  have kept : ∀ n, (queueAt exec index n).controller = .pollRunning →
      (queueAt exec index (n + 1)).controller = .pollRunning ∨
        (queueAt exec index (n + 1)).controller = .online := by
    intro n polling
    by_cases acts : exec.Takes (ControllerActs index) n
    · obtain ⟨next, later, moved⟩ := controller_moves_of_takes polling acts
      rw [later]
      cases moved with
      | poll => exact Or.inl polling
      | running => exact Or.inr rfl
    · exact Or.inl (controller_persists (by simp) n polling acts)
  have reached := (running_leads fair).along
    (R := fun n => (queueAt exec index n).controller = .pollRunning)
    (S := fun n => (queueAt exec index n).controller = .online) kept
  exact (reached.trans ((online_of_running fair).or (LeadsTo.of_imp fun _ => id))).mono
    (fun _ polling => ⟨trivial, polling⟩) fun _ => id

end Starting

end LinuxCTemplate.Threadwq
