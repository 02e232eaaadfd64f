import LinuxCTemplate.Main.Parts

/-!
# The queues of a test under a fair scheduler

Under a fair scheduler the threads of a queue are scheduled fairly: the worker is a thread of
its own, the controlling thread is `main` while it stays at the queue, and the only thread
inside an add function is the writer.
-/

namespace LinuxCTemplate.Main

open Foundation Machine Threadwq

/-! ## The threads of a queue are scheduled fairly -/

section Fairness

variable {exec : System.machine.Execution} {test : Test} {index N : Nat}

theorem onTest_takes {Own : Threadwq.System Nat → Threadwq.Action Nat → Prop} {n : Nat}
    {action : Action} {own : Threadwq.Action Nat} (label : exec.label n = some action)
    (isOwn : (exec.state n).onQueues action = some (test, own))
    (acts : Own ((exec.state n).twq test) own) : (onTest exec test).Takes Own n := by
  refine ⟨own, ?_, acts⟩
  change (exec.label n).bind (System.onTest test (exec.state n)) = some own
  rw [label]
  exact System.onTest_eq_some.mpr isOwn

/-- `main` can move. -/
theorem enables_main {n : Nat} (alive : (exec.state n).pool.fault = none)
    (possible : ((exec.state n).mainStep fun _ => 0).isSome = true) :
    exec.Enables MainActs n := by
  obtain ⟨next, taken⟩ := Option.isSome_iff_exists.mp possible
  refine ⟨.main fun _ => 0, next, ⟨_, rfl⟩, ?_⟩
  change (exec.state n).step _ = _
  simp [System.step, alive, taken]

/-- The writer can move. -/
theorem enables_writer {n : Nat} (alive : (exec.state n).pool.fault = none)
    (main : (exec.state n).main = .join test)
    (possible : ((exec.state n).writerStep test 0 false).isSome = true) :
    exec.Enables WriterActs n := by
  obtain ⟨next, taken⟩ := Option.isSome_iff_exists.mp possible
  refine ⟨.writer 0 false, next, ⟨_, _, rfl⟩, ?_⟩
  change (exec.state n).step _ = _
  simp [System.step, alive, main, taken]

/-- Whether a worker can move does not depend on what `worker_init` returns, if that is 0. -/
theorem exists_step_worker {sys next : Threadwq.System Nat} {ret : Int}
    (taken : sys.step (.worker index ret) = some next) :
    ∃ next, sys.step (.worker index 0) = some next := by
  cases Threadwq.System.step_moves taken with
  | @worker _ _ twq isIdle stepped =>
      obtain ⟨pc, here, moves⟩ := workerStep_moves stepped
      obtain ⟨later, stepped⟩ : ∃ later, workerStep index 0 (sys.twq index) = some later := by
        refine Threadwq.System.exists_workerStep index _ here ?_ ?_
        · cases moves <;> rfl
        · rintro (rfl | rfl) <;> cases moves <;> assumption
      exact ⟨sys.setTwq index later, by simp [Threadwq.System.step, isIdle, stepped]⟩

/-- The worker of a queue. -/
theorem workerFair (fair : FairRun exec) (alive : ∀ n, (exec.state n).pool.fault = none)
    (inRange : index < twqNum)
    (created : ∀ n, N ≤ n → (exec.state n).main.created test index = true) :
    (onTest exec test).Fair (WorkerActs index) := by
  refine (fair.worker test index).of_machine (N := N) (P := fun _ => True) ?_
    (fun _ _ _ _ => trivial) ?_
  · rintro n later ⟨_, twq, ⟨ret, rfl⟩, taken⟩
    obtain ⟨next, moved⟩ := exists_step_worker taken
    refine ⟨trivial, .worker test index, (exec.state n).setTwq test next, rfl, ?_⟩
    change (exec.state n).step (.worker test index) = _
    have moved : ((exec.state n).twq test).step (.worker index 0) = some next := moved
    simp [System.step, System.twqStep, alive n, inRange, created n later, moved]
  · rintro n _ _ ⟨action, label, rfl⟩
    exact onTest_takes label rfl ⟨0, rfl⟩

/-- The callbacks of a queue. -/
theorem callbackFair (fair : FairRun exec) (alive : ∀ n, (exec.state n).pool.fault = none)
    (job : Nat) : (onTest exec test).Fair (RcuActs index job) := by
  refine (fair.callback test index job).of_machine (N := 0) (P := fun _ => True) ?_
    (fun _ _ _ _ => trivial) ?_
  · rintro n _ ⟨_, twq, rfl, moved⟩
    refine ⟨trivial, .callback test index job, ?_⟩
    cases Threadwq.System.step_moves moved with
    | rcu queued =>
        obtain ⟨next, taken⟩ := System.exists_callback (exec.reachable n) (alive n) queued
        exact ⟨next, rfl, taken⟩
  · rintro n _ _ ⟨action, label, rfl⟩
    exact onTest_takes label rfl rfl

/-- Jobs add no jobs, so that a `cb_start` returns by the next step of its worker. -/
theorem callbacksReturn (worker : (onTest exec test).Fair (WorkerActs index)) :
    CallbacksReturn (onTest exec test) index := by
  have ofStart : ∀ site job,
      LeadsTo (fun n => (queueAt (onTest exec test) index n).worker = .inStart site job)
        fun n => (queueAt (onTest exec test) index n).worker.inCallback = false := by
    intro site job
    refine (worker.takes (worker_persists (by simp)) (LeadsTo.of_imp fun n _ here => ?_)).next ?_
    · have isIdle : (((exec.state n).twq test).add (.worker index)).isIdle = true := by
        by_contra busy
        cases ((System.order_of_reachable (exec.reachable n)).adding test _
          (Bool.not_eq_true _ ▸ busy)).2.2
      obtain ⟨next, stepped⟩ := Threadwq.System.exists_workerStep index _ here rfl (by simp)
      refine ⟨.worker index 0, ((exec.state n).twq test).setTwq index next, ⟨0, rfl⟩, ?_⟩
      change ((exec.state n).twq test).step _ = _
      change workerStep index 0 (((exec.state n).twq test).twq index) = some next at stepped
      simp [Threadwq.System.step, isIdle, stepped]
    · rintro n ⟨here, taken⟩
      obtain ⟨ret, next, later, moved⟩ := worker_moves_of_takes here taken
      rw [later]
      cases moved
      rfl
  intro n inCallback
  cases here : (queueAt (onTest exec test) index n).worker <;> rw [here] at inCallback <;>
    try cases inCallback
  case inStart site job => exact ofStart site job n here

/-! ### The add functions -/

/-- No add function is scheduled when there is none to run. -/
theorem addFair_of_noneAdding (none : ∀ n, N ≤ n → (exec.state n).NoneAdding) (thread : Thread) :
    (onTest exec test).Fair (AddActs thread) := by
  refine Execution.Fair.of_takes (N := N) ?_
  rintro n later ⟨_, next, rfl, moved⟩
  cases Threadwq.System.step_moves moved with
  | add stepped =>
      obtain ⟨pc, here, moves⟩ := Threadwq.System.addStep_moves stepped
      have isIdle := none n later test thread
      change (((onTest exec test).state n).add thread).isIdle = true at isIdle
      rw [here, moves.active] at isIdle
      cases isIdle

/-- The add function of the writer. -/
theorem addFair_of_join (fair : FairRun exec) (alive : ∀ n, (exec.state n).pool.fault = none)
    (main : ∀ n, N ≤ n → (exec.state n).main = .join test) (thread : Thread) :
    (onTest exec test).Fair (AddActs thread) := by
  have adds : ∀ n, N ≤ n → (exec.state n).writer = .adding → exec.Takes WriterActs n →
      (onTest exec test).Takes (AddActs System.threadfunc) n := by
    rintro n later writer ⟨action, label, block, timeOver, rfl⟩
    have isOwn : (exec.state n).onQueues (.writer block timeOver) =
        some (test, .add System.threadfunc) := by
      simp [System.onQueues, main n later, writer]
    exact onTest_takes label isOwn rfl
  refine fair.writer.of_machine (N := N)
    (P := fun n => thread = System.threadfunc ∧ (exec.state n).writer = .adding) ?_ ?_ ?_
  · rintro n later ⟨_, next, rfl, moved⟩
    cases Threadwq.System.step_moves moved with
    | add stepped =>
        obtain ⟨pc, here, moves⟩ := Threadwq.System.addStep_moves stepped
        have busy : (((exec.state n).twq test).add thread).isIdle = false :=
          (congrArg AddPc.isIdle here).trans moves.active
        obtain ⟨_, writer, rfl⟩ :=
          (System.order_of_reachable (exec.reachable n)).adding test thread busy
        have step : ((exec.state n).twq test).step (.add System.threadfunc) = some next := stepped
        refine ⟨⟨rfl, writer⟩, enables_writer (alive n) (main n later) ?_⟩
        simp [System.writerStep, writer, System.twqStep, step]
  · rintro n later ⟨rfl, writer⟩ notTaken
    refine ⟨rfl, exec.kept (P := fun sys => sys.writer = .adding) writer ?_⟩
    intro action label taken
    rw [System.writer_of_others taken (main n later)]
    · exact writer
    · exact fun own => notTaken (adds n later writer ⟨action, label, own⟩)
  · rintro n later ⟨rfl, writer⟩ taken
    exact adds n later writer taken

/-! ### The controlling threads -/

/-- `main`, while each of its steps is one of the controlling thread. -/
theorem controllerFair_of_main (fair : FairRun exec)
    (alive : ∀ n, (exec.state n).pool.fault = none)
    (own : ∀ n, N ≤ n → ∀ junk,
      (exec.state n).onQueues (.main junk) = some (test, .controller index))
    (inside : ∀ n, N ≤ n → (exec.state n).controller test index ≠ .online) :
    (onTest exec test).Fair (ControllerActs index) := by
  refine fair.main.of_machine (N := N) (P := fun _ => True) ?_ (fun _ _ _ _ => trivial) ?_
  · rintro n later ⟨_, twq, ⟨rfl, _⟩, moved⟩
    refine ⟨trivial, enables_main (alive n) ?_⟩
    rw [System.mainStep_of_onQueues (own n later _) moved]
    rfl
  · rintro n later _ ⟨action, label, junk, rfl⟩
    exact onTest_takes label (own n later junk) ⟨rfl, inside n later⟩

/-- A controlling thread that nobody asks for anything. -/
theorem controllerFair_of_online
    (online : ∀ n, N ≤ n → (exec.state n).controller test index = .online) :
    (onTest exec test).Fair (ControllerActs index) := by
  refine Execution.Fair.of_takes (N := N) ?_
  rintro n later ⟨_, _, ⟨_, inside⟩, _⟩
  exact (inside (online n later)).elim

/-- The queue is scheduled fairly, if the callers of the add functions and its controlling
thread are. -/
theorem fairFor_onTest (fair : FairRun exec) (alive : ∀ n, (exec.state n).pool.fault = none)
    (inRange : index < twqNum)
    (created : ∀ n, N ≤ n → (exec.state n).main.created test index = true)
    (add : ∀ thread, (onTest exec test).Fair (AddActs thread))
    (controller : (onTest exec test).Fair (ControllerActs index)) :
    FairFor (onTest exec test) index where
  worker := workerFair fair alive inRange created
  add := add
  controller := controller
  rcu := callbackFair fair alive

end Fairness

/-! ## The next step of `main` -/

/-- Where `main` is at a moment of the execution. -/
abbrev mainAt (exec : System.machine.Execution) (n : Nat) : MainPc := (exec.state n).main

section Steps

variable {exec : System.machine.Execution} {test : Test} {index : Nat}

theorem mainStep_of_takes {n : Nat} (taken : exec.Takes MainActs n) :
    ∃ junk, (exec.state n).mainStep junk = some (exec.state (n + 1)) := by
  obtain ⟨action, label, junk, rfl⟩ := taken
  exact ⟨junk, System.mainStep_of_step (exec.step n _ label)⟩

theorem main_persists {pc : MainPc} {n : Nat} (here : mainAt exec n = pc)
    (others : ¬ exec.Takes MainActs n) : mainAt exec (n + 1) = pc := by
  apply exec.kept (P := fun sys => sys.main = pc) here
  intro action label taken
  rw [System.main_of_others taken fun own => others ⟨action, label, own⟩]
  exact here

theorem controller_kept {n : Nat} (others : ¬ exec.Takes MainActs n) (test : Test) (index : Nat) :
    (exec.state (n + 1)).controller test index = (exec.state n).controller test index := by
  apply exec.kept (P := fun sys => sys.controller test index =
    (exec.state n).controller test index) rfl
  intro action label taken
  exact System.controller_of_others taken (fun own => others ⟨action, label, own⟩) test index

variable (fair : FairRun exec) (alive : ∀ n, (exec.state n).pool.fault = none)

include fair alive

/-- What `main` leads to by its own next step. -/
theorem main_next {P Q : Nat → Prop}
    (possible : ∀ n, P n → ((exec.state n).mainStep fun _ => 0).isSome = true)
    (persists : ∀ n, P n → ¬ exec.Takes MainActs n → P (n + 1))
    (after : ∀ n junk, P n → (exec.state n).mainStep junk = some (exec.state (n + 1)) →
      Q (n + 1)) : LeadsTo P Q := by
  refine (fair.main.takes persists (LeadsTo.of_imp fun n _ here => ?_)).next ?_
  · exact enables_main (alive n) (possible n here)
  · rintro n ⟨here, taken⟩
    obtain ⟨junk, stepped⟩ := mainStep_of_takes taken
    exact after n junk here stepped

end Steps

end LinuxCTemplate.Main
