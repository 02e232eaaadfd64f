import LinuxCTemplate.Foundation.Execution
import LinuxCTemplate.Threadwq.Handover
import LinuxCTemplate.Threadwq.Shutdown
import LinuxCTemplate.Threadwq.Wakeup

/-!
# Threads under a fair scheduler

A run without end in which no thread is passed over for ever, be it by the scheduler or by a
mutex that is handed to others.  The mutex of a queue is then free again and again, and a
thread leaves every program point but those where it waits to be signalled, to be asked, or
to be joined, and but for a `cb_start` that does not return.
-/

namespace LinuxCTemplate.Threadwq

open Foundation Machine

variable {Job : Type}

/-- The worker is at a point where it waits for nobody. -/
def WorkerPc.moves : WorkerPc Job → Bool
  | .blocked | .returned => false
  | _ => true

theorem WorkerPc.stops {pc : WorkerPc Job} (stops : pc.moves = false) :
    pc = .blocked ∨ pc = .returned := by
  cases pc <;> first | exact Or.inl rfl | exact Or.inr rfl | cases stops

/-- A step of the worker of the queue. -/
def WorkerActs (index : Nat) (_ : System Job) (action : Action Job) : Prop :=
  ∃ ret, action = .worker index ret

/-- A step of the add function of the thread. -/
def AddActs (thread : Thread) (_ : System Job) (action : Action Job) : Prop :=
  action = .add thread

/-- A step of the controlling thread inside `threadwq_exec` or `threadwq_exit`.  Whether
`threadwq_exit` is called is up to the program. -/
def ControllerActs (index : Nat) (sys : System Job) (action : Action Job) : Prop :=
  action = .controller index ∧ (sys.twq index).controller ≠ .online

/-- The callback of the job is run. -/
def RcuActs (index : Nat) (job : Job) (_ : System Job) (action : Action Job) : Prop :=
  action = .rcu index job

variable [DecidableEq Job]

/-- The queue at a moment of the execution. -/
abbrev queueAt (exec : (System.machine Job).Execution) (index n : Nat) : Threadwq Job :=
  (exec.state n).twq index

/-- What a queue needs of the scheduler and of `call_rcu`. -/
structure FairFor (exec : (System.machine Job).Execution) (index : Nat) : Prop where
  worker : exec.Fair (WorkerActs index)
  add : ∀ thread, exec.Fair (AddActs thread)
  controller : exec.Fair (ControllerActs index)
  rcu : ∀ job, exec.Fair (RcuActs index job)

/-- Every `cb_start` that the worker of the queue calls returns.  This is up to the jobs. -/
def CallbacksReturn (exec : (System.machine Job).Execution) (index : Nat) : Prop :=
  LeadsTo (fun n => (queueAt exec index n).worker.inCallback = true)
    fun n => (queueAt exec index n).worker.inCallback = false

/-! ## Whose step moves a thread -/

namespace System

variable {sys next : System Job} {action : Action Job} {index : Nat} {thread : Thread}

/-- An awake worker is moved by its own steps only. -/
theorem step_worker_of_awake (step : sys.step action = some next)
    (others : ¬ WorkerActs index sys action) (awake : (sys.twq index).worker ≠ .blocked) :
    (next.twq index).worker = (sys.twq index).worker := by
  have bySignal : (sys.twq index).signal.worker = (sys.twq index).worker :=
    (signal_worker _).resolve_right fun asleep => awake asleep.1
  cases step_moves step with
  | @worker other ret =>
      rw [setTwq_twq_of_ne]
      rintro rfl
      exact others ⟨ret, rfl⟩
  | @controller other twq moved =>
      by_cases same : index = other
      · subst same
        rw [setTwq_twq_self]
        rcases controllerStep_worker moved with unmoved | signalled
        · exact unmoved
        · exact signalled.trans bySignal
      · rw [setTwq_twq_of_ne _ _ same]
  | call => rfl
  | add moved =>
      rcases addStep_worker moved index with unmoved | signalled
      · exact unmoved
      · exact signalled.trans bySignal
  | @spurious other asleep =>
      rw [setTwq_twq_of_ne]
      rintro rfl
      exact awake asleep
  | rcu =>
      refine forall_setTwq (fun other later => later.worker = (sys.twq other).worker) ?_
        (fun _ _ => rfl) index
      rfl

/-- The controlling thread is moved by its own steps only. -/
theorem step_controller_of_others (step : sys.step action = some next)
    (others : action ≠ .controller index) :
    (next.twq index).controller = (sys.twq index).controller := by
  have onQueue : ∀ (other : Nat) (twq : Threadwq Job),
      twq.controller = (sys.twq other).controller →
      ((sys.setTwq other twq).twq index).controller = (sys.twq index).controller :=
    fun other twq same => forall_setTwq
      (fun other later => later.controller = (sys.twq other).controller) same
      (fun _ _ => rfl) index
  cases step_moves step with
  | worker idle moved => exact onQueue _ _ (workerStep_mutex moved).1
  | @controller other =>
      rw [setTwq_twq_of_ne]
      rintro rfl
      exact others rfl
  | call => rfl
  | add moved =>
      obtain ⟨_, _, moves⟩ := addStep_moves moved
      cases moves with
      | enqueue | enqueueLocked | unlock | lock | tryLock => exact onQueue _ _ rfl
      | signal => exact onQueue _ _ (signal_controller _)
      | rrRead | rrReset | rrAdvance | readIdx | tryLockFails | setIdx => rfl
  | spurious | rcu => exact onQueue _ _ rfl

/-- A thread inside an add function is moved by the steps of the add function only. -/
theorem step_add_of_active (step : sys.step action = some next)
    (others : ¬ AddActs thread sys action) (active : (sys.add thread).isIdle = false) :
    next.add thread = sys.add thread := by
  cases step_moves step with
  | worker | controller | spurious | rcu => rfl
  | call idle =>
      apply setAdd_add_of_ne
      rintro rfl
      rw [active] at idle
      cases idle
  | add moved => exact addStep_add_of_ne moved fun same => others (same ▸ rfl)

omit [DecidableEq Job] in
/-- Outside a `cb_start` the worker is in no add function. -/
theorem idle_of_not_inCallback (jobs : Jobs sys)
    (outside : (sys.twq index).worker.inCallback = false) :
    (sys.add (.worker index)).isIdle = true := by
  by_contra busy
  rw [jobs.caller index (Bool.not_eq_true _ ▸ busy)] at outside
  cases outside

omit [DecidableEq Job] in
/-- At these points the worker can always move. -/
theorem exists_workerStep (self : Nat) (twq : Threadwq Job) {pc : WorkerPc Job}
    (here : twq.worker = pc) (moves : pc.moves = true)
    (free : pc = .waitLock ∨ pc = .woken → twq.mutex = none) :
    ∃ next, workerStep self 0 twq = some next := by
  unfold workerStep
  rw [here]
  cases pc <;> try cases moves
  case waitLock =>
    rw [Threadwq.lock, free (Or.inl rfl)]
    exact ⟨_, rfl⟩
  case woken =>
    rw [Threadwq.lock, free (Or.inr rfl)]
    exact ⟨_, rfl⟩
  case callWorkerInit =>
    cases present : twq.ops.workerInit <;> simp
  case loopTest =>
    by_cases zero : twq.exit = 0 <;> simp [zero]
  case callWorkerExit =>
    cases present : twq.ops.workerExit <;> simp
  case dequeueNext site =>
    cases site <;> exact ⟨_, rfl⟩
  all_goals exact ⟨_, rfl⟩

omit [DecidableEq Job] in
/-- At these points an add function can always move. -/
theorem exists_addStep {pc : AddPc Job} (here : sys.add thread = pc) (active : pc.isIdle = false)
    (free : ∀ index, pc = .lock index → (sys.twq index).mutex = none) :
    ∃ next, sys.addStep thread = some next := by
  unfold addStep
  rw [here]
  cases pc <;> try cases active
  case lock index =>
    simp only [Threadwq.lock, free index rfl]
    exact ⟨_, rfl⟩
  case rrAdvance idx job =>
    by_cases past : sys.man.twqPoolNr ≤ idx <;> simp [past]
  case tryLock idx job =>
    simp only
    split <;> exact ⟨_, rfl⟩
  all_goals exact ⟨_, rfl⟩

omit [DecidableEq Job] in
/-- Inside `threadwq_exit` the controlling thread waits for the mutex and for the end of the
worker only. -/
theorem exists_controllerStep (self : Nat) (twq : Threadwq Job) {pc : ControllerPc}
    (here : twq.controller = pc) (moves : pc.polling = true ∨ pc = .join)
    (free : pc = .lock → twq.mutex = none) (joined : pc = .join → twq.worker = .returned) :
    ∃ next, controllerStep self twq = some next := by
  unfold controllerStep
  rw [here]
  cases pc <;> try simp [ControllerPc.polling] at moves
  case lock =>
    rw [Threadwq.lock, free rfl]
    exact ⟨_, rfl⟩
  case testAck =>
    by_cases zero : twq.exitAck = 0 <;> simp [zero]
  case join =>
    rw [joined rfl]
    exact ⟨_, rfl⟩
  all_goals exact ⟨_, rfl⟩

end System

/-! ## The next step of a thread -/

section Steps

variable {exec : (System.machine Job).Execution} {index : Nat} {thread : Thread}

/-- What is on the log of a queue stays there. -/
theorem mem_log_of_le {event : Event Job} {n m : Nat} (later : n ≤ m)
    (happened : event ∈ (queueAt exec index n).log) : event ∈ (queueAt exec index m).log := by
  refine kept_of_le (P := fun k => event ∈ (queueAt exec index k).log) happened ?_ m later
  intro k _ happened
  apply exec.kept (P := fun sys => event ∈ (sys.twq index).log) happened
  intro action _ step
  obtain ⟨events, moreLog, _⟩ := System.step_writes step index
  rw [moreLog]
  exact List.mem_append_left _ happened

theorem worker_persists {pc : WorkerPc Job} (awake : pc ≠ .blocked) (n : Nat)
    (here : (queueAt exec index n).worker = pc) (others : ¬ exec.Takes (WorkerActs index) n) :
    (queueAt exec index (n + 1)).worker = pc := by
  apply exec.kept (P := fun sys => (sys.twq index).worker = pc) here
  intro action label step
  rw [System.step_worker_of_awake step (fun own => others ⟨action, label, own⟩)]
  · exact here
  · rw [here]
    exact awake

theorem controller_persists {pc : ControllerPc} (inside : pc ≠ .online) (n : Nat)
    (here : (queueAt exec index n).controller = pc)
    (others : ¬ exec.Takes (ControllerActs index) n) :
    (queueAt exec index (n + 1)).controller = pc := by
  apply exec.kept (P := fun sys => (sys.twq index).controller = pc) here
  intro action label step
  rw [System.step_controller_of_others step]
  · exact here
  · rintro rfl
    exact others ⟨_, label, rfl, by rw [here]; exact inside⟩

theorem add_persists {pc : AddPc Job} (active : pc.isIdle = false) (n : Nat)
    (here : (exec.state n).add thread = pc) (others : ¬ exec.Takes (AddActs thread) n) :
    (exec.state (n + 1)).add thread = pc := by
  apply exec.kept (P := fun sys => sys.add thread = pc) here
  intro action label step
  rw [System.step_add_of_active step (fun own => others ⟨action, label, own⟩)]
  · exact here
  · rw [here]
    exact active

/-- The step that a worker makes. -/
theorem worker_moves_of_takes {n : Nat} {pc : WorkerPc Job}
    (here : (queueAt exec index n).worker = pc) (taken : exec.Takes (WorkerActs index) n) :
    ∃ ret next, queueAt exec index (n + 1) = next ∧
      WorkerMoves index ret (queueAt exec index n) pc next := by
  obtain ⟨action, label, ret, rfl⟩ := taken
  have step : (exec.state n).step (.worker index ret) = some (exec.state (n + 1)) :=
    exec.step n _ label
  refine ⟨ret, _, rfl, ?_⟩
  unfold queueAt at here ⊢
  generalize exec.state (n + 1) = later at step ⊢
  cases System.step_moves step with
  | worker idle moved =>
      obtain ⟨_, rfl, moves⟩ := workerStep_moves moved
      rw [System.setTwq_twq_self, ← here]
      exact moves

theorem controller_moves_of_takes {n : Nat} {pc : ControllerPc}
    (here : (queueAt exec index n).controller = pc)
    (taken : exec.Takes (ControllerActs index) n) :
    ∃ next, queueAt exec index (n + 1) = next ∧
      ControllerMoves index (queueAt exec index n) pc next := by
  obtain ⟨action, label, rfl, _⟩ := taken
  have step : (exec.state n).step (.controller index) = some (exec.state (n + 1)) :=
    exec.step n _ label
  refine ⟨_, rfl, ?_⟩
  unfold queueAt at here ⊢
  generalize exec.state (n + 1) = later at step ⊢
  cases System.step_moves step with
  | controller moved =>
      obtain ⟨_, rfl, moves⟩ := controllerStep_moves moved
      rw [System.setTwq_twq_self, ← here]
      exact moves

theorem add_moves_of_takes {n : Nat} {pc : AddPc Job} (here : (exec.state n).add thread = pc)
    (taken : exec.Takes (AddActs thread) n) :
    ∃ next, exec.state (n + 1) = next ∧ System.AddMoves (exec.state n) thread pc next := by
  obtain ⟨action, label, rfl⟩ := taken
  have step : (exec.state n).step (.add thread) = some (exec.state (n + 1)) :=
    exec.step n _ label
  obtain ⟨_, rfl, moves⟩ := System.addStep_moves step
  exact ⟨_, rfl, here ▸ moves⟩

/-! ## The mutex of a queue is free again and again -/

/-- The mutex of the queue is free again and again. -/
def FreedAgain (exec : (System.machine Job).Execution) (index : Nat) : Prop :=
  LeadsTo (fun _ => True) fun n => (queueAt exec index n).mutex = none

/-- The worker leaves its program point by its own step. -/
theorem worker_takes_of_freed (fair : FairFor exec index) {pc : WorkerPc Job}
    (moves : pc.moves = true) (returns : pc.inCallback = true → CallbacksReturn exec index)
    (freed : pc = .waitLock ∨ pc = .woken → FreedAgain exec index)
    {P : Nat → Prop} (here : ∀ n, P n → (queueAt exec index n).worker = pc)
    (persists : ∀ n, P n → ¬ exec.Takes (WorkerActs index) n → P (n + 1)) :
    LeadsTo P fun n => P n ∧ exec.Takes (WorkerActs index) n := by
  cases inside : pc.inCallback with
  | true =>
      refine Execution.takes_of_ends persists ((returns inside).mono ?_ ?_)
      · intro n holds
        rw [here n holds, inside]
      · intro n outside holds
        rw [here n holds, inside] at outside
        cases outside
  | false =>
      have enabled : ∀ n, (pc = .waitLock ∨ pc = .woken → (queueAt exec index n).mutex = none) →
          P n → exec.Enables (WorkerActs index) n := by
        intro n free holds
        have idle := System.idle_of_not_inCallback (System.jobs_of_reachable (exec.reachable n))
          ((congrArg WorkerPc.inCallback (here n holds)).trans inside)
        obtain ⟨next, step⟩ := System.exists_workerStep index _ (here n holds) moves free
        refine ⟨.worker index 0, (exec.state n).setTwq index next, ⟨0, rfl⟩, ?_⟩
        change System.step _ _ = _
        simp only [System.step, idle, if_true, step, Option.map_some]
      refine fair.worker.takes persists ?_
      by_cases locking : pc = .waitLock ∨ pc = .woken
      · exact (freed locking).mono (fun _ _ => trivial) fun n free => enabled n fun _ => free
      · exact LeadsTo.of_imp fun n _ => enabled n fun isLocking => (locking isLocking).elim

/-- An add function leaves its program point by its own step. -/
theorem add_takes (fair : exec.Fair (AddActs thread)) {pc : AddPc Job} (active : pc.isIdle = false)
    (freed : ∀ index, pc = .lock index → FreedAgain exec index) :
    LeadsTo (fun n => (exec.state n).add thread = pc)
      fun n => (exec.state n).add thread = pc ∧ exec.Takes (AddActs thread) n := by
  have enabled : ∀ n, (∀ index, pc = .lock index → (queueAt exec index n).mutex = none) →
      (exec.state n).add thread = pc → exec.Enables (AddActs thread) n := by
    intro n free here
    obtain ⟨next, step⟩ := System.exists_addStep here active free
    exact ⟨.add thread, next, rfl, step⟩
  refine fair.takes (add_persists active) ?_
  by_cases locking : ∃ index, pc = .lock index
  · obtain ⟨index, rfl⟩ := locking
    refine (freed index rfl).mono (fun _ _ => trivial) fun n free => enabled n ?_
    rintro _ ⟨⟩
    exact free
  · refine LeadsTo.of_imp fun n _ => enabled n fun index isLocking => ?_
    exact (locking ⟨index, isLocking⟩).elim

/-- What an add function leads to by its own next step. -/
theorem add_next (fair : exec.Fair (AddActs thread)) {pc : AddPc Job} (active : pc.isIdle = false)
    (freed : ∀ index, pc = .lock index → FreedAgain exec index) {Q : Nat → Prop}
    (after : ∀ n next, exec.state (n + 1) = next →
      System.AddMoves (exec.state n) thread pc next → Q (n + 1)) :
    LeadsTo (fun n => (exec.state n).add thread = pc) Q := by
  refine (add_takes fair active freed).next ?_
  rintro n ⟨here, taken⟩
  obtain ⟨next, later, moves⟩ := add_moves_of_takes here taken
  exact after n next later moves

/-- Inside `threadwq_exit` the controlling thread leaves its program point by its own
step. -/
theorem controller_takes (fair : FairFor exec index) {pc : ControllerPc}
    (moves : pc.polling = true ∨ pc = .join) (freed : pc = .lock → FreedAgain exec index)
    {P : Nat → Prop} (here : ∀ n, P n → (queueAt exec index n).controller = pc)
    (joined : pc = .join → ∀ n, P n → (queueAt exec index n).worker = .returned)
    (persists : ∀ n, P n → ¬ exec.Takes (ControllerActs index) n → P (n + 1)) :
    LeadsTo P fun n => P n ∧ exec.Takes (ControllerActs index) n := by
  have inside : pc ≠ .online := by
    rintro rfl
    rcases moves with moves | moves <;> cases moves
  have enabled : ∀ n, (pc = .lock → (queueAt exec index n).mutex = none) → P n →
      exec.Enables (ControllerActs index) n := by
    intro n free holds
    obtain ⟨next, step⟩ := System.exists_controllerStep index _ (here n holds) moves free
      fun joining => joined joining n holds
    refine ⟨.controller index, (exec.state n).setTwq index next, ⟨rfl, ?_⟩, ?_⟩
    · exact fun online => inside ((here n holds).symm.trans online)
    · change (controllerStep index _).map _ = _
      rw [step, Option.map_some]
  refine fair.controller.takes persists ?_
  by_cases locking : pc = .lock
  · exact (freed locking).mono (fun _ _ => trivial) fun n free => enabled n fun _ => free
  · exact LeadsTo.of_imp fun n _ => enabled n fun isLocking => (locking isLocking).elim

/-- What the controlling thread leads to by its own next step in its polling loop. -/
theorem controller_next (fair : FairFor exec index) {pc : ControllerPc}
    (moves : pc.polling = true) (freed : pc = .lock → FreedAgain exec index) {Q : Nat → Prop}
    (after : ∀ n next, queueAt exec index (n + 1) = next →
      ControllerMoves index (queueAt exec index n) pc next → Q (n + 1)) :
    LeadsTo (fun n => (queueAt exec index n).controller = pc) Q := by
  have notJoin : pc ≠ .join := by
    rintro rfl
    cases moves
  have inside : pc ≠ .online := by
    rintro rfl
    cases moves
  refine (controller_takes fair (P := fun n => (queueAt exec index n).controller = pc)
    (Or.inl moves) freed (fun _ => id) (fun joining => (notJoin joining).elim)
    (controller_persists inside)).next ?_
  rintro n ⟨here, acts⟩
  obtain ⟨next, later, moved⟩ := controller_moves_of_takes here acts
  exact after n next later moved

/-! ### Who holds the mutex gives it back -/

theorem freed_of_unlock (fair : exec.Fair (AddActs thread)) :
    LeadsTo (fun n => (exec.state n).add thread = .unlock index)
      fun n => (queueAt exec index n).mutex = none := by
  refine add_next fair rfl (by nofun) fun n next later moves => ?_
  cases moves
  rw [queueAt, later, System.setAdd_twq, System.setTwq_twq_self]
  rfl

theorem unlock_of_signal (fair : exec.Fair (AddActs thread)) (other : Nat) :
    LeadsTo (fun n => (exec.state n).add thread = .signal other)
      fun n => (exec.state n).add thread = .unlock other := by
  refine add_next fair rfl (by nofun) fun n next later moves => ?_
  cases moves
  rw [later, System.setAdd_add_self]

theorem signal_of_enqueueLocked (fair : exec.Fair (AddActs thread)) (idx : UInt32) (job : Job) :
    LeadsTo (fun n => (exec.state n).add thread = .enqueueLocked idx job)
      fun n => (exec.state n).add thread = .signal idx.toNat := by
  refine add_next fair rfl (by nofun) fun n next later moves => ?_
  cases moves
  rw [later, System.setAdd_add_self]

theorem enqueueLocked_of_setIdx (fair : exec.Fair (AddActs thread)) (idx : UInt32) (job : Job) :
    LeadsTo (fun n => (exec.state n).add thread = .setIdx idx job)
      fun n => (exec.state n).add thread = .enqueueLocked idx job := by
  refine add_next fair rfl (by nofun) fun n next later moves => ?_
  cases moves
  rw [later, System.setAdd_add_self]

/-- An add function that holds the mutex comes to its unlock. -/
theorem unlock_of_locks (fair : exec.Fair (AddActs thread)) :
    LeadsTo (fun n => ((exec.state n).add thread).locks index = true)
      fun n => (exec.state n).add thread = .unlock index := by
  have ofSignal : ∀ other, other = index →
      LeadsTo (fun n => (exec.state n).add thread = .signal other)
        fun n => (exec.state n).add thread = .unlock index := by
    rintro other rfl
    exact unlock_of_signal fair other
  intro n locks
  cases here : (exec.state n).add thread <;> rw [here] at locks <;> try cases locks
  case signal other => exact ofSignal other (eq_of_beq locks) n here
  case unlock other =>
    exact ⟨n, Nat.le_refl n, here.trans (congrArg _ (eq_of_beq locks))⟩
  case enqueueLocked idx job =>
    exact ((signal_of_enqueueLocked fair idx job).trans (ofSignal _ (eq_of_beq locks))) n here
  case setIdx idx job =>
    exact ((enqueueLocked_of_setIdx fair idx job).trans
      ((signal_of_enqueueLocked fair idx job).trans (ofSignal _ (eq_of_beq locks)))) n here

theorem freed_of_worker_locks (fair : FairFor exec index) :
    LeadsTo (fun n => (queueAt exec index n).worker.locks = true)
      fun n => (queueAt exec index n).mutex = none := by
  have unlocks : ∀ pc : WorkerPc Job, pc.locks = true →
      LeadsTo (fun n => (queueAt exec index n).worker = pc)
        fun n => (queueAt exec index n).mutex = none := by
    intro pc locks
    have moves : pc.moves = true := by cases pc <;> first | rfl | cases locks
    have outside : pc.inCallback = false := by cases pc <;> first | rfl | cases locks
    refine (worker_takes_of_freed fair moves ?_ ?_ (fun _ => id) (worker_persists ?_)).next ?_
    · rw [outside]
      rintro ⟨⟩
    · rintro (rfl | rfl) <;> cases locks
    · rintro rfl
      cases locks
    · rintro n ⟨here, taken⟩
      obtain ⟨ret, next, later, moved⟩ := worker_moves_of_takes here taken
      rw [later]
      cases moved <;> first | rfl | cases locks
  exact fun n locks => unlocks _ locks n rfl

/-- A step of the polling loop that has one way to go. -/
theorem controller_follows (fair : FairFor exec index) {pc pc' : ControllerPc}
    (moves : pc.polling = true) (freed : pc = .lock → FreedAgain exec index)
    (follows : ∀ twq next : Threadwq Job, ControllerMoves index twq pc next →
      next.controller = pc') :
    LeadsTo (fun n => (queueAt exec index n).controller = pc)
      fun n => (queueAt exec index n).controller = pc' := by
  refine controller_next fair moves freed fun n next later moved => ?_
  rw [later]
  exact follows _ next moved

theorem broadcast_of_increment (fair : FairFor exec index) :
    LeadsTo (fun n => (queueAt exec index n).controller = .increment)
      fun n => (queueAt exec index n).controller = .broadcast := by
  refine controller_follows fair rfl (by nofun) fun twq next moved => ?_
  cases moved
  rfl

theorem unlock_of_broadcast (fair : FairFor exec index) :
    LeadsTo (fun n => (queueAt exec index n).controller = .broadcast)
      fun n => (queueAt exec index n).controller = .unlock := by
  refine controller_follows fair rfl (by nofun) fun twq next moved => ?_
  cases moved
  rfl

theorem testAck_of_unlock (fair : FairFor exec index) :
    LeadsTo (fun n => (queueAt exec index n).controller = .unlock)
      fun n => (queueAt exec index n).controller = .testAck := by
  refine controller_follows fair rfl (by nofun) fun twq next moved => ?_
  cases moved
  rfl

theorem freed_of_controller_locks (fair : FairFor exec index) :
    LeadsTo (fun n => (queueAt exec index n).controller.locks = true)
      fun n => (queueAt exec index n).mutex = none := by
  have ofUnlock : LeadsTo (fun n => (queueAt exec index n).controller = .unlock)
      fun n => (queueAt exec index n).mutex = none := by
    refine controller_next fair rfl (by nofun) fun n next later moves => ?_
    rw [later]
    cases moves
    rfl
  have ofBroadcast := (unlock_of_broadcast fair).trans ofUnlock
  intro n locks
  cases here : (queueAt exec index n).controller <;> rw [here] at locks <;> try cases locks
  case increment => exact ((broadcast_of_increment fair).trans ofBroadcast) n here
  case broadcast => exact ofBroadcast n here
  case unlock => exact ofUnlock n here

/-- Whoever holds the mutex of the queue gives it back. -/
theorem freedAgain (fair : FairFor exec index) : FreedAgain exec index := by
  intro n _
  cases owner : (queueAt exec index n).mutex with
  | none => exact ⟨n, Nat.le_refl n, owner⟩
  | some thread =>
      have mutexes := System.mutexes_of_reachable (exec.reachable n)
      rcases (mutexes.owner index thread).mp owner with locks | ⟨rfl, locks⟩ | ⟨rfl, locks⟩
      · have fairAdd := fair.add thread
        exact ((unlock_of_locks fairAdd).trans (freed_of_unlock fairAdd)) n locks
      · exact freed_of_worker_locks fair n locks
      · exact freed_of_controller_locks fair n locks

/-- The worker leaves every program point, but sleep and its end, by its own step. -/
theorem worker_takes (fair : FairFor exec index) {pc : WorkerPc Job} (moves : pc.moves = true)
    (returns : pc.inCallback = true → CallbacksReturn exec index) {P : Nat → Prop}
    (here : ∀ n, P n → (queueAt exec index n).worker = pc)
    (persists : ∀ n, P n → ¬ exec.Takes (WorkerActs index) n → P (n + 1)) :
    LeadsTo P fun n => P n ∧ exec.Takes (WorkerActs index) n :=
  worker_takes_of_freed fair moves returns (fun _ => freedAgain fair) here persists

/-- An add function that has begun its sequence on the queue comes to its unlock. -/
theorem unlock_of_inSequence (fair : FairFor exec index) :
    LeadsTo (fun n => ((exec.state n).add thread).inSequence index = true)
      fun n => (exec.state n).add thread = .unlock index := by
  have ofLocks : ∀ pc : AddPc Job, pc.locks index = true →
      LeadsTo (fun n => (exec.state n).add thread = pc)
        fun n => (exec.state n).add thread = .unlock index :=
    fun _ locks => (unlock_of_locks (fair.add thread)).mono (fun _ here => here ▸ locks) fun _ => id
  have ofLock : LeadsTo (fun n => (exec.state n).add thread = .lock index)
      fun n => (exec.state n).add thread = .unlock index := by
    have toSignal : LeadsTo (fun n => (exec.state n).add thread = .lock index)
        fun n => (exec.state n).add thread = .signal index := by
      refine add_next (fair.add thread) rfl (fun _ same => ?_) fun n next later moves => ?_
      · cases same
        exact freedAgain fair
      · cases moves
        rw [later, System.setAdd_add_self]
    exact toSignal.trans (ofLocks (.signal index) (beq_self_eq_true index))
  have ofEnqueue : ∀ job, LeadsTo (fun n => (exec.state n).add thread = .enqueue index job)
      fun n => (exec.state n).add thread = .unlock index := by
    intro job
    refine LeadsTo.trans ?_ ofLock
    refine add_next (fair.add thread) rfl (by nofun) fun n next later moves => ?_
    cases moves
    rw [later, System.setAdd_add_self]
  intro n inside
  cases here : (exec.state n).add thread <;> rw [here] at inside <;> try cases inside
  case enqueue other job =>
    obtain rfl := eq_of_beq inside
    exact ofEnqueue job n here
  case lock other =>
    obtain rfl := eq_of_beq inside
    exact ofLock n here
  case signal other => exact ofLocks (.signal other) inside n here
  case unlock other => exact ofLocks (.unlock other) inside n here
  case setIdx idx job => exact ofLocks (.setIdx idx job) inside n here
  case enqueueLocked idx job => exact ofLocks (.enqueueLocked idx job) inside n here

/-! ## Executions at rest -/

/-- Nothing more happens on the queue unless an add function is called, the exit is
requested, or the worker is woken without a signal. -/
structure Resting (index : Nat) (sys : System Job) : Prop where
  worker : (sys.twq index).worker.moves = false
  controller : (sys.twq index).controller = .online ∨ (sys.twq index).controller = .returned
  rcu : (sys.twq index).rcu = []
  idle : ∀ thread, sys.add thread = .idle

theorem FairFor.of_rest {N : Nat} {last : System Job} (rest : ∀ n, N ≤ n → exec.state n = last)
    (resting : Resting index last) : FairFor exec index where
  worker := by
    refine .of_rest rest ?_
    rintro _ next ⟨ret, rfl⟩ step
    cases System.step_moves step with
    | worker idle moved =>
        obtain ⟨_, here, moves⟩ := workerStep_moves moved
        have stops := resting.worker
        rw [here] at stops
        cases moves <;> cases stops
  add thread := by
    refine .of_rest rest ?_
    rintro _ next rfl step
    cases System.step_moves step with
    | add moved =>
        obtain ⟨_, here, moves⟩ := System.addStep_moves moved
        have active := moves.active
        rw [← here, resting.idle] at active
        cases active
  controller := by
    refine .of_rest rest ?_
    rintro _ next ⟨rfl, inside⟩ step
    have returned := resting.controller.resolve_left inside
    cases System.step_moves step with
    | controller moved =>
        obtain ⟨_, here, moves⟩ := controllerStep_moves moved
        rw [returned] at here
        subst here
        cases moves
  rcu job := by
    refine .of_rest rest ?_
    rintro _ next rfl step
    cases System.step_moves step with
    | rcu member =>
        rw [resting.rcu] at member
        cases member

theorem CallbacksReturn.of_rest {N : Nat} {last : System Job}
    (rest : ∀ n, N ≤ n → exec.state n = last) (resting : Resting index last) :
    CallbacksReturn exec index := by
  intro n _
  refine ⟨max n N, Nat.le_max_left n N, ?_⟩
  have stops := resting.worker
  change ((exec.state (max n N)).twq index).worker.inCallback = false
  rw [rest _ (Nat.le_max_right n N)]
  cases here : (last.twq index).worker <;> first | rfl | (rw [here] at stops; cases stops)

/-- Behind a run every add function has returned, if those of the threads of its steps
have. -/
theorem System.idle_of_run {sys last : System Job}
    {actions : List (Action Job)} (ran : sys.run actions = some last)
    (before : ∀ thread, sys.add thread = .idle)
    (returned : ∀ action ∈ actions, ∀ thread ∈ action.thread?, last.add thread = .idle)
    (thread : Thread) : last.add thread = .idle := by
  by_cases moved : ∃ action ∈ actions, action.thread? = some thread
  · obtain ⟨action, member, isThread⟩ := moved
    exact returned action member thread isThread
  · rw [System.run_add_of_ne ran fun action member same => moved ⟨action, member, same⟩]
    exact before thread

end Steps

end LinuxCTemplate.Threadwq
