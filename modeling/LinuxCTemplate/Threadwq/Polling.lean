import LinuxCTemplate.Threadwq.Mutex
import LinuxCTemplate.Threadwq.Shutdown

/-!
# The exiting thread reaches a sleeping worker

One broadcast may come too early, since the worker tests `exit` before it takes the
mutex.  `kill_online_worker` therefore repeats the increment and the broadcast until
it sees `exit_ack`, which the worker sets only after it has left its waiting loop.  So
the exiting thread joins only a worker that will not wait again, and a worker asleep
in `pthread_cond_wait` always finds it in the polling loop, from where the steps of
the exiting thread and of whoever holds the mutex lead to the next broadcast.  A holder
that has still to signal wakes the worker first.
-/

namespace LinuxCTemplate.Threadwq

open Foundation

variable {Job : Type}

/-- `threadwq_exit` has been called and has not returned. -/
def ControllerPc.exiting : ControllerPc → Bool
  | .lock | .increment | .broadcast | .unlock | .testAck | .join => true
  | _ => false

/-- The add function holds the mutex of the queue and has not yet signalled. -/
def AddPc.willSignal (index : Nat) : AddPc Job → Bool
  | .signal twq => twq == index
  | .setIdx idx _ | .enqueueLocked idx _ => idx.toNat == index
  | _ => false

theorem signal_worker_enqueue (twq : Threadwq Job) (caller : Thread) (job : Job) :
    (twq.enqueue caller job).signal.worker = twq.signal.worker := by
  unfold signal enqueue
  cases pc : twq.worker <;> simp [pc]

/-- The worker is asleep in `pthread_cond_wait`, or has been woken there. -/
def WorkerPc.asleep : WorkerPc Job → Bool
  | .blocked | .woken => true
  | _ => false

theorem WorkerPc.locks_eq_false_of_asleep {pc : WorkerPc Job} (asleep : pc.asleep = true) :
    pc.locks = false := by
  cases pc <;> first | rfl | cases asleep

theorem signal_worker_of_asleep {twq : Threadwq Job} (asleep : twq.worker.asleep = true) :
    twq.signal.worker = .woken := by
  rcases signal_worker twq with same | ⟨_, woken⟩
  · have notBlocked := signal_worker_ne_blocked twq
    rw [same] at notBlocked ⊢
    cases pc : twq.worker <;> rw [pc] at asleep notBlocked <;>
      first | rfl | exact (notBlocked rfl).elim | cases asleep
  · exact woken

namespace System

variable [DecidableEq Job]

/-- A step of the exiting thread of the queue or of the holder of its mutex. -/
def ByExiterOrHolder (index : Nat) (sys : System Job) (action : Action Job) : Prop :=
  action = .controller index ∨
    ∃ thread, (sys.twq index).mutex = some thread ∧ action.thread? = some thread

/-- Steps of the exiting thread and of the holder of the mutex. -/
abbrev ExitPath (index : Nat) (sys next : System Job) : Prop :=
  (machine Job).Path (ByExiterOrHolder index) sys next

theorem ExitPath.controller {index : Nat} {sys : System Job} {twq : Threadwq Job}
    (step : controllerStep index (sys.twq index) = some twq) :
    ExitPath index sys (sys.setTwq index twq) := by
  apply Relation.ReflTransGen.single
  refine ⟨.controller index, Or.inl rfl, ?_⟩
  change (controllerStep index (sys.twq index)).map (sys.setTwq index) = _
  rw [step]
  rfl

theorem ExitPath.add {index : Nat} {sys next : System Job} {thread : Thread}
    (owner : (sys.twq index).mutex = some thread) (step : sys.addStep thread = some next) :
    ExitPath index sys next :=
  Relation.ReflTransGen.single ⟨.add thread, Or.inr ⟨thread, owner, rfl⟩, step⟩

/-! ## The holder gives up the mutex -/

section Drain

variable {index : Nat} {sys : System Job} {thread : Thread}

theorem drain_unlock (owner : (sys.twq index).mutex = some thread)
    (pc : sys.add thread = .unlock index) :
    ∃ next, ExitPath index sys next ∧ next.twq index = (sys.twq index).unlock := by
  have step : sys.addStep thread =
      some ((sys.setTwq index (Threadwq.unlock (sys.twq index))).setAdd thread .idle) := by
    simp only [addStep, pc]
  exact ⟨_, .add owner step, setTwq_twq_self ..⟩

theorem drain_signal (owner : (sys.twq index).mutex = some thread)
    (pc : sys.add thread = .signal index) :
    ∃ next, ExitPath index sys next ∧ next.twq index = (sys.twq index).signal.unlock := by
  have step : sys.addStep thread = some ((sys.setTwq index
      (Threadwq.signal (sys.twq index))).setAdd thread (.unlock index)) := by
    simp only [addStep, pc]
  have stillOwner : (((sys.setTwq index (Threadwq.signal (sys.twq index))).setAdd thread
      (.unlock index)).twq index).mutex = some thread := by
    rw [setAdd_twq, setTwq_twq_self, signal_mutex, owner]
  obtain ⟨next, path, freed⟩ := drain_unlock stillOwner (setAdd_add_self ..)
  rw [setAdd_twq, setTwq_twq_self] at freed
  exact ⟨next, (ExitPath.add owner step).trans path, freed⟩

theorem drain_enqueueLocked {idx : UInt32} {job : Job}
    (owner : (sys.twq idx.toNat).mutex = some thread)
    (pc : sys.add thread = .enqueueLocked idx job) :
    ∃ next, ExitPath idx.toNat sys next ∧
      next.twq idx.toNat = ((sys.twq idx.toNat).enqueue thread job).signal.unlock := by
  have step : sys.addStep thread =
      some ((sys.place thread idx.toNat job).setAdd thread (.signal idx.toNat)) := by
    simp only [addStep, pc]
  have stillOwner : (((sys.place thread idx.toNat job).setAdd thread
      (.signal idx.toNat)).twq idx.toNat).mutex = some thread := by
    rw [setAdd_twq, place_twq, setTwq_twq_self]
    exact owner
  obtain ⟨next, path, freed⟩ := drain_signal stillOwner (setAdd_add_self ..)
  rw [setAdd_twq, place_twq, setTwq_twq_self] at freed
  exact ⟨next, (ExitPath.add owner step).trans path, freed⟩

theorem drain_setIdx {idx : UInt32} {job : Job}
    (owner : (sys.twq idx.toNat).mutex = some thread)
    (pc : sys.add thread = .setIdx idx job) :
    ∃ next, ExitPath idx.toNat sys next ∧
      next.twq idx.toNat = ((sys.twq idx.toNat).enqueue thread job).signal.unlock := by
  have step : sys.addStep thread =
      some ((sys.setIdx (idx + 1)).setAdd thread (.enqueueLocked idx job)) := by
    simp only [addStep, pc]
  have stillOwner : (((sys.setIdx (idx + 1)).setAdd thread
      (.enqueueLocked idx job)).twq idx.toNat).mutex = some thread := owner
  obtain ⟨next, path, freed⟩ := drain_enqueueLocked stillOwner (setAdd_add_self ..)
  exact ⟨next, (ExitPath.add owner step).trans path, freed⟩

/-- A holder in an add function gives up the mutex by its own steps.  A worker that
sleeps is woken on the way if the holder has not yet signalled. -/
theorem drain (owner : (sys.twq index).mutex = some thread)
    (locks : (sys.add thread).locks index = true) :
    ∃ next, ExitPath index sys next ∧ (next.twq index).mutex = none ∧
      (next.twq index).controller = (sys.twq index).controller ∧
      ((next.twq index).worker = (sys.twq index).worker ∨
        ((sys.add thread).willSignal index = true ∧
          (next.twq index).worker = (sys.twq index).signal.worker)) := by
  have afterSignal : ∀ twq : Threadwq Job, twq.signal.unlock.controller = twq.controller :=
    signal_controller
  cases pc : sys.add thread <;> rw [pc] at locks <;> try cases locks
  case unlock twq =>
    obtain rfl := beq_iff_eq.mp locks
    obtain ⟨next, path, freed⟩ := drain_unlock owner pc
    exact ⟨next, path, by rw [freed]; rfl, by rw [freed]; rfl, Or.inl (by rw [freed]; rfl)⟩
  case signal twq =>
    obtain rfl := beq_iff_eq.mp locks
    obtain ⟨next, path, freed⟩ := drain_signal owner pc
    exact ⟨next, path, by rw [freed]; rfl, by rw [freed, afterSignal],
      Or.inr ⟨locks, by rw [freed]; rfl⟩⟩
  case setIdx idx job =>
    obtain rfl := beq_iff_eq.mp locks
    obtain ⟨next, path, freed⟩ := drain_setIdx owner pc
    refine ⟨next, path, by rw [freed]; rfl, by rw [freed, afterSignal]; rfl,
      Or.inr ⟨locks, ?_⟩⟩
    rw [freed]
    exact signal_worker_enqueue ..
  case enqueueLocked idx job =>
    obtain rfl := beq_iff_eq.mp locks
    obtain ⟨next, path, freed⟩ := drain_enqueueLocked owner pc
    refine ⟨next, path, by rw [freed]; rfl, by rw [freed, afterSignal]; rfl,
      Or.inr ⟨locks, ?_⟩⟩
    rw [freed]
    exact signal_worker_enqueue ..

end Drain

/-! ## The broadcast -/

/-- Steps of the exiting thread and of the holder of the mutex lead to a broadcast
that finds the worker at `pc`, and after it the worker is awake. -/
structure Broadcasts (index : Nat) (sys : System Job) (pc : WorkerPc Job) : Prop where
  reached : ∃ before after, ExitPath index sys before ∧
    (before.twq index).controller = .broadcast ∧ (before.twq index).worker = pc ∧
    before.step (.controller index) = some after ∧ (after.twq index).worker = .woken

section Broadcast

variable {index : Nat} {sys : System Job}

theorem Broadcasts.after {next : System Job} {pc : WorkerPc Job}
    (path : ExitPath index sys next) (rest : Broadcasts index next pc) :
    Broadcasts index sys pc := by
  obtain ⟨before, after, more, about, found, step, woken⟩ := rest.reached
  exact ⟨before, after, path.trans more, about, found, step, woken⟩

theorem broadcasts_of_broadcast (asleep : (sys.twq index).worker.asleep = true)
    (pc : (sys.twq index).controller = .broadcast) :
    Broadcasts index sys (sys.twq index).worker := by
  have step : controllerStep index (sys.twq index) =
      some { Threadwq.signal (sys.twq index) with controller := .unlock } := by
    simp only [controllerStep, pc]
  refine ⟨sys, _, .refl, pc, rfl, by simp only [System.step, step]; rfl, ?_⟩
  rw [setTwq_twq_self]
  exact signal_worker_of_asleep asleep

theorem broadcasts_of_increment (asleep : (sys.twq index).worker.asleep = true)
    (pc : (sys.twq index).controller = .increment) :
    Broadcasts index sys (sys.twq index).worker := by
  obtain ⟨twq, step, sameWorker, nextPc⟩ :
      ∃ twq, controllerStep index (sys.twq index) = some twq ∧
        twq.worker = (sys.twq index).worker ∧ twq.controller = .broadcast := by
    simp only [controllerStep, pc]
    exact ⟨_, rfl, rfl, rfl⟩
  have rest : Broadcasts index (sys.setTwq index twq)
      ((sys.setTwq index twq).twq index).worker := by
    apply broadcasts_of_broadcast
    · rw [setTwq_twq_self, sameWorker]
      exact asleep
    · rw [setTwq_twq_self, nextPc]
  rw [setTwq_twq_self, sameWorker] at rest
  exact rest.after (.controller step)

theorem broadcasts_of_free (asleep : (sys.twq index).worker.asleep = true)
    (pc : (sys.twq index).controller = .lock) (free : (sys.twq index).mutex = none) :
    Broadcasts index sys (sys.twq index).worker := by
  obtain ⟨twq, step, sameWorker, nextPc⟩ :
      ∃ twq, controllerStep index (sys.twq index) = some twq ∧
        twq.worker = (sys.twq index).worker ∧ twq.controller = .increment := by
    simp only [controllerStep, pc, Threadwq.lock, free]
    exact ⟨_, rfl, rfl, rfl⟩
  have rest : Broadcasts index (sys.setTwq index twq)
      ((sys.setTwq index twq).twq index).worker := by
    apply broadcasts_of_increment
    · rw [setTwq_twq_self, sameWorker]
      exact asleep
    · rw [setTwq_twq_self, nextPc]
  rw [setTwq_twq_self, sameWorker] at rest
  exact rest.after (.controller step)

/-- The holder of the mutex, if there is one, has still to signal. -/
def HolderWillSignal (index : Nat) (sys : System Job) : Prop :=
  ∃ thread, (sys.twq index).mutex = some thread ∧ (sys.add thread).willSignal index = true

/-- The worker is asleep when the broadcast comes, unless the holder of the mutex has
woken it before. -/
def BroadcastWakes (index : Nat) (sys : System Job) : Prop :=
  Broadcasts index sys .blocked ∨ HolderWillSignal index sys ∧ Broadcasts index sys .woken

theorem broadcastWakes_of_lock (inv : Mutexes sys)
    (blocked : (sys.twq index).worker = .blocked)
    (pc : (sys.twq index).controller = .lock) : BroadcastWakes index sys := by
  cases owner : (sys.twq index).mutex with
  | none =>
      left
      rw [← blocked]
      exact broadcasts_of_free (by rw [blocked]; rfl) pc owner
  | some thread =>
      have holds := (inv.owner index thread).mp owner
      have locks : (sys.add thread).locks index = true := by
        rcases holds with locks | ⟨_, locks⟩ | ⟨_, locks⟩
        · exact locks
        · rw [blocked] at locks
          cases locks
        · rw [pc] at locks
          cases locks
      obtain ⟨next, path, free, sameController, worker⟩ := drain owner locks
      rw [pc] at sameController
      rcases worker with same | ⟨willSignal, woken⟩
      · left
        rw [blocked] at same
        have rest := broadcasts_of_free (by rw [same]; rfl) sameController free
        rw [same] at rest
        exact rest.after path
      · right
        rw [signal_worker_of_asleep (by rw [blocked]; rfl)] at woken
        have rest := broadcasts_of_free (by rw [woken]; rfl) sameController free
        rw [woken] at rest
        exact ⟨⟨thread, owner, willSignal⟩, rest.after path⟩

/-- A controller step that leaves the mutex and the worker alone. -/
theorem BroadcastWakes.after {twq : Threadwq Job}
    (step : controllerStep index (sys.twq index) = some twq)
    (sameMutex : twq.mutex = (sys.twq index).mutex)
    (rest : BroadcastWakes index (sys.setTwq index twq)) : BroadcastWakes index sys := by
  rcases rest with broadcasts | ⟨⟨thread, owner, willSignal⟩, broadcasts⟩
  · exact Or.inl (broadcasts.after (.controller step))
  · rw [setTwq_twq_self, sameMutex] at owner
    exact Or.inr ⟨⟨thread, owner, willSignal⟩, broadcasts.after (.controller step)⟩

theorem broadcastWakes_of_testAck (reachable : (machine Job).Reachable sys)
    (blocked : (sys.twq index).worker = .blocked)
    (pc : (sys.twq index).controller = .testAck) : BroadcastWakes index sys := by
  have notAcked : (sys.twq index).exitAck = 0 := by
    by_contra acked
    have impossible := (shutdown_of_reachable reachable index).acked.mp acked
    rw [blocked] at impossible
    cases impossible
  have step : controllerStep index (sys.twq index) =
      some { sys.twq index with controller := .lock } := by
    simp [controllerStep, pc, notAcked]
  have path := ExitPath.controller step
  apply BroadcastWakes.after step rfl
  apply broadcastWakes_of_lock (mutexes_of_reachable (path.reachable reachable))
  · rw [setTwq_twq_self]
    exact blocked
  · rw [setTwq_twq_self]

theorem broadcastWakes_of_unlock (reachable : (machine Job).Reachable sys)
    (blocked : (sys.twq index).worker = .blocked)
    (pc : (sys.twq index).controller = .unlock) : BroadcastWakes index sys := by
  have step : controllerStep index (sys.twq index) =
      some { Threadwq.unlock (sys.twq index) with controller := .testAck } := by
    simp only [controllerStep, pc]
  have path := ExitPath.controller step
  have rest : BroadcastWakes index (sys.setTwq index
      { Threadwq.unlock (sys.twq index) with controller := .testAck }) := by
    apply broadcastWakes_of_testAck (path.reachable reachable)
    · rw [setTwq_twq_self]
      exact blocked
    · rw [setTwq_twq_self]
  rcases rest with broadcasts | ⟨⟨thread, owner, _⟩, _⟩
  · exact Or.inl (broadcasts.after path)
  · rw [setTwq_twq_self] at owner
    cases owner

theorem broadcastWakes (reachable : (machine Job).Reachable sys)
    (blocked : (sys.twq index).worker = .blocked)
    (polling : (sys.twq index).controller.polling = true) : BroadcastWakes index sys := by
  have asleep : (sys.twq index).worker.asleep = true := by
    rw [blocked]
    rfl
  cases pc : (sys.twq index).controller <;> rw [pc] at polling <;> try cases polling
  case lock => exact broadcastWakes_of_lock (mutexes_of_reachable reachable) blocked pc
  case increment => exact Or.inl (blocked ▸ broadcasts_of_increment asleep pc)
  case broadcast => exact Or.inl (blocked ▸ broadcasts_of_broadcast asleep pc)
  case unlock => exact broadcastWakes_of_unlock reachable blocked pc
  case testAck => exact broadcastWakes_of_testAck reachable blocked pc

end Broadcast

/-! ## The signal of the holder comes first -/

/-- The worker sleeps, and the exiting thread has to wait for a holder that has still to
signal; or the worker has been woken. -/
inductive SignalFirst (index : Nat) (sys : System Job) : Prop where
  | waiting : (sys.twq index).worker = .blocked → (sys.twq index).controller = .lock →
      HolderWillSignal index sys → SignalFirst index sys
  | signalled : (sys.twq index).worker = .woken → SignalFirst index sys

section SignalFirst

variable {index : Nat} {sys next : System Job}

omit [DecidableEq Job] in
/-- Until it signals, a holder keeps the mutex and leaves both other threads alone. -/
theorem addStep_willSignal {thread : Thread} (step : sys.addStep thread = some next)
    (owner : (sys.twq index).mutex = some thread)
    (willSignal : (sys.add thread).willSignal index = true) :
    (next.twq index).worker = (sys.twq index).signal.worker ∨
      (next.twq index).worker = (sys.twq index).worker ∧
        (next.twq index).controller = (sys.twq index).controller ∧
        HolderWillSignal index next := by
  obtain ⟨point, pc, moves⟩ := addStep_moves step
  rw [pc] at willSignal
  cases moves with
  | signal twq =>
      obtain rfl := beq_iff_eq.mp willSignal
      left
      rw [setAdd_twq, setTwq_twq_self]
  | setIdx idx job =>
      refine Or.inr ⟨rfl, rfl, thread, owner, ?_⟩
      rw [setAdd_add_self]
      exact willSignal
  | enqueueLocked idx job =>
      obtain rfl := beq_iff_eq.mp willSignal
      have sameOwner : (((sys.place thread idx.toNat job).setAdd thread
          (.signal idx.toNat)).twq idx.toNat).mutex = some thread := by
        rw [setAdd_twq, place_twq, setTwq_twq_self]
        exact owner
      right
      refine ⟨?_, ?_, thread, sameOwner, ?_⟩
      · rw [setAdd_twq, place_twq, setTwq_twq_self]
        rfl
      · rw [setAdd_twq, place_twq, setTwq_twq_self]
        rfl
      · rw [setAdd_add_self]
        exact willSignal
  | _ => cases willSignal

/-- While the worker sleeps, the steps of the exiting thread and of the holder are those of
the controlling thread and of the holder's add function. -/
theorem ByExiterOrHolder.cases {action : Action Job} (inv : Mutexes sys)
    (asleep : (sys.twq index).worker.asleep = true) (allowed : ByExiterOrHolder index sys action)
    (step : sys.step action = some next) :
    (∃ twq, controllerStep index (sys.twq index) = some twq ∧ next = sys.setTwq index twq) ∨
      ∃ thread, (sys.twq index).mutex = some thread ∧ sys.addStep thread = some next := by
  have exiter : action = .controller index →
      ∃ twq, controllerStep index (sys.twq index) = some twq ∧ next = sys.setTwq index twq := by
    rintro rfl
    cases step_moves step with
    | controller moved => exact ⟨_, moved, rfl⟩
  rcases allowed with isController | ⟨thread, owner, isHolder⟩
  · exact Or.inl (exiter isController)
  · rcases (inv.owner index thread).mp owner with locks | ⟨_, locks⟩ | ⟨rfl, _⟩
    · have busy : (sys.add thread).isIdle ≠ true := by
        intro idle
        rw [AddPc.locks_eq_false_of_isIdle idle] at locks
        cases locks
      cases step_moves step with
      | worker idle =>
          cases isHolder
          exact (busy idle).elim
      | @controller other =>
          cases isHolder
          exact (busy (inv.controller other)).elim
      | call idle =>
          cases isHolder
          exact (busy idle).elim
      | add moved =>
          cases isHolder
          exact Or.inr ⟨thread, owner, moved⟩
      | spurious | rcu => cases isHolder
    · rw [WorkerPc.locks_eq_false_of_asleep asleep] at locks
      cases locks
    · cases step_moves step with
      | worker | spurious | rcu => cases isHolder
      | controller =>
          cases isHolder
          exact Or.inl (exiter rfl)
      | call _ allowed =>
          cases isHolder
          cases allowed
      | add moved =>
          cases isHolder
          exact Or.inr ⟨_, owner, moved⟩

omit [DecidableEq Job] in
theorem SignalFirst.asleep (first : SignalFirst index sys) :
    (sys.twq index).worker.asleep = true := by
  cases first with
  | waiting blocked _ _ =>
      rw [blocked]
      rfl
  | signalled woken =>
      rw [woken]
      rfl

theorem SignalFirst.step {action : Action Job} (inv : Mutexes sys)
    (first : SignalFirst index sys) (allowed : ByExiterOrHolder index sys action)
    (step : sys.step action = some next) : SignalFirst index next := by
  have afterSignal : (sys.twq index).signal.worker = .woken :=
    signal_worker_of_asleep first.asleep
  have stepCases := ByExiterOrHolder.cases inv first.asleep allowed step
  cases first with
  | waiting blocked pc holder =>
      obtain ⟨thread, owner, willSignal⟩ := holder
      rcases stepCases with ⟨twq, moved, rfl⟩ | ⟨other, otherOwner, moved⟩
      · simp [controllerStep, pc, Threadwq.lock, owner] at moved
      · obtain rfl : thread = other := Option.some.inj (owner.symm.trans otherOwner)
        rcases addStep_willSignal moved owner willSignal with signalled | ⟨same, samePc, holder⟩
        · exact .signalled (signalled.trans afterSignal)
        · exact .waiting (same.trans blocked) (samePc.trans pc) holder
  | signalled woken =>
      apply SignalFirst.signalled
      rcases stepCases with ⟨twq, moved, rfl⟩ | ⟨thread, _, moved⟩
      · rw [setTwq_twq_self]
        rcases controllerStep_worker moved with same | signalled
        · exact same.trans woken
        · exact signalled.trans afterSignal
      · rcases addStep_worker moved index with same | signalled
        · exact same.trans woken
        · exact signalled.trans afterSignal

theorem SignalFirst.path (reachable : (machine Job).Reachable sys)
    (first : SignalFirst index sys) (path : ExitPath index sys next) :
    SignalFirst index next := by
  induction path with
  | refl => exact first
  | tail path taken ih =>
      obtain ⟨action, allowed, step⟩ := taken
      have inv := mutexes_of_reachable (Machine.Path.reachable path reachable)
      exact ih.step inv allowed step

/-- A holder that has still to signal wakes the worker before the exiting thread can. -/
theorem not_broadcasts_of_holderWillSignal (reachable : (machine Job).Reachable sys)
    (blocked : (sys.twq index).worker = .blocked)
    (pc : (sys.twq index).controller = .lock) (holder : HolderWillSignal index sys) :
    ¬ Broadcasts index sys .blocked := by
  intro broadcasts
  obtain ⟨before, _, path, about, found, _⟩ := broadcasts.reached
  cases SignalFirst.path reachable (.waiting blocked pc holder) path with
  | waiting _ pc _ =>
      rw [pc] at about
      cases about
  | signalled woken =>
      rw [woken] at found
      cases found

end SignalFirst

/-! ## Never stuck -/

/-- A worker that has set `exit_ack` does not come back. -/
theorem acked_change {index : Nat} {twq next : Threadwq Job} (change : Change index twq next)
    (acked : twq.worker.acked = true) : next.worker.acked = true := by
  refine change.worker_keeps rfl (fun ret next step acked => ?_) acked
  obtain ⟨_, pc, moves⟩ := workerStep_moves step
  rw [pc] at acked
  cases moves with
  | unregister => rfl
  | _ => cases acked

theorem acked_path {index : Nat} {sys later : System Job}
    {Allowed : System Job → Action Job → Prop} (reachable : (machine Job).Reachable sys)
    (path : (machine Job).Path Allowed sys later)
    (acked : (sys.twq index).worker.acked = true) : (later.twq index).worker.acked = true :=
  path_keeps (fun twq => twq.worker.acked = true) (fun _ _ => acked_change) reachable path acked

end System

/-- What `threadwq_exit` may rely on to come back.  It joins a worker only after that
worker has set `exit_ack`, which then never waits on the condition again; and while the
worker is asleep it is in its polling loop, from where its own steps and those of the
holder of the mutex lead to a broadcast, unless the holder wakes the worker first. -/
structure NeverStuck [DecidableEq Job] (index : Nat) (sys : System Job) : Prop where
  join_acked : (sys.twq index).controller = .join → (sys.twq index).exitAck ≠ 0
  join_final : (sys.twq index).controller = .join →
    ∀ later, (System.machine Job).Path (fun _ _ => True) sys later →
      (later.twq index).worker.waiting = false
  polling : (sys.twq index).controller.exiting = true →
    (sys.twq index).worker = .blocked → (sys.twq index).controller.polling = true
  wakes : (sys.twq index).controller.exiting = true →
    (sys.twq index).worker = .blocked → System.BroadcastWakes index sys

theorem never_stuck [DecidableEq Job] {sys : System Job}
    (reachable : (System.machine Job).Reachable sys) (index : Nat) : NeverStuck index sys := by
  have inv := shutdown_of_reachable reachable index
  have polling : (sys.twq index).controller.exiting = true →
      (sys.twq index).worker = .blocked → (sys.twq index).controller.polling = true := by
    intro exiting blocked
    cases pc : (sys.twq index).controller <;> rw [pc] at exiting <;> try cases exiting
    case join =>
      have acked := inv.acked.mp (inv.joining (by rw [pc]; rfl))
      rw [blocked] at acked
      cases acked
    all_goals rfl
  constructor
  case join_acked => exact fun joining => inv.joining (by rw [joining]; rfl)
  case join_final =>
    intro joining later path
    have acked := inv.acked.mp (inv.joining (by rw [joining]; rfl))
    exact WorkerPc.not_waiting_of_acked (System.acked_path reachable path acked)
  case polling => exact polling
  case wakes =>
    exact fun exiting blocked => System.broadcastWakes reachable blocked (polling exiting blocked)

/-- The worker falls asleep just after a broadcast, and a producer holds the mutex while
the exiting thread is about to try again. -/
def missedBroadcastRun : List (Action Nat) :=
  [.worker 0 0, .worker 0 0, .worker 0 0, .worker 0 0, .controller 0, .controller 0,
    .controller 0, .controller 0, .controller 0, .controller 0, .worker 0 0, .worker 0 0,
    .controller 0, .call (.producer 0) .threadwqManAddJob 7, .add (.producer 0),
    .add (.producer 0)]

theorem never_stuck_missed_broadcast :
    ∃ sys, System.run (System.boot ⟨true, true⟩ ⟨1, .rr4idle, 0⟩) missedBroadcastRun = some sys ∧
      ((sys.twq 0).worker = .blocked ∧ (sys.twq 0).controller = .lock ∧
        (sys.twq 0).mutex = some (.producer 0) ∧ Event.exitRequest ∈ (sys.twq 0).log) ∧
      NeverStuck 0 sys := by
  obtain ⟨sys, ran, here⟩ := System.exists_run (System.boot ⟨true, true⟩ ⟨1, .rr4idle, 0⟩)
    missedBroadcastRun
    (fun sys => (sys.twq 0).worker = .blocked ∧ (sys.twq 0).controller = .lock ∧
      (sys.twq 0).mutex = some (.producer 0) ∧ Event.exitRequest ∈ (sys.twq 0).log) (by decide)
  have reachable := System.reachable_of_run (System.boot_initial _ _ rfl) ran
  exact ⟨sys, ran, here, never_stuck reachable 0⟩

/-- At the end of that run the producer's signal wakes the worker before a broadcast can. -/
theorem signal_before_broadcast :
    ¬ ∀ (sys : System Nat) (index : Nat), (System.machine Nat).Reachable sys →
      (sys.twq index).controller.exiting = true → (sys.twq index).worker = .blocked →
      System.Broadcasts index sys .blocked := by
  intro always
  obtain ⟨sys, ran, blocked, pc, owner, willSignal⟩ := System.exists_run
    (System.boot ⟨true, true⟩ ⟨1, .rr4idle, 0⟩) missedBroadcastRun
    (fun sys => (sys.twq 0).worker = .blocked ∧ (sys.twq 0).controller = .lock ∧
      (sys.twq 0).mutex = some (.producer 0) ∧
      (sys.add (.producer 0)).willSignal 0 = true) (by decide)
  have reachable := System.reachable_of_run (System.boot_initial _ _ rfl) ran
  have exiting : (sys.twq 0).controller.exiting = true := by
    rw [pc]
    rfl
  have holder : System.HolderWillSignal 0 sys := ⟨.producer 0, owner, willSignal⟩
  have impossible := System.not_broadcasts_of_holderWillSignal reachable blocked pc holder
  exact impossible (always sys 0 reachable exiting blocked)

end LinuxCTemplate.Threadwq
