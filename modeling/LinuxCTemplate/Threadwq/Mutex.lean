import LinuxCTemplate.Foundation.Ownership
import LinuxCTemplate.Threadwq.Jobs

/-!
# Who holds the mutex of a queue

The mutex of a queue is taken by its worker in `wait4job`, by its controlling thread
in `kill_online_worker`, and by any thread in an add function.  In every reachable
state its owner is the thread whose program point lies between the lock and the
unlock; a worker asleep in `pthread_cond_wait` has given it up.
-/

namespace LinuxCTemplate.Threadwq

open Foundation

variable {Job : Type}

/-- The add function is at a point where it holds the mutex of the queue. -/
def AddPc.locks (index : Nat) : AddPc Job → Bool
  | .signal twq | .unlock twq => twq == index
  | .setIdx idx _ | .enqueueLocked idx _ => idx.toNat == index
  | _ => false

def WorkerPc.locks : WorkerPc Job → Bool
  | .condWait | .waitUnlock => true
  | _ => false

def ControllerPc.locks : ControllerPc → Bool
  | .increment | .broadcast | .unlock => true
  | _ => false

theorem AddPc.locks_eq_false_of_isIdle {pc : AddPc Job} (idle : pc.isIdle = true)
    (index : Nat) : pc.locks index = false := by
  cases pc <;> first | rfl | cases idle

theorem WorkerPc.locks_eq_false_of_inCallback {pc : WorkerPc Job}
    (inside : pc.inCallback = true) : pc.locks = false := by
  cases pc <;> first | rfl | cases inside

@[simp] theorem signal_locks (twq : Threadwq Job) :
    twq.signal.worker.locks = twq.worker.locks := by
  rcases signal_worker twq with same | ⟨wasBlocked, nowWoken⟩
  · rw [same]
  · rw [wasBlocked, nowWoken]
    rfl

namespace System

/-- By its program points, the thread holds the mutex of the queue. -/
def Holds (sys : System Job) (index : Nat) (thread : Thread) : Prop :=
  (sys.add thread).locks index = true ∨
    (thread = .worker index ∧ (sys.twq index).worker.locks = true) ∨
    (thread = .controller index ∧ (sys.twq index).controller.locks = true)

structure Mutexes (sys : System Job) : Prop where
  owner : ∀ index, Owned (sys.twq index).mutex (sys.Holds index)
  controller : ∀ index, (sys.add (.controller index)).isIdle = true

theorem Initial.mutexes {sys : System Job} (initial : Initial sys) : Mutexes sys where
  owner index thread := by
    obtain ⟨ops, busy, fresh⟩ := initial.twq index
    simp [Holds, fresh, threadwqInit, initial.add, AddPc.locks, WorkerPc.locks,
      ControllerPc.locks]
  controller index := by
    rw [initial.add]
    rfl

/-! ## Steps of the queue's own threads -/

theorem workerStep_mutex {self : Nat} {ret : Int} {twq next : Threadwq Job}
    (step : workerStep self ret twq = some next) :
    next.controller = twq.controller ∧
      LockStep (Thread.worker self) twq.mutex twq.worker.locks
        next.mutex next.worker.locks := by
  obtain ⟨_, pc, moves⟩ := workerStep_moves step
  rw [pc]
  cases moves with
  | waitLock free | woken free =>
      rw [free]
      exact ⟨rfl, .acquire _⟩
  | condWait | waitUnlock => exact ⟨rfl, .release _⟩
  | dequeue | serveNext | flushNext | flushDequeue =>
      unfold dequeueOneJob
      split <;> exact ⟨rfl, .stay _ _⟩
  | _ => exact ⟨rfl, .stay _ _⟩

theorem controllerStep_mutex {self : Nat} {twq next : Threadwq Job}
    (step : controllerStep self twq = some next) :
    next.worker.locks = twq.worker.locks ∧
      LockStep (Thread.controller self) twq.mutex twq.controller.locks
        next.mutex next.controller.locks := by
  obtain ⟨_, pc, moves⟩ := controllerStep_moves step
  rw [pc]
  cases moves with
  | lock free =>
      rw [free]
      exact ⟨rfl, .acquire _⟩
  | unlock => exact ⟨rfl, .release _⟩
  | poll =>
      rw [pc]
      exact ⟨rfl, .stay _ _⟩
  | broadcast =>
      rw [signal_mutex]
      exact ⟨signal_locks twq, .stay _ _⟩
  | _ => exact ⟨rfl, .stay _ _⟩

/-! ## Preservation -/

theorem Mutexes.setTwq {sys : System Job} (inv : Mutexes sys) (index : Nat)
    (twq : Threadwq Job) (owned : Owned twq.mutex ((sys.setTwq index twq).Holds index)) :
    Mutexes (sys.setTwq index twq) where
  owner other := by
    by_cases same : other = index
    · subst same
      rw [setTwq_twq_self]
      exact owned
    · unfold Holds
      rw [setTwq_twq_of_ne _ _ same, setTwq_add]
      exact inv.owner other
  controller := inv.controller

/-- A change that leaves the mutex and the two threads of the queue alone. -/
theorem Mutexes.setTwq_same {sys : System Job} (inv : Mutexes sys) (index : Nat)
    (twq : Threadwq Job) (sameMutex : twq.mutex = (sys.twq index).mutex)
    (sameWorker : twq.worker.locks = (sys.twq index).worker.locks)
    (sameController : twq.controller = (sys.twq index).controller) :
    Mutexes (sys.setTwq index twq) := by
  apply inv.setTwq index twq
  rw [sameMutex]
  apply (inv.owner index).congr
  intro thread
  simp only [Holds, setTwq_add, setTwq_twq_self, sameWorker, sameController]

/-- The worker makes a step while it is in no add function. -/
theorem Mutexes.workerStep {sys : System Job} (inv : Mutexes sys) {index : Nat} {ret : Int}
    {twq : Threadwq Job} (idle : (sys.add (.worker index)).isIdle = true)
    (step : workerStep index ret (sys.twq index) = some twq) :
    Mutexes (sys.setTwq index twq) := by
  obtain ⟨sameController, move⟩ := workerStep_mutex step
  have notLocks := AddPc.locks_eq_false_of_isIdle idle index
  apply inv.setTwq index twq
  apply (inv.owner index).step move
  · simp [Holds, notLocks]
  · simp [Holds, notLocks]
  · intro thread different
    simp only [Holds, setTwq_add, setTwq_twq_self, sameController, different, false_and]

theorem Mutexes.controllerStep {sys : System Job} (inv : Mutexes sys) {index : Nat}
    {twq : Threadwq Job} (step : controllerStep index (sys.twq index) = some twq) :
    Mutexes (sys.setTwq index twq) := by
  obtain ⟨sameWorker, move⟩ := controllerStep_mutex step
  have notLocks := AddPc.locks_eq_false_of_isIdle (inv.controller index) index
  apply inv.setTwq index twq
  apply (inv.owner index).step move
  · simp [Holds, notLocks]
  · simp [Holds, notLocks]
  · intro thread different
    simp only [Holds, setTwq_add, setTwq_twq_self, sameWorker, different, false_and]

/-- A thread in an add function holds a mutex only there. -/
theorem Mutexes.holds_iff {sys : System Job} (inv : Mutexes sys) (jobs : Jobs sys)
    {thread : Thread} (active : (sys.add thread).isIdle = false) {next : System Job}
    {index : Nat}
    (sameWorker : (next.twq index).worker.locks = (sys.twq index).worker.locks) :
    next.Holds index thread ↔ (next.add thread).locks index = true := by
  unfold Holds
  constructor
  · rintro (locks | ⟨rfl, locks⟩ | ⟨rfl, _⟩)
    · exact locks
    · have outside := WorkerPc.locks_eq_false_of_inCallback (jobs.caller index active)
      rw [sameWorker, outside] at locks
      cases locks
    · rw [inv.controller index] at active
      cases active
  · exact Or.inl

/-- A step of an add function, which leaves the worker and the controlling thread of
every queue where they are as far as the mutex goes. -/
theorem Mutexes.add {sys next : System Job} (inv : Mutexes sys) (jobs : Jobs sys)
    {thread : Thread} {pc : AddPc Job} (active : (sys.add thread).isIdle = false)
    (moved : next.add = Function.update sys.add thread pc)
    (sameWorker : ∀ index, (next.twq index).worker.locks = (sys.twq index).worker.locks)
    (sameController : ∀ index, (next.twq index).controller = (sys.twq index).controller)
    (move : ∀ index, LockStep thread (sys.twq index).mutex ((sys.add thread).locks index)
      (next.twq index).mutex (pc.locks index)) : Mutexes next := by
  constructor
  case owner =>
    intro index
    apply (inv.owner index).step (move index)
    · exact inv.holds_iff jobs active rfl
    · rw [inv.holds_iff jobs active (sameWorker index), moved, Function.update_self]
    · intro other different
      unfold Holds
      rw [moved, Function.update_of_ne different, sameWorker, sameController]
  case controller =>
    intro index
    have different : Thread.controller index ≠ thread := by
      rintro rfl
      rw [inv.controller index] at active
      cases active
    rw [moved, Function.update_of_ne different]
    exact inv.controller index

/-- A step of an add function that touches no queue. -/
theorem Mutexes.add_same {sys next : System Job} (inv : Mutexes sys) (jobs : Jobs sys)
    {thread : Thread} {pc : AddPc Job} (active : (sys.add thread).isIdle = false)
    (moved : next.add = Function.update sys.add thread pc) (sameTwq : next.twq = sys.twq)
    (sameLocks : ∀ index, pc.locks index = (sys.add thread).locks index) : Mutexes next := by
  apply inv.add jobs active moved
  · intro index
    rw [sameTwq]
  · intro index
    rw [sameTwq]
  · intro index
    rw [sameTwq, sameLocks]
    exact .stay _ _

/-- A step of an add function on one queue. -/
theorem Mutexes.add_on {sys next : System Job} (inv : Mutexes sys) (jobs : Jobs sys)
    {thread : Thread} {pc : AddPc Job} (active : (sys.add thread).isIdle = false)
    (moved : next.add = Function.update sys.add thread pc)
    {index : Nat} {twq : Threadwq Job} (sameTwq : next.twq = (sys.setTwq index twq).twq)
    (sameWorker : twq.worker.locks = (sys.twq index).worker.locks)
    (sameController : twq.controller = (sys.twq index).controller)
    (move : LockStep thread (sys.twq index).mutex ((sys.add thread).locks index)
      twq.mutex (pc.locks index))
    (elsewhere : ∀ other, other ≠ index → pc.locks other = (sys.add thread).locks other) :
    Mutexes next := by
  apply inv.add jobs active moved <;> rw [sameTwq]
  · exact forall_setTwq (fun other later => later.worker.locks = (sys.twq other).worker.locks)
      sameWorker fun _ _ => rfl
  · exact forall_setTwq (fun other later => later.controller = (sys.twq other).controller)
      sameController fun _ _ => rfl
  · apply forall_setTwq (fun other later => LockStep thread (sys.twq other).mutex
      ((sys.add thread).locks other) later.mutex (pc.locks other)) move
    intro other different
    rw [elsewhere other different]
    exact .stay _ _

theorem Mutexes.addStep {sys next : System Job} (inv : Mutexes sys) (jobs : Jobs sys)
    {thread : Thread} (step : sys.addStep thread = some next) : Mutexes next := by
  obtain ⟨point, pc, moves⟩ := addStep_moves step
  have active : (sys.add thread).isIdle = false := pc ▸ moves.active
  cases moves with
  | enqueue | enqueueLocked =>
      refine inv.add_on jobs active rfl rfl rfl rfl ?_ ?_
      · rw [pc]
        exact .stay _ _
      · rw [pc]
        exact fun _ _ => rfl
  | lock index free =>
      refine inv.add_on jobs active rfl rfl rfl rfl ?_ ?_
      · have inside : (AddPc.signal index : AddPc Job).locks index = true := beq_self_eq_true index
        rw [free, inside]
        exact .acquire _
      · intro other different
        rw [pc]
        simp [AddPc.locks, different.symm]
  | signal index =>
      refine inv.add_on jobs active rfl rfl (signal_locks _) (signal_controller _) ?_ ?_
      · rw [pc, signal_mutex]
        exact .stay _ _
      · rw [pc]
        exact fun _ _ => rfl
  | unlock index =>
      refine inv.add_on jobs active rfl rfl rfl rfl ?_ ?_
      · have inside : (AddPc.unlock index : AddPc Job).locks index = true := beq_self_eq_true index
        rw [pc, inside]
        exact .release _
      · intro other different
        rw [pc]
        simp [AddPc.locks, different.symm]
  | rrRead | rrReset | rrAdvance | readIdx | tryLockFails | setIdx =>
      exact inv.add_same jobs active rfl rfl (by rw [pc]; exact fun _ => rfl)
  | tryLock idx job free =>
      refine inv.add_on jobs active rfl rfl rfl rfl ?_ ?_
      · have inside : ∀ idx : UInt32, (AddPc.setIdx idx job).locks idx.toNat = true :=
          fun idx => beq_self_eq_true idx.toNat
        rw [free, inside]
        exact .acquire _
      · intro other different
        rw [pc]
        simp [AddPc.locks, different.symm]

/-- A new call starts outside every critical section. -/
theorem Mutexes.call {sys : System Job} (inv : Mutexes sys) {thread : Thread}
    (idle : (sys.add thread).isIdle = true) (allowed : sys.mayCall thread = true)
    (entry : Entry) {job : Job} {added : List Job} :
    Mutexes { sys.setAdd thread (sys.entryPc entry job) with added } where
  owner index := by
    apply (inv.owner index).congr
    intro other
    by_cases same : other = thread
    · subst same
      have before := AddPc.locks_eq_false_of_isIdle idle index
      have after : (sys.entryPc entry job).locks index = false := by
        unfold entryPc
        cases entry with
        | threadwqAddJob twq => rfl
        | threadwqManAddJob => cases sys.man.ops <;> rfl
      simp [Holds, setAdd, before, after]
    · simp [Holds, setAdd, same]
  controller index := by
    have different : Thread.controller index ≠ thread := by
      rintro rfl
      cases allowed
    simp only [setAdd, Function.update_of_ne different]
    exact inv.controller index

theorem Mutexes.step [DecidableEq Job] {sys next : System Job} (inv : Mutexes sys)
    (jobs : Jobs sys) {action : Action Job} (step : sys.step action = some next) :
    Mutexes next := by
  cases step_moves step with
  | worker idle moved => exact inv.workerStep idle moved
  | controller moved => exact inv.controllerStep moved
  | @call thread entry job idle allowed => exact inv.call idle allowed entry
  | add moved => exact inv.addStep jobs moved
  | @spurious index asleep => exact inv.setTwq_same index _ rfl (by rw [asleep]; rfl) rfl
  | @rcu index => exact inv.setTwq_same index _ rfl rfl rfl

theorem mutexes_of_reachable [DecidableEq Job] {sys : System Job}
    (reachable : (machine Job).Reachable sys) : Mutexes sys := by
  apply reachable.invariant
  · intro sys start
    exact Initial.mutexes start
  · intro sys action next reachable inv step
    exact inv.step (jobs_of_reachable reachable) step

end System

end LinuxCTemplate.Threadwq
