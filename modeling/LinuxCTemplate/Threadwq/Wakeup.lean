import LinuxCTemplate.Threadwq.Mutex

/-!
# Lost wake-ups

The worker finds the queue empty without holding the mutex, and `wait4job` takes the
mutex and waits without looking again.  A producer that enqueues and signals in
between signals nobody, and its job stays in the queue of a sleeping worker.

This is the only way to strand a job: it happens in a run exactly when the worker
goes to sleep in `pthread_cond_wait` on a queue that is not empty and that no add
function is still working on.
-/

namespace LinuxCTemplate.Threadwq

open Foundation

variable {Job : Type}

/-- The add function has called its enqueue-and-signal sequence on the queue and has
not finished it. -/
def AddPc.inSequence (index : Nat) : AddPc Job → Bool
  | .enqueue twq _ | .lock twq | .signal twq | .unlock twq => twq == index
  | .setIdx idx _ | .enqueueLocked idx _ => idx.toNat == index
  | _ => false

namespace System

/-- There is a job in the queue, every producer has finished its sequence on it, and the
worker sleeps. -/
structure Stranded (index : Nat) (sys : System Job) : Prop where
  noRequest : (sys.twq index).log.any Event.isRequest = false
  queued : (sys.twq index).lfq ≠ []
  blocked : (sys.twq index).worker = .blocked
  finished : ∀ thread, (sys.add thread).inSequence index = false

/-- If the action puts the worker to sleep before an exit is requested, then the queue is
empty or some producer is still in its sequence on it. -/
def SleepsSafely (index : Nat) (sys : System Job) (action : Action Job) : Prop :=
  ∀ ret, action = .worker index ret → (sys.twq index).worker = .condWait →
    (sys.twq index).log.any Event.isRequest = false →
    (sys.twq index).lfq = [] ∨ ∃ thread, (sys.add thread).inSequence index = true

/-! ## Who puts the worker to sleep -/

/-- Only the worker's own step in `wait4job` puts it to sleep. -/
theorem workerStep_blocked {self : Nat} {ret : Int} {twq next : Threadwq Job}
    (step : workerStep self ret twq = some next) (blocked : next.worker = .blocked) :
    twq.worker = .condWait ∧ next = { Threadwq.unlock twq with worker := .blocked } := by
  obtain ⟨_, pc, moves⟩ := workerStep_moves step
  cases moves with
  | condWait => exact ⟨pc, rfl⟩
  | dequeue | serveNext | flushNext | flushDequeue =>
      unfold dequeueOneJob at blocked
      split at blocked <;> cases blocked
  | _ => cases blocked

/-- The controlling thread puts nobody to sleep and takes no job; an exit request is not
taken back. -/
theorem controllerStep_blocked {self : Nat} {twq next : Threadwq Job}
    (step : controllerStep self twq = some next) (blocked : next.worker = .blocked) :
    twq.worker = .blocked ∧ next.lfq = twq.lfq ∧
      (next.log.any Event.isRequest = false → twq.log.any Event.isRequest = false) := by
  obtain ⟨_, _, moves⟩ := controllerStep_moves step
  cases moves with
  | broadcast => exact (signal_worker_ne_blocked twq blocked).elim
  | increment =>
      refine ⟨blocked, rfl, fun noRequest => ?_⟩
      simp [Event.isRequest] at noRequest
  | join =>
      refine ⟨blocked, rfl, fun noRequest => ?_⟩
      rw [List.any_append, Bool.or_eq_false_iff] at noRequest
      exact noRequest.1
  | _ => exact ⟨blocked, rfl, id⟩

/-- An add function puts nobody to sleep. -/
theorem addStep_blocked {sys next : System Job} {thread : Thread} {index : Nat}
    (step : sys.addStep thread = some next) (blocked : (next.twq index).worker = .blocked) :
    (sys.twq index).worker = .blocked := by
  rcases addStep_worker step index with same | signalled
  · rw [← same]
    exact blocked
  · rw [signalled] at blocked
    exact (signal_worker_ne_blocked _ blocked).elim

/-- A thread that reaches the unlock has just signalled. -/
theorem addStep_unlock {sys next : System Job} {thread : Thread} {index : Nat}
    (step : sys.addStep thread = some next) (pc' : next.add thread = .unlock index) :
    (next.twq index).worker ≠ .blocked := by
  obtain ⟨point, _, moves⟩ := addStep_moves step
  cases moves with rw [setAdd_add_self] at pc'
  | signal twq =>
      rw [AddPc.unlock.injEq] at pc'
      subst pc'
      rw [setAdd_twq, setTwq_twq_self]
      exact signal_worker_ne_blocked _
  | _ => cases pc'

/-! ## Steps that leave a stranded job stranded -/

/-- A step that moves no add function out of its sequence, takes nothing from the queue
and puts nobody to sleep strands no job. -/
theorem Stranded.before {index : Nat} {sys next : System Job} (stranded : Stranded index next)
    (request : (next.twq index).log.any Event.isRequest = false →
      (sys.twq index).log.any Event.isRequest = false)
    (sameLfq : (next.twq index).lfq = (sys.twq index).lfq)
    (asleep : (next.twq index).worker = .blocked → (sys.twq index).worker = .blocked)
    (sequences : ∀ thread, (next.add thread).inSequence index = false →
      (sys.add thread).inSequence index = false) : Stranded index sys where
  noRequest := request stranded.noRequest
  queued := by
    rw [← sameLfq]
    exact stranded.queued
  blocked := asleep stranded.blocked
  finished thread := sequences thread (stranded.finished thread)

theorem Stranded.before_of_ne {index other : Nat} {sys : System Job} {twq : Threadwq Job}
    (stranded : Stranded index (sys.setTwq other twq)) (different : index ≠ other) :
    Stranded index sys := by
  refine stranded.before ?_ ?_ ?_ fun _ => id <;> rw [setTwq_twq_of_ne _ _ different]
  · exact id
  · exact id

/-- A change of one queue. -/
theorem Stranded.before_setTwq {index other : Nat} {sys : System Job} {twq : Threadwq Job}
    (stranded : Stranded index (sys.setTwq other twq))
    (request : twq.log.any Event.isRequest = false →
      (sys.twq other).log.any Event.isRequest = false)
    (sameLfq : twq.lfq = (sys.twq other).lfq)
    (asleep : twq.worker = .blocked → (sys.twq other).worker = .blocked) :
    Stranded index sys := by
  by_cases same : index = other
  · subst same
    refine stranded.before ?_ ?_ ?_ fun _ => id <;> rw [setTwq_twq_self]
    · exact request
    · exact sameLfq
    · exact asleep
  · exact stranded.before_of_ne same

/-- An add function that is outside its sequence after a step has left the contents of
the queue alone, and was outside before or has just unlocked. -/
theorem addStep_outside {sys next : System Job} {thread : Thread} {index : Nat}
    (step : sys.addStep thread = some next)
    (outside : (next.add thread).inSequence index = false) :
    (next.twq index).lfq = (sys.twq index).lfq ∧ (next.twq index).log = (sys.twq index).log ∧
      ((sys.add thread).inSequence index = false ∨ sys.add thread = .unlock index) := by
  have onOther : ∀ {other : Nat} {twq : Threadwq Job}, (other == index) = false →
      ((sys.setTwq other twq).twq index).lfq = (sys.twq index).lfq ∧
        ((sys.setTwq other twq).twq index).log = (sys.twq index).log := by
    intro other twq different
    rw [setTwq_twq_of_ne]
    · exact ⟨rfl, rfl⟩
    · rintro rfl
      rw [beq_self_eq_true] at different
      cases different
  have onMutex : ∀ {other : Nat} {mutex : Option Thread},
      ((sys.setTwq other { sys.twq other with mutex }).twq index).lfq = (sys.twq index).lfq ∧
        ((sys.setTwq other { sys.twq other with mutex }).twq index).log =
          (sys.twq index).log := by
    intro other mutex
    by_cases same : index = other
    · subst same
      rw [setTwq_twq_self]
      exact ⟨rfl, rfl⟩
    · rw [setTwq_twq_of_ne _ _ same]
      exact ⟨rfl, rfl⟩
  obtain ⟨point, pc, moves⟩ := addStep_moves step
  rw [pc]
  cases moves with rw [setAdd_add_self] at outside
  | enqueue | signal | enqueueLocked | lock =>
      exact ⟨(onOther outside).1, (onOther outside).2, Or.inl outside⟩
  | unlock twq =>
      refine ⟨onMutex.1, onMutex.2, ?_⟩
      by_cases same : twq = index
      · exact Or.inr (by rw [same])
      · exact Or.inl (beq_false_of_ne same)
  | rrRead | rrReset | rrAdvance | readIdx | tryLockFails => exact ⟨rfl, rfl, Or.inl rfl⟩
  | tryLock => exact ⟨onMutex.1, onMutex.2, Or.inl rfl⟩
  | setIdx => exact ⟨rfl, rfl, Or.inl outside⟩

/-! ## A producer about to unlock -/

/-- A change of one queue that puts nobody to sleep. -/
theorem blocked_setTwq {index other : Nat} {sys : System Job} {twq : Threadwq Job}
    (asleep : twq.worker = .blocked → (sys.twq other).worker = .blocked)
    (blocked : ((sys.setTwq other twq).twq index).worker = .blocked) :
    (sys.twq index).worker = .blocked :=
  forall_setTwq (fun other later => later.worker = .blocked → (sys.twq other).worker = .blocked)
    asleep (fun _ _ => id) index blocked

variable [DecidableEq Job]

/-- While a thread is about to unlock the mutex, having signalled, the worker does not
sleep: it cannot take the mutex to go back to sleep. -/
theorem awake_of_unlock {sys : System Job} (reachable : (machine Job).Reachable sys)
    {thread : Thread} {index : Nat} (pc : sys.add thread = .unlock index) :
    (sys.twq index).worker ≠ .blocked := by
  revert thread index
  apply reachable.invariant
  · intro sys start thread index pc
    rw [start.add] at pc
    cases pc
  · intro sys action next reachable ih step thread index pc blocked
    have mutexes := mutexes_of_reachable reachable
    cases step_moves step with
    | @worker other ret twq idle moved =>
        rw [setTwq_add] at pc
        by_cases same : index = other
        · subst same
          rw [setTwq_twq_self] at blocked
          obtain ⟨condWait, _⟩ := workerStep_blocked moved blocked
          have threadHolds : sys.Holds index thread := Or.inl (by rw [pc]; exact beq_self_eq_true _)
          have workerHolds : sys.Holds index (.worker index) :=
            Or.inr (Or.inl ⟨rfl, by rw [condWait]; rfl⟩)
          obtain rfl := (mutexes.owner index).unique threadHolds workerHolds
          rw [pc] at idle
          cases idle
        · rw [setTwq_twq_of_ne _ _ same] at blocked
          exact ih pc blocked
    | controller moved =>
        exact ih pc (blocked_setTwq (fun asleep => (controllerStep_blocked moved asleep).1) blocked)
    | @call caller entry job =>
        by_cases same : thread = caller
        · subst same
          simp only [setAdd_add_self] at pc
          have pending := pending?_entryPc sys entry job
          rw [pc] at pending
          cases pending
        · simp only [setAdd_add_of_ne _ _ same] at pc
          exact ih pc blocked
    | @add caller _ moved =>
        by_cases same : thread = caller
        · subst same
          exact addStep_unlock moved pc blocked
        · rw [addStep_add_of_ne moved same] at pc
          exact ih pc (addStep_blocked moved blocked)
    | spurious =>
        refine ih pc (blocked_setTwq ?_ blocked)
        exact nofun
    | rcu =>
        refine ih pc (blocked_setTwq ?_ blocked)
        exact id

/-! ## Steps that strand a job -/

/-- An add function strands no job: until it returns it is in its sequence, and when it
returns the worker is awake. -/
theorem Stranded.before_addStep {index : Nat} {sys next : System Job} {thread : Thread}
    (reachable : (machine Job).Reachable sys) (step : sys.addStep thread = some next)
    (stranded : Stranded index next) : Stranded index sys := by
  have blocked := addStep_blocked step stranded.blocked
  obtain ⟨sameLfq, sameLog, outside | unlocking⟩ :=
    addStep_outside step (stranded.finished thread)
  · apply stranded.before
    · rw [sameLog]
      exact id
    · exact sameLfq
    · exact fun _ => blocked
    · intro other finished
      by_cases same : other = thread
      · rw [same]
        exact outside
      · rwa [addStep_add_of_ne step same] at finished
  · exact (awake_of_unlock reachable unlocking blocked).elim

/-- A step strands a job only if it puts the worker to sleep on it. -/
theorem not_stranded_step {index : Nat} {sys next : System Job} {action : Action Job}
    (reachable : (machine Job).Reachable sys) (notStranded : ¬ Stranded index sys)
    (safe : SleepsSafely index sys action) (step : sys.step action = some next) :
    ¬ Stranded index next := by
  intro stranded
  cases step_moves step with
  | @worker other ret twq idle moved =>
      by_cases same : index = other
      · subst same
        obtain ⟨noRequest, queued, blocked, finished⟩ := stranded
        rw [setTwq_twq_self] at noRequest queued blocked
        obtain ⟨condWait, rfl⟩ := workerStep_blocked moved blocked
        rcases safe ret rfl condWait noRequest with empty | ⟨thread, inSequence⟩
        · exact queued empty
        · rw [← setTwq_add, finished thread] at inSequence
          cases inSequence
      · exact notStranded (stranded.before_of_ne same)
  | @controller other twq moved =>
      apply notStranded
      by_cases same : index = other
      · subst same
        have blocked := stranded.blocked
        rw [setTwq_twq_self] at blocked
        obtain ⟨wasBlocked, sameLfq, request⟩ := controllerStep_blocked moved blocked
        exact stranded.before_setTwq request sameLfq fun _ => wasBlocked
      · exact stranded.before_of_ne same
  | @call caller entry job idle =>
      refine notStranded (stranded.before id rfl id fun thread finished => ?_)
      by_cases same : thread = caller
      · rw [same, AddPc.eq_idle idle]
        rfl
      · simpa only [setAdd_add_of_ne _ _ same] using finished
  | add moved => exact notStranded (stranded.before_addStep reachable moved)
  | spurious => exact notStranded (stranded.before_setTwq id rfl nofun)
  | rcu =>
      refine notStranded (stranded.before_setTwq (fun noRequest => ?_) rfl id)
      rw [List.any_append, Bool.or_eq_false_iff] at noRequest
      exact noRequest.1

/-- A worker that falls asleep on a job nobody is working on strands it. -/
theorem stranded_of_unsafe {index : Nat} {sys next : System Job} {action : Action Job}
    (step : sys.step action = some next) (unsafely : ¬ SleepsSafely index sys action) :
    Stranded index next := by
  simp only [SleepsSafely, not_forall, not_or, not_exists, Bool.not_eq_true] at unsafely
  obtain ⟨ret, rfl, condWait, noRequest, queued, finished⟩ := unsafely
  cases step_moves step with
  | worker idle moved =>
      simp only [workerStep, condWait] at moved
      cases moved
      constructor
      case noRequest =>
        rw [setTwq_twq_self]
        exact noRequest
      case queued =>
        rw [setTwq_twq_self]
        exact queued
      case blocked => rw [setTwq_twq_self]
      case finished => exact finished

end System

/-- A run strands a job exactly when in one of its steps the worker goes to sleep, before
an exit is requested, on a queue that holds a job and that no producer is working on. -/
theorem no_lost_wakeup_iff [DecidableEq Job]
    {history : List (System Job × Action Job)} {sys : System Job}
    (run : (System.machine Job).Run history sys) (index : Nat) :
    Machine.Visits history sys (fun state => ¬ System.Stranded index state) ↔
      ∀ entry ∈ history, System.SleepsSafely index entry.1 entry.2 := by
  constructor
  · intro visits entry member
    obtain ⟨next, step, notStranded⟩ := run.visits_next visits entry member
    by_contra unsafely
    exact notStranded (System.stranded_of_unsafe step unsafely)
  · intro safe
    refine run.invariant_of_steps (System.SleepsSafely index) ?_ ?_ safe
    · intro state start stranded
      obtain ⟨ops, busy, fresh⟩ := start.twq index
      apply stranded.queued
      rw [fresh]
      rfl
    · intro state action next reachable notStranded safe step
      exact System.not_stranded_step reachable notStranded safe step

/-! ## A lost wake-up -/

/-- The worker finds the queue empty; a producer adds a job and signals; the worker goes
to sleep. -/
def lostWakeupRun : List (Action Nat) :=
  List.replicate 4 (.worker 0 0) ++
  [.call (.producer 0) (.threadwqAddJob 0) 7, .add (.producer 0), .add (.producer 0),
    .add (.producer 0), .add (.producer 0)] ++
  List.replicate 2 (.worker 0 0)

theorem lostWakeupRun_stranded :
    ∃ sys, System.run (System.boot ⟨true, true⟩ ⟨1, .rr, 0⟩) lostWakeupRun = some sys ∧
      System.Stranded 0 sys ∧ ∀ thread, sys.add thread = .idle := by
  obtain ⟨sys, ran, noRequest, queued, blocked, workerIdle, producerIdle⟩ := System.exists_run
    (System.boot ⟨true, true⟩ ⟨1, .rr, 0⟩) lostWakeupRun
    (fun sys => (sys.twq 0).log.any Event.isRequest = false ∧ (sys.twq 0).lfq ≠ [] ∧
      (sys.twq 0).worker = .blocked ∧ sys.add (.worker 0) = .idle ∧
      sys.add (.producer 0) = .idle) (by decide)
  have allIdle : ∀ thread, sys.add thread = .idle := by
    intro thread
    by_cases isWorker : thread = .worker 0
    · rw [isWorker, workerIdle]
    by_cases isProducer : thread = .producer 0
    · rw [isProducer, producerIdle]
    · have threads : ∀ action ∈ lostWakeupRun,
          action.thread? = some (.worker 0) ∨ action.thread? = some (.producer 0) := by decide
      refine (System.run_add_of_ne ran fun action member same => ?_).trans rfl
      rcases threads action member with worker | producer
      · exact isWorker (Option.some.inj (same.symm.trans worker))
      · exact isProducer (Option.some.inj (same.symm.trans producer))
  refine ⟨sys, ran, ⟨noRequest, queued, blocked, fun thread => ?_⟩, allIdle⟩
  rw [allIdle]
  rfl

theorem lost_wakeup :
    ¬ ∀ (sys : System Nat) (index : Nat), (System.machine Nat).Reachable sys →
      ¬ System.Stranded index sys := by
  intro never
  obtain ⟨sys, ran, stranded, _⟩ := lostWakeupRun_stranded
  exact never sys 0 (System.reachable_of_run (System.boot_initial _ _ rfl) ran) stranded

/-- In that run the worker does not go to sleep safely. -/
theorem no_lost_wakeup_iff_lostWakeupRun :
    ∃ history sys, (System.machine Nat).Run history sys ∧
      history.map Prod.snd = lostWakeupRun ∧
      ¬ ∀ entry ∈ history, System.SleepsSafely 0 entry.1 entry.2 := by
  obtain ⟨sys, ran, stranded, _⟩ := lostWakeupRun_stranded
  obtain ⟨history, run, labels, _⟩ := System.exists_history (System.boot_initial _ _ rfl) ran
  refine ⟨history, sys, run, labels, fun safe => ?_⟩
  exact ((no_lost_wakeup_iff run 0).mpr safe).2 stranded

end LinuxCTemplate.Threadwq
