import LinuxCTemplate.Threadwq.Jobs

/-!
# The calls of the add functions

Each step of an add function is one access to what the threads share: the index of the
manager, the mutex and the condition of a queue, or the jobs on it.  A call is recorded
with the accesses made in it so far, so that a policy can be read as the sequence of its
accesses, whatever the other threads do in between.
-/

namespace LinuxCTemplate.Threadwq

open Foundation

variable {Job : Type}

/-- One access of an add function to the shared state. -/
inductive Access (Job : Type) where
  | readIdx (idx : Nat)
  | setIdx (idx : Nat)
  | lock (queue : Nat)
  | tryLock (queue : Nat) (acquired : Bool)
  | enqueue (queue : Nat) (job : Job)
  | signal (queue : Nat)
  | unlock (queue : Nat)
  deriving DecidableEq, Repr

/-- The queue an access is made to. -/
def Access.queue? : Access Job → Option Nat
  | .readIdx _ | .setIdx _ => none
  | .lock queue | .tryLock queue _ | .enqueue queue _ | .signal queue | .unlock queue => some queue

namespace System

/-- The access that the add function of a thread makes next. -/
def access? (sys : System Job) (thread : Thread) : Option (Access Job) :=
  match sys.add thread with
  | .idle => none
  | .enqueue index job => some (.enqueue index job)
  | .lock index => some (.lock index)
  | .signal index => some (.signal index)
  | .unlock index => some (.unlock index)
  | .rrRead _ => some (.readIdx sys.man.twqIdx.toNat)
  | .rrAdvance idx _ =>
      some (.setIdx (if sys.man.twqPoolNr ≤ idx then 0 else sys.man.twqIdx + 1).toNat)
  | .readIdx _ => some (.readIdx sys.man.twqIdx.toNat)
  | .tryLock idx _ =>
      let queue := (sys.tried idx).toNat
      some (.tryLock queue (sys.twq queue).mutex.isNone)
  | .setIdx idx _ => some (.setIdx (idx + 1).toNat)
  | .enqueueLocked idx job => some (.enqueue idx.toNat job)

/-- What an access does to the shared state. -/
def perform (sys : System Job) (thread : Thread) : Access Job → System Job
  | .readIdx _ => sys
  | .setIdx idx => sys.setIdx (.ofNat idx)
  | .lock queue => sys.setTwq queue { sys.twq queue with mutex := some thread }
  | .tryLock queue acquired =>
      if acquired then sys.setTwq queue { sys.twq queue with mutex := some thread } else sys
  | .enqueue queue job => sys.place thread queue job
  | .signal queue => sys.setTwq queue (Threadwq.signal (sys.twq queue))
  | .unlock queue => sys.setTwq queue (Threadwq.unlock (sys.twq queue))

/-- A step of an add function performs its access and moves on. -/
theorem addStep_performs {sys next : System Job} {thread : Thread}
    (step : sys.addStep thread = some next) :
    ∃ access, sys.access? thread = some access ∧
      next = (sys.perform thread access).setAdd thread (next.add thread) := by
  obtain ⟨point, pc, moves⟩ := addStep_moves step
  unfold access?
  cases moves <;> rw [pc] <;> simp only [Option.some.injEq, exists_eq_left']
  case rrReset past => simp only [perform, if_pos past, UInt32.ofNat_toNat, setAdd_add_self]
  case rrAdvance inside => simp only [perform, if_neg inside, UInt32.ofNat_toNat, setAdd_add_self]
  case tryLockFails mutex => simp [perform, mutex]
  case tryLock free => simp [perform, free]
  all_goals simp only [perform, UInt32.ofNat_toNat, setAdd_add_self]

/-- The job a call carries is still with it, or is the last one enqueued. -/
theorem addStep_jobs {sys next : System Job} {thread : Thread}
    (step : sys.addStep thread = some next) :
    next.placed.map Prod.snd ++ (next.add thread).pending?.toList =
      sys.placed.map Prod.snd ++ (sys.add thread).pending?.toList := by
  obtain ⟨point, pc, moves⟩ := addStep_moves step
  rw [pc]
  cases moves with
  | enqueue | enqueueLocked => simp [AddPc.pending?]
  | _ =>
      rw [setAdd_add_self]
      rfl

end System

/-! ## The record of a call -/

/-- A call of an add function with the accesses it has made so far. -/
structure Call (Job : Type) where
  entry : Entry
  job : Job
  accesses : List (Access Job)
  deriving DecidableEq, Repr

/-- What one step of the process adds to the record of the thread's last call. -/
def record (thread : Thread) (last? : Option (Call Job)) (step : System Job × Action Job) :
    Option (Call Job) :=
  match step.2 with
  | .call caller entry job => if caller = thread then some ⟨entry, job, []⟩ else last?
  | .add caller =>
      if caller = thread then
        last?.map fun call =>
          { call with accesses := call.accesses ++ (step.1.access? thread).toList }
      else last?
  | _ => last?

/-- The last call that a thread has made in a run.  Every call is the last one of its thread
in the part of the run up to its return. -/
def lastCall? (thread : Thread) (history : List (System Job × Action Job)) :
    Option (Call Job) :=
  history.foldl (record thread) none

/-- What a step of the process means for the call a thread is in. -/
inductive Records (thread : Thread) (sys next : System Job) (last? : Option (Call Job)) :
    Option (Call Job) → Prop where
  | same : next.add thread = sys.add thread → Records thread sys next last? last?
  | call (entry : Entry) (job : Job) : next.add thread = sys.entryPc entry job →
      Records thread sys next last? (some ⟨entry, job, []⟩)
  | access (access : Access Job) : sys.addStep thread = some next →
      sys.access? thread = some access →
      Records thread sys next last?
        (last?.map fun call => { call with accesses := call.accesses ++ [access] })

theorem records_of_step [DecidableEq Job] {thread : Thread} {sys next : System Job}
    {action : Action Job} {history : List (System Job × Action Job)}
    (step : sys.step action = some next) :
    Records thread sys next (lastCall? thread history)
      (lastCall? thread (history ++ [(sys, action)])) := by
  have snoc : lastCall? thread (history ++ [(sys, action)]) =
      record thread (lastCall? thread history) (sys, action) := by
    simp [lastCall?]
  rw [snoc]
  cases System.step_moves step with
  | @call caller entry job =>
      by_cases isThread : caller = thread
      · subst isThread
        simp only [record, if_true]
        exact .call entry job (System.setAdd_add_self sys caller _)
      · simp only [record, if_neg isThread]
        exact .same (System.step_add_of_ne step fun same => isThread (Option.some.inj same))
  | @add caller _ moved =>
      by_cases isThread : caller = thread
      · subst isThread
        obtain ⟨access, accesses, _⟩ := System.addStep_performs moved
        simp only [record, if_true, accesses]
        exact .access access moved accesses
      · simp only [record, if_neg isThread]
        exact .same (System.step_add_of_ne step fun same => isThread (Option.some.inj same))
  | worker | controller | spurious | rcu => exact .same rfl

end LinuxCTemplate.Threadwq
