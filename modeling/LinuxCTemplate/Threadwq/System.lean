import Mathlib.Logic.Function.Basic
import LinuxCTemplate.Foundation.Transition
import LinuxCTemplate.Threadwq.Core

/-!
# The process around the queues

All thread work queues of a process, the manager that spreads jobs over the first
`twqPoolNr` of them, and the threads that add jobs: directly with
`threadwq_add_job`, or with `threadwq_man_add_job` under one of the two round-robin
policies.  A worker may add jobs too, while it is inside a `cb_start`.

An add function runs as a sequence of steps of its caller, so that its accesses
interleave with those of every other thread.
-/

namespace LinuxCTemplate

open Foundation

namespace Threadwq

/-- `threadwq_man_ops_rr` and `threadwq_man_ops_rr4idle`. -/
inductive ThreadwqManOps where
  | rr
  | rr4idle
  deriving DecidableEq, Repr

/-- `struct threadwq_man`.  The pool is the array of queues `0` to
`twqPoolNr - 1`; both policies keep one index. -/
structure ThreadwqMan where
  twqPoolNr : UInt32
  ops : ThreadwqManOps
  twqIdx : UInt32
  deriving DecidableEq, Repr

/-- `threadwq_man_init`, whose `BUG_ON` refuses an empty pool; `rr_init` is the
`cb_init` of both policies. -/
def threadwqManInit (twqTblNr : UInt32) (ops : ThreadwqManOps) : Option ThreadwqMan :=
  if twqTblNr = 0 then none else some { twqPoolNr := twqTblNr, ops, twqIdx := 0 }

/-- Program points of a thread's add function.  `enqueue` to `unlock` belong to
`threadwq_add_job`, `rrRead` and `rrAdvance` to `rr_add_job`, which continues at
`enqueue`, and `readIdx` to `enqueueLocked` to `rr4idle_add_job`, which continues at
`signal`. -/
inductive AddPc (Job : Type) where
  | idle
  | enqueue (twq : Nat) (job : Job)
  | lock (twq : Nat)
  | signal (twq : Nat)
  | unlock (twq : Nat)
  | rrRead (job : Job)
  | rrAdvance (idx : UInt32) (job : Job)
  | readIdx (job : Job)
  | tryLock (idx : UInt32) (job : Job)
  | setIdx (idx : UInt32) (job : Job)
  | enqueueLocked (idx : UInt32) (job : Job)
  deriving DecidableEq, Repr

def AddPc.isIdle {Job : Type} : AddPc Job → Bool
  | .idle => true
  | _ => false

/-- The worker is inside a `cb_start`. -/
def WorkerPc.inCallback {Job : Type} : WorkerPc Job → Bool
  | .inStart _ _ => true
  | _ => false

/-- The two ways to add a job: to a queue of the caller's choice, or to the
manager. -/
inductive Entry where
  | threadwqAddJob (twq : Nat)
  | threadwqManAddJob
  deriving DecidableEq, Repr

/-- The shared state and the position of every thread.  `added` lists the jobs
passed to an add function so far and `placed` the enqueues in their sequence, over
all queues. -/
structure System (Job : Type) where
  twq : Nat → Threadwq Job
  man : ThreadwqMan
  add : Thread → AddPc Job
  added : List Job
  placed : List (Nat × Job)

/-- What can happen next: a step of a worker, of a controlling thread or of an add
function, a new call of an add function, a wake-up without a signal, and a callback
run by `call_rcu`. -/
inductive Action (Job : Type) where
  | worker (twq : Nat) (ret : Int)
  | controller (twq : Nat)
  | call (thread : Thread) (entry : Entry) (job : Job)
  | add (thread : Thread)
  | spurious (twq : Nat)
  | rcu (twq : Nat) (job : Job)
  deriving DecidableEq, Repr

/-- The thread that makes a step, if it is a step of a thread of the model. -/
def Action.thread? {Job : Type} : Action Job → Option Thread
  | .worker twq _ => some (.worker twq)
  | .controller twq => some (.controller twq)
  | .call thread _ _ => some thread
  | .add thread => some thread
  | .spurious _ => none
  | .rcu _ _ => none

/-- The action adds jobs only through the manager. -/
def Action.viaManager {Job : Type} : Action Job → Bool
  | .call _ (.threadwqAddJob _) _ => false
  | _ => true

namespace System

variable {Job : Type}

def setTwq (sys : System Job) (index : Nat) (twq : Threadwq Job) : System Job :=
  { sys with twq := Function.update sys.twq index twq }

def setAdd (sys : System Job) (thread : Thread) (pc : AddPc Job) : System Job :=
  { sys with add := Function.update sys.add thread pc }

def setIdx (sys : System Job) (idx : UInt32) : System Job :=
  { sys with man := { sys.man with twqIdx := idx } }

/-- A thread may call an add function: a worker only inside a `cb_start`, and a
controlling thread never, since it is modelled from `threadwq_exec` on. -/
def mayCall (sys : System Job) : Thread → Bool
  | .worker index => (sys.twq index).worker.inCallback
  | .controller _ => false
  | .producer _ => true

/-- Where an add function starts. -/
def entryPc (sys : System Job) (entry : Entry) (job : Job) : AddPc Job :=
  match entry with
  | .threadwqAddJob index => .enqueue index job
  | .threadwqManAddJob =>
      match sys.man.ops with
      | .rr => .rrRead job
      | .rr4idle => .readIdx job

/-- Put a job on a queue. -/
def place (sys : System Job) (thread : Thread) (index : Nat) (job : Job) : System Job :=
  { sys.setTwq index (Threadwq.enqueue thread job (sys.twq index)) with
    placed := sys.placed ++ [(index, job)] }

/-- One step of the add function `thread` is in. -/
def addStep (sys : System Job) (thread : Thread) : Option (System Job) :=
  match sys.add thread with
  | .idle => none
  | .enqueue index job => some ((sys.place thread index job).setAdd thread (.lock index))
  | .lock index =>
      (Threadwq.lock thread (sys.twq index)).map fun twq =>
        (sys.setTwq index twq).setAdd thread (.signal index)
  | .signal index =>
      some ((sys.setTwq index (Threadwq.signal (sys.twq index))).setAdd thread (.unlock index))
  | .unlock index =>
      some ((sys.setTwq index (Threadwq.unlock (sys.twq index))).setAdd thread .idle)
  | .rrRead job => some (sys.setAdd thread (.rrAdvance sys.man.twqIdx job))
  | .rrAdvance idx job =>
      if sys.man.twqPoolNr ≤ idx then
        some ((sys.setIdx 0).setAdd thread (.enqueue 0 job))
      else
        some ((sys.setIdx (sys.man.twqIdx + 1)).setAdd thread (.enqueue idx.toNat job))
  | .readIdx job => some (sys.setAdd thread (.tryLock sys.man.twqIdx job))
  | .tryLock idx job =>
      let idx := if sys.man.twqPoolNr ≤ idx then 0 else idx
      match Threadwq.lock thread (sys.twq idx.toNat) with
      | none => some (sys.setAdd thread (.tryLock (idx + 1) job))
      | some twq => some ((sys.setTwq idx.toNat twq).setAdd thread (.setIdx idx job))
  | .setIdx idx job =>
      some ((sys.setIdx (idx + 1)).setAdd thread (.enqueueLocked idx job))
  | .enqueueLocked idx job =>
      some ((sys.place thread idx.toNat job).setAdd thread (.signal idx.toNat))

/-- One step of the process.  A worker does not return from a `cb_start` in the
middle of an add function, and a job instance is passed to an add function once. -/
def step [DecidableEq Job] (sys : System Job) : Action Job → Option (System Job)
  | .worker index ret =>
      if (sys.add (.worker index)).isIdle then
        (workerStep index ret (sys.twq index)).map (sys.setTwq index)
      else
        none
  | .controller index => (controllerStep index (sys.twq index)).map (sys.setTwq index)
  | .call thread entry job =>
      if (sys.add thread).isIdle && sys.mayCall thread && decide (job ∉ sys.added) then
        some { sys.setAdd thread (sys.entryPc entry job) with added := job :: sys.added }
      else
        none
  | .add thread => sys.addStep thread
  | .spurious index => (spuriousWakeup (sys.twq index)).map (sys.setTwq index)
  | .rcu index job => (execFinishRcu job (sys.twq index)).map (sys.setTwq index)

/-- After `threadwq_init`, `threadwq_set_ops` and the thread creation of
`threadwq_exec` on every queue, and `threadwq_man_init` on the manager. -/
structure Initial (sys : System Job) : Prop where
  twq : ∀ index, ∃ ops busy, sys.twq index = threadwqInit ops busy
  man : threadwqManInit sys.man.twqPoolNr sys.man.ops = some sys.man
  add : ∀ thread, sys.add thread = .idle
  added : sys.added = []
  placed : sys.placed = []

/-- The process as a transition system. -/
def machine (Job : Type) [DecidableEq Job] : Machine (System Job) (Action Job) where
  Start := Initial
  Step sys action next := sys.step action = some next

/-- A process whose queues all have the same callbacks. -/
def boot (ops : ThreadwqOps) (man : ThreadwqMan) : System Job where
  twq _ := threadwqInit ops 0
  man
  add _ := .idle
  added := []
  placed := []

theorem boot_initial (ops : ThreadwqOps) (man : ThreadwqMan)
    (started : threadwqManInit man.twqPoolNr man.ops = some man) :
    Initial (boot ops man : System Job) where
  twq _ := ⟨ops, 0, rfl⟩
  man := started
  add _ := rfl
  added := rfl
  placed := rfl

/-- Make a list of steps, if each is allowed and possible when its turn comes. -/
def runWhile [DecidableEq Job] (allowed : System Job → Action Job → Bool) (sys : System Job)
    (actions : List (Action Job)) : Option (System Job) :=
  Machine.runWhile step allowed sys actions

def run [DecidableEq Job] (sys : System Job) (actions : List (Action Job)) :
    Option (System Job) :=
  sys.runWhile (fun _ _ => true) actions

theorem exists_history [DecidableEq Job] {allowed : System Job → Action Job → Bool}
    {sys last : System Job} {actions : List (Action Job)} (initial : Initial sys)
    (ran : sys.runWhile allowed actions = some last) :
    ∃ history, (machine Job).Run history last ∧ history.map Prod.snd = actions ∧
      ∀ entry ∈ history, allowed entry.1 entry.2 = true :=
  Machine.Run.continue_evaluated (fun _ _ _ taken => taken) (.start initial) ran

theorem reachable_of_run [DecidableEq Job] {sys last : System Job}
    {actions : List (Action Job)} (initial : Initial sys)
    (ran : sys.run actions = some last) : (machine Job).Reachable last := by
  obtain ⟨history, run, _⟩ := exists_history initial ran
  exact ⟨history, run⟩

/-- A run checked by evaluation. -/
theorem exists_runWhile [DecidableEq Job] (allowed : System Job → Action Job → Bool)
    (sys : System Job) (actions : List (Action Job))
    (Holds : System Job → Prop) [DecidablePred Holds]
    (checked : (sys.runWhile allowed actions).any (fun last => decide (Holds last)) = true) :
    ∃ last, sys.runWhile allowed actions = some last ∧ Holds last :=
  Machine.exists_runWhile step allowed sys actions Holds checked

theorem exists_run [DecidableEq Job] (sys : System Job) (actions : List (Action Job))
    (Holds : System Job → Prop) [DecidablePred Holds]
    (checked : (sys.run actions).any (fun last => decide (Holds last)) = true) :
    ∃ last, sys.run actions = some last ∧ Holds last :=
  exists_runWhile _ sys actions Holds checked

end System

end Threadwq

end LinuxCTemplate
