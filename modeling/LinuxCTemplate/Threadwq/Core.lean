import Mathlib.Data.List.Basic

/-!
# One thread work queue

`struct threadwq` together with the control state of its worker (`thread_func`)
and of the thread that starts and stops it (`threadwq_exec`, `threadwq_exit`).
Every step is one access to shared state: a lock operation, a queue operation, a
read or write of a flag, or a callback boundary.  Memory is sequentially
consistent, and the lock-free queue is a list with atomic enqueue and dequeue.

What has happened on a queue is kept in a log of events.  The build is the default
one, `THREADWQ_BLOCKED_ENQUEUE = 1`.
-/

namespace LinuxCTemplate

/-- The threads of the process: the worker of a queue, the thread that calls
`threadwq_exec` and `threadwq_exit` on a queue, and any number of others. -/
inductive Thread where
  | worker (twq : Nat)
  | controller (twq : Nat)
  | producer (id : Nat)
  deriving DecidableEq, Repr

/-- `struct threadwq_ops`: which of the two callbacks are present. -/
structure ThreadwqOps where
  workerInit : Bool
  workerExit : Bool
  deriving DecidableEq, Repr

namespace Threadwq

/-- What happens on a queue.  A job is an instance handed to an add function. -/
inductive Event (Job : Type) where
  | enqueue (caller : Thread) (job : Job)
  | cbStart (job : Job)
  | cbStartReturn (job : Job)
  | callRcu (job : Job)
  | cbFinish (job : Job)
  | workerInit
  | workerExit
  | exitRequest
  | exitReturn
  deriving DecidableEq, Repr

/-- Which of the two loops runs a job: the one of `thread_func` or the one of
`exec_pending_jobs`. -/
inductive Site where
  | serve
  | flush
  deriving DecidableEq, Repr

/-- Program points of `thread_func`.  `callStart` holds a job that is dequeued and
not started, `inStart` is inside `cb_start`, and `callRcu` is after its return.  In
`blocked` the worker sleeps in `pthread_cond_wait`; in `woken` it has been woken
there and has to take the mutex again. -/
inductive WorkerPc (Job : Type) where
  | callWorkerInit
  | setRunning
  | loopTest
  | dequeue
  | callStart (site : Site) (job : Job)
  | inStart (site : Site) (job : Job)
  | callRcu (site : Site) (job : Job)
  | dequeueNext (site : Site)
  | waitLock
  | condWait
  | blocked
  | woken
  | waitUnlock
  | flushDequeue
  | callWorkerExit
  | setExitAck
  | unregister
  | returned
  deriving DecidableEq, Repr

/-- Program points of the controlling thread: the polling loop of `threadwq_exec`,
the time between the two calls, and `kill_online_worker`. -/
inductive ControllerPc where
  | pollRunning
  | online
  | lock
  | increment
  | broadcast
  | unlock
  | testAck
  | join
  | returned
  deriving DecidableEq, Repr

end Threadwq

open Threadwq in
/-- `struct threadwq`, the locals of `thread_func` and `exec_pending_jobs`
(`cnt`, `busyAcc`, `accl`), the callbacks `call_rcu` still has to run, and the log. -/
structure Threadwq (Job : Type) where
  exit : UInt32
  exitAck : UInt32
  running : UInt32
  mutex : Option Thread
  lfq : List Job
  ops : ThreadwqOps
  busy : UInt32
  cnt : UInt32
  busyAcc : UInt32
  accl : UInt32
  worker : WorkerPc Job
  controller : ControllerPc
  rcu : List Job
  log : List (Event Job)
  deriving DecidableEq, Repr

namespace Threadwq

variable {Job : Type}

/-- `THREADWQ_STAT_PERIOD` -/
def threadwqStatPeriod : UInt32 := 1000

/-- `threadwq_init` followed by `threadwq_set_ops` and the `pthread_create` of
`threadwq_exec`.  `threadwq_init` leaves `busy` as it finds it. -/
def threadwqInit (ops : ThreadwqOps) (busy : UInt32) : Threadwq Job where
  exit := 0
  exitAck := 0
  running := 0
  mutex := none
  lfq := []
  ops
  busy
  cnt := 0
  busyAcc := 0
  accl := 0
  worker := .callWorkerInit
  controller := .pollRunning
  rcu := []
  log := []

/-! ## Operations of the libraries -/

/-- `pthread_mutex_lock`: a thread that finds the mutex taken does not move. -/
def lock (thread : Thread) (twq : Threadwq Job) : Option (Threadwq Job) :=
  match twq.mutex with
  | none => some { twq with mutex := some thread }
  | some _ => none

/-- `pthread_mutex_unlock` -/
def unlock (twq : Threadwq Job) : Threadwq Job := { twq with mutex := none }

/-- `pthread_cond_signal` and `pthread_cond_broadcast`: only the worker waits on the
condition, and a signal sent while it does not wait is lost. -/
def signal (twq : Threadwq Job) : Threadwq Job :=
  match twq.worker with
  | .blocked => { twq with worker := .woken }
  | _ => twq

/-- `cds_lfq_enqueue_rcu`, as called by `threadwq_add_job` and
`threadwq_add_job_locked`. -/
def enqueue (caller : Thread) (job : Job) (twq : Threadwq Job) : Threadwq Job :=
  { twq with lfq := twq.lfq ++ [job], log := twq.log ++ [.enqueue caller job] }

/-- `dequeue_one_job`: continue at `found` with a job, or at `empty`. -/
def dequeueOneJob (found : Job → WorkerPc Job) (empty : WorkerPc Job)
    (twq : Threadwq Job) : Threadwq Job :=
  match twq.lfq with
  | [] => { twq with worker := empty }
  | job :: rest => { twq with lfq := rest, worker := found job }

/-! ## The threads of a queue -/

/-- The head of the loop body: `cnt++` and the statistics of every
`THREADWQ_STAT_PERIOD` rounds. -/
def countRound (twq : Threadwq Job) : Threadwq Job :=
  if threadwqStatPeriod ≤ twq.cnt + 1 then
    { twq with busy := twq.busyAcc, cnt := 0, busyAcc := twq.busyAcc >>> 1 }
  else
    { twq with cnt := twq.cnt + 1 }

/-- `busy++` in the loop of `thread_func`, `accl++` in `exec_pending_jobs`. -/
def countJob (twq : Threadwq Job) : Site → Threadwq Job
  | .serve => { twq with busyAcc := twq.busyAcc + 1 }
  | .flush => { twq with accl := twq.accl + 1 }

/-- One step of `thread_func` of the queue `self`; `ret` is what `worker_init`
returns.  A failing `worker_init` ends in `BUG()`, after which nothing runs. -/
def workerStep (self : Nat) (ret : Int) (twq : Threadwq Job) : Option (Threadwq Job) :=
  match twq.worker with
  | .callWorkerInit =>
      if twq.ops.workerInit then
        if ret ≠ 0 then none
        else some { twq with worker := .setRunning, log := twq.log ++ [.workerInit] }
      else
        some { twq with worker := .setRunning }
  | .setRunning =>
      some { twq with running := 1, cnt := 0, busyAcc := 0, worker := .loopTest }
  | .loopTest =>
      if twq.exit = 0 then
        some { countRound twq with worker := .dequeue }
      else
        some { twq with worker := .flushDequeue }
  | .dequeue => some (dequeueOneJob (.callStart .serve) .waitLock twq)
  | .callStart site job =>
      some { countJob twq site with
        worker := .inStart site job
        log := twq.log ++ [.cbStart job] }
  | .inStart site job =>
      some { twq with worker := .callRcu site job, log := twq.log ++ [.cbStartReturn job] }
  | .callRcu site job =>
      some { twq with
        worker := .dequeueNext site
        rcu := twq.rcu ++ [job]
        log := twq.log ++ [.callRcu job] }
  | .dequeueNext .serve => some (dequeueOneJob (.callStart .serve) .waitLock twq)
  | .dequeueNext .flush => some (dequeueOneJob (.callStart .flush) .callWorkerExit twq)
  | .waitLock => (lock (.worker self) twq).map fun twq => { twq with worker := .condWait }
  | .condWait => some { unlock twq with worker := .blocked }
  | .blocked => none
  | .woken => (lock (.worker self) twq).map fun twq => { twq with worker := .waitUnlock }
  | .waitUnlock => some { unlock twq with worker := .loopTest }
  | .flushDequeue =>
      some (dequeueOneJob (.callStart .flush) .callWorkerExit { twq with accl := 0 })
  | .callWorkerExit =>
      if twq.ops.workerExit then
        some { twq with worker := .setExitAck, log := twq.log ++ [.workerExit] }
      else
        some { twq with worker := .setExitAck }
  | .setExitAck => some { twq with exitAck := 1, worker := .unregister }
  | .unregister => some { twq with worker := .returned }
  | .returned => none

/-- One step of the controlling thread of the queue `self`: `threadwq_exec` after
its `pthread_create`, then, whenever it chooses, `threadwq_exit`. -/
def controllerStep (self : Nat) (twq : Threadwq Job) : Option (Threadwq Job) :=
  match twq.controller with
  | .pollRunning =>
      if twq.running ≠ 0 then some { twq with controller := .online } else some twq
  | .online => some { twq with controller := .lock }
  | .lock =>
      (lock (.controller self) twq).map fun twq => { twq with controller := .increment }
  | .increment =>
      some { twq with
        exit := twq.exit + 1
        controller := .broadcast
        log := twq.log ++ [.exitRequest] }
  | .broadcast => some { signal twq with controller := .unlock }
  | .unlock => some { unlock twq with controller := .testAck }
  | .testAck =>
      if twq.exitAck ≠ 0 then some { twq with controller := .join }
      else some { twq with controller := .lock }
  | .join =>
      match twq.worker with
      | .returned =>
          some { twq with controller := .returned, log := twq.log ++ [.exitReturn] }
      | _ => none
  | .returned => none

/-- `__exec_finish_rcu`, run by `call_rcu` for a job handed to it. -/
def execFinishRcu [DecidableEq Job] (job : Job) (twq : Threadwq Job) :
    Option (Threadwq Job) :=
  if job ∈ twq.rcu then
    some { twq with rcu := twq.rcu.erase job, log := twq.log ++ [.cbFinish job] }
  else
    none

/-- `pthread_cond_wait` may return without a signal. -/
def spuriousWakeup (twq : Threadwq Job) : Option (Threadwq Job) :=
  match twq.worker with
  | .blocked => some { twq with worker := .woken }
  | _ => none

end Threadwq

end LinuxCTemplate
