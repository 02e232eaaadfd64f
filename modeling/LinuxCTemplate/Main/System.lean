import LinuxCTemplate.Mempool.Exit
import LinuxCTemplate.Threadwq.System

/-!
# The main program

`main` sets up the job pool, runs `test_threadwq2` and `test_threadwq3` one after the
other, and ends with `mempool_exit`.  Each test starts `TWQNUM` queues, lets a writer thread
allocate jobs from the pool and add them to the queues, waits for the writer and stops the
queues.  `cb_finish`, which `call_rcu` runs some time after it was given the job, puts the
job back into the pool.

The state is a pool, the queues of each test, and the program points of `main` and of the
writer.  A step is one of theirs, of a worker, or of a thread that runs the callbacks of
`call_rcu`.  `free_all_cpu_call_rcu_data`, at the end of a test, hands the callbacks that are
left to the default thread of `call_rcu` and waits for none of them, so that a callback may
run at any time after it was queued.  `mempool_exit`, which takes no lock, is one step.

`test_threadwq`, which runs before the other two, uses neither the pool nor a queue.
-/

namespace LinuxCTemplate.Main

open Foundation

/-- `TWQNUM` -/
def twqNum : Nat := 4

/-- `test_threadwq2` and `test_threadwq3`. -/
inductive Test where
  | threadwq2
  | threadwq3
  deriving DecidableEq, Repr

/-- Program points of `main`, inside the test it runs: the loops of `threadwq_exec_multi` and
`threadwq_exit_multi` at a queue, and `pthread_join` of the writer.  `exited` is after
`mempool_exit`, with the leak that it reported. -/
inductive MainPc where
  | execMulti (test : Test) (index : Nat)
  | join (test : Test)
  | exitMulti (test : Test) (index : Nat)
  | mempoolExit
  | exited (report : Option Mempool.LeakReport)
  deriving DecidableEq, Repr

/-- Program points of `threadfunc2` and `threadfunc3`: before `mempool_alloc`, with a job in
hand, inside the add function, and before the test of the time that ends the loop. -/
inductive WriterPc where
  | absent
  | top
  | got (job : Nat)
  | adding
  | check
  | returned
  deriving DecidableEq, Repr

def Test.rank : Test → Nat
  | .threadwq2 => 0
  | .threadwq3 => 1

/-- What `main` does after the test. -/
def Test.next : Test → MainPc
  | .threadwq2 => .execMulti .threadwq3 0
  | .threadwq3 => .mempoolExit

/-- `threadwq_exec` has created the worker of the queue. -/
def MainPc.created (test : Test) (index : Nat) : MainPc → Bool
  | .execMulti current last => test.rank < current.rank || test = current && index ≤ last
  | .join current | .exitMulti current _ => test.rank ≤ current.rank
  | .mempoolExit | .exited _ => true

/-- The pool, the queues of both tests, and the positions of `main` and of the writer.  A job
is known by its number in the sequence of the jobs allocated, and `slice` is its address.  In
the pool's accounts a slice is held by the job that is in it, since a job is allocated by
one thread and freed by another. -/
structure System where
  pool : Mempool.System
  twq : Test → Threadwq.System Nat
  main : MainPc
  writer : WriterPc
  selectTwq : UInt32
  nextJob : Nat
  slice : Nat → Nat

/-- What can happen next: a step of `main`, of the writer or of a worker, a wake-up without a
signal, a callback that `call_rcu` runs, up to the call of `mempool_free`, the next step of
this `mempool_free`, and a write of client code.  `block` is what `malloc` returns and `junk`
what `free` leaves behind; `timeOver` says that the test has run for `TEST_TIME`. -/
inductive Action where
  | main (junk : Memory)
  | writer (block : Nat) (timeOver : Bool)
  | worker (test : Test) (index : Nat)
  | spurious (test : Test) (index : Nat)
  | callback (test : Test) (index job : Nat)
  | free (job : Nat)
  | client (job : Nat) (contents : Memory)

namespace System

def setTwq (sys : System) (test : Test) (twq : Threadwq.System Nat) : System :=
  { sys with twq := Function.update sys.twq test twq }

/-- A step of the queues of a test. -/
def twqStep (sys : System) (test : Test) (action : Threadwq.Action Nat) : Option System :=
  ((sys.twq test).step action).map (sys.setTwq test)

/-- A step of the pool. -/
def poolStep (sys : System) (action : Mempool.Action) : Option System :=
  (sys.pool.step action).map fun pool => { sys with pool }

/-- The controlling thread of every queue is `main`. -/
def controller (sys : System) (test : Test) (index : Nat) : Threadwq.ControllerPc :=
  ((sys.twq test).twq index).controller

/-- One step of `main`. -/
def mainStep (sys : System) (junk : Memory) : Option System :=
  match sys.main with
  | .execMulti test index =>
      if index < twqNum then
        if sys.controller test index = .pollRunning then
          sys.twqStep test (.controller index)
        else
          some { sys with main := .execMulti test (index + 1) }
      else
        some { sys with main := .join test, writer := .top, selectTwq := 0 }
  | .join test =>
      if sys.writer = .returned then some { sys with main := .exitMulti test 0 } else none
  | .exitMulti test index =>
      if index < twqNum then
        if sys.controller test index ≠ .returned then
          sys.twqStep test (.controller index)
        else
          some { sys with main := .exitMulti test (index + 1) }
      else
        some { sys with main := test.next }
  | .mempoolExit =>
      match Mempool.mempoolExit junk sys.pool.pool with
      | .ok (report, pool) =>
          some { sys with pool := sys.pool.setPool pool, main := .exited report }
      | .error fault => some { sys with pool := { sys.pool with fault := some fault } }
  | .exited _ => none

/-- The choice of the next queue in `threadfunc2`; `threadfunc3` leaves it to the manager. -/
def advance (test : Test) (selectTwq : UInt32) : UInt32 :=
  match test with
  | .threadwq2 => if 4 ≤ selectTwq + 1 then 0 else selectTwq + 1
  | .threadwq3 => selectTwq

/-- `threadwq_add_job` in `threadfunc2`, `threadwq_man_add_job` in `threadfunc3`. -/
def entry (test : Test) (selectTwq : UInt32) : Threadwq.Entry :=
  match test with
  | .threadwq2 => .threadwqAddJob selectTwq.toNat
  | .threadwq3 => .threadwqManAddJob

/-- The writer, as a thread of the queues. -/
def threadfunc : Thread := .producer 0

/-- The writer with what `mempool_alloc` returned. -/
def allocated (sys : System) (pool : Mempool.System) : System :=
  match pool.held sys.nextJob with
  | [] => { sys with pool, writer := .check }
  | slice :: _ =>
      { sys with
        pool
        writer := .got sys.nextJob
        nextJob := sys.nextJob + 1
        slice := Function.update sys.slice sys.nextJob slice }

/-- One step of the writer of a test.  After a failed `mempool_alloc` the time is tested as
after a job. -/
def writerStep (sys : System) (test : Test) (block : Nat) (timeOver : Bool) : Option System :=
  match sys.writer with
  | .top =>
      (sys.pool.step (.alloc sys.nextJob block)).map fun pool =>
        { sys.allocated pool with selectTwq := advance test sys.selectTwq }
  | .got job =>
      (sys.twqStep test (.call threadfunc (entry test sys.selectTwq) job)).map fun sys =>
        { sys with writer := .adding }
  | .adding =>
      (sys.twqStep test (.add threadfunc)).map fun sys =>
        if ((sys.twq test).add threadfunc).isIdle then { sys with writer := .check } else sys
  | .check => some { sys with writer := if timeOver then .returned else .top }
  | .absent | .returned => none

/-- `__exec_finish_rcu`: the callback of a job has been run up to `mempool_free`. -/
def callback (sys : System) (test : Test) (index job : Nat) : Option System :=
  match (sys.twq test).step (.rcu index job), sys.pool.step (.free job (sys.slice job)) with
  | some twq, some pool => some { sys.setTwq test twq with pool }
  | _, _ => none

/-- The next step of a `mempool_free`. -/
def free (sys : System) (job : Nat) : Option System :=
  match sys.pool.pc job with
  | .magic _ => sys.poolStep (.magic job)
  | .link _ => sys.poolStep (.link job)
  | _ => none

/-- One step of the program.  A program that has died makes none. -/
def step (sys : System) (action : Action) : Option System :=
  if sys.pool.fault ≠ none then
    none
  else
    match action with
    | .main junk => sys.mainStep junk
    | .writer block timeOver =>
        match sys.main with
        | .join test => sys.writerStep test block timeOver
        | _ => none
    | .worker test index =>
        if index < twqNum ∧ sys.main.created test index then
          sys.twqStep test (.worker index 0)
        else
          none
    | .spurious test index => sys.twqStep test (.spurious index)
    | .callback test index job => sys.callback test index job
    | .free job => sys.free job
    | .client job contents => sys.poolStep (.client job contents)

/-- The manager of `test_threadwq3`; `test_threadwq2` has none and makes no use of it. -/
def twqMan : Threadwq.ThreadwqMan where
  twqPoolNr := 4
  ops := .rr4idle
  twqIdx := 0

/-- The arguments of `mempool_init` in `main`, without the size of a job. -/
def mainPool (addr : Nat) (jobSize : UInt32) (mem : Memory) :
    Except Mempool.Fault (Mempool × Memory) :=
  Mempool.mempoolInit addr (some (Mempool.ascii "name")) jobSize (65536 * 4) false false mem

/-- After `mempool_init`, at the start of `test_threadwq2`.  The queues are those of
`threadwq_init_multi` and `threadwq_set_ops_multi`. -/
structure Initial (sys : System) : Prop where
  init : ∃ addr jobSize mem,
    mainPool addr jobSize mem = .ok (sys.pool.pool.mp, sys.pool.pool.mem)
  pool : Mempool.System.Initial sys.pool
  twq : ∀ test, (sys.twq test).Initial
  ops : ∀ test index, ((sys.twq test).twq index).ops = ⟨true, true⟩
  man : ∀ test, (sys.twq test).man = twqMan
  main : sys.main = .execMulti .threadwq2 0
  writer : sys.writer = .absent
  selectTwq : sys.selectTwq = 0
  nextJob : sys.nextJob = 0

def machine : Machine System Action where
  Start := Initial
  Step sys action next := sys.step action = some next

end System

end LinuxCTemplate.Main
