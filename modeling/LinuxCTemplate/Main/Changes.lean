import LinuxCTemplate.Main.System

/-!
# What a step of the program can do

`Change` lists the outcomes of a step with the conditions under which they occur.  Every
step is at most one step of the queues of a test and one of the pool, so that what holds of
every reachable process around the queues, and of every reachable pool, holds of these parts
of the program.
-/

namespace LinuxCTemplate.Main

open Foundation

namespace System

section Accessors

variable {sys : System} {test : Test} {twq : Threadwq.System Nat}

theorem setTwq_twq_self : (sys.setTwq test twq).twq test = twq :=
  Function.update_self ..

/-- What holds of the queues of every test after a step of one of them. -/
theorem forall_setTwq (Holds : Test → Threadwq.System Nat → Prop) (changed : Holds test twq)
    (others : ∀ other, other ≠ test → Holds other (sys.twq other)) (other : Test) :
    Holds other ((sys.setTwq test twq).twq other) :=
  (Function.forall_update_iff sys.twq Holds).mpr ⟨changed, others⟩ other

end Accessors

/-- What a step can do. -/
inductive Change (sys : System) : Action → System → Prop where
  | exec {junk : Memory} {test : Test} {index : Nat} {twq : Threadwq.System Nat} :
      sys.main = .execMulti test index → sys.controller test index = .pollRunning →
      (sys.twq test).step (.controller index) = some twq →
      Change sys (.main junk) (sys.setTwq test twq)
  | execNext {junk : Memory} {test : Test} {index : Nat} : sys.main = .execMulti test index →
      Change sys (.main junk) { sys with main := .execMulti test (index + 1) }
  | create {junk : Memory} {test : Test} {index : Nat} : sys.main = .execMulti test index →
      Change sys (.main junk) { sys with main := .join test, writer := .top, selectTwq := 0 }
  | joined {junk : Memory} {test : Test} : sys.main = .join test → sys.writer = .returned →
      Change sys (.main junk) { sys with main := .exitMulti test 0 }
  | exit {junk : Memory} {test : Test} {index : Nat} {twq : Threadwq.System Nat} :
      sys.main = .exitMulti test index →
      (sys.twq test).step (.controller index) = some twq →
      Change sys (.main junk) (sys.setTwq test twq)
  | exitNext {junk : Memory} {test : Test} {index : Nat} : sys.main = .exitMulti test index →
      sys.controller test index = .returned →
      Change sys (.main junk) { sys with main := .exitMulti test (index + 1) }
  | testDone {junk : Memory} {test : Test} {index : Nat} : sys.main = .exitMulti test index →
      twqNum ≤ index → Change sys (.main junk) { sys with main := test.next }
  | poolExit {junk : Memory} {report : Option Mempool.LeakReport} {pool : Mempool.Pool} :
      sys.main = .mempoolExit → Mempool.mempoolExit junk sys.pool.pool = .ok (report, pool) →
      Change sys (.main junk) { sys with pool := sys.pool.setPool pool, main := .exited report }
  | poolExitDies {junk : Memory} {fault : Mempool.Fault} : sys.main = .mempoolExit →
      Mempool.mempoolExit junk sys.pool.pool = .error fault →
      Change sys (.main junk) { sys with pool := { sys.pool with fault := some fault } }
  | alloc {block : Nat} {timeOver : Bool} {test : Test} {pool : Mempool.System} :
      sys.main = .join test → sys.writer = .top →
      sys.pool.step (.alloc sys.nextJob block) = some pool →
      Change sys (.writer block timeOver)
        { sys.allocated pool with selectTwq := advance test sys.selectTwq }
  | call {block : Nat} {timeOver : Bool} {test : Test} {job : Nat} {twq : Threadwq.System Nat} :
      sys.main = .join test → sys.writer = .got job →
      (sys.twq test).step (.call threadfunc (entry test sys.selectTwq) job) = some twq →
      Change sys (.writer block timeOver) { sys.setTwq test twq with writer := .adding }
  | add {block : Nat} {timeOver : Bool} {test : Test} {twq : Threadwq.System Nat} :
      sys.main = .join test → sys.writer = .adding → (twq.add threadfunc).isIdle = false →
      (sys.twq test).step (.add threadfunc) = some twq →
      Change sys (.writer block timeOver) (sys.setTwq test twq)
  | addDone {block : Nat} {timeOver : Bool} {test : Test} {twq : Threadwq.System Nat} :
      sys.main = .join test → sys.writer = .adding → (twq.add threadfunc).isIdle = true →
      (sys.twq test).step (.add threadfunc) = some twq →
      Change sys (.writer block timeOver) { sys.setTwq test twq with writer := .check }
  | check {block : Nat} {timeOver : Bool} {test : Test} :
      sys.main = .join test → sys.writer = .check →
      Change sys (.writer block timeOver)
        { sys with writer := if timeOver then .returned else .top }
  | worker {test : Test} {index : Nat} {twq : Threadwq.System Nat} : index < twqNum →
      (sys.twq test).step (.worker index 0) = some twq →
      Change sys (.worker test index) (sys.setTwq test twq)
  | spurious {test : Test} {index : Nat} {twq : Threadwq.System Nat} :
      (sys.twq test).step (.spurious index) = some twq →
      Change sys (.spurious test index) (sys.setTwq test twq)
  | callback {test : Test} {index job : Nat} {twq : Threadwq.System Nat} {pool : Mempool.System} :
      (sys.twq test).step (.rcu index job) = some twq →
      sys.pool.step (.free job (sys.slice job)) = some pool →
      Change sys (.callback test index job) { sys.setTwq test twq with pool }
  | magic {job slice : Nat} {pool : Mempool.System} : sys.pool.pc job = .magic slice →
      sys.pool.step (.magic job) = some pool → Change sys (.free job) { sys with pool }
  | link {job slice : Nat} {pool : Mempool.System} : sys.pool.pc job = .link slice →
      sys.pool.step (.link job) = some pool → Change sys (.free job) { sys with pool }
  | client {job : Nat} {contents : Memory} {pool : Mempool.System} :
      sys.pool.step (.client job contents) = some pool →
      Change sys (.client job contents) { sys with pool }

variable {sys next : System} {action : Action}

theorem mainStep_change {junk : Memory} (taken : sys.mainStep junk = some next) :
    Change sys (.main junk) next := by
  unfold mainStep at taken
  cases main : sys.main <;> simp only [main] at taken
  case execMulti test index =>
    split at taken
    · split at taken
      next polling =>
        obtain ⟨twq, moved, rfl⟩ := Option.map_eq_some_iff.mp taken
        exact .exec main polling moved
      next =>
        cases taken
        exact .execNext main
    · cases taken
      exact .create main
  case join test =>
    split at taken <;> cases taken
    rename_i returned
    exact .joined main returned
  case exitMulti test index =>
    split at taken
    · split at taken
      next =>
        obtain ⟨twq, moved, rfl⟩ := Option.map_eq_some_iff.mp taken
        exact .exit main moved
      next returned =>
        cases taken
        exact .exitNext main (not_not.mp returned)
    · rename_i past
      cases taken
      exact .testDone main (Nat.not_lt.mp past)
  case mempoolExit =>
    split at taken
    next report pool ran =>
      obtain rfl := Option.some.inj taken
      exact .poolExit main ran
    next fault died =>
      obtain rfl := Option.some.inj taken
      have change : Change sys (.main junk) _ := .poolExitDies main died
      rwa [main] at change
  case exited => cases taken

theorem writerStep_change {test : Test} {block : Nat} {timeOver : Bool}
    (main : sys.main = .join test) (taken : sys.writerStep test block timeOver = some next) :
    Change sys (.writer block timeOver) next := by
  unfold writerStep at taken
  cases writer : sys.writer <;> simp only [writer] at taken
  case absent | returned => cases taken
  case top =>
    obtain ⟨pool, moved, rfl⟩ := Option.map_eq_some_iff.mp taken
    exact .alloc main writer moved
  case got job =>
    obtain ⟨called, step, rfl⟩ := Option.map_eq_some_iff.mp taken
    obtain ⟨twq, moved, rfl⟩ := Option.map_eq_some_iff.mp step
    exact .call main writer moved
  case adding =>
    obtain ⟨added, step, rfl⟩ := Option.map_eq_some_iff.mp taken
    obtain ⟨twq, moved, rfl⟩ := Option.map_eq_some_iff.mp step
    rw [setTwq_twq_self]
    split
    next isIdle => exact .addDone main writer isIdle moved
    next busy => exact .add main writer (Bool.eq_false_iff.mpr busy) moved
  case check =>
    cases taken
    exact .check main writer

theorem step_change (taken : sys.step action = some next) :
    sys.pool.fault = none ∧ Change sys action next := by
  unfold step at taken
  split at taken
  next => cases taken
  next alive =>
    refine ⟨not_not.mp alive, ?_⟩
    cases action with
    | main junk => exact mainStep_change taken
    | writer block timeOver =>
        simp only at taken
        split at taken
        next test main => exact writerStep_change main taken
        next => cases taken
    | worker test index =>
        simp only at taken
        split at taken
        next possible =>
          obtain ⟨twq, moved, rfl⟩ := Option.map_eq_some_iff.mp taken
          exact .worker possible.1 moved
        next => cases taken
    | spurious test index =>
        obtain ⟨twq, moved, rfl⟩ := Option.map_eq_some_iff.mp taken
        exact .spurious moved
    | callback test index job =>
        simp only [callback] at taken
        split at taken
        next twq pool finished freed =>
          cases taken
          exact .callback finished freed
        next => cases taken
    | free job =>
        simp only [free] at taken
        split at taken
        next slice at_ =>
          obtain ⟨pool, moved, rfl⟩ := Option.map_eq_some_iff.mp taken
          exact .magic at_ moved
        next slice at_ =>
          obtain ⟨pool, moved, rfl⟩ := Option.map_eq_some_iff.mp taken
          exact .link at_ moved
        next => cases taken
    | client job contents =>
        obtain ⟨pool, moved, rfl⟩ := Option.map_eq_some_iff.mp taken
        exact .client moved

/-! ## The parts of the program -/

@[simp] theorem allocated_twq (pool : Mempool.System) : (sys.allocated pool).twq = sys.twq := by
  unfold allocated
  split <;> rfl

@[simp] theorem allocated_main (pool : Mempool.System) :
    (sys.allocated pool).main = sys.main := by
  unfold allocated
  split <;> rfl

/-- A step of the queues of one test, for all of them. -/
theorem twq_setTwq {test : Test} {twq : Threadwq.System Nat} {action : Threadwq.Action Nat}
    (moved : (sys.twq test).step action = some twq) (other : Test) :
    (sys.setTwq test twq).twq other = sys.twq other ∨
      ∃ action, (sys.twq other).step action = some ((sys.setTwq test twq).twq other) :=
  forall_setTwq
    (fun other later => later = sys.twq other ∨ ∃ action, (sys.twq other).step action = some later)
    (Or.inr ⟨action, moved⟩) (fun _ _ => Or.inl rfl) other

/-- The queues of a test are left alone or make a step. -/
theorem Change.twq (change : Change sys action next) (test : Test) :
    next.twq test = sys.twq test ∨ ∃ action, (sys.twq test).step action = some (next.twq test) := by
  cases change with
  | exec _ _ moved | exit _ moved | call _ _ moved | add _ _ _ moved | addDone _ _ _ moved
  | worker _ moved | spurious moved | callback moved _ => exact twq_setTwq moved test
  | alloc =>
      left
      exact congrFun (allocated_twq _) test
  | _ => exact Or.inl rfl

/-- `mempool_exit` is a `mempool_recycle` that also reads the reference count. -/
theorem step_recycle {pool : Mempool.System} (alive : pool.fault = none) {thread : Nat}
    (isIdle : pool.pc thread = .idle) (junk : Memory) :
    pool.step (.recycle thread 0 junk) =
      some (pool.under (Mempool.mempoolExit junk pool.pool) fun result =>
        pool.setPool result.2) := by
  unfold Mempool.System.step Mempool.mempoolExit Mempool.mempoolRecycle
  rw [if_neg (not_not.mpr alive)]
  simp only [isIdle, if_true]
  cases Mempool.__mempoolRecycle 0 junk pool.pool with
  | error fault => rfl
  | ok recycled =>
      simp only
      split <;> rfl

end System

end LinuxCTemplate.Main
