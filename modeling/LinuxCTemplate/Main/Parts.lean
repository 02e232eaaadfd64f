import LinuxCTemplate.Main.Totals
import LinuxCTemplate.Threadwq.Fairness

/-!
# The queues of a test as a part of the program

A run of the program is a run of the queues of each of its tests, since a step of the program
is at most one step of them.  Their controlling threads are moved by `main` alone, and until
it stops the queues they are inside `threadwq_exec` or have returned from it.
-/

namespace LinuxCTemplate.Main

open Foundation Machine Threadwq

/-! ## Whose step it is -/

/-- A step of `main`. -/
def MainActs (_ : System) (action : Action) : Prop :=
  ∃ junk, action = .main junk

/-- A step of the writer. -/
def WriterActs (_ : System) (action : Action) : Prop :=
  ∃ block timeOver, action = .writer block timeOver

/-- A step of the worker of a queue of the test. -/
def WorkerOf (test : Test) (index : Nat) (_ : System) (action : Action) : Prop :=
  action = .worker test index

/-- The callback of a job is run. -/
def CallbackOf (test : Test) (index job : Nat) (_ : System) (action : Action) : Prop :=
  action = .callback test index job

/-- No thread and no callback is passed over for ever. -/
structure FairRun (exec : System.machine.Execution) : Prop where
  main : exec.Fair MainActs
  writer : exec.Fair WriterActs
  worker : ∀ test index, exec.Fair (WorkerOf test index)
  callback : ∀ test index job, exec.Fair (CallbackOf test index job)

namespace System

variable {sys next : System} {action : Action} {test : Test}

/-- The step of the queues that the action is, and the test they belong to. -/
def onQueues (sys : System) : Action → Option (Test × Threadwq.Action Nat)
  | .main _ =>
      match sys.main with
      | .execMulti test index =>
          if index < twqNum ∧ sys.controller test index = .pollRunning then
            some (test, .controller index)
          else
            none
      | .exitMulti test index =>
          if index < twqNum ∧ sys.controller test index ≠ .returned then
            some (test, .controller index)
          else
            none
      | _ => none
  | .writer _ _ =>
      match sys.main, sys.writer with
      | .join test, .got job => some (test, .call threadfunc (entry test sys.selectTwq) job)
      | .join test, .adding => some (test, .add threadfunc)
      | _, _ => none
  | .worker test index => some (test, .worker index 0)
  | .spurious test index => some (test, .spurious index)
  | .callback test index job => some (test, .rcu index job)
  | .free _ | .client _ _ => none

theorem mainStep_of_step {junk : Memory} (taken : sys.step (.main junk) = some next) :
    sys.mainStep junk = some next := by
  unfold step at taken
  split at taken
  · cases taken
  · exact taken

theorem writerStep_of_step {block : Nat} {timeOver : Bool} (main : sys.main = .join test)
    (taken : sys.step (.writer block timeOver) = some next) :
    sys.writerStep test block timeOver = some next := by
  unfold step at taken
  split at taken
  · cases taken
  · simp only [main] at taken
    exact taken

/-- Only `main` moves `main`. -/
theorem main_of_others (taken : sys.step action = some next) (others : ¬ MainActs sys action) :
    next.main = sys.main := by
  cases (step_change taken).2 with
  | exec | execNext | create | joined | exit | exitNext | testDone | poolExit | poolExitDies =>
      exact (others ⟨_, rfl⟩).elim
  | alloc => exact allocated_main _
  | _ => rfl

/-- While `main` waits for the writer nobody else moves it. -/
theorem writer_of_others (taken : sys.step action = some next) (main : sys.main = .join test)
    (others : ¬ WriterActs sys action) : next.writer = sys.writer := by
  cases (step_change taken).2 with
  | create main' => cases main.symm.trans main'
  | alloc | call | add | addDone | check => exact (others ⟨_, _, rfl⟩).elim
  | _ => rfl

/-- What an action is for the queues. -/
structure OnQueues (sys : System) (own : Option (Test × Threadwq.Action Nat)) (next : System) :
    Prop where
  rests : own = none → next.twq = sys.twq
  steps : ∀ test action, own = some (test, action) →
    ∃ twq, (sys.twq test).step action = some twq ∧ next.twq = (sys.setTwq test twq).twq

theorem OnQueues.none (sameTwq : next.twq = sys.twq) : OnQueues sys none next :=
  ⟨fun _ => sameTwq, by rintro _ _ ⟨⟩⟩

theorem OnQueues.some {own : Threadwq.Action Nat} {twq : Threadwq.System Nat}
    (moved : (sys.twq test).step own = some twq) (sameTwq : next.twq = (sys.setTwq test twq).twq) :
    OnQueues sys (some (test, own)) next :=
  ⟨by rintro ⟨⟩, by rintro _ _ ⟨⟩; exact ⟨twq, moved, sameTwq⟩⟩

theorem mainStep_onQueues {junk : Memory} (taken : sys.mainStep junk = some next) :
    OnQueues sys (sys.onQueues (.main junk)) next := by
  unfold mainStep at taken
  unfold onQueues
  cases main : sys.main <;> simp only [main] at taken ⊢
  case execMulti test index =>
    split at taken
    next inRange =>
      split at taken
      next polling =>
        obtain ⟨twq, moved, rfl⟩ := Option.map_eq_some_iff.mp taken
        rw [if_pos ⟨inRange, polling⟩]
        exact .some moved rfl
      next notPolling =>
        cases taken
        rw [if_neg fun both => notPolling both.2]
        exact .none rfl
    next past =>
      cases taken
      rw [if_neg fun both => past both.1]
      exact .none rfl
  case join test =>
    split at taken <;> cases taken
    exact .none rfl
  case exitMulti test index =>
    split at taken
    next inRange =>
      split at taken
      next running =>
        obtain ⟨twq, moved, rfl⟩ := Option.map_eq_some_iff.mp taken
        rw [if_pos ⟨inRange, running⟩]
        exact .some moved rfl
      next returned =>
        cases taken
        rw [if_neg fun both => returned both.2]
        exact .none rfl
    next past =>
      cases taken
      rw [if_neg fun both => past both.1]
      exact .none rfl
  case mempoolExit =>
    split at taken <;> cases taken <;> exact .none rfl
  case exited => cases taken

/-- A step of `main` that is one of a controlling thread. -/
theorem mainStep_of_onQueues {junk : Memory} {own : Threadwq.Action Nat}
    {twq : Threadwq.System Nat} (isOwn : sys.onQueues (.main junk) = some (test, own))
    (moved : (sys.twq test).step own = some twq) :
    sys.mainStep junk = some (sys.setTwq test twq) := by
  unfold onQueues at isOwn
  unfold mainStep
  cases main : sys.main <;> simp only [main] at isOwn ⊢ <;> try cases isOwn
  all_goals
    split at isOwn
    next possible =>
      cases isOwn
      rw [if_pos possible.1, if_pos possible.2, twqStep, moved, Option.map_some]
    next => cases isOwn

/-- A step of the program is at most one step of the queues of a test. -/
theorem step_onQueues (taken : sys.step action = some next) :
    OnQueues sys (sys.onQueues action) next := by
  have change := (step_change taken).2
  cases action with
  | main junk => exact mainStep_onQueues (mainStep_of_step taken)
  | writer block timeOver =>
      unfold onQueues
      cases change with
      | alloc main writer =>
          simp only [main, writer]
          exact .none (allocated_twq _)
      | call main writer moved =>
          simp only [main, writer]
          exact .some moved rfl
      | add main writer _ moved | addDone main writer _ moved =>
          simp only [main, writer]
          exact .some moved rfl
      | check main writer =>
          simp only [main, writer]
          exact .none rfl
  | worker test index =>
      cases change with
      | worker _ moved => exact .some moved rfl
  | spurious test index =>
      cases change with
      | spurious moved => exact .some moved rfl
  | callback test index job =>
      cases change with
      | callback moved _ => exact .some moved rfl
  | free job =>
      cases change <;> exact .none rfl
  | client job contents =>
      cases change
      exact .none rfl

theorem mainActs_of_controller {index : Nat}
    (own : sys.onQueues action = some (test, .controller index)) : MainActs sys action := by
  cases action with
  | main junk => exact ⟨junk, rfl⟩
  | writer =>
      simp only [onQueues] at own
      split at own <;> cases own
  | worker | spurious | callback | free | client =>
      simp only [onQueues] at own
      cases own

theorem eq_spurious {index : Nat} (own : sys.onQueues action = some (test, .spurious index)) :
    action = .spurious test index := by
  cases action with
  | main | writer =>
      simp only [onQueues] at own
      repeat' split at own
      all_goals cases own
  | spurious =>
      cases own
      rfl
  | worker | callback | free | client =>
      simp only [onQueues] at own
      cases own

theorem eq_entry {thread : Thread} {called : Entry} {job : Nat}
    (own : sys.onQueues action = some (test, .call thread called job)) :
    called = entry test sys.selectTwq := by
  cases action with
  | writer =>
      simp only [onQueues] at own
      split at own <;> cases own
      rfl
  | main =>
      simp only [onQueues] at own
      repeat' split at own
      all_goals cases own
  | worker | spurious | callback | free | client =>
      simp only [onQueues] at own
      cases own

/-! ## The run of the queues of a test -/

/-- The step of the queues of the test that the action is. -/
def onTest (test : Test) (sys : System) (action : Action) : Option (Threadwq.Action Nat) :=
  (sys.onQueues action).bind fun (current, own) => if current = test then some own else none

theorem onTest_eq_some {own : Threadwq.Action Nat} :
    onTest test sys action = some own ↔ sys.onQueues action = some (test, own) := by
  unfold onTest
  cases onQueues : sys.onQueues action with
  | none => simp
  | some current =>
      obtain ⟨current, found⟩ := current
      by_cases same : current = test <;> simp [same]

end System

/-- The queues of a test in a run of the program. -/
def onTest (exec : System.machine.Execution) (test : Test) :
    (Threadwq.System.machine Nat).Execution :=
  exec.project (fun sys => sys.twq test) (System.onTest test) (fun _ initial => initial.twq test)
    (by
      intro sys action next taken notOwn
      have onQueues := System.step_onQueues taken
      cases own : sys.onQueues action with
      | none => rw [onQueues.rests own]
      | some current =>
          obtain ⟨current, found⟩ := current
          obtain ⟨twq, _, sameTwq⟩ := onQueues.steps _ _ own
          have different : test ≠ current := by
            rintro rfl
            cases notOwn.symm.trans (System.onTest_eq_some.mpr own)
          rw [sameTwq]
          exact Function.update_of_ne different ..)
    (by
      intro sys action next taken own isOwn
      obtain ⟨twq, moved, sameTwq⟩ :=
        (System.step_onQueues taken).steps _ _ (System.onTest_eq_some.mp isOwn)
      rw [sameTwq, System.setTwq_twq_self]
      exact moved)

/-! ## The controlling threads -/

/-- `threadwq_exec` of the queue has returned. -/
def MainPc.executed (test : Test) (index : Nat) : MainPc → Bool
  | .execMulti current next => test.rank < current.rank || test = current && index < next
  | .join current | .exitMulti current _ => test.rank ≤ current.rank
  | .mempoolExit | .exited _ => true

namespace System

variable {sys next : System} {action : Action} {test : Test}

/-- Only `main` moves a controlling thread. -/
theorem controller_of_others (taken : sys.step action = some next)
    (others : ¬ MainActs sys action) (test : Test) (index : Nat) :
    next.controller test index = sys.controller test index := by
  have onQueues := step_onQueues taken
  cases own : sys.onQueues action with
  | none => rw [controller, onQueues.rests own, controller]
  | some current =>
      obtain ⟨current, found⟩ := current
      obtain ⟨twq, moved, sameTwq⟩ := onQueues.steps _ _ own
      have notController : found ≠ .controller index := by
        rintro rfl
        exact others (mainActs_of_controller own)
      rw [controller, sameTwq]
      refine forall_setTwq (fun other later => (later.twq index).controller =
        ((sys.twq other).twq index).controller) ?_ (fun _ _ => rfl) test
      exact Threadwq.System.step_controller_of_others moved notController

/-- A controlling thread that makes a step, and the others. -/
theorem controller_setTwq {index : Nat} {twq : Threadwq.System Nat}
    (moved : (sys.twq test).step (.controller index) = some twq) (other : Test) (queue : Nat) :
    (sys.setTwq test twq).controller other queue = sys.controller other queue ∨
      other = test ∧ queue = index ∧
        ControllerMoves index ((sys.twq test).twq index) (sys.controller test index)
          (((sys.setTwq test twq).twq other).twq queue) := by
  obtain ⟨later, stepped, rfl⟩ := Option.map_eq_some_iff.mp moved
  obtain ⟨_, rfl, moves⟩ := controllerStep_moves stepped
  refine forall_setTwq (fun other twq => (twq.twq queue).controller = sys.controller other queue ∨
    other = test ∧ queue = index ∧ ControllerMoves index ((sys.twq test).twq index)
      (sys.controller test index) (twq.twq queue)) ?_ (fun _ _ => Or.inl rfl) other
  by_cases same : queue = index
  · subst same
    rw [Threadwq.System.setTwq_twq_self]
    exact Or.inr ⟨rfl, rfl, moves⟩
  · rw [Threadwq.System.setTwq_twq_of_ne _ _ same]
    exact Or.inl rfl

/-- Where the controlling threads are that `main` has not asked to stop their queues. -/
structure Launching (sys : System) : Prop where
  unasked : ∀ test index, sys.main.asked test = false →
    sys.controller test index = .pollRunning ∨ sys.controller test index = .online
  executed : ∀ test index, index < twqNum → sys.main.executed test index = true →
    sys.controller test index ≠ .pollRunning

theorem Launching.initial (initial : Initial sys) : Launching sys := by
  constructor
  case unasked =>
    intro test index _
    obtain ⟨ops, busy, fresh⟩ := (initial.twq test).twq index
    left
    rw [controller, fresh]
    rfl
  case executed =>
    intro test index _ executed
    rw [initial.main] at executed
    cases test <;> simp [MainPc.executed, Test.rank] at executed

/-- A step that leaves the controlling threads alone. -/
theorem Launching.move (launching : Launching sys)
    (same : ∀ test index, next.controller test index = sys.controller test index)
    (asked : ∀ test, next.main.asked test = false → sys.main.asked test = false)
    (executed : ∀ test index, index < twqNum → next.main.executed test index = true →
      sys.main.executed test index = true ∨ sys.controller test index ≠ .pollRunning) :
    Launching next where
  unasked test index isUnasked := by
    rw [same]
    exact launching.unasked test index (asked test isUnasked)
  executed test index inRange isExecuted := by
    rw [same]
    exact (executed test index inRange isExecuted).elim
      (launching.executed test index inRange) id

/-- A controlling thread inside `threadwq_exec`. -/
theorem Launching.exec (launching : Launching sys) {index : Nat} {twq : Threadwq.System Nat}
    (polling : sys.controller test index = .pollRunning)
    (moved : (sys.twq test).step (.controller index) = some twq)
    (notYet : sys.main.executed test index = false) : Launching (sys.setTwq test twq) := by
  have outcome := controller_setTwq moved
  constructor
  case unasked =>
    intro other queue isUnasked
    rcases outcome other queue with same | ⟨rfl, rfl, moves⟩
    · rw [same]
      exact launching.unasked other queue isUnasked
    · rw [polling] at moves
      generalize here : ((sys.setTwq other twq).twq other).twq queue = later at moves
      rw [controller, here]
      cases moves with
      | poll => exact Or.inl polling
      | running => exact Or.inr rfl
  case executed =>
    intro other queue inRange executed
    rcases outcome other queue with same | ⟨rfl, rfl, _⟩
    · rw [same]
      exact launching.executed other queue inRange executed
    · cases notYet.symm.trans executed

/-- A controlling thread inside `threadwq_exit`. -/
theorem Launching.exit (launching : Launching sys) {index : Nat} {twq : Threadwq.System Nat}
    (moved : (sys.twq test).step (.controller index) = some twq)
    (asked : sys.main.asked test = true) (executed : sys.controller test index ≠ .pollRunning) :
    Launching (sys.setTwq test twq) := by
  have outcome := controller_setTwq moved
  constructor
  case unasked =>
    intro other queue isUnasked
    rcases outcome other queue with same | ⟨rfl, _, _⟩
    · rw [same]
      exact launching.unasked other queue isUnasked
    · cases asked.symm.trans isUnasked
  case executed =>
    intro other queue inRange isExecuted
    rcases outcome other queue with same | ⟨rfl, rfl, moves⟩
    · rw [same]
      exact launching.executed other queue inRange isExecuted
    · generalize sys.controller other queue = pc at moves executed
      generalize here : ((sys.setTwq other twq).twq other).twq queue = later at moves
      rw [controller, here]
      cases moves with
      | poll | running => exact (executed rfl).elim
      | _ => simp

theorem executed_next (test current : Test) (index : Nat) :
    current.next.executed test index = true →
      (MainPc.exitMulti current twqNum).executed test index = true := by
  cases test <;> cases current <;> simp [Test.next, MainPc.executed, Test.rank]

theorem Launching.mainStep (launching : Launching sys) {junk : Memory}
    (taken : sys.mainStep junk = some next) : Launching next := by
  unfold System.mainStep at taken
  cases main : sys.main <;> simp only [main] at taken
  case execMulti test index =>
    split at taken
    next inRange =>
      split at taken
      next polling =>
        obtain ⟨twq, moved, rfl⟩ := Option.map_eq_some_iff.mp taken
        exact launching.exec polling moved (by simp [main, MainPc.executed])
      next notPolling =>
        cases taken
        refine launching.move (fun _ _ => rfl) (by simp [main, MainPc.asked]) ?_
        intro other queue _ executed
        simp only [MainPc.executed, Bool.or_eq_true, Bool.and_eq_true,
          decide_eq_true_eq] at executed
        rcases executed with earlier | ⟨rfl, before⟩
        · exact Or.inl (by simp [main, MainPc.executed, earlier])
        · rcases Nat.lt_succ_iff_lt_or_eq.mp before with before | rfl
          · exact Or.inl (by simp [main, MainPc.executed, before])
          · exact Or.inr notPolling
    next past =>
      cases taken
      refine launching.move (fun _ _ => rfl) (by simp [main, MainPc.asked]) ?_
      intro other queue inRange executed
      have before := Nat.lt_of_lt_of_le inRange (Nat.not_lt.mp past)
      left
      cases other <;> cases test <;> simp_all [MainPc.executed, Test.rank]
  case join test =>
    split at taken <;> cases taken
    refine launching.move (fun _ _ => rfl) ?_ fun other queue _ executed => Or.inl ?_
    · simp only [main, MainPc.asked, decide_eq_false_iff_not]
      omega
    · rw [main]
      exact executed
  case exitMulti test index =>
    split at taken
    next inRange =>
      split at taken
      next =>
        obtain ⟨twq, moved, rfl⟩ := Option.map_eq_some_iff.mp taken
        refine launching.exit moved (by simp [main, MainPc.asked]) ?_
        exact launching.executed test index inRange (by simp [main, MainPc.executed])
      next =>
        cases taken
        refine launching.move (fun _ _ => rfl) (by simp [main, MainPc.asked])
          fun other queue _ executed => Or.inl ?_
        rw [main]
        exact executed
    next past =>
      cases taken
      refine launching.move (fun _ _ => rfl) (fun other => ?_)
        fun other queue _ executed => Or.inl ?_
      · rw [main]
        exact (asked_next other test index (Nat.not_lt.mp past)).1
      · rw [main]
        exact executed_next other test queue executed
  case mempoolExit =>
    split at taken <;> cases taken
    all_goals
      exact launching.move (fun _ _ => rfl) (by simp [main, MainPc.asked])
        fun _ _ _ _ => Or.inl (by simp [main, MainPc.executed])
  case exited => cases taken

theorem launching_of_reachable (reachable : machine.Reachable sys) : Launching sys := by
  apply reachable.invariant
  · exact fun sys => Launching.initial
  · intro sys action next _ launching taken
    by_cases own : MainActs sys action
    · obtain ⟨junk, rfl⟩ := own
      exact launching.mainStep (mainStep_of_step taken)
    · have sameMain := main_of_others taken own
      refine launching.move (controller_of_others taken own) (fun _ => ?_)
        fun _ _ _ executed => Or.inl ?_
      · rw [sameMain]
        exact id
      · rw [← sameMain]
        exact executed

end System

end LinuxCTemplate.Main
