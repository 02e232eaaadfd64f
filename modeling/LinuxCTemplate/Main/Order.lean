import LinuxCTemplate.Main.Changes
import LinuxCTemplate.Threadwq.Drain

/-!
# The order of the tests

Only the writer adds jobs, and only while `main` waits for it.  So every job is on a queue of
its test before `threadwq_exit_multi` asks the first of them to stop, and by the guarantee of
`threadwq_exit` it has been handed to `call_rcu` when `main` goes on.
-/

namespace LinuxCTemplate.Main

open Foundation Threadwq

/-- `threadwq_exit_multi` of the test has begun. -/
def MainPc.asked (test : Test) : MainPc → Bool
  | .execMulti current _ | .join current => test.rank < current.rank
  | .exitMulti current _ => test.rank ≤ current.rank
  | .mempoolExit | .exited _ => true

/-- `threadwq_exit` of the queue has returned. -/
def MainPc.stopped (test : Test) (index : Nat) : MainPc → Bool
  | .execMulti current _ | .join current => test.rank < current.rank
  | .exitMulti current next => test.rank < current.rank || test = current && index < next
  | .mempoolExit | .exited _ => true

namespace System

variable {sys next : System} {action : Action}

theorem twq_reachable (reachable : machine.Reachable sys) (test : Test) :
    (Threadwq.System.machine Nat).Reachable (sys.twq test) := by
  apply reachable.invariant
  · exact fun sys initial => .start (initial.twq test)
  · intro sys action next _ before taken
    rcases (step_change taken).2.twq test with same | ⟨_, moved⟩
    · rw [same]
      exact before
    · exact before.step moved

/-- No writer is inside an add function. -/
def NoneAdding (sys : System) : Prop :=
  ∀ test thread, ((sys.twq test).add thread).isIdle = true

/-- What the program points of `main` and of the writer say about the queues. -/
structure Order (sys : System) : Prop where
  unasked : ∀ test, sys.main.asked test = false →
    ∀ index, ((sys.twq test).twq index).log.any Event.isRequest = false
  stopped : ∀ test index, index < twqNum → sys.main.stopped test index = true →
    sys.controller test index = .returned
  writing : sys.writer = .absent ∨ sys.writer = .returned ∨ ∃ test, sys.main = .join test
  adding : ∀ test thread, ((sys.twq test).add thread).isIdle = false →
    sys.main = .join test ∧ sys.writer = .adding ∧ thread = threadfunc

theorem Order.initial (initial : Initial sys) : Order sys := by
  constructor
  case unasked =>
    intro test _ index
    obtain ⟨ops, busy, fresh⟩ := (initial.twq test).twq index
    rw [fresh]
    rfl
  case stopped =>
    intro test index _ isStopped
    rw [initial.main] at isStopped
    cases test <;> cases isStopped
  case writing => exact Or.inl initial.writer
  case adding =>
    intro test thread busy
    rw [(initial.twq test).add thread] at busy
    cases busy

/-- A controlling thread that has returned does not come back. -/
theorem controller_returned {twq later : Threadwq.System Nat} {action : Threadwq.Action Nat}
    (reachable : (Threadwq.System.machine Nat).Reachable twq)
    (moved : twq.step action = some later) {index : Nat}
    (returned : (twq.twq index).controller = .returned) :
    (later.twq index).controller = .returned := by
  have before := shutdown_of_reachable reachable index
  have after := shutdown_of_reachable (reachable.step moved) index
  obtain ⟨events, moreLog, _⟩ := Threadwq.System.step_writes moved index
  rw [← after.returned, moreLog, List.any_append, before.returned.mpr returned, Bool.true_or]

theorem Order.noneAdding (order : Order sys)
    (elsewhere : sys.writer ≠ .adding ∨ ∀ test, sys.main ≠ .join test) : NoneAdding sys := by
  intro test thread
  cases busy : ((sys.twq test).add thread).isIdle with
  | true => rfl
  | false =>
      obtain ⟨main, writer, _⟩ := order.adding test thread busy
      rcases elsewhere with notAdding | notJoining
      · exact (notAdding writer).elim
      · exact (notJoining test main).elim

/-- Unless `main` waits for the writer there is none. -/
theorem Order.noWriter (order : Order sys) (notJoining : ∀ test, sys.main ≠ .join test) :
    sys.writer = .absent ∨ sys.writer = .returned := by
  rcases order.writing with absent | returned | ⟨test, joining⟩
  · exact Or.inl absent
  · exact Or.inr returned
  · exact (notJoining test joining).elim

/-- A step of `main` or of the writer that leaves the queues alone, while no job is being
added. -/
theorem Order.move (order : Order sys) (none : NoneAdding sys) (sameTwq : next.twq = sys.twq)
    (asked : ∀ test, next.main.asked test = false → sys.main.asked test = false)
    (stopped : ∀ test index, index < twqNum → next.main.stopped test index = true →
      sys.main.stopped test index = true ∨ sys.controller test index = .returned)
    (writing : next.writer = .absent ∨ next.writer = .returned ∨ ∃ test, next.main = .join test) :
    Order next where
  unasked test isUnasked index := by
    rw [sameTwq]
    exact order.unasked test (asked test isUnasked) index
  stopped test index inRange isStopped := by
    unfold controller
    rw [sameTwq]
    rcases stopped test index inRange isStopped with before | returned
    · exact order.stopped test index inRange before
    · exact returned
  writing := writing
  adding test thread busy := by
    rw [sameTwq, none test thread] at busy
    cases busy

/-- A step of the queues of a test. -/
theorem Order.setTwq (order : Order sys) {test : Test} {twq : Threadwq.System Nat}
    {action : Threadwq.Action Nat} {writer : WriterPc}
    (reachable : ∀ test, (Threadwq.System.machine Nat).Reachable (sys.twq test))
    (moved : (sys.twq test).step action = some twq)
    (quiet : sys.main.asked test = false → ∀ index,
      (twq.twq index).log.any Event.isRequest = ((sys.twq test).twq index).log.any Event.isRequest)
    (writing : writer = .absent ∨ writer = .returned ∨ ∃ test, sys.main = .join test)
    (adding : ∀ other thread, (((sys.setTwq test twq).twq other).add thread).isIdle = false →
      sys.main = .join other ∧ writer = .adding ∧ thread = threadfunc) :
    Order { sys.setTwq test twq with writer } where
  unasked :=
    forall_setTwq (fun other later => sys.main.asked other = false →
      ∀ index, (later.twq index).log.any Event.isRequest = false)
      (fun isUnasked index => (quiet isUnasked index).trans (order.unasked test isUnasked index))
      fun other _ => order.unasked other
  stopped :=
    forall_setTwq (fun other later => ∀ index, index < twqNum →
      sys.main.stopped other index = true → (later.twq index).controller = .returned)
      (fun index inRange isStopped => controller_returned (reachable test) moved
        (order.stopped test index inRange isStopped))
      fun other _ => order.stopped other
  writing := writing
  adding := adding

/-- A step of the queues that is not one of an add function. -/
theorem Order.others (order : Order sys) {test : Test} {twq : Threadwq.System Nat}
    {action : Threadwq.Action Nat}
    (reachable : ∀ test, (Threadwq.System.machine Nat).Reachable (sys.twq test))
    (moved : (sys.twq test).step action = some twq) (notAdder : action.role ≠ .adder)
    (quiet : action.role ≠ .controller ∨ sys.main.asked test = true ∨ ∀ index,
      (twq.twq index).log = ((sys.twq test).twq index).log) :
    Order (sys.setTwq test twq) := by
  refine order.setTwq reachable moved ?_ order.writing ?_
  · intro isUnasked index
    rcases quiet with notController | isAsked | sameLog
    · exact (Threadwq.System.step_writes moved index).any_isRequest notController
    · rw [isAsked] at isUnasked
      cases isUnasked
    · rw [sameLog]
  · apply forall_setTwq fun other later => ∀ thread, (later.add thread).isIdle = false →
      sys.main = .join other ∧ sys.writer = .adding ∧ thread = threadfunc
    · rw [(Threadwq.System.step_others moved notAdder).1]
      exact order.adding test
    · exact fun other _ => order.adding other

/-- A step of the writer's add function, or its call. -/
theorem Order.adder (order : Order sys) {test : Test} {twq : Threadwq.System Nat}
    {action : Threadwq.Action Nat} {writer : WriterPc}
    (reachable : ∀ test, (Threadwq.System.machine Nat).Reachable (sys.twq test))
    (main : sys.main = .join test) (moved : (sys.twq test).step action = some twq)
    (isAdder : action.role = .adder) (own : action.thread? = some threadfunc)
    (busy : (twq.add threadfunc).isIdle = false → writer = .adding) :
    Order { sys.setTwq test twq with writer } := by
  refine order.setTwq reachable moved ?_ (Or.inr (Or.inr ⟨test, main⟩)) ?_
  · intro _ index
    refine (Threadwq.System.step_writes moved index).any_isRequest ?_
    rw [isAdder]
    exact nofun
  · apply forall_setTwq fun other later => ∀ thread, (later.add thread).isIdle = false →
      sys.main = .join other ∧ writer = .adding ∧ thread = threadfunc
    · intro thread isBusy
      by_cases same : thread = threadfunc
      · subst same
        exact ⟨main, busy isBusy, rfl⟩
      · have different : action.thread? ≠ some thread := by
          rw [own]
          exact fun isThread => same (Option.some.inj isThread).symm
        rw [Threadwq.System.step_add_of_ne moved different] at isBusy
        exact (same (order.adding test thread isBusy).2.2).elim
    · intro other different thread isBusy
      have there := (order.adding other thread isBusy).1
      rw [main] at there
      exact (different (MainPc.join.inj there).symm).elim

/-- While `threadwq_exec` waits for its worker it writes nothing. -/
theorem log_of_polling {twq later : Threadwq.System Nat} {index : Nat}
    (polling : (twq.twq index).controller = .pollRunning)
    (moved : twq.step (.controller index) = some later) (other : Nat) :
    (later.twq other).log = (twq.twq other).log := by
  obtain ⟨queue, stepped, rfl⟩ := Option.map_eq_some_iff.mp moved
  apply Threadwq.System.sameLog_setTwq
  simp only [controllerStep, polling] at stepped
  split at stepped <;> cases stepped <;> rfl

theorem asked_next (test current : Test) (index : Nat) (past : twqNum ≤ index) :
    (current.next.asked test = false → (MainPc.exitMulti current index).asked test = false) ∧
      ∀ queue, queue < twqNum → current.next.stopped test queue = true →
        (MainPc.exitMulti current index).stopped test queue = true := by
  have inRange : ∀ queue, queue < twqNum → queue < index :=
    fun queue isQueue => Nat.lt_of_lt_of_le isQueue past
  cases current <;> cases test <;>
    simp +contextual [Test.next, MainPc.asked, MainPc.stopped, Test.rank, inRange]

theorem Order.change (order : Order sys) (change : Change sys action next)
    (reachable : ∀ test, (Threadwq.System.machine Nat).Reachable (sys.twq test)) :
    Order next := by
  cases change with
  | exec main polling moved =>
      exact order.others reachable moved nofun (Or.inr (Or.inr (log_of_polling polling moved)))
  | exit main moved =>
      refine order.others reachable moved nofun (Or.inr (Or.inl ?_))
      rw [main]
      exact decide_eq_true (Nat.le_refl _)
  | worker _ moved | spurious moved => exact order.others reachable moved nofun (Or.inl nofun)
  | callback moved _ =>
      have after := order.others reachable moved nofun (Or.inl nofun)
      exact ⟨after.unasked, after.stopped, after.writing, after.adding⟩
  | call main writer moved =>
      exact order.adder reachable main moved rfl rfl fun _ => rfl
  | add main writer _ moved =>
      exact order.adder reachable main moved rfl rfl fun _ => writer
  | addDone main writer isIdle moved =>
      refine order.adder reachable main moved rfl rfl fun busy => ?_
      rw [isIdle] at busy
      cases busy
  | execNext main =>
      have outside : ∀ test, sys.main ≠ .join test := by simp [main]
      refine order.move (order.noneAdding (Or.inr outside)) rfl ?_ ?_
        ((order.noWriter outside).imp_right Or.inl)
      · simp [main, MainPc.asked]
      · simp +contextual [main, MainPc.stopped]
  | create main =>
      have outside : ∀ test, sys.main ≠ .join test := by simp [main]
      refine order.move (order.noneAdding (Or.inr outside)) rfl ?_ ?_
        (Or.inr (Or.inr ⟨_, rfl⟩))
      · simp [main, MainPc.asked]
      · simp +contextual [main, MainPc.stopped]
  | joined main writer =>
      refine order.move (order.noneAdding (Or.inl (by simp [writer]))) rfl ?_ ?_
        (Or.inr (Or.inl writer))
      · simp only [main, MainPc.asked, decide_eq_false_iff_not]
        omega
      · simp +contextual [main, MainPc.stopped]
  | exitNext main returned =>
      have outside : ∀ test, sys.main ≠ .join test := by simp [main]
      refine order.move (order.noneAdding (Or.inr outside)) rfl ?_ ?_
        ((order.noWriter outside).imp_right Or.inl)
      · simp [main, MainPc.asked]
      · intro test index _ isStopped
        simp only [MainPc.stopped, Bool.or_eq_true, Bool.and_eq_true,
          decide_eq_true_eq] at isStopped
        rcases isStopped with earlier | ⟨rfl, before⟩
        · exact Or.inl (by simp [main, MainPc.stopped, earlier])
        · rcases Nat.lt_succ_iff_lt_or_eq.mp before with before | rfl
          · exact Or.inl (by simp [main, MainPc.stopped, before])
          · exact Or.inr returned
  | testDone main past =>
      have outside : ∀ test, sys.main ≠ .join test := by simp [main]
      refine order.move (order.noneAdding (Or.inr outside)) rfl ?_ ?_
        ((order.noWriter outside).imp_right Or.inl)
      · intro test isUnasked
        rw [main]
        exact (asked_next test _ _ past).1 isUnasked
      · intro test index inRange isStopped
        rw [main]
        exact Or.inl ((asked_next test _ _ past).2 index inRange isStopped)
  | poolExit main _ =>
      have outside : ∀ test, sys.main ≠ .join test := by simp [main]
      refine order.move (order.noneAdding (Or.inr outside)) rfl ?_ ?_
        ((order.noWriter outside).imp_right Or.inl)
      · simp [main, MainPc.asked]
      · simp +contextual [main, MainPc.stopped]
  | alloc main writer _ =>
      refine order.move (order.noneAdding (Or.inl (by simp [writer]))) ?_ ?_ ?_ ?_
      · exact allocated_twq _
      · simp
      · simp +contextual
      · exact Or.inr (Or.inr ⟨_, (allocated_main _).trans main⟩)
  | check main writer =>
      refine order.move (order.noneAdding (Or.inl (by simp [writer]))) rfl ?_ ?_
        (Or.inr (Or.inr ⟨_, main⟩))
      · simp
      · simp +contextual
  | poolExitDies | magic | link | client =>
      exact ⟨order.unasked, order.stopped, order.writing, order.adding⟩

theorem order_of_reachable (reachable : machine.Reachable sys) : Order sys := by
  apply reachable.invariant
  · exact fun sys => Order.initial
  · exact fun sys action next reachable order taken =>
      order.change (step_change taken).2 (twq_reachable reachable)

/-! ## The queues -/

/-- The writer keeps to the queues of its test. -/
structure Selecting (sys : System) : Prop where
  select : sys.selectTwq.toNat < twqNum
  orderly : ∀ test, (sys.twq test).Orderly 4

theorem advance_lt (test : Test) {selectTwq : UInt32} (before : selectTwq.toNat < twqNum) :
    (advance test selectTwq).toNat < twqNum := by
  unfold advance
  cases test with
  | threadwq2 =>
      simp only
      split
      · decide
      · rename_i inPool
        exact UInt32.lt_iff_toNat_lt.mp (UInt32.not_le.mp inPool)
  | threadwq3 => exact before

theorem entry_within (test : Test) {selectTwq : UInt32} (before : selectTwq.toNat < twqNum) :
    (entry test selectTwq).Within twqNum := by
  cases test with
  | threadwq2 => exact before
  | threadwq3 => exact trivial

theorem Selecting.setTwq (selecting : Selecting sys) (order : Order sys) {test : Test}
    {twq : Threadwq.System Nat} {action : Threadwq.Action Nat}
    (moved : (sys.twq test).step action = some twq)
    (calls : ∀ thread entry job, action = .call thread entry job → entry.Within twqNum)
    (joining : action.role = .adder → sys.main = .join test) : Selecting (sys.setTwq test twq) := by
  refine ⟨selecting.select, ?_⟩
  apply forall_setTwq fun _ later => later.Orderly 4
  · refine (selecting.orderly test).step moved calls fun isAdder => ?_
    apply order.unasked
    rw [joining isAdder]
    exact decide_eq_false (Nat.lt_irrefl _)
  · exact fun other _ => selecting.orderly other

theorem Selecting.change (selecting : Selecting sys) (order : Order sys)
    (change : Change sys action next) : Selecting next := by
  cases change with
  | exec _ _ moved | exit _ moved | worker _ moved | spurious moved =>
      exact selecting.setTwq order moved (fun _ _ _ isCall => nomatch isCall) nofun
  | callback moved _ =>
      have after := selecting.setTwq order moved (fun _ _ _ isCall => nomatch isCall) nofun
      exact ⟨after.select, after.orderly⟩
  | add main _ _ moved =>
      exact selecting.setTwq order moved (fun _ _ _ isCall => nomatch isCall) fun _ => main
  | addDone main _ _ moved =>
      have after := selecting.setTwq order moved (fun _ _ _ isCall => nomatch isCall) fun _ => main
      exact ⟨after.select, after.orderly⟩
  | @call _ _ test _ _ main _ moved =>
      have after := selecting.setTwq order moved (fun thread entry job isCall => by
        obtain ⟨_, rfl, _⟩ := Threadwq.Action.call.inj isCall
        exact entry_within test selecting.select) fun _ => main
      exact ⟨after.select, after.orderly⟩
  | @alloc _ _ test pool =>
      refine ⟨advance_lt test selecting.select, fun other => ?_⟩
      change ((sys.allocated pool).twq other).Orderly 4
      rw [allocated_twq]
      exact selecting.orderly other
  | create => exact ⟨(by decide : (0 : UInt32).toNat < twqNum), selecting.orderly⟩
  | _ => exact ⟨selecting.select, selecting.orderly⟩

theorem selecting_of_reachable (reachable : machine.Reachable sys) : Selecting sys := by
  apply reachable.invariant
  · intro sys initial
    refine ⟨?_, fun test => .initial (initial.twq test) ?_ (by decide)⟩
    · rw [initial.selectTwq]
      decide
    · rw [initial.man]
      rfl
  · exact fun sys action next reachable selecting taken =>
      selecting.change (order_of_reachable reachable) (step_change taken).2

/-- `threadwq_exit_multi` of the test has gone through all its queues. -/
def TestStopped (sys : System) (test : Test) : Prop :=
  ∀ index, index < twqNum → sys.main.stopped test index = true

section Stopped

variable {test : Test} (reachable : machine.Reachable sys) (stopped : sys.TestStopped test)

include reachable stopped

theorem returned_of_stopped {index : Nat} (inRange : index < twqNum) :
    sys.controller test index = .returned :=
  (order_of_reachable reachable).stopped test index inRange (stopped index inRange)

/-- Nobody adds a job to the queues any more. -/
theorem noneAdding_of_stopped (thread : Thread) : ((sys.twq test).add thread).isIdle = true := by
  cases busy : ((sys.twq test).add thread).isIdle with
  | true => rfl
  | false =>
      obtain ⟨main, _⟩ := (order_of_reachable reachable).adding test thread busy
      have first := stopped 0 (by decide)
      rw [main] at first
      exact (Nat.lt_irrefl _ (of_decide_eq_true first)).elim

/-- Every job that was added has been handed to `call_rcu`. -/
theorem handed_of_stopped {job : Nat} (added : job ∈ (sys.twq test).added) :
    ∃ index, index < twqNum ∧ job ∈ handedToRcu ((sys.twq test).twq index).log :=
  ((selecting_of_reachable reachable).orderly test).handed (twq_reachable reachable test)
    (noneAdding_of_stopped reachable stopped)
    (fun _ inRange => returned_of_stopped reachable stopped inRange) added

end Stopped

end System

end LinuxCTemplate.Main
