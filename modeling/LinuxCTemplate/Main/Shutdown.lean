import LinuxCTemplate.Main.Holding

/-!
# The end of the program

When `main` calls `mempool_exit`, every job has been handed to `call_rcu`.  A slice is in use
then exactly if a callback is still queued or running, and nothing in the order of the tests
excludes that: `free_all_cpu_call_rcu_data` does not wait for the callbacks, and `main` never
calls `rcu_barrier`, which would.
-/

namespace LinuxCTemplate.Main

open Foundation Threadwq

/-- The step is one of a callback. -/
def Action.frees : Action → Bool
  | .callback _ _ _ | .free _ => true
  | _ => false

namespace System

/-- `call_rcu` has no callback left to run, and none is running. -/
structure Quiet (sys : System) : Prop where
  rcu : ∀ test index, ((sys.twq test).twq index).rcu = []
  free : ∀ job, sys.pool.pc job = .idle

/-- The step is `main`'s call of `mempool_exit`. -/
def CallsExit (sys : System) : Action → Prop
  | .main _ => sys.main = .mempoolExit
  | _ => False

/-- No job callback outlives the job pool: no slice is in use when `mempool_exit` is called, it
reports no leak, and after it no callback calls `mempool_free` or is inside it. -/
structure NothingOutlives (history : List (System × Action)) (last : System) : Prop where
  unused : ∀ entry ∈ history, entry.1.CallsExit entry.2 → entry.1.pool.inUse = ∅
  noLeak : Machine.Visits history last fun sys => ∀ report, sys.main ≠ .exited (some report)
  noFree : ∀ entry ∈ history, ∀ report, entry.1.main = .exited report → entry.2.frees = false

variable {sys next : System} {action : Action}

/-! ## Callbacks -/

/-- A job that waits for `call_rcu` is unfinished. -/
theorem unfinished_of_queued (reachable : machine.Reachable sys) {test : Test} {index job : Nat}
    (queued : job ∈ ((sys.twq test).twq index).rcu) : sys.Unfinished job := by
  have parts := twq_reachable reachable test
  obtain ⟨handed, notFinished⟩ := (Threadwq.System.mem_rcu_iff parts).mp queued
  refine ⟨test, Threadwq.System.added_of_handed parts handed, fun other isFinished => ?_⟩
  have here := Threadwq.System.enqueued_of_handed parts handed
  have there := Threadwq.System.enqueued_of_handed parts
    (Threadwq.System.handed_of_finished parts isFinished)
  obtain rfl := Threadwq.System.onePlace_of_reachable parts index other job here there
  exact notFinished isFinished

/-- A callback that is queued may run at any time. -/
theorem exists_callback (reachable : machine.Reachable sys) (alive : sys.pool.fault = none)
    {test : Test} {index job : Nat} (queued : job ∈ ((sys.twq test).twq index).rcu) :
    ∃ next, machine.Step sys (.callback test index job) next := by
  have holding := holding_of_reachable reachable
  have nonempty := (holding.held job).mpr (Or.inr (unfinished_of_queued reachable queued))
  have isIdle : sys.pool.pc job = .idle := by
    by_contra busy
    exact nonempty (holding.freeing job busy).2.1
  have member : sys.slice job ∈ sys.pool.held job := by
    rcases holding.slice job with empty | isSlice
    · exact (nonempty empty).elim
    · rw [isSlice]
      exact List.mem_cons_self
  change ∃ next, sys.step (.callback test index job) = some next
  simp [step, callback, Threadwq.System.step, Mempool.System.step, execFinishRcu, alive, queued,
    isIdle, member]

/-! ## The call of `mempool_exit` -/

/-- When `main` is about to call `mempool_exit`, a slice is in use exactly if a callback is
queued or running. -/
theorem inUse_eq_empty_iff (reachable : machine.Reachable sys) (main : sys.main = .mempoolExit) :
    sys.pool.inUse = ∅ ↔ sys.Quiet := by
  have holding := holding_of_reachable reachable
  constructor
  · intro unused
    have ownsNone : ∀ job, sys.pool.owned job = [] := by
      intro job
      apply List.eq_nil_iff_forall_not_mem.mpr
      intro slice owned
      exact Set.notMem_empty slice (unused ▸ ⟨job, owned⟩)
    constructor
    case rcu =>
      intro test index
      apply List.eq_nil_iff_forall_not_mem.mpr
      intro job queued
      apply (holding.held job).mpr (Or.inr (unfinished_of_queued reachable queued))
      exact (List.append_eq_nil_iff.mp (ownsNone job)).1
    case free =>
      intro job
      by_contra busy
      exact (holding.freeing job busy).2.2 (List.append_eq_nil_iff.mp (ownsNone job)).2
  · intro quiet
    apply Set.eq_empty_iff_forall_notMem.mpr
    rintro slice ⟨job, owned⟩
    have holds : sys.pool.held job ≠ [] := by
      intro empty
      unfold Mempool.System.owned at owned
      rw [empty, quiet.free job] at owned
      cases owned
    have outside : ∀ test, sys.main ≠ .join test := by simp [main]
    rcases (holding.held job).mp holds with isGot | ⟨test, added, unfinished⟩
    · rcases (order_of_reachable reachable).noWriter outside with absent | returned
      · rw [absent] at isGot
        cases isGot
      · rw [returned] at isGot
        cases isGot
    · have stopped : sys.TestStopped test := by simp [TestStopped, main, MainPc.stopped]
      obtain ⟨index, _, handed⟩ := handed_of_stopped reachable stopped added
      have queued := (Threadwq.System.mem_rcu_iff (twq_reachable reachable test)).mpr
        ⟨handed, unfinished index⟩
      rw [quiet.rcu] at queued
      cases queued

/-- `mempool_exit` reports no leak when nothing is in use. -/
theorem noLeak_of_quiet (reachable : machine.Reachable sys) (main : sys.main = .mempoolExit)
    (quiet : sys.Quiet) {junk : Memory} {report : Option Mempool.LeakReport} {pool : Mempool.Pool}
    (ran : Mempool.mempoolExit junk sys.pool.pool = .ok (report, pool)) : report = none := by
  obtain ⟨stack, inv⟩ := Mempool.System.exists_inv (holding_of_reachable reachable).pool
  obtain ⟨report', pool', ran', exits⟩ := inv.exitsExactly quiet.free junk
  obtain ⟨rfl, _⟩ := Prod.mk.inj (Except.ok.inj (ran.symm.trans ran'))
  have unused := (inUse_eq_empty_iff reachable main).mpr quiet
  rw [Mempool.System.inUse_eq_clientSlices quiet.free] at unused
  rw [← Option.not_isSome_iff_eq_none, exits.leaks, unused]
  exact Set.not_nonempty_empty

/-! ## After `mempool_exit` -/

/-- When all workers have returned and no callback is left, only clients move, and none of
that brings a callback back. -/
theorem Quiet.after (quiet : sys.Quiet) (reachable : machine.Reachable sys)
    {report : Option Mempool.LeakReport} (main : sys.main = .exited report)
    (change : Change sys action next) :
    action.frees = false ∧ next.main = sys.main ∧ next.Quiet := by
  have workerReturned : ∀ test index, index < twqNum →
      ((sys.twq test).twq index).worker = .returned := by
    intro test index inRange
    apply (shutdown_of_reachable (twq_reachable reachable test) index).joined
    have stopped : sys.TestStopped test := by simp [TestStopped, main, MainPc.stopped]
    exact returned_of_stopped reachable stopped inRange
  cases change with
  | exec main' | execNext main' | create main' | joined main' | exit main' | exitNext main'
  | testDone main' | poolExit main' | poolExitDies main' | alloc main' | call main' | add main'
  | addDone main' | check main' =>
      rw [main] at main'
      cases main'
  | @worker test index _ inRange moved =>
      have returned := workerReturned test index inRange
      simp [Threadwq.System.step, workerStep, returned] at moved
  | @spurious test index _ moved =>
      obtain ⟨twq, woken, rfl⟩ := Option.map_eq_some_iff.mp moved
      obtain ⟨_, rfl⟩ := spuriousWakeup_eq_some.mp woken
      refine ⟨rfl, rfl, ?_, quiet.free⟩
      apply forall_setTwq fun _ later => ∀ queue, (later.twq queue).rcu = []
      · exact Threadwq.System.forall_setTwq (fun _ later => later.rcu = []) (quiet.rcu test index)
          fun queue _ => quiet.rcu test queue
      · exact fun other _ => quiet.rcu other
  | @callback test index job _ _ moved _ =>
      obtain ⟨twq, finish, _⟩ := Option.map_eq_some_iff.mp moved
      have queued := (execFinishRcu_eq_some.mp finish).1
      rw [quiet.rcu] at queued
      cases queued
  | @magic job _ _ at_ _ | @link job _ _ at_ _ =>
      rw [quiet.free job] at at_
      cases at_
  | client moved =>
      refine ⟨rfl, rfl, quiet.rcu, fun job => ?_⟩
      obtain ⟨_, unmoved⟩ := (Internal.client _).outcome moved
      by_contra busy
      exact (unmoved job busy).1 (quiet.free job)

/-- What holds from `mempool_exit` on if it was called while no callback was left. -/
def Over (sys : System) : Prop :=
  ∀ report, sys.main = .exited report → report = none ∧ sys.Quiet

theorem Over.step (isOver : sys.Over) (reachable : machine.Reachable sys)
    (quiet : sys.CallsExit action → sys.Quiet) (change : Change sys action next) : next.Over := by
  intro report main
  by_cases isExited : ∃ earlier, sys.main = .exited earlier
  · obtain ⟨earlier, main'⟩ := isExited
    obtain ⟨isNone, quiet⟩ := isOver earlier main'
    obtain ⟨_, sameMain, quiet'⟩ := quiet.after reachable main' change
    rw [sameMain, main'] at main
    obtain rfl := MainPc.exited.inj main
    exact ⟨isNone, quiet'⟩
  · cases change with
    | poolExit main' ran =>
        obtain rfl := MainPc.exited.inj main
        have isQuiet := quiet main'
        exact ⟨noLeak_of_quiet reachable main' isQuiet ran, isQuiet.rcu, isQuiet.free⟩
    | exec | exit | add | worker | spurious | callback | magic | link | client | check
    | addDone | call | poolExitDies => exact (isExited ⟨report, main⟩).elim
    | alloc => exact (isExited ⟨report, (allocated_main _).symm.trans main⟩).elim
    | @testDone _ test => cases test <;> cases main
    | execNext | create | joined | exitNext => cases main

end System

/-- No job callback outlives the pool exactly if none was queued or running when `main` called
`mempool_exit`. -/
theorem nothing_outlives_iff {history : List (System × Action)} {last : System}
    (run : System.machine.Run history last) :
    System.NothingOutlives history last ↔
      ∀ entry ∈ history, entry.1.CallsExit entry.2 → entry.1.Quiet := by
  have reached := run.reachable_of_mem
  have mainOf : ∀ entry : System × Action, entry.1.CallsExit entry.2 →
      entry.1.main = .mempoolExit := by
    rintro ⟨sys, action⟩ calls
    cases action <;> first | exact calls | exact calls.elim
  constructor
  · intro nothing entry member calls
    exact (System.inUse_eq_empty_iff (reached entry member) (mainOf entry calls)).mp
      (nothing.unused entry member calls)
  · intro quiet
    have visits : Machine.Visits history last System.Over := by
      refine run.invariant_of_steps (fun sys action => sys.CallsExit action → sys.Quiet) ?_ ?_ quiet
      · intro sys initial report main
        rw [initial.main] at main
        cases main
      · exact fun sys action next reachable isOver allowed taken =>
          isOver.step reachable allowed (System.step_change taken).2
    constructor
    case unused =>
      exact fun entry member calls =>
        (System.inUse_eq_empty_iff (reached entry member) (mainOf entry calls)).mpr
          (quiet entry member calls)
    case noLeak =>
      have noReport : ∀ sys : System, sys.Over → ∀ report, sys.main ≠ .exited (some report) :=
        fun sys isOver report main => nomatch (isOver _ main).1
      exact ⟨fun entry member => noReport entry.1 (visits.1 entry member), noReport last visits.2⟩
    case noFree =>
      intro entry member report main
      obtain ⟨next, taken, _⟩ := run.visits_next visits entry member
      exact ((visits.1 entry member report main).2.after (reached entry member) main
        (System.step_change taken).2).1

/-! ## One job -/

namespace System

/-- Slices of 56 bytes, for one `struct threadwq_job` each. -/
def jobPool : Mempool where
  addr := 4096
  magic := 0x54085408
  sz := 56
  name := Mempool.ascii "name"
  ref := 0
  max := 65536 * 4
  fail := 0
  ctor := false
  dtor := false

def zeros : Memory := fun _ => 0

/-- The program at the start of `test_threadwq2`. -/
def boot : System where
  pool := .boot jobPool zeros
  twq _ := .boot ⟨true, true⟩ twqMan
  main := .execMulti .threadwq2 0
  writer := .absent
  selectTwq := 0
  nextJob := 0
  slice _ := 0

theorem boot_initial : Initial boot := by
  have init : mainPool 4096 56 zeros = .ok (jobPool, boot.pool.pool.mem) := rfl
  constructor
  case init => exact ⟨4096, 56, zeros, init⟩
  case pool => exact Mempool.System.boot_initial init (by decide)
  case twq => exact fun test => Threadwq.System.boot_initial _ _ rfl
  case ops => exact fun test index => rfl
  case man => exact fun test => rfl
  all_goals rfl

/-- `threadwq_exec_multi`, with the workers up to their loop. -/
def execRun (test : Test) : List Action :=
  (List.range twqNum).flatMap fun index =>
    List.replicate 2 (.worker test index) ++ List.replicate 2 (.main zeros)

/-- `threadwq_exit_multi`, with the steps that each worker needs to return. -/
def exitRun (test : Test) (steps : List Nat) : List Action :=
  steps.zipIdx.flatMap fun (count, index) =>
    List.replicate 5 (.main zeros) ++ List.replicate count (.worker test index) ++
      List.replicate 3 (.main zeros)

/-- Both tests.  The writer of the first adds one job, to the second queue, and the writer of the
second gets none. -/
def testsRun : List Action :=
  List.flatten
    [execRun .threadwq2, [.main zeros, .writer 8192 false], List.replicate 5 (.writer 0 false),
      [.writer 0 true, .main zeros], exitRun .threadwq2 [5, 9, 5, 5], [.main zeros],
      execRun .threadwq3, [.main zeros, .writer 0 false, .writer 0 true, .main zeros],
      exitRun .threadwq3 [5, 5, 5, 5], [.main zeros]]

theorem exists_run (actions : List Action) (Holds : System → Prop) [DecidablePred Holds]
    (checked : (Machine.runWhile step (fun _ _ => true) boot actions).any
      (fun last => decide (Holds last)) = true) :
    ∃ history last, machine.Run history last ∧ Holds last := by
  obtain ⟨last, ran, holds⟩ := Machine.exists_runWhile step _ boot actions Holds checked
  have start : machine.Run [] boot := .start boot_initial
  obtain ⟨history, run, _⟩ := start.continue_evaluated (fun _ _ _ taken => taken) ran
  exact ⟨history, last, run, holds⟩

end System

/-- The callback has run before `mempool_exit`. -/
theorem nothing_outlives_iff_callback_first :
    ∃ history last, System.machine.Run history last ∧ last.main = .exited none ∧
      (System.NothingOutlives history last ↔
        ∀ entry ∈ history, entry.1.CallsExit entry.2 → entry.1.Quiet) := by
  obtain ⟨history, last, run, exited⟩ := System.exists_run
    (System.testsRun ++ [.callback .threadwq2 1 0, .free 0, .free 0, .main System.zeros])
    (fun last => last.main = .exited none) (by decide +kernel)
  exact ⟨history, last, run, exited, nothing_outlives_iff run⟩

/-- The callback runs after `mempool_exit`, which has reported its job as leaked. -/
theorem callback_outlives_pool :
    ∃ history last, System.machine.Run history last ∧
      (∃ entry ∈ history, entry.1.main = .exited (some ⟨1, Mempool.ascii "name"⟩) ∧
        entry.2 = .callback .threadwq2 1 0) ∧
      ¬ System.NothingOutlives history last := by
  obtain ⟨history, sys, run, exited, alive, rcu⟩ := System.exists_run
    (System.testsRun ++ [.main System.zeros])
    (fun sys => sys.main = .exited (some ⟨1, Mempool.ascii "name"⟩) ∧ sys.pool.fault = none ∧
      ((sys.twq .threadwq2).twq 1).rcu = [0]) (by decide +kernel)
  obtain ⟨next, taken⟩ := System.exists_callback ⟨history, run⟩ alive
    (rcu ▸ List.mem_cons_self : 0 ∈ ((sys.twq .threadwq2).twq 1).rcu)
  have member : (sys, Action.callback .threadwq2 1 0) ∈
      history ++ [(sys, .callback .threadwq2 1 0)] :=
    List.mem_append_right _ List.mem_cons_self
  refine ⟨_, next, run.step taken, ⟨_, member, exited, rfl⟩, fun nothing => ?_⟩
  exact nomatch nothing.noFree _ member _ exited

end LinuxCTemplate.Main
