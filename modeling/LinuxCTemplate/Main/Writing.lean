import LinuxCTemplate.Main.Progress
import LinuxCTemplate.Threadwq.Undisturbed

/-!
# The writer returns

The writer goes round its loop until the time of the test is over.  It waits inside its add
function only.  Nobody else adds jobs and no queue is asked to stop meanwhile, so that the
add function returns, if in the test of `rr4idle_add_job` some worker is not woken without a
signal again and again.
-/

namespace LinuxCTemplate.Main

open Foundation Machine Threadwq

namespace System

variable {sys next : System} {action : Action} {test : Test}

/-- A writer that is adding a job is inside its add function. -/
theorem busy_of_adding (reachable : machine.Reachable sys) (main : sys.main = .join test)
    (writer : sys.writer = .adding) : ((sys.twq test).add threadfunc).isIdle = false := by
  revert main writer
  apply reachable.invariant
  · intro sys initial main
    rw [initial.main] at main
    cases main
  · intro sys action next _ ih taken main writer
    have others : ∀ {current : Test} {twq : Threadwq.System Nat} {own : Threadwq.Action Nat},
        sys.main = .join test → sys.writer = .adding → own.role ≠ .adder →
        (sys.twq current).step own = some twq →
        (((sys.setTwq current twq).twq test).add threadfunc).isIdle = false := by
      intro current twq own main writer notAdder moved
      refine (forall_setTwq (fun other later => (later.add threadfunc).isIdle =
        ((sys.twq other).add threadfunc).isIdle) ?_ (fun _ _ => rfl) test).trans (ih main writer)
      rw [(Threadwq.System.step_others moved notAdder).1]
    cases (step_change taken).2 with
    | exec main' | exit main' => cases main'.symm.trans main
    | execNext | joined | exitNext | poolExit => cases main
    | @testDone _ current => cases current <;> cases main
    | create => cases writer
    | alloc _ writer' =>
        unfold allocated at writer
        simp only at writer
        split at writer <;> cases writer
    | @call _ _ current _ twq main' _ moved =>
        obtain rfl := MainPc.join.inj (main'.symm.trans main)
        change (((sys.setTwq current twq).twq current).add threadfunc).isIdle = false
        rw [setTwq_twq_self]
        exact Threadwq.System.busy_of_call moved
    | add main' _ busy =>
        obtain rfl := MainPc.join.inj (main'.symm.trans main)
        rw [setTwq_twq_self]
        exact busy
    | addDone => cases writer
    | @check _ timeOver => cases timeOver <;> cases writer
    | worker _ moved => exact others main writer (by rintro ⟨⟩) moved
    | spurious moved => exact others main writer (by rintro ⟨⟩) moved
    | callback moved _ => exact others main writer (by rintro ⟨⟩) moved
    | poolExitDies | magic | link | client => exact ih main writer

/-- The writer of `test_threadwq2` chooses its queues. -/
theorem placing_of_threadwq2 (reachable : machine.Reachable sys) (thread : Thread) :
    ((sys.twq .threadwq2).add thread).searching = false := by
  revert thread
  apply reachable.invariant
  · intro sys initial thread
    rw [(initial.twq _).add]
    rfl
  · intro sys action next _ ih taken thread
    have onQueues := step_onQueues taken
    cases own : sys.onQueues action with
    | none =>
        rw [onQueues.rests own]
        exact ih thread
    | some current =>
        obtain ⟨current, found⟩ := current
        obtain ⟨twq, moved, sameTwq⟩ := onQueues.steps _ _ own
        rw [sameTwq]
        refine forall_setTwq (fun other later => other = .threadwq2 →
          (later.add thread).searching = false) ?_ ?_ .threadwq2 rfl
        · rintro rfl
          by_contra searching
          rw [Bool.not_eq_false] at searching
          rcases Threadwq.System.searching_of_step moved searching with before | ⟨_, rfl, _⟩
          · cases before.symm.trans (ih thread)
          · cases eq_entry own
        · rintro _ _ rfl
          exact ih thread

theorem allocated_writer (sys : System) (pool : Mempool.System) :
    (sys.allocated pool).writer = .check ∨ ∃ job, (sys.allocated pool).writer = .got job := by
  unfold allocated
  split
  · exact Or.inl rfl
  · exact Or.inr ⟨_, rfl⟩

/-- A writer that has been created does not become absent. -/
theorem writer_stays (taken : sys.step action = some next) (present : sys.writer ≠ .absent) :
    next.writer ≠ .absent := by
  cases (step_change taken).2 with
  | @alloc _ _ _ pool =>
      change (sys.allocated pool).writer ≠ .absent
      rcases allocated_writer sys pool with refused | ⟨job, given⟩
      · simp [refused]
      · simp [given]
  | @check _ timeOver => cases timeOver <;> simp
  | create | call | addDone => simp
  | _ => exact present

/-- The writer is on the queues of its test only. -/
theorem inSequence_lt (reachable : machine.Reachable sys) (test : Test) (thread : Thread)
    (index : Nat) (inside : ((sys.twq test).add thread).inSequence index = true) :
    index < twqNum := by
  revert test thread index
  apply reachable.invariant
  · intro sys initial test thread index inside
    rw [(initial.twq test).add] at inside
    cases inside
  · intro sys action next reachable ih taken test thread index inside
    rcases (step_change taken).2.twq test with same | ⟨own, moved⟩
    · rw [same] at inside
      exact ih test thread index inside
    · have orderly := (selecting_of_reachable (reachable.step taken)).orderly test
      exact Threadwq.System.inSequence_step moved orderly.within (ih test) thread index inside

end System

section Writing

variable {exec : System.machine.Execution} {test : Test}

/-- `main` waits for the writer, which is at the point. -/
def Writes (exec : System.machine.Execution) (test : Test) (pc : WriterPc) (n : Nat) : Prop :=
  mainAt exec n = .join test ∧ (exec.state n).writer = pc

/-- In each test there is a moment from which on the writer finds the time to be over. -/
def TimeRunsOut (exec : System.machine.Execution) : Prop :=
  ∀ test, ∃ N, ∀ n, N ≤ n → Writes exec test .check n →
    ∀ block, exec.label n ≠ some (.writer block false)

/-- In `test_threadwq3` there is a queue whose worker is not woken without a signal for
ever. -/
def Calm (exec : System.machine.Execution) : Prop :=
  ∃ index, index < twqNum ∧ ∃ N, ∀ n, N ≤ n → exec.label n ≠ some (.spurious .threadwq3 index)

/-- While the writer has not returned `main` waits for it. -/
theorem main_waits {n : Nat} (main : mainAt exec n = .join test)
    (writing : (exec.state n).writer ≠ .returned) : mainAt exec (n + 1) = .join test := by
  by_cases own : exec.Takes MainActs n
  · obtain ⟨junk, taken⟩ := mainStep_of_takes own
    simp [System.mainStep, main, writing] at taken
  · exact main_persists main own

theorem Writes.of_others {pc : WriterPc} (writing : pc ≠ .returned) {n : Nat}
    (here : Writes exec test pc n) (others : ¬ exec.Takes WriterActs n) :
    Writes exec test pc (n + 1) := by
  obtain ⟨main, rfl⟩ := here
  refine ⟨main_waits main writing, ?_⟩
  apply exec.kept (P := fun sys => sys.writer = (exec.state n).writer) rfl
  intro action label taken
  exact System.writer_of_others taken main fun own => others ⟨action, label, own⟩

theorem writerStep_of_takes {n : Nat} (main : mainAt exec n = .join test)
    (taken : exec.Takes WriterActs n) : ∃ block timeOver,
      exec.label n = some (.writer block timeOver) ∧
      (exec.state n).writerStep test block timeOver = some (exec.state (n + 1)) := by
  obtain ⟨action, label, block, timeOver, rfl⟩ := taken
  exact ⟨block, timeOver, label, System.writerStep_of_step main (exec.step n _ label)⟩

variable (fair : FairRun exec) (alive : ∀ n, (exec.state n).pool.fault = none)

include fair alive

/-- What the writer leads to by its own next step. -/
theorem writer_next {pc : WriterPc} (writing : pc ≠ .returned)
    (possible : ∀ n, Writes exec test pc n →
      ((exec.state n).writerStep test 0 false).isSome = true) {Q : Nat → Prop}
    (after : ∀ n block timeOver, Writes exec test pc n →
      (exec.state n).writerStep test block timeOver = some (exec.state (n + 1)) → Q (n + 1)) :
    LeadsTo (Writes exec test pc) Q := by
  refine (fair.writer.takes (P := Writes exec test pc) (fun n here => here.of_others writing)
    (LeadsTo.of_imp fun n _ here => ?_)).next ?_
  · exact enables_writer (alive n) here.1 (possible n here)
  · rintro n ⟨here, taken⟩
    obtain ⟨block, timeOver, _, stepped⟩ := writerStep_of_takes here.1 taken
    exact after n block timeOver here stepped

/-- `mempool_alloc` returns. -/
theorem check_of_top :
    LeadsTo (Writes exec test .top) fun n =>
      Writes exec test .check n ∨ ∃ job, Writes exec test (.got job) n := by
  refine writer_next fair alive (by simp) ?_ ?_
  · rintro n ⟨_, writer⟩
    have isIdle := (System.holding_of_reachable (exec.reachable n)).nextJob_idle
    simp [System.writerStep, writer, Mempool.System.step, alive n, isIdle,
      Mempool.System.mallocMayReturn]
  · rintro n block timeOver ⟨main, writer⟩ taken
    simp only [System.writerStep, writer] at taken
    obtain ⟨pool, _, later⟩ := Option.map_eq_some_iff.mp taken
    have main' : mainAt exec (n + 1) = .join test := by
      rw [mainAt, ← later]
      exact (System.allocated_main pool).trans main
    have writer' : (exec.state (n + 1)).writer = ((exec.state n).allocated pool).writer := by
      rw [← later]
    rcases System.allocated_writer (exec.state n) pool with refused | ⟨job, given⟩
    · exact Or.inl ⟨main', writer'.trans refused⟩
    · exact Or.inr ⟨job, main', writer'.trans given⟩

/-- The add function is called. -/
theorem adding_of_got (job : Nat) :
    LeadsTo (Writes exec test (.got job)) (Writes exec test .adding) := by
  refine writer_next fair alive (by simp) ?_ ?_
  · rintro n ⟨_, writer⟩
    have order := System.order_of_reachable (exec.reachable n)
    have isIdle := order.noneAdding (Or.inl (by simp [writer])) test System.threadfunc
    have notAdded := ((System.holding_of_reachable (exec.reachable n)).got job writer).2 test
    have mayCall : ((exec.state n).twq test).mayCall System.threadfunc = true := rfl
    simp [System.writerStep, writer, System.twqStep, Threadwq.System.step, isIdle, notAdded,
      mayCall]
  · rintro n block timeOver ⟨main, writer⟩ taken
    simp only [System.writerStep, writer] at taken
    obtain ⟨called, step, later⟩ := Option.map_eq_some_iff.mp taken
    obtain ⟨twq, _, rfl⟩ := Option.map_eq_some_iff.mp step
    unfold Writes mainAt
    rw [← later]
    exact ⟨main, rfl⟩

/-- After a test of the time that finds it over the writer has returned. -/
theorem returned_of_check {N : Nat}
    (isOver : ∀ n, N ≤ n → Writes exec test .check n →
      ∀ block, exec.label n ≠ some (.writer block false)) :
    LeadsTo (fun n => N ≤ n ∧ Writes exec test .check n) (Writes exec test .returned) := by
  refine (fair.writer.takes (P := fun n => N ≤ n ∧ Writes exec test .check n)
    (fun n here others => ⟨Nat.le_succ_of_le here.1, here.2.of_others (by simp) others⟩)
    (LeadsTo.of_imp fun n _ here => ?_)).next ?_
  · apply enables_writer (alive n) here.2.1
    simp [System.writerStep, here.2.2]
  · rintro n ⟨⟨later, here⟩, taken⟩
    obtain ⟨block, timeOver, label, stepped⟩ := writerStep_of_takes here.1 taken
    cases timeOver with
    | false => exact (isOver n later here block label).elim
    | true =>
        simp only [System.writerStep, here.2, if_true, Option.some.injEq] at stepped
        unfold Writes mainAt
        rw [← stepped]
        exact ⟨here.1, rfl⟩

/-! ## The add function of the writer -/

omit fair alive in
/-- The part of the writer in its add function. -/
theorem check_or_adding {n : Nat} (here : Writes exec test .adding n) :
    Writes exec test .adding (n + 1) ∨ Writes exec test .check (n + 1) := by
  by_cases own : exec.Takes WriterActs n
  · obtain ⟨main, writer⟩ := here
    obtain ⟨block, timeOver, _, taken⟩ := writerStep_of_takes main own
    simp only [System.writerStep, writer] at taken
    obtain ⟨added, step, later⟩ := Option.map_eq_some_iff.mp taken
    obtain ⟨twq, _, rfl⟩ := Option.map_eq_some_iff.mp step
    unfold Writes mainAt
    rw [← later]
    split
    · exact Or.inr ⟨main, rfl⟩
    · exact Or.inl ⟨main, writer⟩
  · exact Or.inl (here.of_others (by simp) own)

omit fair alive in
/-- While `main` waits for the writer the controlling threads wait for `main`. -/
theorem online_of_join {n index : Nat} (main : mainAt exec n = .join test)
    (inRange : index < twqNum) : (exec.state n).controller test index = .online := by
  have launching := System.launching_of_reachable (exec.reachable n)
  have main : (exec.state n).main = .join test := main
  rcases launching.unasked test index (by simp [main, MainPc.asked]) with polling | online
  · exact (launching.executed test index inRange (by simp [main, MainPc.executed]) polling).elim
  · exact online

/-- The queues are scheduled fairly while `main` waits for the writer. -/
theorem fairFor_of_join {N index : Nat} (main : ∀ n, N ≤ n → mainAt exec n = .join test)
    (inRange : index < twqNum) : FairFor (onTest exec test) index := by
  have created : ∀ n, N ≤ n → (exec.state n).main.created test index = true := by
    intro n later
    have main : (exec.state n).main = .join test := main n later
    simp [main, MainPc.created]
  exact fairFor_onTest fair alive inRange created (addFair_of_join fair alive main)
    (controllerFair_of_online fun n later => online_of_join (main n later) inRange)

theorem usedFair_of_join {N : Nat} (main : ∀ n, N ≤ n → mainAt exec n = .join test) :
    FairForUsed (onTest exec test) System.threadfunc := fun n queue inside =>
  fairFor_of_join fair alive main
    (System.inSequence_lt (exec.reachable n) test System.threadfunc queue inside)

/-- The add function of the writer returns. -/
theorem idle_of_join {N : Nat} (main : ∀ n, N ≤ n → mainAt exec n = .join test)
    (calm : Calm exec) (n : Nat) :
    ∃ m, n ≤ m ∧ ((exec.state m).twq test).add System.threadfunc = .idle := by
  have fairAdd := addFair_of_join fair alive main System.threadfunc
  have used := usedFair_of_join fair alive main
  cases test with
  | threadwq2 =>
      exact idle_of_placing fairAdd used n (System.placing_of_threadwq2 (exec.reachable n) _)
  | threadwq3 =>
      obtain ⟨index, inRange, start, calm⟩ := calm
      have order := fun n => System.order_of_reachable (exec.reachable n)
      have undisturbed :
          Undisturbed (onTest exec .threadwq3) System.threadfunc index (max N start) := by
        constructor
        case alone =>
          intro n _ other different
          by_contra busy
          exact different ((order n).adding _ other (Bool.not_eq_true _ ▸ busy)).2.2
        case online =>
          intro n later
          exact online_of_join (main n (Nat.le_trans (Nat.le_max_left N start) later)) inRange
        case serving =>
          intro n later
          have main : (exec.state n).main = .join .threadwq3 :=
            main n (Nat.le_trans (Nat.le_max_left N start) later)
          exact (order n).unasked _ (by simp [main, MainPc.asked]) index
        case calm =>
          intro n later label
          obtain ⟨action, label, own⟩ := Option.bind_eq_some_iff.mp label
          obtain rfl := System.eq_spurious (System.onTest_eq_some.mp own)
          exact calm n (Nat.le_trans (Nat.le_max_right N start) later) label
      have inPool : index < poolOf (onTest exec .threadwq3) := by
        have pool := ((System.selecting_of_reachable (exec.reachable 0)).orderly .threadwq3).pool
        change index < ((exec.state 0).twq .threadwq3).man.twqPoolNr.toNat
        rw [pool]
        exact inRange
      have fairQueue := fairFor_of_join fair alive main inRange
      obtain ⟨m, later, idle⟩ := idle_of_undisturbed fairAdd used inPool
        fairQueue (callbacksReturn fairQueue.worker) undisturbed (max n (max N start))
        (Nat.le_max_right n _)
      exact ⟨m, Nat.le_trans (Nat.le_max_left n _) later, idle⟩

theorem check_of_adding {N : Nat} (main : ∀ n, N ≤ n → mainAt exec n = .join test)
    (calm : Calm exec) : LeadsTo (Writes exec test .adding) (Writes exec test .check) := by
  intro n here
  by_contra never
  have adds : ∀ m, n ≤ m → Writes exec test .adding m := by
    refine kept_of_le here fun m latest here => ?_
    rcases check_or_adding here with still | check
    · exact still
    · exact (never ⟨m + 1, Nat.le_succ_of_le latest, check⟩).elim
  obtain ⟨m, later, idle⟩ := idle_of_join fair alive main calm n
  have busy := System.busy_of_adding (exec.reachable m) (adds m later).1 (adds m later).2
  rw [idle] at busy
  cases busy

/-- The writer comes to its test of the time. -/
theorem check_of_writing {N : Nat} (main : ∀ n, N ≤ n → mainAt exec n = .join test)
    (calm : Calm exec) :
    LeadsTo (fun n => mainAt exec n = .join test ∧ (exec.state n).writer ≠ .absent ∧
        (exec.state n).writer ≠ .returned) (Writes exec test .check) := by
  have ofAdding := check_of_adding fair alive main calm
  have ofGot : LeadsTo (fun n => ∃ job, Writes exec test (.got job) n)
      (Writes exec test .check) := by
    rintro n ⟨job, here⟩
    exact ((adding_of_got fair alive job).trans ofAdding) n here
  have ofTop := (check_of_top fair alive).trans ((LeadsTo.of_imp fun _ => id).or ofGot)
  rintro n ⟨atJoin, present, writing⟩
  cases writer : (exec.state n).writer with
  | absent => exact (present writer).elim
  | top => exact ofTop n ⟨atJoin, writer⟩
  | got job => exact ofGot n ⟨job, atJoin, writer⟩
  | adding => exact ofAdding n ⟨atJoin, writer⟩
  | check => exact ⟨n, Nat.le_refl n, atJoin, writer⟩
  | returned => exact (writing writer).elim

/-- The writer returns. -/
theorem writer_returns (timeRunsOut : TimeRunsOut exec) (calm : Calm exec) :
    LeadsTo (Writes exec test .top) (Writes exec test .returned) := by
  rintro n ⟨main, writer⟩
  by_contra never
  have writes : ∀ m, n ≤ m → mainAt exec m = .join test ∧ (exec.state m).writer ≠ .absent ∧
      (exec.state m).writer ≠ .returned := by
    have waits : ∀ m, n ≤ m → mainAt exec m = .join test ∧ (exec.state m).writer ≠ .absent := by
      refine kept_of_le ⟨main, by simp [writer]⟩ fun m later here => ?_
      refine ⟨main_waits here.1 fun returned => never ⟨m, later, here.1, returned⟩, ?_⟩
      apply exec.kept (P := fun sys => sys.writer ≠ .absent) here.2
      exact fun action _ taken => System.writer_stays taken here.2
    intro m later
    obtain ⟨main, present⟩ := waits m later
    exact ⟨main, present, fun returned => never ⟨m, later, main, returned⟩⟩
  obtain ⟨timeEnd, isOver⟩ := timeRunsOut test
  have late := Nat.le_max_left n timeEnd
  obtain ⟨m, later, check⟩ := check_of_writing fair alive (fun m later => (writes m later).1) calm
    (max n timeEnd) (writes _ late)
  obtain ⟨k, latest, returned⟩ := returned_of_check fair alive isOver m
    ⟨Nat.le_trans (Nat.le_max_right n timeEnd) later, check⟩
  exact never ⟨k, Nat.le_trans late (Nat.le_trans later latest), returned⟩

end Writing

end LinuxCTemplate.Main
