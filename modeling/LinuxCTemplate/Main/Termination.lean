import LinuxCTemplate.Main.Writing
import LinuxCTemplate.Threadwq.Starting
import LinuxCTemplate.Threadwq.Stopping

/-!
# The program ends

Under a fair scheduler `main` comes through `threadwq_exec_multi`, the join of the writer and
`threadwq_exit_multi` of both tests, and through `mempool_exit`.  At each of these points it
is shown that `main` cannot stay there for ever: the queue it waits for would then be
scheduled fairly, and what is known of a queue under a fair scheduler applies.
-/

namespace LinuxCTemplate.Main

open Foundation Machine Threadwq

section Exec

variable {exec : System.machine.Execution} {test : Test} {index : Nat}
variable (fair : FairRun exec) (alive : ∀ n, (exec.state n).pool.fault = none)

include fair alive

/-! ## `threadwq_exec_multi` -/

/-- When `threadwq_exec` of a queue has returned, `main` goes on to the next one. -/
theorem execMulti_of_launched (inRange : index < twqNum) :
    LeadsTo (fun n => mainAt exec n = .execMulti test index ∧
        (exec.state n).controller test index ≠ .pollRunning)
      fun n => mainAt exec n = .execMulti test (index + 1) := by
  refine main_next fair alive ?_ ?_ ?_
  · rintro n ⟨here, launched⟩
    simp [System.mainStep, here, inRange, launched]
  · rintro n ⟨here, launched⟩ others
    exact ⟨main_persists here others, by rwa [controller_kept others]⟩
  · rintro n junk ⟨here, launched⟩ taken
    simp only [System.mainStep, here, inRange, launched, if_true, if_false,
      Option.some.injEq] at taken
    rw [mainAt, ← taken]

omit fair alive in
/-- Inside `threadwq_exec_multi` `main` stays at a queue or goes on to the next one. -/
theorem execMulti_stays {n : Nat} (inRange : index < twqNum)
    (here : mainAt exec n = .execMulti test index) :
    mainAt exec (n + 1) = .execMulti test index ∨
      mainAt exec (n + 1) = .execMulti test (index + 1) := by
  by_cases own : exec.Takes MainActs n
  · obtain ⟨junk, taken⟩ := mainStep_of_takes own
    simp only [System.mainStep, here, inRange, if_true] at taken
    split at taken
    · obtain ⟨twq, _, later⟩ := Option.map_eq_some_iff.mp taken
      left
      rw [mainAt, ← later]
      exact here
    · right
      rw [mainAt, ← Option.some.inj taken]
  · exact Or.inl (main_persists here own)

theorem execMulti_next (inRange : index < twqNum) :
    LeadsTo (fun n => mainAt exec n = .execMulti test index)
      fun n => mainAt exec n = .execMulti test (index + 1) := by
  intro n here
  by_contra never
  have stays : ∀ m, n ≤ m → mainAt exec m = .execMulti test index := by
    refine kept_of_le here fun m later here => ?_
    rcases execMulti_stays inRange here with still | next
    · exact still
    · exact (never ⟨m + 1, Nat.le_succ_of_le later, next⟩).elim
  have polls : ∀ m, n ≤ m → (exec.state m).controller test index = .pollRunning := by
    intro m later
    by_contra launched
    obtain ⟨k, latest, next⟩ := execMulti_of_launched fair alive inRange m ⟨stays m later, launched⟩
    exact never ⟨k, Nat.le_trans later latest, next⟩
  have created : ∀ m, n ≤ m → (exec.state m).main.created test index = true := by
    intro m later
    have main : (exec.state m).main = .execMulti test index := stays m later
    simp [main, MainPc.created]
  have noneAdding : ∀ m, n ≤ m → (exec.state m).NoneAdding := by
    intro m later
    have main : (exec.state m).main = .execMulti test index := stays m later
    exact (System.order_of_reachable (exec.reachable m)).noneAdding (Or.inr (by simp [main]))
  have own : ∀ m, n ≤ m → ∀ junk,
      (exec.state m).onQueues (.main junk) = some (test, .controller index) := by
    intro m later junk
    have main : (exec.state m).main = .execMulti test index := stays m later
    simp [System.onQueues, main, inRange, polls m later]
  have fairQueue := fairFor_onTest fair alive inRange created (addFair_of_noneAdding noneAdding)
    (controllerFair_of_main fair alive own fun m later => by simp [polls m later])
  obtain ⟨m, later, online⟩ := threadwq_exec_returns fairQueue n (polls n (Nat.le_refl n))
  cases (polls m later).symm.trans online

theorem execMulti_leads : ∀ last, last ≤ twqNum →
    LeadsTo (fun n => mainAt exec n = .execMulti test 0)
      fun n => mainAt exec n = .execMulti test last := by
  intro last
  induction last with
  | zero => exact fun _ => LeadsTo.of_imp fun _ => id
  | succ last ih =>
      intro inRange
      exact (ih (Nat.le_of_succ_le inRange)).trans (execMulti_next fair alive inRange)

/-- `main` creates the writer. -/
theorem top_of_execMulti :
    LeadsTo (fun n => mainAt exec n = .execMulti test twqNum) (Writes exec test .top) := by
  refine main_next fair alive ?_ (fun n => main_persists) ?_
  · intro n here
    simp [System.mainStep, here]
  · intro n junk here taken
    simp only [System.mainStep, here, Nat.lt_irrefl, if_false, Option.some.injEq] at taken
    unfold Writes mainAt
    rw [← taken]
    exact ⟨rfl, rfl⟩

/-- `main` joins the writer. -/
theorem exitMulti_of_returned :
    LeadsTo (Writes exec test .returned) fun n => mainAt exec n = .exitMulti test 0 := by
  refine main_next fair alive ?_ ?_ ?_
  · rintro n ⟨main, writer⟩
    simp [System.mainStep, main, writer]
  · rintro n ⟨main, writer⟩ others
    refine ⟨main_persists main others, ?_⟩
    apply exec.kept (P := fun sys => sys.writer = .returned) writer
    intro action label taken
    rw [System.writer_of_others taken main]
    · exact writer
    · rintro ⟨block, timeOver, rfl⟩
      have stepped := System.writerStep_of_step main taken
      simp [System.writerStep, writer] at stepped
  · rintro n junk ⟨main, writer⟩ taken
    simp only [System.mainStep, main, writer, if_true, Option.some.injEq] at taken
    rw [mainAt, ← taken]

/-! ## `threadwq_exit_multi` -/

/-- When `threadwq_exit` of a queue has returned, `main` goes on to the next one. -/
theorem exitMulti_of_stopped (inRange : index < twqNum) :
    LeadsTo (fun n => mainAt exec n = .exitMulti test index ∧
        (exec.state n).controller test index = .returned)
      fun n => mainAt exec n = .exitMulti test (index + 1) := by
  refine main_next fair alive ?_ ?_ ?_
  · rintro n ⟨here, returned⟩
    simp [System.mainStep, here, inRange, returned]
  · rintro n ⟨here, returned⟩ others
    exact ⟨main_persists here others, by rwa [controller_kept others]⟩
  · rintro n junk ⟨here, returned⟩ taken
    simp only [System.mainStep, here, inRange, returned, if_true, ne_eq, not_true_eq_false,
      if_false, Option.some.injEq] at taken
    rw [mainAt, ← taken]

omit fair alive in
/-- Inside `threadwq_exit_multi` `main` stays at a queue or goes on to the next one. -/
theorem exitMulti_stays {n : Nat} (inRange : index < twqNum)
    (here : mainAt exec n = .exitMulti test index) :
    mainAt exec (n + 1) = .exitMulti test index ∨
      mainAt exec (n + 1) = .exitMulti test (index + 1) := by
  by_cases own : exec.Takes MainActs n
  · obtain ⟨junk, taken⟩ := mainStep_of_takes own
    simp only [System.mainStep, here, inRange, if_true] at taken
    split at taken
    · obtain ⟨twq, _, later⟩ := Option.map_eq_some_iff.mp taken
      left
      rw [mainAt, ← later]
      exact here
    · right
      rw [mainAt, ← Option.some.inj taken]
  · exact Or.inl (main_persists here own)

omit fair alive in
/-- `main` at a queue that it has to stop. -/
theorem onQueues_of_exitMulti {sys : System} (inRange : index < twqNum)
    (main : sys.main = .exitMulti test index)
    (runs : sys.controller test index ≠ .returned) (junk : Memory) :
    sys.onQueues (.main junk) = some (test, .controller index) := by
  simp [System.onQueues, main, inRange, runs]

/-- `main` calls `threadwq_exit`. -/
theorem exitCalled_of_online (inRange : index < twqNum) :
    LeadsTo (fun n => mainAt exec n = .exitMulti test index ∧
        (exec.state n).controller test index = .online)
      fun n => ((exec.state n).controller test index).exitCalled = true := by
  have calls : ∀ n junk, mainAt exec n = .exitMulti test index →
      (exec.state n).controller test index = .online → (exec.state n).mainStep junk =
        some ((exec.state n).setTwq test (((exec.state n).twq test).setTwq index
          { ((exec.state n).twq test).twq index with controller := .lock })) := by
    intro n junk here online
    refine System.mainStep_of_onQueues
      (onQueues_of_exitMulti inRange here (by simp [online]) junk) ?_
    change (controllerStep index _).map _ = _
    have online : (((exec.state n).twq test).twq index).controller = .online := online
    simp [controllerStep, online]
  refine main_next fair alive ?_ ?_ ?_
  · rintro n ⟨here, online⟩
    rw [calls n _ here online]
    rfl
  · rintro n ⟨here, online⟩ others
    exact ⟨main_persists here others, by rwa [controller_kept others]⟩
  · rintro n junk ⟨here, online⟩ taken
    rw [calls n junk here online, Option.some.injEq] at taken
    rw [← taken, System.controller, System.setTwq_twq_self, Threadwq.System.setTwq_twq_self]
    rfl

omit fair alive in
/-- While no job is being added none is put on a queue. -/
theorem quiet_of_noneAdding {N : Nat} (noneAdding : ∀ n, N ≤ n → (exec.state n).NoneAdding) :
    QuietFrom (onTest exec test) index N := by
  refine kept_of_le (P := fun m => enqueued (queueAt (onTest exec test) index m).log =
    enqueued (queueAt (onTest exec test) index N).log) rfl fun m later same => ?_
  apply (onTest exec test).kept (P := fun sys => enqueued (sys.twq index).log =
    enqueued (queueAt (onTest exec test) index N).log) same
  intro own _ step
  rw [← same]
  cases own with
  | call thread =>
      have busy := Threadwq.System.busy_of_call step
      cases busy.symm.trans (noneAdding (m + 1) (Nat.le_succ_of_le later) test thread)
  | add thread =>
      obtain ⟨pc, here, moves⟩ := Threadwq.System.addStep_moves step
      have isIdle : (((onTest exec test).state m).add thread).isIdle = true :=
        noneAdding m later test thread
      rw [here, moves.active] at isIdle
      cases isIdle
  | _ => exact (Threadwq.System.step_writes step index).enqueued (by rintro ⟨⟩)

theorem exitMulti_next (inRange : index < twqNum) {start : Nat}
    (noWrap : ∀ n, start ≤ n → ¬ WrapsAt (onTest exec test) index n) :
    LeadsTo (fun n => mainAt exec n = .exitMulti test index)
      fun n => mainAt exec n = .exitMulti test (index + 1) := by
  intro n here
  by_contra never
  have stays : ∀ m, n ≤ m → (exec.state m).main = .exitMulti test index := by
    refine kept_of_le here fun m later here => ?_
    rcases exitMulti_stays inRange here with still | next
    · exact still
    · exact (never ⟨m + 1, Nat.le_succ_of_le later, next⟩).elim
  have runs : ∀ m, n ≤ m → (exec.state m).controller test index ≠ .returned := by
    intro m later returned
    obtain ⟨k, latest, next⟩ := exitMulti_of_stopped fair alive inRange m ⟨stays m later, returned⟩
    exact never ⟨k, Nat.le_trans later latest, next⟩
  have executed : ∀ m, n ≤ m → (exec.state m).controller test index ≠ .pollRunning := by
    intro m later
    exact (System.launching_of_reachable (exec.reachable m)).executed test index inRange
      (by simp [stays m later, MainPc.executed])
  obtain ⟨m, later, exiting⟩ : ∃ m, n ≤ m ∧
      ((exec.state m).controller test index).exitCalled = true := by
    cases called : ((exec.state n).controller test index).exitCalled with
    | true => exact ⟨n, Nat.le_refl n, called⟩
    | false =>
        refine exitCalled_of_online fair alive inRange n ⟨here, ?_⟩
        have launched := executed n (Nat.le_refl n)
        cases point : (exec.state n).controller test index <;> rw [point] at called launched <;>
          first | rfl | exact (launched rfl).elim | cases called
  have noneAdding : ∀ k, m ≤ k → (exec.state k).NoneAdding := fun k latest =>
    (System.order_of_reachable (exec.reachable k)).noneAdding
      (Or.inr (by simp [stays k (Nat.le_trans later latest)]))
  have created : ∀ k, m ≤ k → (exec.state k).main.created test index = true := fun k latest => by
    simp [stays k (Nat.le_trans later latest), MainPc.created]
  have own : ∀ k, m ≤ k → ∀ junk,
      (exec.state k).onQueues (.main junk) = some (test, .controller index) := fun k latest =>
    onQueues_of_exitMulti inRange (stays k (Nat.le_trans later latest))
      (runs k (Nat.le_trans later latest))
  have inside : ∀ k, m ≤ k → (exec.state k).controller test index ≠ .online := by
    intro k latest online
    have called := @exiting_of_le Nat _ (onTest exec test) index m k latest exiting
    change ((exec.state k).controller test index).exitCalled = true at called
    rw [online] at called
    cases called
  have fairQueue := fairFor_onTest fair alive inRange created (addFair_of_noneAdding noneAdding)
    (controllerFair_of_main fair alive own inside)
  obtain ⟨k, latest, returned⟩ :=
    returned_of_noWrap fairQueue (callbacksReturn fairQueue.worker) exiting
      (quiet_of_noneAdding noneAdding) noWrap
  exact runs k (Nat.le_trans later latest) returned

theorem exitMulti_leads
    (noWrap : ∀ index, index < twqNum →
      ∃ start, ∀ n, start ≤ n → ¬ WrapsAt (onTest exec test) index n) :
    ∀ last, last ≤ twqNum → LeadsTo (fun n => mainAt exec n = .exitMulti test 0)
      fun n => mainAt exec n = .exitMulti test last := by
  intro last
  induction last with
  | zero => exact fun _ => LeadsTo.of_imp fun _ => id
  | succ last ih =>
      intro inRange
      obtain ⟨start, noWrap⟩ := noWrap last inRange
      exact (ih (Nat.le_of_succ_le inRange)).trans (exitMulti_next fair alive inRange noWrap)

theorem next_of_exitMulti :
    LeadsTo (fun n => mainAt exec n = .exitMulti test twqNum)
      fun n => mainAt exec n = test.next := by
  refine main_next fair alive ?_ (fun n => main_persists) ?_
  · intro n here
    simp [System.mainStep, here]
  · intro n junk here taken
    simp only [System.mainStep, here, Nat.lt_irrefl, if_false, Option.some.injEq] at taken
    rw [mainAt, ← taken]

/-! ## The program -/

/-- A test comes to its end. -/
theorem test_ends (timeRunsOut : TimeRunsOut exec) (calm : Calm exec)
    (noWrap : ∀ index, index < twqNum →
      ∃ start, ∀ n, start ≤ n → ¬ WrapsAt (onTest exec test) index n) :
    LeadsTo (fun n => mainAt exec n = .execMulti test 0) fun n => mainAt exec n = test.next :=
  (execMulti_leads fair alive twqNum (Nat.le_refl _)).trans <|
    (top_of_execMulti fair alive).trans <|
    (writer_returns fair alive timeRunsOut calm).trans <|
    (exitMulti_of_returned fair alive).trans <|
    (exitMulti_leads fair alive noWrap twqNum (Nat.le_refl _)).trans <|
    next_of_exitMulti fair alive

/-- `mempool_exit` returns. -/
theorem exited_of_mempoolExit :
    LeadsTo (fun n => mainAt exec n = .mempoolExit)
      fun n => ∃ report, mainAt exec n = .exited report := by
  refine main_next fair alive ?_ (fun n => main_persists) ?_
  · intro n here
    simp only [System.mainStep, here]
    split <;> rfl
  · intro n junk here taken
    simp only [System.mainStep, here] at taken
    split at taken
    next report pool ran =>
      rw [mainAt, ← Option.some.inj taken]
      exact ⟨report, rfl⟩
    next fault died =>
      have dead := alive (n + 1)
      rw [← Option.some.inj taken] at dead
      cases dead

end Exec

/-- The size of the slices stays the one of `mempool_init`. -/
theorem large_of_start {exec : System.machine.Execution}
    (large : Mempool.sliceSize ≤ (exec.state 0).pool.pool.mp.sz) (n : Nat) :
    Mempool.sliceSize ≤ (exec.state n).pool.pool.mp.sz := by
  induction n with
  | zero => exact large
  | succ n ih =>
      apply exec.kept (P := fun sys => Mempool.sliceSize ≤ sys.pool.pool.mp.sz) ih
      intro action _ taken
      rw [System.fields_of_step (exec.reachable n) taken]
      exact ih

/-- In a run under a fair scheduler `main` comes to its end, if the time of the tests runs out
and in `test_threadwq3` some worker is not woken without a signal for ever, or there is a
queue whose worker again and again evaluates its loop test just when the exit counter is
zero. -/
theorem main_exits {exec : System.machine.Execution} (fair : FairRun exec)
    (large : Mempool.sliceSize ≤ (exec.state 0).pool.pool.mp.sz)
    (timeRunsOut : TimeRunsOut exec) (calm : Calm exec) :
    (∃ n report, (exec.state n).main = .exited report) ∨
      ∃ test index, index < twqNum ∧
        ∀ k, ∃ m, k ≤ m ∧ WrapsAt (onTest exec test) index m := by
  by_cases wraps : ∃ test index, index < twqNum ∧
      ∀ k, ∃ m, k ≤ m ∧ WrapsAt (onTest exec test) index m
  · exact Or.inr wraps
  · left
    have noWrap : ∀ test index, index < twqNum →
        ∃ start, ∀ n, start ≤ n → ¬ WrapsAt (onTest exec test) index n := by
      intro test index inRange
      by_contra again
      refine wraps ⟨test, index, inRange, fun k => ?_⟩
      by_contra never
      exact again ⟨k, fun m later wraps => never ⟨m, later, wraps⟩⟩
    have alive : ∀ n, (exec.state n).pool.fault = none := fun n =>
      (System.alive_of_reachable (exec.reachable n) (large_of_start large n)).fault
    have first := test_ends fair alive timeRunsOut calm (noWrap .threadwq2)
    have second := test_ends fair alive timeRunsOut calm (noWrap .threadwq3)
    obtain ⟨n, _, report, exited⟩ := (first.trans
      (second.trans (exited_of_mempoolExit fair alive))) 0 exec.start.main
    exact ⟨n, report, exited⟩

/-- Both tests, and the callback of the one job before `mempool_exit`. -/
def wholeRun : List Action :=
  System.testsRun ++ [.callback .threadwq2 1 0, .free 0, .free 0, .main System.zeros]

/-- Nothing is left to do: `main` and the workers have returned, and no job has a slice. -/
structure Finished (sys : System) : Prop where
  reachable : System.machine.Reachable sys
  main : sys.main = .exited none
  workers : ∀ test index, index < twqNum → ((sys.twq test).twq index).worker = .returned
  held : ∀ job, job < sys.nextJob → sys.pool.held job = []

theorem FairRun.of_rest {exec : System.machine.Execution} {N : Nat} {last : System}
    (rest : ∀ n, N ≤ n → exec.state n = last) (finished : Finished last) : FairRun exec where
  main := by
    refine .of_rest rest ?_
    rintro _ next ⟨junk, rfl⟩ taken
    have stepped := System.mainStep_of_step taken
    simp [System.mainStep, finished.main] at stepped
  writer := by
    refine .of_rest rest ?_
    rintro _ next ⟨block, timeOver, rfl⟩ taken
    cases (System.step_change taken).2 with
    | alloc main | call main | add main | addDone main | check main =>
        cases main.symm.trans finished.main
  worker test index := by
    refine .of_rest rest ?_
    rintro _ next rfl taken
    cases (System.step_change taken).2 with
    | worker inRange moved =>
        simp [Threadwq.System.step, workerStep, finished.workers test index inRange] at moved
  callback test index job := by
    refine .of_rest rest ?_
    rintro _ next rfl taken
    cases (System.step_change taken).2 with
    | callback moved _ =>
        cases Threadwq.System.step_moves moved with
        | rcu queued =>
            have holding := System.holding_of_reachable finished.reachable
            have unfinished := System.unfinished_of_queued finished.reachable queued
            obtain ⟨_, added, _⟩ := id unfinished
            exact (holding.held job).mpr (Or.inr unfinished)
              (finished.held job (holding.below _ job added))

theorem main_exits_wholeRun :
    ∃ exec : System.machine.Execution, exec.state 0 = System.boot ∧
      FairRun exec ∧ TimeRunsOut exec ∧ Calm exec ∧
      ((∃ n report, (exec.state n).main = .exited report) ∨
        ∃ test index, index < twqNum ∧
          ∀ k, ∃ m, k ≤ m ∧ WrapsAt (onTest exec test) index m) := by
  obtain ⟨last, ran, main, workers, jobs, held⟩ := Machine.exists_runWhile System.step
    (fun _ _ => true) System.boot wholeRun
    (fun last => last.main = .exited none ∧
      (∀ test ∈ [Test.threadwq2, .threadwq3], ∀ index, index < twqNum →
        ((last.twq test).twq index).worker = .returned) ∧
      last.nextJob = 1 ∧ last.pool.held 0 = []) (by decide +kernel)
  let exec : System.machine.Execution := .ofRun (fun _ _ _ taken => taken) System.boot_initial ran
  have rest : ∀ n, wholeRun.length ≤ n → exec.state n = last := fun _ => Execution.ofRun_rest
  have noLabel : ∀ n, wholeRun.length ≤ n → exec.label n = none :=
    fun _ => List.getElem?_eq_none
  have finished : Finished last := by
    refine ⟨rest _ (Nat.le_refl _) ▸ exec.reachable _, main, ?_, ?_⟩
    · intro test index inRange
      exact workers test (by cases test <;> simp) index inRange
    · intro job inRange
      rw [jobs, Nat.lt_one_iff] at inRange
      rw [inRange, held]
  have fair := FairRun.of_rest rest finished
  have timeRunsOut : TimeRunsOut exec := fun test =>
    ⟨wholeRun.length, fun n later _ block => by simp [noLabel n later]⟩
  have calm : Calm exec :=
    ⟨0, by decide, wholeRun.length, fun n later => by simp [noLabel n later]⟩
  have large : Mempool.sliceSize ≤ (exec.state 0).pool.pool.mp.sz :=
    (by decide : Mempool.sliceSize ≤ System.boot.pool.pool.mp.sz)
  exact ⟨exec, rfl, fair, timeRunsOut, calm, main_exits fair large timeRunsOut calm⟩

end LinuxCTemplate.Main
