import LinuxCTemplate.Threadwq.Fairness
import LinuxCTemplate.Threadwq.FirstFree

/-!
# The add functions return

`threadwq_add_job` and `rr_add_job` wait for one mutex, and under a fair scheduler they
return.  `rr4idle_add_job` waits for none: it tries the mutexes of the pool one after the
other.  It returns too, unless it is so unlucky as to find every queue of the pool locked
whenever it comes by, again and again.
-/

namespace LinuxCTemplate.Threadwq

open Foundation Machine

variable {Job : Type}

/-- The add function looks for a queue in `rr4idle_add_job`. -/
def AddPc.searching : AddPc Job → Bool
  | .readIdx _ | .tryLock _ _ => true
  | _ => false

variable [DecidableEq Job]

namespace System

/-- An add function begins to look for a queue when it is called. -/
theorem searching_of_step {sys next : System Job} {action : Action Job}
    (step : sys.step action = some next) {thread : Thread}
    (searching : (next.add thread).searching = true) :
    (sys.add thread).searching = true ∨
      ∃ job, action = .call thread .threadwqManAddJob job ∧ sys.man.ops = .rr4idle := by
  by_cases same : next.add thread = sys.add thread
  · rw [same] at searching
    exact Or.inl searching
  · cases step_moves step with
    | worker | controller | spurious | rcu => exact (same rfl).elim
    | @call caller entry job =>
        by_cases own : thread = caller
        · subst own
          simp only [setAdd_add_self, entryPc] at searching
          cases entry with
          | threadwqAddJob => cases searching
          | threadwqManAddJob =>
              cases ops : sys.man.ops with
              | rr =>
                  rw [ops] at searching
                  cases searching
              | rr4idle => exact Or.inr ⟨job, rfl, rfl⟩
        · exact (same (setAdd_add_of_ne _ _ own)).elim
    | @add caller _ moved =>
        by_cases own : thread = caller
        · subst own
          obtain ⟨point, pc, moves⟩ := addStep_moves moved
          left
          cases moves with rw [setAdd_add_self] at searching
          | readIdx | tryLockFails =>
              rw [pc]
              rfl
          | _ => cases searching
        · exact (same (addStep_add_of_ne moved own)).elim

/-- Only under `rr4idle_add_job` an add function looks for a queue. -/
theorem ops_of_searching {sys : System Job} (reachable : (machine Job).Reachable sys)
    {thread : Thread} (searching : (sys.add thread).searching = true) :
    sys.man.ops = .rr4idle := by
  revert thread
  apply reachable.invariant
  · intro sys start thread searching
    rw [start.add] at searching
    cases searching
  · intro sys action next _ ih step thread searching
    rw [step_ops step]
    rcases searching_of_step step searching with before | ⟨_, _, ops⟩
    · exact ih before
    · exact ops

theorem cursor_of_reachable {sys : System Job} (reachable : (machine Job).Reachable sys)
    (ops : sys.man.ops = .rr4idle) : Cursor sys := by
  revert ops
  apply reachable.invariant
  · intro sys start _
    refine ⟨start.started.1, ?_, fun thread => ?_⟩
    · rw [start.started.2]
      exact Nat.zero_le _
    · rw [start.add]
      trivial
  · intro sys action next _ ih step ops
    have before := (step_ops step).symm.trans ops
    exact (ih before).step before step

/-- A call begins. -/
theorem busy_of_call {sys next : System Job} {thread : Thread} {entry : Entry} {job : Job}
    (step : sys.step (.call thread entry job) = some next) :
    (next.add thread).isIdle = false := by
  obtain ⟨_, _, rfl⟩ := step_call step
  change ((sys.setAdd thread (sys.entryPc entry job)).add thread).isIdle = false
  rw [setAdd_add_self]
  unfold entryPc
  cases entry with
  | threadwqAddJob => rfl
  | threadwqManAddJob => cases sys.man.ops <;> rfl

/-- The add functions are on the first `nr` queues only, if these are the ones they choose. -/
theorem inSequence_step {sys next : System Job} {action : Action Job}
    (step : sys.step action = some next) {nr : Nat}
    (within : ∀ thread, (next.add thread).Within nr)
    (before : ∀ thread index, (sys.add thread).inSequence index = true → index < nr)
    (thread : Thread) (index : Nat) (inside : (next.add thread).inSequence index = true) :
    index < nr := by
  by_cases same : next.add thread = sys.add thread
  · rw [same] at inside
    exact before thread index inside
  · have isWithin := within thread
    cases step_moves step with
    | worker | controller | spurious | rcu => exact (same rfl).elim
    | @call caller entry job =>
        by_cases own : thread = caller
        · subst own
          simp only [setAdd_add_self] at inside isWithin
          unfold entryPc at inside isWithin
          cases entry with
          | threadwqAddJob queue =>
              rw [← eq_of_beq inside]
              exact isWithin
          | threadwqManAddJob => cases ops : sys.man.ops <;> rw [ops] at inside <;> cases inside
        · exact (same (setAdd_add_of_ne _ _ own)).elim
    | @add caller _ moved =>
        by_cases own : thread = caller
        · subst own
          obtain ⟨pc, here, moves⟩ := addStep_moves moved
          have stays := before thread index
          rw [here] at stays
          cases moves with simp only [setAdd_add_self] at inside isWithin
          | enqueue | lock | signal | enqueueLocked => exact stays inside
          | rrReset | rrAdvance | tryLock | setIdx =>
              rw [← eq_of_beq inside]
              exact isWithin
          | rrRead | readIdx | tryLockFails | unlock => cases inside
        · exact (same (addStep_add_of_ne moved own)).elim

end System

section Returning

variable {exec : (System.machine Job).Execution} {thread : Thread}

/-! ## A call that has chosen its queue -/

theorem idle_of_unlock (fair : exec.Fair (AddActs thread)) (index : Nat) :
    LeadsTo (fun n => (exec.state n).add thread = .unlock index)
      fun n => (exec.state n).add thread = .idle := by
  refine add_next fair rfl (by nofun) fun n next later moves => ?_
  cases moves
  rw [later, System.setAdd_add_self]

/-- The queues on which the thread puts jobs are scheduled fairly. -/
def FairForUsed (exec : (System.machine Job).Execution) (thread : Thread) : Prop :=
  ∀ n index, ((exec.state n).add thread).inSequence index = true → FairFor exec index

theorem idle_of_inSequence (fair : exec.Fair (AddActs thread)) (used : FairForUsed exec thread)
    (index : Nat) : LeadsTo (fun n => ((exec.state n).add thread).inSequence index = true)
      fun n => (exec.state n).add thread = .idle := by
  intro n inside
  exact ((unlock_of_inSequence (used n index inside)).trans (idle_of_unlock fair index)) n inside

theorem idle_of_rrAdvance (fair : exec.Fair (AddActs thread)) (used : FairForUsed exec thread)
    (idx : UInt32) (job : Job) :
    LeadsTo (fun n => (exec.state n).add thread = .rrAdvance idx job)
      fun n => (exec.state n).add thread = .idle := by
  have chosen : LeadsTo (fun n => (exec.state n).add thread = .rrAdvance idx job)
      fun n => ∃ index, ((exec.state n).add thread).inSequence index = true := by
    refine add_next fair rfl (by nofun) fun n next later moves => ?_
    rw [later]
    cases moves with
    | rrReset =>
        rw [System.setAdd_add_self]
        exact ⟨0, rfl⟩
    | rrAdvance =>
        rw [System.setAdd_add_self]
        exact ⟨idx.toNat, beq_self_eq_true _⟩
  refine chosen.trans ?_
  rintro n ⟨index, inside⟩
  exact idle_of_inSequence fair used index n inside

theorem idle_of_rrRead (fair : exec.Fair (AddActs thread)) (used : FairForUsed exec thread)
    (job : Job) : LeadsTo (fun n => (exec.state n).add thread = .rrRead job)
      fun n => (exec.state n).add thread = .idle := by
  have read : LeadsTo (fun n => (exec.state n).add thread = .rrRead job)
      fun n => ∃ idx, (exec.state n).add thread = .rrAdvance idx job := by
    refine add_next fair rfl (by nofun) fun n next later moves => ?_
    rw [later]
    cases moves
    exact ⟨_, System.setAdd_add_self ..⟩
  refine read.trans ?_
  rintro n ⟨idx, here⟩
  exact idle_of_rrAdvance fair used idx job n here

/-! ## A call that looks for a queue -/

/-- The size of the pool. -/
def poolOf (exec : (System.machine Job).Execution) : Nat :=
  (exec.state 0).man.twqPoolNr.toNat

/-- The manager keeps its policy and its pool. -/
theorem same_man (n : Nat) : (exec.state n).man.ops = (exec.state 0).man.ops ∧
    (exec.state n).man.twqPoolNr = (exec.state 0).man.twqPoolNr := by
  induction n with
  | zero => exact ⟨rfl, rfl⟩
  | succ n ih =>
      apply exec.kept (P := fun sys => sys.man.ops = (exec.state 0).man.ops ∧
        sys.man.twqPoolNr = (exec.state 0).man.twqPoolNr) ih
      intro _ _ step
      obtain ⟨ops, pool⟩ := System.step_man step
      exact ⟨ops.trans ih.1, pool.trans ih.2⟩

theorem twqPoolNr_eq (n : Nat) : (exec.state n).man.twqPoolNr.toNat = poolOf exec :=
  congrArg UInt32.toNat (same_man n).2

/-- The add function is about to try the mutex of the queue. -/
def Tries (exec : (System.machine Job).Execution) (thread : Thread) (queue n : Nat) : Prop :=
  ∃ idx job, (exec.state n).add thread = .tryLock idx job ∧
    ((exec.state n).tried idx).toNat = queue

/-- The add function tries the mutex of the queue and finds it taken. -/
def FindsLocked (exec : (System.machine Job).Execution) (thread : Thread) (queue n : Nat) : Prop :=
  Tries exec thread queue n ∧ exec.label n = some (.add thread) ∧
    (queueAt exec queue n).mutex ≠ none

theorem tries_of_tryLock {idx : UInt32} {job : Job} {n : Nat}
    (here : (exec.state n).add thread = .tryLock idx job) :
    Tries exec thread (idx.toNat % poolOf exec) n := by
  refine ⟨idx, job, here, ?_⟩
  have searching : ((exec.state n).add thread).searching = true := by
    rw [here]
    rfl
  have ops := System.ops_of_searching (exec.reachable n) searching
  have inPool := (System.cursor_of_reachable (exec.reachable n) ops).calls thread
  rw [here] at inPool
  rw [System.tried_toNat inPool, twqPoolNr_eq]

/-- An attempt gets the mutex, or finds it taken and is followed by the next one. -/
theorem findsLocked_of_tries (fair : exec.Fair (AddActs thread))
    (used : FairForUsed exec thread) (queue : Nat) :
    LeadsTo (Tries exec thread queue) fun n =>
      (FindsLocked exec thread queue n ∧
        Tries exec thread ((queue + 1) % poolOf exec) (n + 1)) ∨
      (exec.state n).add thread = .idle := by
  rintro n ⟨idx, job, here, rfl⟩
  obtain ⟨m, later, here', acts⟩ := add_takes fair rfl (by simp) n here
  have sameTried : (exec.state m).tried idx = (exec.state n).tried idx := by
    unfold System.tried
    rw [UInt32.toNat_inj.mp ((twqPoolNr_eq m).trans (twqPoolNr_eq n).symm)]
  obtain ⟨next, after, moves⟩ := add_moves_of_takes here' acts
  cases moves with
  | tryLock _ _ free =>
      have chosen : ((exec.state (m + 1)).add thread).inSequence
          ((exec.state m).tried idx).toNat = true := by
        rw [after, System.setAdd_add_self]
        exact beq_self_eq_true _
      obtain ⟨k, latest, idle⟩ := idle_of_inSequence fair used _ (m + 1) chosen
      exact ⟨k, by omega, Or.inr idle⟩
  | tryLockFails _ _ holder taken =>
      refine ⟨m, later, Or.inl ⟨⟨⟨idx, job, here', congrArg _ sameTried⟩, ?_, ?_⟩, ?_⟩⟩
      · obtain ⟨action, label, rfl⟩ := acts
        exact label
      · rw [← sameTried, queueAt, taken]
        simp
      · have again : (exec.state (m + 1)).add thread =
            .tryLock ((exec.state m).tried idx + 1) job := by
          rw [after, System.setAdd_add_self]
        have searching : ((exec.state m).add thread).searching = true := by
          rw [here']
          rfl
        have ops := System.ops_of_searching (exec.reachable m) searching
        have cursor := System.cursor_of_reachable (exec.reachable m) ops
        have inPool := cursor.calls thread
        rw [here'] at inPool
        have tries := tries_of_tryLock again
        rwa [System.succ_toNat (cursor.tried_lt inPool), sameTried] at tries

/-- The attempts go round the pool. -/
theorem tries_of_tries (fair : exec.Fair (AddActs thread)) (used : FairForUsed exec thread)
    {queue : Nat} (inPool : queue < poolOf exec) (distance : Nat) :
    LeadsTo (Tries exec thread queue) fun n =>
      Tries exec thread ((queue + distance) % poolOf exec) n ∨
        (exec.state n).add thread = .idle := by
  induction distance with
  | zero =>
      rw [Nat.add_zero, Nat.mod_eq_of_lt inPool]
      exact LeadsTo.of_imp fun n => Or.inl
  | succ distance ih =>
      refine ih.trans (LeadsTo.or ?_ (LeadsTo.of_imp fun n => Or.inr))
      refine (findsLocked_of_tries fair used _).trans fun n => ?_
      rintro (⟨_, tries⟩ | idle)
      · rw [Nat.mod_add_mod, Nat.add_assoc] at tries
        exact ⟨n + 1, Nat.le_succ n, Or.inl tries⟩
      · exact ⟨n, Nat.le_refl n, Or.inr idle⟩

/-- A call that does not look for a queue returns. -/
theorem idle_of_placing (fair : exec.Fair (AddActs thread)) (used : FairForUsed exec thread) :
    LeadsTo (fun n => ((exec.state n).add thread).searching = false)
      fun n => (exec.state n).add thread = .idle := by
  have ofSequence : ∀ index n, ((exec.state n).add thread).inSequence index = true →
      ∃ m, n ≤ m ∧ (exec.state m).add thread = .idle := idle_of_inSequence fair used
  intro n placing
  cases here : (exec.state n).add thread
  case idle => exact ⟨n, Nat.le_refl n, here⟩
  case readIdx | tryLock =>
    rw [here] at placing
    cases placing
  case rrRead job => exact idle_of_rrRead fair used job n here
  case rrAdvance idx job => exact idle_of_rrAdvance fair used idx job n here
  case enqueue index _ | lock index | signal index | unlock index =>
    exact ofSequence index n (by rw [here]; exact beq_self_eq_true _)
  case setIdx idx _ | enqueueLocked idx _ =>
    exact ofSequence idx.toNat n (by rw [here]; exact beq_self_eq_true _)

/-- Every call returns or comes to an attempt. -/
theorem idle_or_tries (fair : exec.Fair (AddActs thread)) (used : FairForUsed exec thread) :
    LeadsTo (fun _ => True) fun n => (exec.state n).add thread = .idle ∨
      ∃ idx, Tries exec thread (idx % poolOf exec) n := by
  have ofReadIdx : ∀ job, LeadsTo (fun n => (exec.state n).add thread = .readIdx job)
      fun n => ∃ idx job, (exec.state n).add thread = .tryLock idx job := by
    intro job
    refine add_next fair rfl (by nofun) fun n next later moves => ?_
    rw [later]
    cases moves
    exact ⟨_, _, System.setAdd_add_self ..⟩
  intro n _
  have ofPlacing : ((exec.state n).add thread).searching = false →
      ∃ m, n ≤ m ∧ ((exec.state m).add thread = .idle ∨
        ∃ idx, Tries exec thread (idx % poolOf exec) m) := by
    intro placing
    obtain ⟨m, later, idle⟩ := idle_of_placing fair used n placing
    exact ⟨m, later, Or.inl idle⟩
  cases here : (exec.state n).add thread
  case readIdx job =>
    obtain ⟨m, later, idx, job, trying⟩ := ofReadIdx job n here
    exact ⟨m, later, Or.inr ⟨idx.toNat, tries_of_tryLock trying⟩⟩
  case tryLock idx job => exact ⟨n, Nat.le_refl n, Or.inr ⟨idx.toNat, tries_of_tryLock here⟩⟩
  all_goals exact ofPlacing (by rw [here]; rfl)

/-- Every call returns or finds the queue locked. -/
theorem idle_or_findsLocked (fair : exec.Fair (AddActs thread)) (used : FairForUsed exec thread)
    {queue : Nat} (inPool : queue < poolOf exec) :
    LeadsTo (fun _ => True) fun n => (exec.state n).add thread = .idle ∨
      FindsLocked exec thread queue n := by
  have pool : 0 < poolOf exec := Nat.zero_lt_of_lt inPool
  refine (idle_or_tries fair used).trans ?_
  rintro n (idle | ⟨idx, tried⟩)
  · exact ⟨n, Nat.le_refl n, Or.inl idle⟩
  · -- Going on from the queue tried at `n`, the call comes round to this one.
    have distance : (idx % poolOf exec + (queue + poolOf exec - idx % poolOf exec)) %
        poolOf exec = queue := by
      have less := Nat.mod_lt idx pool
      rw [Nat.add_sub_cancel' (by omega), Nat.add_mod_right, Nat.mod_eq_of_lt inPool]
    obtain ⟨m, later, round | idle⟩ := tries_of_tries fair used (Nat.mod_lt idx pool)
      (queue + poolOf exec - idx % poolOf exec) n tried
    · rw [distance] at round
      obtain ⟨k, latest, ⟨found, _⟩ | idle⟩ := findsLocked_of_tries fair used queue m round
      · exact ⟨k, Nat.le_trans later latest, Or.inr found⟩
      · exact ⟨k, Nat.le_trans later latest, Or.inl idle⟩
    · exact ⟨m, later, Or.inl idle⟩

/-- In a run under a fair scheduler every call of an add function returns, or it is a call
of `rr4idle_add_job` that finds every queue of the pool locked again and again. -/
theorem add_job_returns (fair : exec.Fair (AddActs thread)) (used : FairForUsed exec thread)
    (n : Nat) :
    (∃ m, n ≤ m ∧ (exec.state m).add thread = .idle) ∨
      ((exec.state n).man.ops = .rr4idle ∧
        ∀ queue, queue < (exec.state n).man.twqPoolNr.toNat →
          ∀ k, ∃ m, k ≤ m ∧ FindsLocked exec thread queue m) := by
  by_cases returns : ∃ m, n ≤ m ∧ (exec.state m).add thread = .idle
  · exact Or.inl returns
  · right
    have busy : ∀ {m}, n ≤ m → (exec.state m).add thread ≠ .idle :=
      fun later idle => returns ⟨_, later, idle⟩
    obtain ⟨start, later, idle | ⟨_, idx, job, here, _⟩⟩ := idle_or_tries fair used n trivial
    · exact (busy later idle).elim
    · have searching : ((exec.state start).add thread).searching = true := by
        rw [here]
        rfl
      have ops := System.ops_of_searching (exec.reachable start) searching
      refine ⟨(same_man n).1.trans ((same_man start).1.symm.trans ops), ?_⟩
      intro queue inPool k
      rw [twqPoolNr_eq] at inPool
      obtain ⟨m, latest, idle | found⟩ := idle_or_findsLocked fair used inPool (max n k) trivial
      · exact (busy (Nat.le_trans (Nat.le_max_left n k) latest) idle).elim
      · exact ⟨m, Nat.le_trans (Nat.le_max_right n k) latest, found⟩

end Returning

/-- A pool of one queue whose mutex is held by producer 1 when producer 0 tries it. -/
def searchRun : List (Action Nat) :=
  List.flatten [[.worker 0 0, .worker 0 0, .controller 0, .call (.producer 1) .threadwqManAddJob 8,
    .add (.producer 1), .add (.producer 1), .call (.producer 0) .threadwqManAddJob 7,
    .add (.producer 0), .add (.producer 0)],
    List.replicate 4 (.add (.producer 1)), List.replicate 5 (.add (.producer 0)),
    List.replicate 12 (.worker 0 0), [.rcu 0 7, .rcu 0 8]]

theorem add_job_returns_searchRun :
    ∃ (exec : (System.machine Nat).Execution) (n : Nat),
      exec.Fair (AddActs (.producer 0)) ∧ FairForUsed exec (.producer 0) ∧
      FindsLocked exec (.producer 0) 0 n ∧
      ((∃ m, n ≤ m ∧ (exec.state m).add (.producer 0) = .idle) ∨
        ((exec.state n).man.ops = .rr4idle ∧
          ∀ queue, queue < (exec.state n).man.twqPoolNr.toNat →
            ∀ k, ∃ m, k ≤ m ∧ FindsLocked exec (.producer 0) queue m)) := by
  obtain ⟨last, ran, worker, controller, rcu, returned⟩ := System.exists_run
    (System.boot ⟨true, true⟩ ⟨1, .rr4idle, 0⟩) searchRun
    (fun last => (last.twq 0).worker.moves = false ∧ (last.twq 0).controller = .online ∧
      (last.twq 0).rcu = [] ∧
      ∀ action ∈ searchRun, ∀ thread ∈ action.thread?, last.add thread = .idle) (by decide +kernel)
  have initial := @System.boot_initial Nat ⟨true, true⟩ ⟨1, .rr4idle, 0⟩ rfl
  let exec : (System.machine Nat).Execution := .ofRun (fun _ _ _ taken => taken) initial ran
  have rest : ∀ n, searchRun.length ≤ n → exec.state n = last := fun _ => Execution.ofRun_rest
  have idle := System.idle_of_run ran (fun _ => rfl) returned
  have fair : FairFor exec 0 := .of_rest rest ⟨worker, Or.inl controller, rcu, idle⟩
  have points : ∀ n < searchRun.length, (stateAfter System.step
      (System.boot ⟨true, true⟩ ⟨1, .rr4idle, 0⟩) searchRun n).add (.producer 0) ∈
      [.idle, .readIdx 7, .tryLock 0 7, .tryLock 1 7, .setIdx 0 7, .enqueueLocked 0 7,
        .signal 0, .unlock 0] := by decide +kernel
  have used : FairForUsed exec (.producer 0) := by
    intro n index inside
    have onlyFirst : ∀ pc ∈ [AddPc.idle, .readIdx 7, .tryLock 0 7, .tryLock 1 7, .setIdx 0 7,
        .enqueueLocked 0 7, .signal 0, .unlock 0], pc.inSequence index = true → 0 = index := by
      simp [AddPc.inSequence]
    by_cases past : searchRun.length ≤ n
    · rw [rest n past, idle] at inside
      cases inside
    · rw [← onlyFirst _ (points n (Nat.lt_of_not_le past)) inside]
      exact fair
  have found : FindsLocked exec (.producer 0) 0 8 := by
    have atEight : ∃ sys, stateAfter System.step (System.boot ⟨true, true⟩ ⟨1, .rr4idle, 0⟩)
        searchRun 8 = sys ∧ sys.add (.producer 0) = .tryLock 0 7 ∧
        (sys.tried 0).toNat = 0 ∧ (sys.twq 0).mutex ≠ none := ⟨_, rfl, by decide +kernel⟩
    obtain ⟨_, rfl, tries, first, taken⟩ := atEight
    exact ⟨⟨0, 7, tries, first⟩, rfl, taken⟩
  exact ⟨exec, 8, fair.add _, used, found, add_job_returns (fair.add _) used 8⟩

end LinuxCTemplate.Threadwq
