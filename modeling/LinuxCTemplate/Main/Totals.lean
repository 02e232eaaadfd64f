import LinuxCTemplate.Main.Shutdown
import LinuxCTemplate.Mempool.Limit

/-!
# How many jobs there are

Every job on its way from an add function to `cb_finish` has a slice of the pool, so the
limit of the pool bounds all queues together.  When `threadwq_exit_multi` of a test has
returned, its workers have started exactly the jobs that were added.
-/

namespace LinuxCTemplate.Main

open Foundation Threadwq

/-! ## The jobs of one queue -/

/-- The jobs that have been enqueued and are not finished, from the last to the first: they
wait for `call_rcu`, are in the hands of the worker, or lie in the queue. -/
def inFlight (twq : Threadwq Nat) : List Nat :=
  twq.rcu ++ (twq.worker.unhanded ++ (twq.worker.inStarted ++ (twq.worker.inHand ++ twq.lfq)))

theorem enqueued_perm {twq : Threadwq Nat} (delivery : Delivery twq) :
    (enqueued twq.log).Perm (finished twq.log ++ inFlight twq) := by
  rw [delivery.queue, delivery.starting, delivery.handing, inFlight]
  simpa only [List.append_assoc] using delivery.finishing.append_right _

namespace System

variable {sys next : System} {action : Action} {test : Test} {index job : Nat}

theorem delivery_of_reachable (reachable : machine.Reachable sys) (test : Test) (index : Nat) :
    Delivery ((sys.twq test).twq index) :=
  Threadwq.delivery_of_reachable (twq_reachable reachable test) index

theorem unfinished_of_inFlight (reachable : machine.Reachable sys)
    (flying : job ∈ inFlight ((sys.twq test).twq index)) : sys.Unfinished job := by
  have parts := twq_reachable reachable test
  have perm := enqueued_perm (delivery_of_reachable reachable test index)
  have nodup := perm.nodup_iff.mp (delivery_of_reachable reachable test index).nodup
  have isEnqueued : job ∈ enqueued ((sys.twq test).twq index).log :=
    perm.mem_iff.mpr (List.mem_append_right _ flying)
  refine ⟨test, (Threadwq.System.jobs_of_reachable parts).enqueued_added index job isEnqueued, ?_⟩
  intro other isFinished
  have there := Threadwq.System.enqueued_of_handed parts
    (Threadwq.System.handed_of_finished parts isFinished)
  obtain rfl := Threadwq.System.onePlace_of_reachable parts index other job isEnqueued there
  exact nodup.disjoint isFinished flying

/-- The unfinished jobs that have been enqueued, of all queues of both tests. -/
def backlog (sys : System) : List Nat :=
  [Test.threadwq2, .threadwq3].flatMap fun test =>
    (List.range twqNum).flatMap fun index => inFlight ((sys.twq test).twq index)

theorem backlog_nodup (reachable : machine.Reachable sys) : sys.backlog.Nodup := by
  have enqueued_here : ∀ {test index job}, job ∈ inFlight ((sys.twq test).twq index) →
      job ∈ enqueued ((sys.twq test).twq index).log := fun flying =>
    (enqueued_perm (delivery_of_reachable reachable _ _)).mem_iff.mpr
      (List.mem_append_right _ flying)
  refine List.nodup_flatMap.mpr ⟨fun test _ => List.nodup_flatMap.mpr ⟨fun index _ => ?_, ?_⟩, ?_⟩
  · have perm := enqueued_perm (delivery_of_reachable reachable test index)
    exact (perm.nodup_iff.mp (delivery_of_reachable reachable test index).nodup).of_append_right
  · refine List.nodup_range.imp ?_
    intro left right different job inLeft inRight
    exact different (Threadwq.System.onePlace_of_reachable (twq_reachable reachable test) left right
      job (enqueued_here inLeft) (enqueued_here inRight))
  · have distinct : [Test.threadwq2, .threadwq3].Nodup := by decide
    refine distinct.imp ?_
    intro left right different job inLeft inRight
    obtain ⟨leftIndex, _, flyingLeft⟩ := List.mem_flatMap.mp inLeft
    obtain ⟨rightIndex, _, flyingRight⟩ := List.mem_flatMap.mp inRight
    exact different ((holding_of_reachable reachable).once left right job
      ((Threadwq.System.jobs_of_reachable (twq_reachable reachable left)).enqueued_added _ _
        (enqueued_here flyingLeft))
      ((Threadwq.System.jobs_of_reachable (twq_reachable reachable right)).enqueued_added _ _
        (enqueued_here flyingRight)))

/-! ## The limit of the pool -/

/-- A step of the pool changes its counters only. -/
theorem step_fields {pool later : Mempool.System} {action : Mempool.Action}
    (reachable : Mempool.System.machine.Reachable pool) (moved : pool.step action = some later) :
    Mempool.System.SameFields pool.pool.mp later.pool.mp := by
  obtain ⟨stack, inv⟩ := Mempool.System.exists_inv reachable
  obtain ⟨stack', kept⟩ := inv.step (Mempool.System.step_change moved).2
  exact kept.fields

/-- The pool is left alone or makes a step, and no step of a constructor. -/
theorem pool_of_step (reachable : machine.Reachable sys) (taken : machine.Step sys action next) :
    next.pool = sys.pool ∨
      ∃ action, sys.pool.acceptsNull action = true ∧ sys.pool.step action = some next.pool := by
  have holding := holding_of_reachable reachable
  obtain ⟨alive, change⟩ := step_change taken
  cases change with
  | alloc _ _ moved =>
      refine Or.inr ⟨_, rfl, moved.trans ?_⟩
      unfold allocated
      split <;> rfl
  | callback _ moved => exact Or.inr ⟨_, rfl, moved⟩
  | magic _ moved | link _ moved | client moved => exact Or.inr ⟨_, rfl, moved⟩
  | @poolExit junk report pool _ ran =>
      have moved := step_recycle alive holding.nextJob_idle junk
      rw [ran] at moved
      exact Or.inr ⟨_, rfl, moved⟩
  | @poolExitDies junk fault _ died =>
      have moved := step_recycle alive holding.nextJob_idle junk
      rw [died] at moved
      exact Or.inr ⟨_, rfl, moved⟩
  | _ => exact Or.inl rfl

/-- The fields of the pool, but its counters, are those of `mempool_init`. -/
theorem fields_of_step (reachable : machine.Reachable sys)
    (taken : machine.Step sys action next) :
    Mempool.System.SameFields sys.pool.pool.mp next.pool.pool.mp := by
  rcases pool_of_step reachable taken with same | ⟨_, _, moved⟩
  · rw [same]
    rfl
  · exact step_fields (holding_of_reachable reachable).pool moved

theorem max_of_reachable (reachable : machine.Reachable sys) :
    sys.pool.pool.mp.max = 65536 * 4 := by
  apply reachable.invariant
  · intro sys initial
    obtain ⟨addr, jobSize, mem, init⟩ := initial.init
    unfold mainPool Mempool.mempoolInit at init
    split at init
    · cases init
    · rw [← (Prod.mk.inj (Except.ok.inj init)).1]
  · intro sys action next reachable isMax taken
    rw [fields_of_step reachable taken]
    exact isMax

/-- With slices of the size that `mempool_init` asks for the program does not die. -/
theorem alive_of_reachable (reachable : machine.Reachable sys)
    (large : Mempool.sliceSize ≤ sys.pool.pool.mp.sz) : sys.pool.Alive := by
  revert large
  apply reachable.invariant
  · exact fun sys initial _ => Mempool.System.alive_initial initial.pool
  · intro sys action next reachable ih taken large
    rw [fields_of_step reachable taken] at large
    have alive := ih large
    rcases pool_of_step reachable taken with same | ⟨_, accepts, moved⟩
    · rw [same]
      exact alive
    · obtain ⟨stack, inv⟩ := Mempool.System.exists_inv (holding_of_reachable reachable).pool
      exact alive.step inv large accepts (Mempool.System.step_change moved).2

/-- Not more slices are in use than the pool allows. -/
theorem inUse_le (reachable : machine.Reachable sys) :
    sys.pool.inUse.Finite ∧ sys.pool.inUse.ncard ≤ 65536 * 4 := by
  have poolReachable := (holding_of_reachable reachable).pool
  obtain ⟨stack, inv⟩ := Mempool.System.exists_inv poolReachable
  have ref := inv.accounted.ref
  have within := Mempool.System.withinLimit poolReachable
  unfold Mempool.WithinLimit at within
  rw [max_of_reachable reachable, UInt64.le_iff_toNat_le] at within
  have atMost : sys.pool.pool.mp.ref.toNat ≤ 65536 * 4 := within (by decide)
  exact ⟨inv.accounted.finite, by omega⟩

/-- An unfinished job is in a slice of its own. -/
theorem ncard_unfinished_le (reachable : machine.Reachable sys) :
    {job | sys.Unfinished job}.Finite ∧ {job | sys.Unfinished job}.ncard ≤ 65536 * 4 := by
  have holding := holding_of_reachable reachable
  obtain ⟨stack, inv⟩ := Mempool.System.exists_inv holding.pool
  obtain ⟨finite, atMost⟩ := inUse_le reachable
  have owns : ∀ job, sys.Unfinished job → sys.slice job ∈ sys.pool.owned job := by
    intro job unfinished
    have nonempty := (holding.held job).mpr (Or.inr unfinished)
    have isSlice := (holding.slice job).resolve_left nonempty
    exact List.mem_append_left _ (isSlice ▸ List.mem_singleton_self _)
  have maps : ∀ job ∈ {job | sys.Unfinished job}, sys.slice job ∈ sys.pool.inUse :=
    fun job unfinished => ⟨job, owns job unfinished⟩
  have injective : Set.InjOn sys.slice {job | sys.Unfinished job} := by
    intro left inLeft right inRight same
    exact inv.accounted.unique left right (sys.slice left) (owns left inLeft)
      (same ▸ owns right inRight)
  exact ⟨Set.Finite.of_injOn maps injective finite,
    (Set.ncard_le_ncard_of_injOn sys.slice maps injective finite).trans atMost⟩

/-- The first test, up to the end of the writer, which adds one job. -/
def writerRun : List Action :=
  List.flatten [execRun .threadwq2, [.main zeros, .writer 8192 false],
    List.replicate 5 (.writer 0 false), [.writer 0 true, .main zeros]]

end System

/-- Between their add function and `cb_finish` there are never more jobs than the pool has
slices, in all queues, workers and lists of `call_rcu` of both tests together. -/
theorem backlog_le {sys : System} (reachable : System.machine.Reachable sys) :
    {job | sys.Unfinished job}.Finite ∧ {job | sys.Unfinished job}.ncard ≤ 65536 * 4 ∧
      sys.backlog.length ≤ 65536 * 4 := by
  obtain ⟨finite, atMost⟩ := System.ncard_unfinished_le reachable
  refine ⟨finite, atMost, ?_⟩
  rw [← List.toFinset_card_of_nodup (System.backlog_nodup reachable), ← Set.ncard_coe_finset]
  refine (Set.ncard_le_ncard ?_ finite).trans atMost
  intro job member
  rw [List.coe_toFinset] at member
  obtain ⟨test, _, inTest⟩ := List.mem_flatMap.mp member
  obtain ⟨index, _, flying⟩ := List.mem_flatMap.mp inTest
  exact System.unfinished_of_inFlight reachable flying

theorem backlog_le_writerRun :
    ∃ sys, System.machine.Reachable sys ∧ sys.backlog = [0] ∧
      {job | sys.Unfinished job}.Finite ∧ {job | sys.Unfinished job}.ncard ≤ 65536 * 4 ∧
      sys.backlog.length ≤ 65536 * 4 := by
  obtain ⟨history, sys, run, one⟩ := System.exists_run System.writerRun
    (fun sys => sys.backlog = [0]) (by decide +kernel)
  exact ⟨sys, ⟨history, run⟩, one, backlog_le ⟨history, run⟩⟩

/-! ## The end of a test -/

namespace System

variable {sys : System} {test : Test}

/-- Every job is added once. -/
theorem added_nodup {twq : Threadwq.System Nat}
    (reachable : (Threadwq.System.machine Nat).Reachable twq) : twq.added.Nodup := by
  apply reachable.invariant
  · intro twq initial
    rw [initial.added]
    exact .nil
  · intro twq action next _ nodup moved
    by_cases isAdder : action.role = .adder
    · cases action with
      | call thread entry job =>
          obtain ⟨_, fresh, rfl⟩ := Threadwq.System.step_call moved
          exact List.nodup_cons.mpr ⟨fresh, nodup⟩
      | add thread =>
          rw [Threadwq.System.addStep_added moved]
          exact nodup
      | _ => cases isAdder
    · rw [(Threadwq.System.step_others moved isAdder).2]
      exact nodup

/-- A reading of the logs of all queues of a test. -/
def allQueues (sys : System) (test : Test) (reading : List (Event Nat) → List Nat) : List Nat :=
  (List.range twqNum).flatMap fun index => reading ((sys.twq test).twq index).log

/-- A reading that has only enqueued jobs, each once, and leaves no job out. -/
theorem allQueues_perm_added (reachable : machine.Reachable sys)
    {reading : List (Event Nat) → List Nat}
    (nodup : ∀ index, (reading ((sys.twq test).twq index).log).Nodup)
    (wasEnqueued : ∀ index, ∀ job ∈ reading ((sys.twq test).twq index).log,
      job ∈ enqueued ((sys.twq test).twq index).log)
    (all : ∀ job ∈ (sys.twq test).added, ∃ index, index < twqNum ∧
      job ∈ reading ((sys.twq test).twq index).log) :
    (sys.allQueues test reading).Perm (sys.twq test).added := by
  have parts := twq_reachable reachable test
  have distinct : (sys.allQueues test reading).Nodup := by
    refine List.nodup_flatMap.mpr ⟨fun index _ => nodup index, List.nodup_range.imp ?_⟩
    intro left right different job inLeft inRight
    exact different (Threadwq.System.onePlace_of_reachable parts left right job
      (wasEnqueued left job inLeft) (wasEnqueued right job inRight))
  refine (List.perm_ext_iff_of_nodup distinct (added_nodup parts)).mpr fun job => ?_
  unfold allQueues
  rw [List.mem_flatMap]
  constructor
  · rintro ⟨index, _, member⟩
    exact (Threadwq.System.jobs_of_reachable parts).enqueued_added index job
      (wasEnqueued index job member)
  · intro added
    obtain ⟨index, inRange, member⟩ := all job added
    exact ⟨index, List.mem_range.mpr inRange, member⟩

/-- What is known once `threadwq_exit_multi` of a test has returned: the workers have started
exactly the jobs that were added, each once, and have handed them to `call_rcu`, each once,
and nothing is left in the queues. -/
structure TestOver (sys : System) (test : Test) : Prop where
  started : (sys.allQueues test started).Perm (sys.twq test).added
  handed : (sys.allQueues test handedToRcu).Perm (sys.twq test).added
  empty : ∀ index, index < twqNum → ((sys.twq test).twq index).lfq = []
  returned : ∀ index, index < twqNum → ((sys.twq test).twq index).worker = .returned

end System

/-- At the end of a test and ever after. -/
theorem test_over {sys : System} (reachable : System.machine.Reachable sys) {test : Test}
    (stopped : sys.TestStopped test) : sys.TestOver test := by
  have parts := System.twq_reachable reachable test
  have delivery := System.delivery_of_reachable reachable test
  have handed : ∀ job ∈ (sys.twq test).added, ∃ index, index < twqNum ∧
      job ∈ handedToRcu ((sys.twq test).twq index).log :=
    fun _ => System.handed_of_stopped reachable stopped
  have startedOf : ∀ index job, job ∈ handedToRcu ((sys.twq test).twq index).log →
      job ∈ started ((sys.twq test).twq index).log := by
    intro index job isHanded
    rw [(delivery index).starting, (delivery index).handing]
    exact List.mem_append_left _ (List.mem_append_left _ isHanded)
  have enqueuedOf : ∀ index job, job ∈ started ((sys.twq test).twq index).log →
      job ∈ enqueued ((sys.twq test).twq index).log := by
    intro index job isStarted
    rw [(delivery index).queue]
    exact List.mem_append_left _ (List.mem_append_left _ isStarted)
  constructor
  case started =>
    refine System.allQueues_perm_added reachable (fun index => (delivery index).started_nodup)
      enqueuedOf fun job added => ?_
    obtain ⟨index, inRange, isHanded⟩ := handed job added
    exact ⟨index, inRange, startedOf index job isHanded⟩
  case handed =>
    exact System.allQueues_perm_added reachable (fun index => (delivery index).handedToRcu_nodup)
      (fun index job isHanded => enqueuedOf index job (startedOf index job isHanded)) handed
  case empty =>
    intro index _
    apply List.eq_nil_iff_forall_not_mem.mpr
    intro job queued
    have perm := enqueued_perm (delivery index)
    have flying : job ∈ inFlight ((sys.twq test).twq index) := by simp [inFlight, queued]
    have isEnqueued := perm.mem_iff.mpr (List.mem_append_right _ flying)
    obtain ⟨other, _, isHanded⟩ := handed job
      ((Threadwq.System.jobs_of_reachable parts).enqueued_added index job isEnqueued)
    obtain rfl := Threadwq.System.onePlace_of_reachable parts index other job isEnqueued
      (enqueuedOf other job (startedOf other job isHanded))
    -- The queue has what is enqueued and not started.
    have nodup := (delivery index).nodup
    rw [(delivery index).queue] at nodup
    exact nodup.disjoint (List.mem_append_left _ (startedOf index job isHanded)) queued
  case returned =>
    intro index inRange
    have returned := System.returned_of_stopped reachable stopped inRange
    exact (Threadwq.shutdown_of_reachable parts index).joined returned

/-- The second test has begun; the callback of the first one's job has not been run yet. -/
theorem test_over_writerRun :
    ∃ sys, System.machine.Reachable sys ∧ sys.main = .execMulti .threadwq3 0 ∧
      (sys.twq .threadwq2).added = [0] ∧ ((sys.twq .threadwq2).twq 1).rcu = [0] ∧
      sys.TestOver .threadwq2 := by
  obtain ⟨history, sys, run, main, added, queued⟩ := System.exists_run
    (System.writerRun ++ System.exitRun .threadwq2 [5, 9, 5, 5] ++ [.main System.zeros])
    (fun sys => sys.main = .execMulti .threadwq3 0 ∧ (sys.twq .threadwq2).added = [0] ∧
      ((sys.twq .threadwq2).twq 1).rcu = [0]) (by decide +kernel)
  have stopped : sys.TestStopped .threadwq2 := fun _ _ => by rw [main]; rfl
  exact ⟨sys, ⟨history, run⟩, main, added, queued, test_over ⟨history, run⟩ stopped⟩

end LinuxCTemplate.Main
