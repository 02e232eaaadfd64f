import Mathlib.Data.Int.CardIntervalMod
import LinuxCTemplate.Threadwq.Calls

/-!
# The round-robin policy

`rr_add_job` reads the index, and either advances it or, past the end of the pool,
stores 0 and uses queue 0.  The reset does not count queue 0 as used: the next call
reads 0 and uses queue 0 again.  With a pool of `nr` queues the policy therefore has
period `nr + 1`, in which queue 0 gets two jobs, and it is a round robin only for one
queue, or up to the first job after the reset.
-/

namespace LinuxCTemplate.Threadwq

open Foundation

variable {Job : Type}

/-! ## A single producer -/

/-- The action adds jobs only as `producer` and through the manager. -/
def Action.viaManagerBy (producer : Thread) : Action Job → Bool
  | .call thread .threadwqManAddJob _ => thread == producer
  | .call _ (.threadwqAddJob _) _ => false
  | _ => true

/-- The `k`-th job enqueued is on queue `queueOf k`. -/
def Follows (queueOf : Nat → Nat) (placed : List (Nat × Job)) : Prop :=
  placed.map Prod.fst = (List.range placed.length).map queueOf

theorem Follows.append {queueOf : Nat → Nat} {placed : List (Nat × Job)}
    (follows : Follows queueOf placed) {queue : Nat} (isNext : queue = queueOf placed.length)
    (job : Job) : Follows queueOf (placed ++ [(queue, job)]) := by
  unfold Follows at follows ⊢
  simp only [List.map_append, follows, List.length_append, List.length_singleton,
    List.range_succ, List.map_cons, List.map_nil, isNext]

namespace System

/-- A process in which a single producer adds jobs, whatever the policy. -/
structure OneProducer (producer : Thread) (sys : System Job) : Prop where
  others : ∀ thread, thread ≠ producer → sys.add thread = .idle
  jobs : sys.added.reverse = sys.placed.map Prod.snd ++ (sys.add producer).pending?.toList

theorem Initial.oneProducer {sys : System Job} (initial : Initial sys) (producer : Thread) :
    OneProducer producer sys where
  others thread _ := initial.add thread
  jobs := by
    rw [initial.add, initial.placed, initial.added]
    rfl

/-- Only the producer is in an add function. -/
theorem OneProducer.eq_producer {producer thread : Thread} {sys next : System Job}
    (one : OneProducer producer sys) (step : sys.addStep thread = some next) :
    thread = producer := by
  by_contra different
  simp [System.addStep, one.others thread different] at step

theorem OneProducer.addStep {producer : Thread} {sys next : System Job}
    (one : OneProducer producer sys) (step : sys.addStep producer = some next) :
    OneProducer producer next where
  others thread different := by
    rw [addStep_add_of_ne step different]
    exact one.others thread different
  jobs := by
    rw [addStep_added step, addStep_jobs step]
    exact one.jobs

theorem OneProducer.step [DecidableEq Job] {producer : Thread} {sys next : System Job}
    {action : Action Job} (one : OneProducer producer sys)
    (single : action.viaManagerBy producer = true) (step : sys.step action = some next) :
    OneProducer producer next := by
  cases step_moves step with
  | worker | controller | spurious | rcu => exact ⟨one.others, one.jobs⟩
  | @call thread entry job idle =>
      cases entry with
      | threadwqAddJob => cases single
      | threadwqManAddJob =>
          obtain rfl : thread = producer := by simpa [Action.viaManagerBy] using single
          have jobs := one.jobs
          rw [AddPc.eq_idle idle] at jobs
          constructor
          · intro other different
            exact (setAdd_add_of_ne _ _ different).trans (one.others other different)
          · change (job :: sys.added).reverse = sys.placed.map Prod.snd ++
              ((sys.setAdd thread (sys.entryPc .threadwqManAddJob job)).add thread).pending?.toList
            rw [setAdd_add_self, pending?_entryPc, List.reverse_cons, jobs]
            simp [AddPc.pending?]
  | add moved =>
      obtain rfl := one.eq_producer moved
      exact one.addStep moved

/-- The job at a place of the sequence of enqueues is the one added in that place. -/
theorem OneProducer.added_of_placed {producer : Thread} {sys : System Job}
    (one : OneProducer producer sys) {k queue : Nat} {job : Job}
    (lookup : sys.placed[k]? = some (queue, job)) : sys.added.reverse[k]? = some job := by
  have below : k < sys.placed.length := (List.getElem?_eq_some_iff.mp lookup).1
  rw [one.jobs, List.getElem?_append_left (by simpa using below), List.getElem?_map, lookup]
  rfl

end System

theorem Follows.queue_eq {queueOf : Nat → Nat} {placed : List (Nat × Job)}
    (follows : Follows queueOf placed) {k queue : Nat} {job : Job}
    (lookup : placed[k]? = some (queue, job)) : queue = queueOf k := by
  obtain ⟨below, isEntry⟩ := List.getElem?_eq_some_iff.mp lookup
  have queues := congrArg (fun queues => queues[k]?) follows
  simpa [below, isEntry] using queues

/-! ## The rotation of a single producer -/

/-- The queue of job `k`. -/
def rrQueue (nr k : Nat) : Nat :=
  if k % (nr + 1) < nr then k % (nr + 1) else 0

/-- The index at a program point of the producer, when `placed` jobs are on their
queues. -/
def AddPc.Rotates (nr placed twqIdx : Nat) : AddPc Job → Prop
  | .idle | .lock _ | .signal _ | .unlock _ | .rrRead _ => twqIdx = placed % (nr + 1)
  | .rrAdvance idx _ => idx.toNat = placed % (nr + 1) ∧ twqIdx = placed % (nr + 1)
  | .enqueue queue _ => queue = rrQueue nr placed ∧ twqIdx = (placed + 1) % (nr + 1)
  | _ => False

namespace System

/-- `threadwq_man_init` refuses an empty pool, and `rr_init` clears the index. -/
theorem Initial.started {sys : System Job} (initial : Initial sys) :
    0 < sys.man.twqPoolNr.toNat ∧ sys.man.twqIdx = 0 := by
  have started := initial.man
  unfold threadwqManInit at started
  split at started
  next => cases started
  next nonempty =>
    constructor
    · rcases Nat.eq_zero_or_pos sys.man.twqPoolNr.toNat with zero | positive
      · exact (nonempty (UInt32.toNat_inj.mp zero)).elim
      · exact positive
    · rw [← Option.some.inj started]

/-- An index inside the pool has a successor, even in the largest pool. -/
theorem succ_toNat {nr idx : UInt32} (inside : idx.toNat < nr.toNat) :
    (idx + 1).toNat = idx.toNat + 1 := by
  have bound := nr.toNat_lt
  rw [UInt32.toNat_add]
  apply Nat.mod_eq_of_lt
  change idx.toNat + 1 < _
  omega

/-- The invariant of a process in which a single producer adds jobs through `rr_add_job`. -/
structure Rotating (producer : Thread) (sys : System Job) : Prop where
  pool : 0 < sys.man.twqPoolNr.toNat
  others : ∀ thread, thread ≠ producer → sys.add thread = .idle
  index : (sys.add producer).Rotates sys.man.twqPoolNr.toNat sys.placed.length
    sys.man.twqIdx.toNat
  queues : sys.placed.map Prod.fst =
    (List.range sys.placed.length).map (rrQueue sys.man.twqPoolNr.toNat)
  jobs : sys.added.reverse = sys.placed.map Prod.snd ++ (sys.add producer).pending?.toList

theorem Initial.rotating {sys : System Job} (initial : Initial sys) (producer : Thread) :
    Rotating producer sys where
  pool := initial.started.1
  others := (initial.oneProducer producer).others
  index := by
    rw [initial.add, initial.placed, initial.started.2]
    rfl
  queues := by
    rw [initial.placed]
    rfl
  jobs := (initial.oneProducer producer).jobs

theorem Rotating.oneProducer {producer : Thread} {sys : System Job}
    (inv : Rotating producer sys) : OneProducer producer sys :=
  ⟨inv.others, inv.jobs⟩

/-- A step that enqueues nothing. -/
theorem Rotating.keep {producer : Thread} {sys next : System Job}
    (inv : Rotating producer sys) (one : OneProducer producer next)
    (sameNr : next.man.twqPoolNr = sys.man.twqPoolNr) (samePlaced : next.placed = sys.placed)
    (rotates : (next.add producer).Rotates sys.man.twqPoolNr.toNat sys.placed.length
      next.man.twqIdx.toNat) : Rotating producer next where
  pool := by
    rw [sameNr]
    exact inv.pool
  others := one.others
  index := by
    rw [sameNr, samePlaced]
    exact rotates
  queues := by
    rw [sameNr, samePlaced]
    exact inv.queues
  jobs := one.jobs

/-- The reset of the index past the end of the pool. -/
theorem Rotating.reset {producer : Thread} {sys : System Job} (inv : Rotating producer sys)
    {idx : UInt32} {job : Job} (pc : sys.add producer = .rrAdvance idx job)
    (past : sys.man.twqPoolNr ≤ idx)
    (one : OneProducer producer ((sys.setIdx 0).setAdd producer (.enqueue 0 job))) :
    Rotating producer ((sys.setIdx 0).setAdd producer (.enqueue 0 job)) := by
  have index := inv.index
  rw [pc] at index
  obtain ⟨isIdx, isTwqIdx⟩ := index
  have below : sys.placed.length % (sys.man.twqPoolNr.toNat + 1) < sys.man.twqPoolNr.toNat + 1 :=
    Nat.mod_lt _ (Nat.succ_pos _)
  have atEnd : sys.placed.length % (sys.man.twqPoolNr.toNat + 1) = sys.man.twqPoolNr.toNat := by
    have past := UInt32.le_iff_toNat_le.mp past
    omega
  refine inv.keep one rfl rfl ?_
  rw [setAdd_add_self]
  constructor
  · simp [rrQueue, atEnd]
  · rw [← Nat.mod_add_mod, atEnd, Nat.mod_self]
    rfl

/-- The advance of the index inside the pool. -/
theorem Rotating.advance {producer : Thread} {sys : System Job} (inv : Rotating producer sys)
    {idx : UInt32} {job : Job} (pc : sys.add producer = .rrAdvance idx job)
    (notPast : ¬ sys.man.twqPoolNr ≤ idx)
    (one : OneProducer producer
      ((sys.setIdx (sys.man.twqIdx + 1)).setAdd producer (.enqueue idx.toNat job))) :
    Rotating producer
      ((sys.setIdx (sys.man.twqIdx + 1)).setAdd producer (.enqueue idx.toNat job)) := by
  have index := inv.index
  rw [pc] at index
  obtain ⟨isIdx, isTwqIdx⟩ := index
  rw [UInt32.le_iff_toNat_le] at notPast
  refine inv.keep one rfl rfl ?_
  rw [setAdd_add_self]
  constructor
  · rw [rrQueue, if_pos (by omega), isIdx]
  · change (sys.man.twqIdx + 1).toNat = _
    have inside : sys.man.twqIdx.toNat < sys.man.twqPoolNr.toNat := by omega
    rw [succ_toNat inside, isTwqIdx, ← Nat.mod_add_mod]
    exact (Nat.mod_eq_of_lt (by omega)).symm

/-- The enqueue. -/
theorem Rotating.place {producer : Thread} {sys : System Job}
    (inv : Rotating producer sys) {queue : Nat} {job : Job}
    (pc : sys.add producer = .enqueue queue job)
    (one : OneProducer producer
      ((sys.place producer queue job).setAdd producer (.lock queue))) :
    Rotating producer ((sys.place producer queue job).setAdd producer (.lock queue)) := by
  have index := inv.index
  rw [pc] at index
  constructor
  case pool => exact inv.pool
  case others => exact one.others
  case index =>
    rw [setAdd_add_self]
    simpa [AddPc.Rotates] using index.2
  case queues => exact Follows.append inv.queues index.1 job
  case jobs => exact one.jobs

theorem Rotating.addStep {producer : Thread} {sys next : System Job}
    (inv : Rotating producer sys) (step : sys.addStep producer = some next) :
    Rotating producer next := by
  have one := inv.oneProducer.addStep step
  have index := inv.index
  obtain ⟨point, pc, moves⟩ := addStep_moves step
  rw [pc] at index
  cases moves with
  | readIdx | tryLockFails | tryLock | setIdx | enqueueLocked => exact index.elim
  | rrReset idx job past => exact inv.reset pc past one
  | rrAdvance idx job notPast => exact inv.advance pc notPast one
  | enqueue queue job => exact inv.place pc one
  | lock | signal | unlock =>
      refine inv.keep one rfl rfl ?_
      rw [setAdd_add_self]
      exact index
  | rrRead =>
      refine inv.keep one rfl rfl ?_
      rw [setAdd_add_self]
      exact ⟨index, index⟩

/-- A new call. -/
theorem Rotating.call {producer : Thread} {sys : System Job} (inv : Rotating producer sys)
    (rr : sys.man.ops = .rr) (idle : (sys.add producer).isIdle = true) {job : Job}
    (one : OneProducer producer { sys.setAdd producer (sys.entryPc .threadwqManAddJob job) with
      added := job :: sys.added }) :
    Rotating producer { sys.setAdd producer (sys.entryPc .threadwqManAddJob job) with
      added := job :: sys.added } := by
  have index := inv.index
  rw [AddPc.eq_idle idle] at index
  refine inv.keep one rfl rfl ?_
  simp only [setAdd_add_self, entryPc, rr]
  exact index

variable [DecidableEq Job]

theorem Rotating.step {producer : Thread} {sys next : System Job} {action : Action Job}
    (inv : Rotating producer sys) (rr : sys.man.ops = .rr)
    (single : action.viaManagerBy producer = true)
    (step : sys.step action = some next) : Rotating producer next := by
  have one := inv.oneProducer.step single step
  cases step_moves step with
  | worker | controller | spurious | rcu => exact inv.keep one rfl rfl inv.index
  | @call thread entry job idle =>
      cases entry with
      | threadwqAddJob => cases single
      | threadwqManAddJob =>
          obtain rfl : thread = producer := by simpa [Action.viaManagerBy] using single
          exact inv.call rr idle one
  | add moved =>
      obtain rfl := inv.oneProducer.eq_producer moved
      exact inv.addStep moved

end System

/-- A run in which a single producer adds all jobs with `rr_add_job`. -/
structure UsesRr [DecidableEq Job] (producer : Thread)
    (history : List (System Job × Action Job)) (sys : System Job) : Prop where
  run : (System.machine Job).Run history sys
  ops : sys.man.ops = .rr
  single : ∀ entry ∈ history, entry.2.viaManagerBy producer = true

theorem UsesRr.rotating [DecidableEq Job] {producer : Thread}
    {history : List (System Job × Action Job)} {sys : System Job}
    (uses : UsesRr producer history sys) : System.Rotating producer sys := by
  have invariant : Machine.Visits history sys
      fun state => state.man.ops = .rr → System.Rotating producer state := by
    refine uses.run.invariant_of_steps
      (fun _ action => action.viaManagerBy producer = true) ?_ ?_ uses.single
    · intro state start _
      exact System.Initial.rotating start producer
    · intro state action next _ inv single step rr
      have before : state.man.ops = .rr := (System.step_ops step).symm.trans rr
      exact (inv before).step before single step
  exact invariant.2 uses.ops

/-! ## Round robin or not -/

namespace System

/-- Job `k` passed to an add function is on queue `k` modulo the size of the pool, for all
jobs enqueued so far. -/
def InRotation (sys : System Job) : Prop :=
  ∀ k queue job, sys.placed[k]? = some (queue, job) →
    queue = k % sys.man.twqPoolNr.toNat ∧ sys.added.reverse[k]? = some job

/-- The number of jobs given to a queue. -/
def given (sys : System Job) (queue : Nat) : Nat :=
  sys.placed.countP fun entry => entry.1 == queue

/-- The numbers of jobs given to any two queues of the pool differ by at most one. -/
def Balanced (sys : System Job) : Prop :=
  ∀ left right, left < sys.man.twqPoolNr.toNat → right < sys.man.twqPoolNr.toNat →
    sys.given left ≤ sys.given right + 1

end System

/-- The rotation is the round robin up to the first job after the reset, and with a
single queue. -/
theorem rrQueue_eq_mod_iff {nr placed : Nat} (pool : 0 < nr) :
    (∀ k < placed, rrQueue nr k = k % nr) ↔ nr = 1 ∨ placed ≤ nr + 1 := by
  constructor
  · intro rotation
    by_contra other
    rw [not_or, not_le] at other
    obtain ⟨notOne, long⟩ := other
    -- The first job after the reset uses queue 0 again.
    have reset := rotation (nr + 1) long
    rw [rrQueue, Nat.mod_self, if_pos pool, Nat.add_mod_left, Nat.mod_eq_of_lt (by omega)] at reset
    cases reset
  · rintro (rfl | short) k below
    · rw [Nat.mod_one, rrQueue]
      split <;> omega
    · rw [rrQueue, Nat.mod_eq_of_lt (Nat.lt_of_lt_of_le below short)]
      split
      next inside => exact (Nat.mod_eq_of_lt inside).symm
      next atEnd =>
        have last : k = nr := by omega
        rw [last, Nat.mod_self]

namespace System

theorem Rotating.queue_eq {producer : Thread} {sys : System Job} (inv : Rotating producer sys)
    {k queue : Nat} {job : Job} (lookup : sys.placed[k]? = some (queue, job)) :
    queue = rrQueue sys.man.twqPoolNr.toNat k ∧ sys.added.reverse[k]? = some job :=
  ⟨Follows.queue_eq inv.queues lookup, inv.oneProducer.added_of_placed lookup⟩

theorem Rotating.inRotation_iff {producer : Thread} {sys : System Job}
    (inv : Rotating producer sys) :
    sys.InRotation ↔ ∀ k < sys.placed.length, rrQueue sys.man.twqPoolNr.toNat k =
      k % sys.man.twqPoolNr.toNat := by
  constructor
  · intro rotation k below
    have lookup : sys.placed[k]? = some (sys.placed[k].1, sys.placed[k].2) :=
      List.getElem?_eq_getElem below
    rw [← (inv.queue_eq lookup).1]
    exact (rotation k _ _ lookup).1
  · intro rotation k queue job lookup
    obtain ⟨isQueue, isJob⟩ := inv.queue_eq lookup
    have below : k < sys.placed.length := (List.getElem?_eq_some_iff.mp lookup).1
    exact ⟨isQueue.trans (rotation k below), isJob⟩

/-- In a round robin over `nr` queues, the jobs given to a queue are counted by residues. -/
theorem Rotating.given_eq {producer : Thread} {sys : System Job} (inv : Rotating producer sys)
    (rotation : ∀ k < sys.placed.length, rrQueue sys.man.twqPoolNr.toNat k =
      k % sys.man.twqPoolNr.toNat) {queue : Nat} (inPool : queue < sys.man.twqPoolNr.toNat) :
    sys.given queue = sys.placed.length / sys.man.twqPoolNr.toNat +
      if queue < sys.placed.length % sys.man.twqPoolNr.toNat then 1 else 0 := by
  have byResidue := Nat.count_modEq_card sys.placed.length inv.pool queue
  rw [Nat.mod_eq_of_lt inPool] at byResidue
  rw [← byResidue]
  have overQueues : sys.given queue = (sys.placed.map Prod.fst).countP (· == queue) := by
    rw [List.countP_map]
    rfl
  rw [overQueues, inv.queues, List.countP_map]
  unfold Nat.count
  apply List.countP_congr
  intro k member
  rw [List.mem_range] at member
  simp [rotation k member, Nat.ModEq, Nat.mod_eq_of_lt inPool]

end System

theorem rr_round_robin_iff [DecidableEq Job] {producer : Thread}
    {history : List (System Job × Action Job)} {sys : System Job}
    (uses : UsesRr producer history sys) :
    (sys.InRotation ∧ sys.Balanced) ↔
      sys.man.twqPoolNr = 1 ∨ sys.placed.length ≤ sys.man.twqPoolNr.toNat + 1 := by
  have inv := uses.rotating
  have single : sys.man.twqPoolNr = 1 ↔ sys.man.twqPoolNr.toNat = 1 :=
    UInt32.toNat_inj.symm
  rw [single, ← rrQueue_eq_mod_iff inv.pool, inv.inRotation_iff]
  constructor
  · exact fun both => both.1
  · intro rotation
    refine ⟨rotation, fun left right leftInPool rightInPool => ?_⟩
    rw [inv.given_eq rotation leftInPool, inv.given_eq rotation rightInPool]
    split <;> split <;> omega

/-! ## A pool of two queues -/

/-- Producer 0 adds the jobs one after the other, each call run to its end. -/
def rrRun (jobs : List Nat) : List (Action Nat) :=
  jobs.flatMap fun job =>
    .call (.producer 0) .threadwqManAddJob job :: List.replicate 6 (.add (.producer 0))

theorem usesRr_rrRun {sys : System Nat} {jobs : List Nat}
    (ran : System.run (System.boot ⟨true, true⟩ ⟨2, .rr, 0⟩) (rrRun jobs) = some sys)
    (rr : sys.man.ops = .rr) : ∃ history, UsesRr (.producer 0) history sys := by
  obtain ⟨history, run, labels, _⟩ := System.exists_history (System.boot_initial _ _ rfl) ran
  refine ⟨history, run, rr, fun entry member => ?_⟩
  have inRun : entry.2 ∈ rrRun jobs := labels ▸ List.mem_map_of_mem member
  simp only [rrRun, List.mem_flatMap, List.mem_cons, List.mem_replicate] at inRun
  obtain ⟨job, _, isCall | ⟨_, isStep⟩⟩ := inRun
  · rw [isCall]
    exact beq_self_eq_true _
  · rw [isStep]
    rfl

/-- The fourth job goes to queue 0, after the third. -/
theorem rr_not_round_robin :
    ∃ history, ∃ sys : System Nat, UsesRr (.producer 0) history sys ∧
      sys.placed = [(0, 10), (1, 11), (0, 12), (0, 13)] ∧
      ¬ sys.InRotation ∧ ¬ sys.Balanced := by
  obtain ⟨sys, ran, rr, pool, placed⟩ := System.exists_run
    (System.boot ⟨true, true⟩ ⟨2, .rr, 0⟩) (rrRun [10, 11, 12, 13])
    (fun sys => sys.man.ops = .rr ∧ sys.man.twqPoolNr = 2 ∧
      sys.placed = [(0, 10), (1, 11), (0, 12), (0, 13)]) (by decide)
  obtain ⟨history, uses⟩ := usesRr_rrRun ran rr
  refine ⟨history, sys, uses, placed, ?_, ?_⟩
  · intro rotation
    have fourth := (rotation 3 0 13 (by rw [placed]; rfl)).1
    rw [pool] at fourth
    exact absurd fourth (by decide)
  · intro balanced
    have counts := balanced 0 1 (by rw [pool]; decide) (by rw [pool]; decide)
    rw [System.given, System.given, placed] at counts
    exact absurd counts (by decide)

theorem rr_round_robin_iff_three :
    ∃ history, ∃ sys : System Nat, UsesRr (.producer 0) history sys ∧
      sys.placed = [(0, 10), (1, 11), (0, 12)] ∧ sys.InRotation ∧ sys.Balanced := by
  obtain ⟨sys, ran, rr, pool, placed⟩ := System.exists_run
    (System.boot ⟨true, true⟩ ⟨2, .rr, 0⟩) (rrRun [10, 11, 12])
    (fun sys => sys.man.ops = .rr ∧ sys.man.twqPoolNr = 2 ∧
      sys.placed = [(0, 10), (1, 11), (0, 12)]) (by decide)
  obtain ⟨history, uses⟩ := usesRr_rrRun ran rr
  have short : sys.placed.length ≤ sys.man.twqPoolNr.toNat + 1 := by
    rw [placed, pool]
    decide
  exact ⟨history, sys, uses, placed, (rr_round_robin_iff uses).mpr (Or.inr short)⟩

end LinuxCTemplate.Threadwq
