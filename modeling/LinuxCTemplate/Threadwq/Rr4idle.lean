import LinuxCTemplate.Threadwq.FirstFree
import LinuxCTemplate.Threadwq.Handover

/-!
# The idle-first policy

In every run under `rr4idle_add_job` each call takes the first free queue in cyclic order
from the index it reads, and the index stays within the pool.  A single producer that
never finds a mutex taken therefore gives its jobs to the queues in rotation, which
`rr_add_job` does not.
-/

namespace LinuxCTemplate.Threadwq

open Foundation

variable {Job : Type}

/-! ## The rotation of a single producer -/

/-- The indices at a program point of the producer, when `placed` jobs are on their
queues. -/
def AddPc.Cycles (nr placed idx : Nat) : AddPc Job → Prop
  | .idle | .readIdx _ | .signal _ | .unlock _ => idx % nr = placed % nr
  | .tryLock held _ => held.toNat % nr = placed % nr
  | .setIdx held _ => held.toNat = placed % nr
  | .enqueueLocked held _ => held.toNat = placed % nr ∧ idx % nr = (placed + 1) % nr
  | _ => False

/-- No attempt to get a mutex fails in the step. -/
def Unfailing (step : System Job × Action Job) : Prop :=
  ∀ thread queue, step.2 = .add thread → step.1.access? thread ≠ some (.tryLock queue false)

namespace System

/-- The invariant of a process in which a single producer adds jobs through
`rr4idle_add_job` and no attempt fails. -/
structure Cycles (producer : Thread) (sys : System Job) : Prop where
  cursor : Cursor sys
  one : OneProducer producer sys
  index : (sys.add producer).Cycles sys.man.twqPoolNr.toNat sys.placed.length
    sys.man.twqIdx.toNat
  queues : Follows (· % sys.man.twqPoolNr.toNat) sys.placed

theorem Initial.cycles {sys : System Job} (initial : Initial sys) (producer : Thread) :
    Cycles producer sys where
  cursor := by
    refine ⟨initial.started.1, ?_, fun thread => ?_⟩
    · rw [initial.started.2]
      exact Nat.zero_le _
    · rw [initial.add]
      trivial
  one := initial.oneProducer producer
  index := by
    rw [initial.add, initial.placed, initial.started.2]
    rfl
  queues := by
    rw [initial.placed]
    rfl

/-- A step that enqueues nothing. -/
theorem Cycles.keep {producer : Thread} {sys next : System Job} (inv : Cycles producer sys)
    (cursor : Cursor next) (one : OneProducer producer next)
    (sameNr : next.man.twqPoolNr = sys.man.twqPoolNr) (samePlaced : next.placed = sys.placed)
    (index : (next.add producer).Cycles sys.man.twqPoolNr.toNat sys.placed.length
      next.man.twqIdx.toNat) : Cycles producer next where
  cursor := cursor
  one := one
  index := by
    rw [sameNr, samePlaced]
    exact index
  queues := by
    rw [sameNr, samePlaced]
    exact inv.queues

theorem Cycles.addStep {producer : Thread} {sys next : System Job} (inv : Cycles producer sys)
    (unfailing : ∀ queue, sys.access? producer ≠ some (.tryLock queue false))
    (step : sys.addStep producer = some next) : Cycles producer next := by
  have cursor := inv.cursor.addStep step
  have one := inv.one.addStep step
  have inPool := inv.cursor.calls producer
  have index := inv.index
  obtain ⟨point, pc, moves⟩ := addStep_moves step
  rw [pc] at index inPool
  cases moves with
  | enqueue | lock | rrRead | rrReset | rrAdvance => exact index.elim
  | tryLockFails held job holder mutex =>
      refine (unfailing (sys.tried held).toNat ?_).elim
      simp only [access?, pc, mutex]
      rfl
  | tryLock held job free =>
      refine inv.keep cursor one rfl rfl ?_
      rw [setAdd_add_self]
      exact (tried_toNat inPool).trans index
  | setIdx held job =>
      refine inv.keep cursor one rfl rfl ?_
      rw [setAdd_add_self]
      refine ⟨index, ?_⟩
      change (held + 1).toNat % _ = _
      rw [succ_toNat inPool, index, Nat.mod_add_mod]
  | enqueueLocked held job =>
      refine ⟨cursor, one, ?_, inv.queues.append index.1 job⟩
      rw [setAdd_add_self]
      simpa [AddPc.Cycles] using index.2
  | readIdx | signal | unlock =>
      refine inv.keep cursor one rfl rfl ?_
      rw [setAdd_add_self]
      exact index

theorem Cycles.step [DecidableEq Job] {producer : Thread} {sys next : System Job}
    {action : Action Job} (inv : Cycles producer sys) (ops : sys.man.ops = .rr4idle)
    (single : action.viaManagerBy producer = true) (unfailing : Unfailing (sys, action))
    (step : sys.step action = some next) : Cycles producer next := by
  have cursor := inv.cursor.step ops step
  have one := inv.one.step single step
  cases step_moves step with
  | worker | controller | spurious | rcu => exact inv.keep cursor one rfl rfl inv.index
  | @call thread entry job idle =>
      cases entry with
      | threadwqAddJob => cases single
      | threadwqManAddJob =>
          obtain rfl : thread = producer := by simpa [Action.viaManagerBy] using single
          have index := inv.index
          rw [AddPc.eq_idle idle] at index
          refine inv.keep cursor one rfl rfl ?_
          simp only [setAdd_add_self, entryPc, ops]
          exact index
  | @add thread _ moved =>
      obtain rfl := inv.one.eq_producer moved
      exact inv.addStep (fun queue => unfailing thread queue rfl) moved

end System

/-! ## Every run -/

/-- What `rr4idle_add_job` guarantees in a run. -/
structure FirstFree [DecidableEq Job] (history : List (System Job × Action Job))
    (sys : System Job) : Prop where
  idx : sys.man.twqIdx ≤ sys.man.twqPoolNr
  calls : ∀ thread call, lastCall? thread history = some call →
    call.entry = .threadwqManAddJob → call.TakesFirstFree sys thread
  /-- The accesses of the records are what the steps of the add functions do. -/
  performs : ∀ thread next, sys.addStep thread = some next → ∃ access,
    sys.access? thread = some access ∧
      next = (sys.perform thread access).setAdd thread (next.add thread)
  /-- The enqueue puts the job behind those in the queue's `lfq`. -/
  enqueues : ∀ thread next queue job, sys.addStep thread = some next →
    sys.access? thread = some (.enqueue queue job) →
      (next.twq queue).lfq = (sys.twq queue).lfq ++ [job] ∧
        ∀ other, other ≠ queue → next.twq other = sys.twq other
  /-- `placed` has what the queues' logs have. -/
  placed : ∀ queue, sys.placedOn queue = enqueued (sys.twq queue).log
  /-- From `rr_init` on, a single producer without failed attempts gives job `k` to queue
  `k` modulo the size of the pool, and every job it has finished adding is on its queue. -/
  rotation : ∀ producer, (System.machine Job).Run history sys →
    (∀ entry ∈ history, entry.2.viaManagerBy producer = true ∧ Unfailing entry) →
    sys.InRotation ∧
      ((sys.add producer).isIdle = true → sys.placed.length = sys.added.length)

namespace System

theorem Cycles.inRotation {producer : Thread} {sys : System Job} (inv : Cycles producer sys) :
    sys.InRotation :=
  fun _ _ _ lookup => ⟨inv.queues.queue_eq lookup, inv.one.added_of_placed lookup⟩

theorem OneProducer.length_placed {producer : Thread} {sys : System Job}
    (one : OneProducer producer sys) (idle : (sys.add producer).isIdle = true) :
    sys.placed.length = sys.added.length := by
  have jobs := congrArg List.length one.jobs
  rw [AddPc.eq_idle idle] at jobs
  simpa [AddPc.pending?] using jobs.symm

theorem addStep_enqueues {sys next : System Job} {thread : Thread} {queue : Nat} {job : Job}
    (step : sys.addStep thread = some next)
    (isEnqueue : sys.access? thread = some (.enqueue queue job)) :
    (next.twq queue).lfq = (sys.twq queue).lfq ++ [job] ∧
      ∀ other, other ≠ queue → next.twq other = sys.twq other := by
  obtain ⟨access, made, performed⟩ := addStep_performs step
  obtain rfl : access = .enqueue queue job := Option.some.inj (made.symm.trans isEnqueue)
  rw [performed]
  constructor
  · simp [perform, Threadwq.enqueue]
  · intro other different
    simp only [perform, setAdd_twq, place_twq]
    exact setTwq_twq_of_ne sys _ different

theorem placedAsLogged_of_run [DecidableEq Job] {history : List (System Job × Action Job)}
    {sys : System Job} (run : (anyIdx Job).Run history sys) : PlacedAsLogged sys := by
  refine Machine.Reachable.invariant ?_ ?_ ⟨history, run⟩
  · rintro _ ⟨start, idx, initial, _, rfl⟩
    exact initial.placedAsLogged
  · exact fun _ _ _ _ asLogged taken => asLogged.step taken

theorem cycles_of_run [DecidableEq Job] {producer : Thread}
    {history : List (System Job × Action Job)} {sys : System Job}
    (run : (machine Job).Run history sys) (ops : sys.man.ops = .rr4idle)
    (allowed : ∀ entry ∈ history, entry.2.viaManagerBy producer = true ∧ Unfailing entry) :
    Cycles producer sys := by
  have invariant : Machine.Visits history sys
      fun state => state.man.ops = .rr4idle → Cycles producer state := by
    refine run.invariant_of_steps
      (fun state action => action.viaManagerBy producer = true ∧ Unfailing (state, action))
      ?_ ?_ allowed
    · intro state start _
      exact start.cycles producer
    · intro state action next _ inv both step isRr4idle
      have before : state.man.ops = .rr4idle := (step_ops step).symm.trans isRr4idle
      exact (inv before).step before both.1 both.2 step
  exact invariant.2 ops

end System

theorem rr4idle_first_free [DecidableEq Job] {history : List (System Job × Action Job)}
    {sys : System Job} (run : (System.anyIdx Job).Run history sys)
    (ops : sys.man.ops = .rr4idle) : FirstFree history sys := by
  have inv := System.cycling_of_run run ops
  constructor
  case idx => exact UInt32.le_iff_toNat_le.mpr inv.cursor.idx
  case calls => exact fun thread call => inv.takesFirstFree
  case performs => exact fun thread next => System.addStep_performs
  case enqueues => exact fun thread next queue job => System.addStep_enqueues
  case placed => exact System.placedAsLogged_of_run run
  case rotation =>
    intro producer fromInit allowed
    have cycles := System.cycles_of_run fromInit ops allowed
    exact ⟨cycles.inRotation, cycles.one.length_placed⟩

/-- A pool of two queues and an index past its end.  Producer 1 holds the mutex of queue 0
while producer 0 adds a job, which goes to queue 1. -/
theorem rr4idle_first_free_two :
    ∃ history, ∃ sys : System Nat, (System.anyIdx Nat).Run history sys ∧
      sys.placed = [(0, 10), (1, 11)] ∧ (sys.twq 1).lfq = [11] ∧ sys.man.twqIdx = 2 ∧
      FirstFree history sys := by
  obtain ⟨sys, ran, ops, placed, queued, idx⟩ := System.exists_run
    ((System.boot ⟨true, true⟩ ⟨2, .rr4idle, 0⟩).setIdx 2)
    ([.call (.producer 1) (.threadwqAddJob 0) 10, .add (.producer 1), .add (.producer 1),
      .call (.producer 0) .threadwqManAddJob 11] ++ List.replicate 7 (.add (.producer 0)))
    (fun sys => sys.man.ops = .rr4idle ∧ sys.placed = [(0, 10), (1, 11)] ∧
      (sys.twq 1).lfq = [11] ∧ sys.man.twqIdx = 2) (by decide)
  have start : (System.anyIdx Nat).Start
      ((System.boot ⟨true, true⟩ ⟨2, .rr4idle, 0⟩).setIdx 2) :=
    ⟨_, 2, System.boot_initial _ _ rfl, by decide, rfl⟩
  obtain ⟨history, run, _⟩ :=
    Machine.Run.continue_evaluated (fun _ _ _ taken => taken) (.start start) ran
  exact ⟨history, sys, run, placed, queued, idx, rr4idle_first_free run ops⟩

end LinuxCTemplate.Threadwq
