import LinuxCTemplate.Threadwq.Mutex
import LinuxCTemplate.Threadwq.RoundRobin

/-!
# The first free queue

`rr4idle_add_job` reads the index and tries the mutexes of the queues one after the
other until it gets one.  It stores the successor of the queue it has got without
reducing it, so the index ranges up to the size of the pool, and the next call reduces
what it reads before it uses it.  Between the read and the store any number of other
threads may read and store the index too.
-/

namespace LinuxCTemplate.Threadwq

open Foundation

variable {Job : Type}

/-! ## The accesses of a call -/

/-- The read of the index and `fails` attempts that do not get the mutex. -/
def attempts (nr cursor fails : Nat) : List (Access Job) :=
  .readIdx cursor ::
    (List.range fails).map fun attempt => .tryLock ((cursor % nr + attempt) % nr) false

/-- The attempt that gets the mutex of `queue`, and what follows it. -/
def closing (queue : Nat) (job : Job) : List (Access Job) :=
  [.tryLock queue true, .setIdx (queue + 1), .enqueue queue job, .signal queue, .unlock queue]

/-- All accesses of a call of `rr4idle_add_job` that reads `cursor` and gets the mutex
after `fails` attempts. -/
def firstFree (nr cursor fails : Nat) (job : Job) : List (Access Job) :=
  attempts nr cursor fails ++ closing ((cursor % nr + fails) % nr) job

theorem attempts_succ (nr cursor fails : Nat) :
    (attempts nr cursor (fails + 1) : List (Access Job)) =
      attempts nr cursor fails ++ [.tryLock ((cursor % nr + fails) % nr) false] := by
  simp [attempts, List.range_succ]

/-- The first `done` accesses after the last failed attempt have been made. -/
def Closing (nr : Nat) (job : Job) (done queue : Nat) (accesses : List (Access Job)) : Prop :=
  ∃ cursor fails, cursor ≤ nr ∧ queue = (cursor % nr + fails) % nr ∧
    accesses = attempts nr cursor fails ++ (closing queue job).take done

/-- The accesses made when a call of `rr4idle_add_job` stands at a program point. -/
def AddPc.Reached (nr : Nat) (job : Job) (accesses : List (Access Job)) : AddPc Job → Prop
  | .readIdx carried => carried = job ∧ accesses = []
  | .tryLock idx carried => carried = job ∧ ∃ cursor fails, cursor ≤ nr ∧
      idx.toNat % nr = (cursor % nr + fails) % nr ∧ accesses = attempts nr cursor fails
  | .setIdx idx carried => carried = job ∧ Closing nr job 1 idx.toNat accesses
  | .enqueueLocked idx carried => carried = job ∧ Closing nr job 2 idx.toNat accesses
  | .signal queue => Closing nr job 3 queue accesses
  | .unlock queue => Closing nr job 4 queue accesses
  | .idle => ∃ queue, Closing nr job 5 queue accesses
  | _ => False

theorem Closing.next {nr : Nat} {job : Job} {done queue : Nat} {accesses : List (Access Job)}
    (closed : Closing nr job done queue accesses) {access : Access Job}
    (isNext : (closing queue job)[done]? = some access) :
    Closing nr job (done + 1) queue (accesses ++ [access]) := by
  obtain ⟨cursor, fails, inPool, isQueue, rfl⟩ := closed
  refine ⟨cursor, fails, inPool, isQueue, ?_⟩
  rw [List.take_add_one, isNext, List.append_assoc]
  rfl

/-! ## The index -/

/-- The index a call holds: it may be one past the pool while the call looks for a
queue, and is inside when it has one. -/
def AddPc.InPool (nr : Nat) : AddPc Job → Prop
  | .tryLock idx _ => idx.toNat ≤ nr
  | .setIdx idx _ | .enqueueLocked idx _ => idx.toNat < nr
  | .rrRead _ | .rrAdvance _ _ => False
  | _ => True

namespace System

/-- The indices of a process that uses `rr4idle_add_job`, in the manager and in the
calls. -/
structure Cursor (sys : System Job) : Prop where
  pool : 0 < sys.man.twqPoolNr.toNat
  idx : sys.man.twqIdx.toNat ≤ sys.man.twqPoolNr.toNat
  calls : ∀ thread, (sys.add thread).InPool sys.man.twqPoolNr.toNat

/-- The wrap of the index is a reduction modulo the size of the pool. -/
theorem tried_toNat {sys : System Job} {idx : UInt32}
    (inPool : idx.toNat ≤ sys.man.twqPoolNr.toNat) :
    (sys.tried idx).toNat = idx.toNat % sys.man.twqPoolNr.toNat := by
  unfold tried
  split
  next past =>
    have atEnd : idx.toNat = sys.man.twqPoolNr.toNat :=
      Nat.le_antisymm inPool (UInt32.le_iff_toNat_le.mp past)
    rw [atEnd, Nat.mod_self]
    rfl
  next inside =>
    rw [UInt32.le_iff_toNat_le] at inside
    exact (Nat.mod_eq_of_lt (by omega)).symm

theorem Cursor.tried_lt {sys : System Job} (cursor : Cursor sys) {idx : UInt32}
    (inPool : idx.toNat ≤ sys.man.twqPoolNr.toNat) :
    (sys.tried idx).toNat < sys.man.twqPoolNr.toNat := by
  rw [tried_toNat inPool]
  exact Nat.mod_lt _ cursor.pool

/-- A move of one call that may store the index. -/
theorem Cursor.move {sys next : System Job} (cursor : Cursor sys) (thread : Thread)
    (sameNr : next.man.twqPoolNr = sys.man.twqPoolNr)
    (others : ∀ other, other ≠ thread → next.add other = sys.add other)
    (idx : next.man.twqIdx.toNat ≤ sys.man.twqPoolNr.toNat)
    (call : (next.add thread).InPool sys.man.twqPoolNr.toNat) : Cursor next where
  pool := by
    rw [sameNr]
    exact cursor.pool
  idx := by
    rw [sameNr]
    exact idx
  calls other := by
    rw [sameNr]
    by_cases same : other = thread
    · rw [same]
      exact call
    · rw [others other same]
      exact cursor.calls other

theorem Cursor.addStep {sys next : System Job} (cursor : Cursor sys) {thread : Thread}
    (step : sys.addStep thread = some next) : Cursor next := by
  have inPool := cursor.calls thread
  have moved : next.man.twqIdx.toNat ≤ sys.man.twqPoolNr.toNat ∧
      (next.add thread).InPool sys.man.twqPoolNr.toNat := by
    obtain ⟨point, pc, moves⟩ := addStep_moves step
    rw [pc] at inPool
    cases moves with rw [setAdd_add_self]
    | rrRead | rrReset | rrAdvance => exact inPool.elim
    | readIdx => exact ⟨cursor.idx, cursor.idx⟩
    | tryLockFails idx =>
        refine ⟨cursor.idx, ?_⟩
        rw [AddPc.InPool, succ_toNat (cursor.tried_lt inPool)]
        exact cursor.tried_lt inPool
    | tryLock => exact ⟨cursor.idx, cursor.tried_lt inPool⟩
    | setIdx idx =>
        refine ⟨?_, inPool⟩
        change (idx + 1).toNat ≤ _
        rw [succ_toNat inPool]
        exact inPool
    | enqueue | lock | signal | unlock | enqueueLocked => exact ⟨cursor.idx, trivial⟩
  exact cursor.move thread (addStep_man step).2
    (fun _ different => addStep_add_of_ne step different) moved.1 moved.2

theorem Cursor.step [DecidableEq Job] {sys next : System Job} (cursor : Cursor sys)
    (ops : sys.man.ops = .rr4idle) {action : Action Job} (step : sys.step action = some next) :
    Cursor next := by
  cases step_moves step with
  | worker | controller | spurious | rcu => exact ⟨cursor.pool, cursor.idx, cursor.calls⟩
  | @call thread entry job =>
      refine cursor.move thread ?_ ?_ ?_ ?_
      · rfl
      · exact fun _ different => setAdd_add_of_ne sys _ different
      · exact cursor.idx
      · simp only [setAdd_add_self, entryPc, ops]
        cases entry <;> trivial
  | add moved => exact cursor.addStep moved

/-! ## The record of a call -/

/-- A step of a call of `rr4idle_add_job`. -/
theorem Cursor.reached {sys next : System Job} (cursor : Cursor sys) {thread : Thread}
    {job : Job} {accesses : List (Access Job)} {access : Access Job}
    (reached : (sys.add thread).Reached sys.man.twqPoolNr.toNat job accesses)
    (step : sys.addStep thread = some next) (made : sys.access? thread = some access) :
    (next.add thread).Reached sys.man.twqPoolNr.toNat job (accesses ++ [access]) := by
  have inPool := cursor.calls thread
  obtain ⟨point, pc, moves⟩ := addStep_moves step
  simp only [access?, pc] at made
  rw [pc] at reached inPool
  cases moves with (rw [setAdd_add_self]; cases made)
  | enqueue | lock | rrRead | rrReset | rrAdvance => exact reached.elim
  | readIdx carried =>
      obtain ⟨isJob, rfl⟩ := reached
      refine ⟨isJob, sys.man.twqIdx.toNat, 0, cursor.idx, ?_, rfl⟩
      rw [Nat.add_zero, Nat.mod_mod]
  | tryLockFails idx carried holder mutex =>
      obtain ⟨isJob, start, fails, startInPool, isIdx, rfl⟩ := reached
      have isQueue := (tried_toNat inPool).trans isIdx
      refine ⟨isJob, start, fails + 1, startInPool, ?_, ?_⟩
      · rw [succ_toNat (cursor.tried_lt inPool), isQueue, Nat.mod_add_mod, Nat.add_assoc]
      · rw [attempts_succ, isQueue, ← isQueue, mutex]
        rfl
  | tryLock idx carried free =>
      obtain ⟨isJob, start, fails, startInPool, isIdx, rfl⟩ := reached
      refine ⟨isJob, start, fails, startInPool, (tried_toNat inPool).trans isIdx, ?_⟩
      rw [free]
      rfl
  | setIdx idx carried =>
      obtain ⟨isJob, closed⟩ := reached
      rw [succ_toNat inPool]
      exact ⟨isJob, closed.next rfl⟩
  | enqueueLocked idx carried =>
      obtain ⟨isJob, closed⟩ := reached
      rw [isJob]
      exact closed.next rfl
  | signal => exact reached.next rfl
  | unlock queue => exact ⟨queue, reached.next rfl⟩

/-- What a step of the process means for the record of a call through the manager. -/
theorem Cursor.records {sys next : System Job} (cursor : Cursor sys)
    (ops : sys.man.ops = .rr4idle) {thread : Thread} {last? next? : Option (Call Job)}
    (records : Records thread sys next last? next?)
    (before : ∀ call, last? = some call → call.entry = .threadwqManAddJob →
      (sys.add thread).Reached sys.man.twqPoolNr.toNat call.job call.accesses) :
    ∀ call, next? = some call → call.entry = .threadwqManAddJob →
      (next.add thread).Reached sys.man.twqPoolNr.toNat call.job call.accesses := by
  intro call isNext viaManager
  cases records with
  | same sameAdd =>
      rw [sameAdd]
      exact before call isNext viaManager
  | call entry job entered =>
      cases isNext
      obtain rfl : entry = .threadwqManAddJob := viaManager
      rw [entered]
      simp only [entryPc, ops]
      exact ⟨rfl, rfl⟩
  | access access step made =>
      obtain ⟨last, isLast, rfl⟩ := Option.map_eq_some_iff.mp isNext
      exact cursor.reached (before last isLast viaManager) step made

/-- The process started with any index up to the size of the pool; `rr_init` starts it
with 0. -/
def anyIdx (Job : Type) [DecidableEq Job] : Machine (System Job) (Action Job) where
  Start sys := ∃ start idx, Initial start ∧ idx ≤ start.man.twqPoolNr ∧ sys = start.setIdx idx
  Step := (machine Job).Step

/-- What holds in every run under `rr4idle_add_job`. -/
structure Cycling (history : List (System Job × Action Job)) (sys : System Job) : Prop where
  cursor : Cursor sys
  jobs : Jobs sys
  mutexes : Mutexes sys
  calls : ∀ thread call, lastCall? thread history = some call →
    call.entry = .threadwqManAddJob →
    (sys.add thread).Reached sys.man.twqPoolNr.toNat call.job call.accesses

theorem cycling_of_run [DecidableEq Job] {history : List (System Job × Action Job)}
    {sys : System Job} (run : (anyIdx Job).Run history sys) (ops : sys.man.ops = .rr4idle) :
    Cycling history sys := by
  induction run with
  | start atStart =>
      obtain ⟨start, idx, initial, inPool, rfl⟩ := atStart
      constructor
      case cursor =>
        refine ⟨initial.started.1, UInt32.le_iff_toNat_le.mp inPool, fun thread => ?_⟩
        rw [setIdx_add, initial.add]
        trivial
      case jobs => exact initial.jobs.setIdx idx
      case mutexes => exact ⟨initial.mutexes.owner, initial.mutexes.controller⟩
      case calls =>
        intro thread call called
        cases called
  | @step history state next action run taken ih =>
      have before : state.man.ops = .rr4idle := (step_ops taken).symm.trans ops
      have inv := ih before
      constructor
      case cursor => exact inv.cursor.step before taken
      case jobs => exact inv.jobs.step taken
      case mutexes => exact inv.mutexes.step inv.jobs taken
      case calls =>
        intro thread
        rw [(step_man taken).2]
        exact inv.cursor.records before (records_of_step taken) (inv.calls thread)

end System

/-! ## What a call has done -/

theorem tryLock_not_mem_attempts (nr cursor fails queue : Nat) :
    (.tryLock queue true : Access Job) ∉ attempts nr cursor fails := by
  simp [attempts]

/-- A call has got the mutex of one queue only. -/
theorem Closing.owns {nr : Nat} {job : Job} {done queue : Nat} {accesses : List (Access Job)}
    (closed : Closing nr job (done + 1) queue accesses) (other : Nat) :
    queue = other ↔ .tryLock other true ∈ accesses := by
  obtain ⟨cursor, fails, _, _, rfl⟩ := closed
  constructor
  · rintro rfl
    apply List.mem_append_right
    simp [closing]
  · intro member
    rcases List.mem_append.mp member with early | late
    · exact (tryLock_not_mem_attempts _ _ _ _ early).elim
    · have inClosing := List.mem_of_mem_take late
      simp only [closing, List.mem_cons, Access.tryLock.injEq, and_true, reduceCtorEq,
        List.not_mem_nil, or_false] at inClosing
      exact inClosing.symm

/-- A call uses queues of the pool only. -/
theorem queue_lt_of_mem_firstFree {nr cursor fails : Nat} {job : Job} (pool : 0 < nr)
    {access : Access Job} (member : access ∈ firstFree nr cursor fails job) {queue : Nat}
    (isQueue : access.queue? = some queue) : queue < nr := by
  have below : ∀ index, index % nr < nr := fun index => Nat.mod_lt index pool
  rcases List.mem_append.mp member with early | late
  · rcases List.mem_cons.mp early with rfl | attempt
    · cases isQueue
    · obtain ⟨_, _, rfl⟩ := List.mem_map.mp attempt
      cases isQueue
      exact below _
  · simp only [closing, List.mem_cons, List.not_mem_nil, or_false] at late
    rcases late with rfl | rfl | rfl | rfl | rfl <;> cases isQueue <;> exact below _

/-- A call of `rr4idle_add_job` takes the first free queue in the cyclic order that starts
at the index it reads. -/
structure Call.TakesFirstFree (sys : System Job) (thread : Thread) (call : Call Job) : Prop where
  /-- It has made a part of the accesses of such a call, and all of them when it returns. -/
  accesses : ∃ cursor fails, cursor ≤ sys.man.twqPoolNr.toNat ∧
    call.accesses <+: firstFree sys.man.twqPoolNr.toNat cursor fails call.job ∧
    ((sys.add thread).isIdle = true →
      call.accesses = firstFree sys.man.twqPoolNr.toNat cursor fails call.job)
  inPool : ∀ access ∈ call.accesses, ∀ queue, access.queue? = some queue →
    queue < sys.man.twqPoolNr.toNat
  /-- Until it returns it holds the mutex it has got, and no other. -/
  owns : (sys.add thread).isIdle = false → ∀ queue,
    (sys.twq queue).mutex = some thread ↔ .tryLock queue true ∈ call.accesses
  /-- It is never blocked. -/
  moves : (sys.add thread).isIdle = false → (sys.addStep thread).isSome = true

/-- The accesses of a call are the first ones of `firstFree`. -/
theorem AddPc.Reached.accesses {nr : Nat} {job : Job} {accesses : List (Access Job)}
    {pc : AddPc Job} (reached : pc.Reached nr job accesses) :
    ∃ cursor fails, cursor ≤ nr ∧ accesses <+: firstFree nr cursor fails job ∧
      (pc.isIdle = true → accesses = firstFree nr cursor fails job) := by
  have closing : ∀ {done queue}, Closing nr job done queue accesses →
      ∃ cursor fails, cursor ≤ nr ∧ accesses <+: firstFree nr cursor fails job := by
    rintro done queue ⟨cursor, fails, inPool, rfl, rfl⟩
    refine ⟨cursor, fails, inPool, (List.prefix_append_right_inj _).mpr ?_⟩
    exact List.take_prefix _ _
  cases pc
  case idle =>
    obtain ⟨queue, cursor, fails, inPool, rfl, rfl⟩ := reached
    exact ⟨cursor, fails, inPool, List.prefix_rfl, fun _ => rfl⟩
  case enqueue | lock | rrRead | rrAdvance => exact reached.elim
  case readIdx carried =>
    obtain ⟨_, rfl⟩ := reached
    exact ⟨0, 0, Nat.zero_le nr, List.nil_prefix, nofun⟩
  case tryLock idx carried =>
    obtain ⟨_, cursor, fails, inPool, _, rfl⟩ := reached
    exact ⟨cursor, fails, inPool, List.prefix_append _ _, nofun⟩
  case setIdx | enqueueLocked =>
    obtain ⟨cursor, fails, inPool, isPart⟩ := closing reached.2
    exact ⟨cursor, fails, inPool, isPart, nofun⟩
  case signal | unlock =>
    obtain ⟨cursor, fails, inPool, isPart⟩ := closing reached
    exact ⟨cursor, fails, inPool, isPart, nofun⟩

/-- The program point of an active call tells which mutex it has got. -/
theorem AddPc.Reached.locks {nr : Nat} {job : Job} {accesses : List (Access Job)}
    {pc : AddPc Job} (reached : pc.Reached nr job accesses) (active : pc.isIdle = false)
    (queue : Nat) : pc.locks queue = true ↔ .tryLock queue true ∈ accesses := by
  cases pc
  case idle => cases active
  case enqueue | lock | rrRead | rrAdvance => exact reached.elim
  case readIdx carried =>
    obtain ⟨_, rfl⟩ := reached
    simp [AddPc.locks]
  case tryLock idx carried =>
    obtain ⟨_, cursor, fails, _, _, rfl⟩ := reached
    simp [AddPc.locks, tryLock_not_mem_attempts]
  case setIdx | enqueueLocked => exact beq_iff_eq.trans (reached.2.owns queue)
  case signal | unlock => exact beq_iff_eq.trans (reached.owns queue)

namespace System

theorem addStep_isSome {sys : System Job} {thread : Thread} {nr : Nat} {job : Job}
    {accesses : List (Access Job)} (reached : (sys.add thread).Reached nr job accesses)
    (active : (sys.add thread).isIdle = false) : (sys.addStep thread).isSome = true := by
  unfold addStep
  cases pc : sys.add thread <;> rw [pc] at reached active
  case idle => cases active
  case enqueue | lock | rrRead | rrAdvance => exact reached.elim
  case tryLock =>
    dsimp only
    split <;> rfl
  all_goals rfl

theorem Cycling.takesFirstFree {history : List (System Job × Action Job)} {sys : System Job}
    (inv : Cycling history sys) {thread : Thread} {call : Call Job}
    (called : lastCall? thread history = some call)
    (viaManager : call.entry = .threadwqManAddJob) : call.TakesFirstFree sys thread := by
  have reached := inv.calls thread call called viaManager
  constructor
  case accesses => exact reached.accesses
  case inPool =>
    intro access member queue isQueue
    obtain ⟨cursor, fails, _, isPart, _⟩ := reached.accesses
    exact queue_lt_of_mem_firstFree inv.cursor.pool (isPart.subset member) isQueue
  case owns =>
    intro active queue
    rw [inv.mutexes.owner queue thread, inv.mutexes.holds_iff inv.jobs active rfl]
    exact reached.locks active queue
  case moves => exact addStep_isSome reached

end System

end LinuxCTemplate.Threadwq
