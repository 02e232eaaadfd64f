import LinuxCTemplate.Main.Order
import LinuxCTemplate.Threadwq.Drain

/-!
# Who has the slices of the pool

A job has its slice from `mempool_alloc` on until `cb_finish` calls `mempool_free`: while the
writer has it in hand, and after that as long as it has been added and is not finished.
-/

namespace LinuxCTemplate.Main

open Foundation Threadwq

namespace System

/-- The job has been passed to an add function, and its `cb_finish` has not been called. -/
def Unfinished (sys : System) (job : Nat) : Prop :=
  ∃ test, job ∈ (sys.twq test).added ∧ ∀ index, job ∉ finished ((sys.twq test).twq index).log

/-- The jobs and the slices they have. -/
structure Holding (sys : System) : Prop where
  pool : Mempool.System.machine.Reachable sys.pool
  noCtor : sys.pool.pool.mp.ctor = false
  below : ∀ test, ∀ job ∈ (sys.twq test).added, job < sys.nextJob
  once : ∀ left right, ∀ job ∈ (sys.twq left).added, job ∈ (sys.twq right).added → left = right
  got : ∀ job, sys.writer = .got job →
    job < sys.nextJob ∧ ∀ test, job ∉ (sys.twq test).added
  held : ∀ job, sys.pool.held job ≠ [] ↔ sys.writer = .got job ∨ sys.Unfinished job
  slice : ∀ job, sys.pool.held job = [] ∨ sys.pool.held job = [sys.slice job]
  freeing : ∀ job, sys.pool.pc job ≠ .idle →
    job < sys.nextJob ∧ sys.pool.held job = [] ∧ (sys.pool.pc job).slices ≠ []

variable {sys next : System} {action : Action}

theorem Holding.initial (initial : Initial sys) : Holding sys := by
  have noneAdded : ∀ test job, job ∉ (sys.twq test).added := by
    intro test job
    rw [(initial.twq test).added]
    exact List.not_mem_nil
  constructor
  case pool => exact .start initial.pool
  case noCtor =>
    obtain ⟨addr, jobSize, mem, init⟩ := initial.init
    unfold mainPool Mempool.mempoolInit at init
    split at init
    · cases init
    · obtain ⟨isPool, _⟩ := Prod.mk.inj (Except.ok.inj init)
      rw [← isPool]
  case below => exact fun test job added => (noneAdded test job added).elim
  case once => exact fun left right job added => (noneAdded left job added).elim
  case got =>
    intro job isGot
    rw [initial.writer] at isGot
    cases isGot
  case held =>
    intro job
    constructor
    · exact fun nonempty => (nonempty (initial.pool.held job)).elim
    · rintro (isGot | ⟨test, added, _⟩)
      · rw [initial.writer] at isGot
        cases isGot
      · exact (noneAdded test job added).elim
  case slice => exact fun job => Or.inl (initial.pool.held job)
  case freeing => exact fun job busy => (busy (initial.pool.pc job)).elim

theorem Holding.nextJob_idle (holding : Holding sys) : sys.pool.pc sys.nextJob = .idle := by
  by_contra busy
  exact Nat.lt_irrefl _ (holding.freeing _ busy).1

theorem Holding.nextJob_held (holding : Holding sys) : sys.pool.held sys.nextJob = [] := by
  by_contra nonempty
  rcases (holding.held _).mp nonempty with isGot | ⟨test, added, _⟩
  · exact Nat.lt_irrefl _ (holding.got _ isGot).1
  · exact Nat.lt_irrefl _ (holding.below test _ added)

/-! ## Steps of the pool -/

theorem step_ctor {pool later : Mempool.System} {action : Mempool.Action}
    (reachable : Mempool.System.machine.Reachable pool) (moved : pool.step action = some later) :
    later.pool.mp.ctor = pool.pool.mp.ctor := by
  obtain ⟨stack, inv⟩ := Mempool.System.exists_inv reachable
  obtain ⟨stack', kept⟩ := inv.step (Mempool.System.step_change moved).2
  rw [kept.fields]

/-- `mempool_alloc` without a constructor returns a slice to its caller, or does not. -/
theorem alloc_outcome {pool later : Mempool.System} {thread block : Nat}
    (reachable : Mempool.System.machine.Reachable pool) (noCtor : pool.pool.mp.ctor = false)
    (moved : pool.step (.alloc thread block) = some later) :
    later.pc = pool.pc ∧ (later.held = pool.held ∨
      ∃ slice, later.held = Function.update pool.held thread (slice :: pool.held thread)) := by
  have sameCtor := step_ctor reachable moved
  obtain ⟨_, change⟩ := Mempool.System.step_change moved
  cases change with
  | allocDies => exact ⟨rfl, Or.inl rfl⟩
  | @allocated _ _ slice taken isIdle _ _ =>
      rw [Mempool.System.handOver_pool, noCtor] at sameCtor
      have handed : (pool.setPool taken).handOver thread slice =
          (pool.setPool taken).returnSlice thread slice := by
        unfold Mempool.System.handOver
        rw [if_neg (Bool.eq_false_iff.mp sameCtor)]
      rw [handed, Mempool.System.returnSlice_pc]
      constructor
      · rw [Mempool.System.setPool_pc, Function.update_eq_self_iff, isIdle]
      · unfold Mempool.System.returnSlice
        split
        · exact Or.inl rfl
        · exact Or.inr ⟨slice, rfl⟩

/-- `mempool_free` takes the slice from its caller. -/
theorem free_outcome {pool later : Mempool.System} {thread slice : Nat}
    (reachable : Mempool.System.machine.Reachable pool)
    (moved : pool.step (.free thread slice) = some later) :
    pool.pc thread = .idle ∧ slice ∈ pool.held thread ∧
      later.held = Function.update pool.held thread ((pool.held thread).erase slice) ∧
      ∃ pc, later.pc = Function.update pool.pc thread pc ∧ pc.slices ≠ [] := by
  obtain ⟨stack, inv⟩ := Mempool.System.exists_inv reachable
  obtain ⟨_, change⟩ := Mempool.System.step_change moved
  cases change with
  | freed isIdle member =>
      have live := inv.custody.mem_of_held (List.mem_append_left _ member)
      refine ⟨isIdle, member, rfl, _, rfl, ?_⟩
      rw [Mempool.System.freePc_slices]
      simp [Mempool.Pc.slices, Nat.ne_of_gt (inv.blocks.pos slice live)]

/-- The steps of the pool that neither give a slice to a client nor take one. -/
inductive Internal (job : Nat) : Mempool.Action → Prop where
  | magic : Internal job (.magic job)
  | link : Internal job (.link job)
  | client (contents : Memory) : Internal job (.client job contents)
  | recycle (junk : Memory) : Internal job (.recycle job 0 junk)

theorem Internal.outcome {pool later : Mempool.System} {thread : Nat} {action : Mempool.Action}
    (internal : Internal thread action) (moved : pool.step action = some later) :
    later.held = pool.held ∧ ∀ other, later.pc other ≠ .idle →
      pool.pc other ≠ .idle ∧ (later.pc other).slices = (pool.pc other).slices := by
  obtain ⟨_, change⟩ := Mempool.System.step_change moved
  have unmoved : ∀ other, pool.pc other ≠ .idle →
      pool.pc other ≠ .idle ∧ (pool.pc other).slices = (pool.pc other).slices :=
    fun other busy => ⟨busy, rfl⟩
  cases internal with
  | magic =>
      cases change with
      | magicNull => exact ⟨rfl, unmoved⟩
      | @magicSet _ slice at_ =>
          refine ⟨rfl, fun other busy => ?_⟩
          by_cases same : other = thread
          · subst same
            rw [Mempool.System.setPc_pc, Function.update_self, at_]
            exact ⟨nofun, rfl⟩
          · rw [Mempool.System.setPc_pc, Function.update_of_ne same] at busy ⊢
            exact unmoved other busy
  | link =>
      cases change with
      | linked at_ =>
          refine ⟨rfl, fun other busy => ?_⟩
          by_cases same : other = thread
          · subst same
            rw [Mempool.System.setPc_pc, Function.update_self] at busy
            exact (busy rfl).elim
          · rw [Mempool.System.setPc_pc, Function.update_of_ne same] at busy ⊢
            exact unmoved other busy
  | client contents =>
      cases change with
      | wrote => exact ⟨rfl, unmoved⟩
  | recycle junk =>
      cases change with
      | recycled | recycleDies => exact ⟨rfl, unmoved⟩

/-! ## Steps of the queues -/

section Queues

variable {test : Test} {twq : Threadwq.System Nat}

theorem added_setTwq (sameAdded : twq.added = (sys.twq test).added) (other : Test) :
    ((sys.setTwq test twq).twq other).added = (sys.twq other).added :=
  forall_setTwq (fun other later => later.added = (sys.twq other).added) sameAdded
    (fun _ _ => rfl) other

/-- Only `call_rcu` finishes a job. -/
theorem finished_setTwq {action : Threadwq.Action Nat}
    (moved : (sys.twq test).step action = some twq) (notRcu : action.role ≠ .rcu) (other : Test) :
    ∀ index, finished (((sys.setTwq test twq).twq other).twq index).log =
      finished ((sys.twq other).twq index).log :=
  forall_setTwq (fun other later => ∀ index,
    finished (later.twq index).log = finished ((sys.twq other).twq index).log)
    (fun index => (Threadwq.System.step_writes moved index).finished notRcu) (fun _ _ _ => rfl)
    other

theorem finished_callback {index job : Nat}
    (moved : (sys.twq test).step (.rcu index job) = some twq) (other : Test) :
    ∀ queue found, found ∈ finished (((sys.setTwq test twq).twq other).twq queue).log ↔
      found ∈ finished ((sys.twq other).twq queue).log ∨
        other = test ∧ queue = index ∧ found = job := by
  obtain ⟨later, finish, rfl⟩ := Option.map_eq_some_iff.mp moved
  obtain ⟨_, rfl⟩ := execFinishRcu_eq_some.mp finish
  revert other
  apply forall_setTwq fun other later => ∀ queue found,
    found ∈ finished (later.twq queue).log ↔ found ∈ finished ((sys.twq other).twq queue).log ∨
      other = test ∧ queue = index ∧ found = job
  · apply Threadwq.System.forall_setTwq fun queue later => ∀ found,
      found ∈ finished later.log ↔ found ∈ finished ((sys.twq test).twq queue).log ∨
        test = test ∧ queue = index ∧ found = job
    · exact fun found => by simp [finished]
    · exact fun queue different found => by simp [different]
  · exact fun other different queue found => by simp [different]

end Queues

/-! ## Steps that move no job -/

/-- A step that neither gives a slice to a job nor takes one from it. -/
theorem Holding.keep (holding : Holding sys)
    (pool : Mempool.System.machine.Reachable next.pool)
    (noCtor : next.pool.pool.mp.ctor = false)
    (sameHeld : next.pool.held = sys.pool.held)
    (freeing : ∀ job, next.pool.pc job ≠ .idle →
      sys.pool.pc job ≠ .idle ∧ (next.pool.pc job).slices = (sys.pool.pc job).slices)
    (sameNext : next.nextJob = sys.nextJob) (sameSlice : next.slice = sys.slice)
    (sameGot : ∀ job, next.writer = .got job ↔ sys.writer = .got job)
    (sameAdded : ∀ test, (next.twq test).added = (sys.twq test).added)
    (sameFinished : ∀ test index, finished ((next.twq test).twq index).log =
      finished ((sys.twq test).twq index).log) : Holding next where
  pool := pool
  noCtor := noCtor
  below test job added := by
    rw [sameNext]
    exact holding.below test job (sameAdded test ▸ added)
  once left right job inLeft inRight :=
    holding.once left right job (sameAdded left ▸ inLeft) (sameAdded right ▸ inRight)
  got job isGot := by
    rw [sameNext]
    simp only [sameAdded]
    exact holding.got job ((sameGot job).mp isGot)
  held job := by
    rw [sameHeld, sameGot]
    unfold Unfinished
    simp only [sameAdded, sameFinished]
    exact holding.held job
  slice job := by
    rw [sameHeld, sameSlice]
    exact holding.slice job
  freeing job busy := by
    obtain ⟨wasBusy, sameSlices⟩ := freeing job busy
    rw [sameNext, sameHeld, sameSlices]
    exact holding.freeing job wasBusy

/-- A step of `main` or of the writer. -/
theorem Holding.move (holding : Holding sys) (main : MainPc) (writer : WriterPc)
    (selectTwq : UInt32) (sameGot : ∀ job, writer = .got job ↔ sys.writer = .got job) :
    Holding { sys with main, writer, selectTwq } :=
  holding.keep holding.pool holding.noCtor rfl (fun _ busy => ⟨busy, rfl⟩) rfl rfl sameGot
    (fun _ => rfl) fun _ _ => rfl

/-- A step of the queues other than a call or a callback. -/
theorem Holding.twqStep (holding : Holding sys) {test : Test} {twq : Threadwq.System Nat}
    {action : Threadwq.Action Nat} (moved : (sys.twq test).step action = some twq)
    (notRcu : action.role ≠ .rcu) (sameAdded : twq.added = (sys.twq test).added)
    (writer : WriterPc) (sameGot : ∀ job, writer = .got job ↔ sys.writer = .got job) :
    Holding { sys.setTwq test twq with writer } :=
  holding.keep holding.pool holding.noCtor rfl (fun _ busy => ⟨busy, rfl⟩) rfl rfl sameGot
    (added_setTwq sameAdded) (finished_setTwq moved notRcu)

/-- A step of the pool that moves no slice to or from a job. -/
theorem Holding.poolStep (holding : Holding sys) {pool : Mempool.System} {job : Nat}
    {action : Mempool.Action} (internal : Internal job action)
    (moved : sys.pool.step action = some pool) (main : MainPc) :
    Holding { sys with pool, main } := by
  obtain ⟨sameHeld, freeing⟩ := internal.outcome moved
  exact holding.keep (holding.pool.step moved)
    ((step_ctor holding.pool moved).trans holding.noCtor) sameHeld freeing rfl rfl
    (fun _ => Iff.rfl) (fun _ => rfl) fun _ _ => rfl

/-! ## A job from the pool and back -/

/-- The writer gets a slice for a new job. -/
theorem Holding.given (holding : Holding sys) {pool : Mempool.System} {slice : Nat}
    {action : Mempool.Action} (moved : sys.pool.step action = some pool)
    (held : pool.held = Function.update sys.pool.held sys.nextJob [slice])
    (samePc : pool.pc = sys.pool.pc) (notGot : ∀ job, sys.writer ≠ .got job) (selectTwq : UInt32) :
    Holding { sys with
      pool
      writer := .got sys.nextJob
      selectTwq
      nextJob := sys.nextJob + 1
      slice := Function.update sys.slice sys.nextJob slice } := by
  have notAdded : ∀ test, sys.nextJob ∉ (sys.twq test).added :=
    fun test added => Nat.lt_irrefl _ (holding.below test _ added)
  constructor
  case pool => exact holding.pool.step moved
  case noCtor => exact (step_ctor holding.pool moved).trans holding.noCtor
  case below => exact fun test job added => Nat.lt_succ_of_lt (holding.below test job added)
  case once => exact holding.once
  case got =>
    intro job isGot
    obtain rfl := WriterPc.got.inj isGot
    exact ⟨Nat.lt_succ_self _, notAdded⟩
  case held =>
    intro job
    change pool.held job ≠ [] ↔ WriterPc.got sys.nextJob = .got job ∨ sys.Unfinished job
    rw [held, WriterPc.got.injEq]
    by_cases same : job = sys.nextJob
    · subst same
      simp
    · rw [Function.update_of_ne same, holding.held]
      simp [notGot, Ne.symm same]
  case slice =>
    intro job
    change pool.held job = [] ∨ pool.held job = [Function.update sys.slice sys.nextJob slice job]
    rw [held]
    by_cases same : job = sys.nextJob
    · subst same
      rw [Function.update_self, Function.update_self]
      exact Or.inr rfl
    · rw [Function.update_of_ne same, Function.update_of_ne same]
      exact holding.slice job
  case freeing =>
    intro job busy
    change pool.pc job ≠ .idle at busy
    change job < sys.nextJob + 1 ∧ pool.held job = [] ∧ (pool.pc job).slices ≠ []
    rw [samePc] at busy ⊢
    obtain ⟨before, noSlice, freed⟩ := holding.freeing job busy
    rw [held, Function.update_of_ne (Nat.ne_of_lt before)]
    exact ⟨Nat.lt_succ_of_lt before, noSlice, freed⟩

/-- `mempool_alloc` in the writer. -/
theorem Holding.alloc (holding : Holding sys) {pool : Mempool.System} {block : Nat}
    (moved : sys.pool.step (.alloc sys.nextJob block) = some pool) (writer : sys.writer = .top)
    (selectTwq : UInt32) : Holding { sys.allocated pool with selectTwq } := by
  obtain ⟨samePc, outcome⟩ := alloc_outcome holding.pool holding.noCtor moved
  have notGot : ∀ job, sys.writer ≠ .got job := by simp [writer]
  rw [holding.nextJob_held] at outcome
  rcases outcome with sameHeld | ⟨slice, held⟩
  · have refused : sys.allocated pool = { sys with pool, writer := .check } := by
      unfold allocated
      rw [sameHeld, holding.nextJob_held]
    rw [refused]
    refine holding.keep (holding.pool.step moved)
      ((step_ctor holding.pool moved).trans holding.noCtor) sameHeld ?_ rfl rfl ?_
      (fun _ => rfl) fun _ _ => rfl
    · intro job busy
      rw [samePc] at busy ⊢
      exact ⟨busy, rfl⟩
    · simp [writer]
  · have given : sys.allocated pool = { sys with
        pool
        writer := .got sys.nextJob
        nextJob := sys.nextJob + 1
        slice := Function.update sys.slice sys.nextJob slice } := by
      unfold allocated
      rw [held, Function.update_self]
    rw [given]
    exact holding.given moved held samePc notGot selectTwq

/-- The writer passes its job to an add function. -/
theorem Holding.call (holding : Holding sys) {test : Test} {twq : Threadwq.System Nat}
    {job : Nat} {entry : Entry}
    (reachable : (Threadwq.System.machine Nat).Reachable (sys.twq test))
    (writer : sys.writer = .got job)
    (moved : (sys.twq test).step (.call threadfunc entry job) = some twq) :
    Holding { sys.setTwq test twq with writer := .adding } := by
  obtain ⟨before, notAdded⟩ := holding.got job writer
  have added : ∀ other found, found ∈ ((sys.setTwq test twq).twq other).added ↔
      found ∈ (sys.twq other).added ∨ other = test ∧ found = job := by
    apply forall_setTwq fun other later => ∀ found, found ∈ later.added ↔
      found ∈ (sys.twq other).added ∨ other = test ∧ found = job
    · obtain ⟨_, _, rfl⟩ := Threadwq.System.step_call moved
      simp [or_comm]
    · exact fun other different found => by simp [different]
  have sameFinished := fun other => finished_setTwq moved nofun other
  have notFinished : ∀ index, job ∉ finished ((sys.twq test).twq index).log :=
    fun index isFinished => notAdded test (Threadwq.System.added_of_finished reachable isFinished)
  constructor
  case pool => exact holding.pool
  case noCtor => exact holding.noCtor
  case below =>
    intro other found isAdded
    rcases (added other found).mp isAdded with earlier | ⟨_, rfl⟩
    · exact holding.below other found earlier
    · exact before
  case once =>
    intro left right found inLeft inRight
    rcases (added left found).mp inLeft with inLeft | ⟨isLeft, isJob⟩ <;>
      rcases (added right found).mp inRight with inRight | ⟨isRight, isJob'⟩
    · exact holding.once left right found inLeft inRight
    · exact (notAdded left (isJob' ▸ inLeft)).elim
    · exact (notAdded right (isJob ▸ inRight)).elim
    · rw [isLeft, isRight]
  case got => exact fun found isGot => nomatch isGot
  case held =>
    intro found
    change sys.pool.held found ≠ [] ↔ WriterPc.adding = .got found ∨
      ∃ other, found ∈ ((sys.setTwq test twq).twq other).added ∧
        ∀ index, found ∉ finished (((sys.setTwq test twq).twq other).twq index).log
    simp only [holding.held, writer, WriterPc.got.injEq, reduceCtorEq, false_or, added,
      sameFinished]
    constructor
    · rintro (rfl | ⟨other, isAdded, unfinished⟩)
      · exact ⟨test, Or.inr ⟨rfl, rfl⟩, notFinished⟩
      · exact ⟨other, Or.inl isAdded, unfinished⟩
    · rintro ⟨other, isAdded | ⟨_, isJob⟩, unfinished⟩
      · exact Or.inr ⟨other, isAdded, unfinished⟩
      · exact Or.inl isJob.symm
  case slice => exact holding.slice
  case freeing => exact holding.freeing

/-- `cb_finish` calls `mempool_free`. -/
theorem Holding.callback (holding : Holding sys) {test : Test} {index job : Nat}
    {twq : Threadwq.System Nat} {pool : Mempool.System}
    (reachable : (Threadwq.System.machine Nat).Reachable (sys.twq test))
    (moved : (sys.twq test).step (.rcu index job) = some twq)
    (freed : sys.pool.step (.free job (sys.slice job)) = some pool) :
    Holding { sys.setTwq test twq with pool } := by
  obtain ⟨_, member, held, pc, isPc, slices⟩ := free_outcome holding.pool freed
  have heldOne : sys.pool.held job = [sys.slice job] := by
    rcases holding.slice job with empty | isSlice
    · rw [empty] at member
      cases member
    · exact isSlice
  rw [heldOne, List.erase_cons_head] at held
  obtain ⟨_, sameAdded⟩ := Threadwq.System.step_others moved nofun
  obtain ⟨_, finish, _⟩ := Option.map_eq_some_iff.mp moved
  have queued := (execFinishRcu_eq_some.mp finish).1
  have jobAdded := Threadwq.System.added_of_handed reachable
    ((Threadwq.System.mem_rcu_iff reachable).mp queued).1
  have added := fun other => added_setTwq sameAdded other
  have finishedNow := fun other => finished_callback moved other
  constructor
  case pool => exact holding.pool.step freed
  case noCtor => exact (step_ctor holding.pool freed).trans holding.noCtor
  case below =>
    intro other found isAdded
    exact holding.below other found (added other ▸ isAdded)
  case once =>
    intro left right found inLeft inRight
    exact holding.once left right found (added left ▸ inLeft) (added right ▸ inRight)
  case got =>
    intro found isGot
    obtain ⟨before, notAdded⟩ := holding.got found isGot
    refine ⟨before, fun other isAdded => notAdded other (added other ▸ isAdded)⟩
  case held =>
    intro found
    change pool.held found ≠ [] ↔ sys.writer = .got found ∨
      ∃ other, found ∈ ((sys.setTwq test twq).twq other).added ∧
        ∀ queue, found ∉ finished (((sys.setTwq test twq).twq other).twq queue).log
    simp only [added, finishedNow, held]
    by_cases same : found = job
    · subst same
      rw [Function.update_self]
      refine ⟨fun nonempty => (nonempty rfl).elim, ?_⟩
      rintro (isGot | ⟨other, isAdded, unfinished⟩)
      · exact ((holding.got found isGot).2 test jobAdded).elim
      · have isTest := holding.once other test found isAdded jobAdded
        exact (unfinished index (Or.inr ⟨isTest, rfl, rfl⟩)).elim
    · rw [Function.update_of_ne same, holding.held]
      simp only [same, and_false, or_false]
      exact Iff.rfl
  case slice =>
    intro found
    change pool.held found = [] ∨ pool.held found = [sys.slice found]
    rw [held]
    by_cases same : found = job
    · subst same
      exact Or.inl (Function.update_self ..)
    · rw [Function.update_of_ne same]
      exact holding.slice found
  case freeing =>
    intro found busy
    change pool.pc found ≠ .idle at busy
    change found < sys.nextJob ∧ pool.held found = [] ∧ (pool.pc found).slices ≠ []
    rw [isPc] at busy ⊢
    rw [held]
    by_cases same : found = job
    · subst same
      rw [Function.update_self, Function.update_self]
      exact ⟨holding.below test found jobAdded, rfl, slices⟩
    · rw [Function.update_of_ne same] at busy ⊢
      rw [Function.update_of_ne same]
      exact holding.freeing found busy

/-! ## Every step -/

theorem Holding.change (holding : Holding sys) (order : Order sys)
    (reachable : ∀ test, (Threadwq.System.machine Nat).Reachable (sys.twq test))
    (alive : sys.pool.fault = none) (change : Change sys action next) : Holding next := by
  cases change with
  | exec _ _ moved | exit _ moved | worker _ moved | spurious moved =>
      exact holding.twqStep moved nofun (Threadwq.System.step_others moved nofun).2 sys.writer
        fun _ => Iff.rfl
  | add _ _ _ moved =>
      exact holding.twqStep moved nofun (Threadwq.System.addStep_added moved) sys.writer
        fun _ => Iff.rfl
  | addDone _ writer _ moved =>
      refine holding.twqStep moved nofun (Threadwq.System.addStep_added moved) .check ?_
      simp [writer]
  | call _ writer moved => exact holding.call (reachable _) writer moved
  | callback moved freed => exact holding.callback (reachable _) moved freed
  | alloc _ writer moved => exact holding.alloc moved writer _
  | execNext | exitNext | testDone | joined =>
      exact holding.move _ sys.writer sys.selectTwq fun _ => Iff.rfl
  | create main =>
      refine holding.move _ _ _ fun job => ?_
      rcases order.noWriter (by simp [main]) with absent | returned
      · simp [absent]
      · simp [returned]
  | check _ writer =>
      refine holding.move sys.main _ sys.selectTwq fun job => ?_
      rw [writer]
      split <;> simp
  | magic _ moved => exact holding.poolStep .magic moved sys.main
  | link _ moved => exact holding.poolStep .link moved sys.main
  | client moved => exact holding.poolStep (.client _) moved sys.main
  | @poolExit junk report pool _ ran =>
      have moved := step_recycle alive holding.nextJob_idle junk
      rw [ran] at moved
      exact holding.poolStep (.recycle junk) moved (.exited report)
  | @poolExitDies junk fault _ died =>
      have moved := step_recycle alive holding.nextJob_idle junk
      rw [died] at moved
      exact holding.poolStep (.recycle junk) moved sys.main

theorem holding_of_reachable (reachable : machine.Reachable sys) : Holding sys := by
  apply reachable.invariant
  · exact fun sys => Holding.initial
  · intro sys action next reachable holding taken
    obtain ⟨alive, change⟩ := step_change taken
    exact holding.change (order_of_reachable reachable) (twq_reachable reachable) alive change

end System

end LinuxCTemplate.Main
