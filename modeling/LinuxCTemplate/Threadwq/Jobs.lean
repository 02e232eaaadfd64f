import LinuxCTemplate.Threadwq.Changes

/-!
# The jobs in flight

Every job instance is passed to an add function once, so the job an add function
carries is on no queue until that function enqueues it, and no two add functions
carry the same job.  With this, each step of the process is one of the changes of
each queue, or leaves the queue alone.
-/

namespace LinuxCTemplate.Threadwq

open Foundation

variable {Job : Type}

/-- The job an add function still has to enqueue. -/
def AddPc.pending? : AddPc Job → Option Job
  | .enqueue _ job => some job
  | .rrRead job => some job
  | .rrAdvance _ job => some job
  | .readIdx job => some job
  | .tryLock _ job => some job
  | .setIdx _ job => some job
  | .enqueueLocked _ job => some job
  | _ => none

theorem AddPc.eq_idle {pc : AddPc Job} (idle : pc.isIdle = true) : pc = .idle := by
  cases pc <;> first | rfl | cases idle

namespace System

/-- What is known about the jobs of the process. -/
structure Jobs (sys : System Job) : Prop where
  enqueued_added : ∀ index, ∀ job ∈ enqueued (sys.twq index).log, job ∈ sys.added
  pending_added : ∀ thread, ∀ job ∈ (sys.add thread).pending?, job ∈ sys.added
  pending_fresh : ∀ thread index, ∀ job ∈ (sys.add thread).pending?,
    job ∉ enqueued (sys.twq index).log
  pending_unique : ∀ left right, ∀ job ∈ (sys.add left).pending?,
    job ∈ (sys.add right).pending? → left = right
  caller : ∀ index, (sys.add (.worker index)).isIdle = false →
    (sys.twq index).worker.inCallback = true

theorem Initial.jobs {sys : System Job} (initial : Initial sys) : Jobs sys where
  enqueued_added index job member := by
    obtain ⟨ops, busy, start⟩ := initial.twq index
    simp [start, threadwqInit, enqueued] at member
  pending_added thread job member := by simp [initial.add, AddPc.pending?] at member
  pending_fresh thread index job member := by simp [initial.add, AddPc.pending?] at member
  pending_unique left right job member := by simp [initial.add, AddPc.pending?] at member
  caller index busy := by simp [initial.add, AddPc.isIdle] at busy

/-! ## Preservation -/

/-- A change of one queue that enqueues nothing. -/
theorem Jobs.setTwq {sys : System Job} (jobs : Jobs sys) (index : Nat) (twq : Threadwq Job)
    (sameJobs : enqueued twq.log = enqueued (sys.twq index).log)
    (callback : (sys.add (.worker index)).isIdle = false →
      twq.worker.inCallback = true) : Jobs (sys.setTwq index twq) := by
  have sameEverywhere : ∀ other, enqueued ((sys.setTwq index twq).twq other).log =
      enqueued (sys.twq other).log :=
    forall_setTwq (fun other later => enqueued later.log = enqueued (sys.twq other).log) sameJobs
      fun _ _ => rfl
  constructor
  case enqueued_added =>
    intro other job member
    rw [sameEverywhere] at member
    exact jobs.enqueued_added other job member
  case pending_added => exact jobs.pending_added
  case pending_fresh =>
    intro thread other job member
    rw [sameEverywhere]
    exact jobs.pending_fresh thread other job member
  case pending_unique => exact jobs.pending_unique
  case caller =>
    exact forall_setTwq (fun other later => (sys.add (.worker other)).isIdle = false →
      later.worker.inCallback = true) callback fun other _ => jobs.caller other

/-- A move of an active add function that does not take up another job. -/
theorem Jobs.setAdd {sys : System Job} (jobs : Jobs sys) (thread : Thread) (pc : AddPc Job)
    (pending : ∀ job ∈ pc.pending?, job ∈ (sys.add thread).pending?)
    (active : (sys.add thread).isIdle = false) : Jobs (sys.setAdd thread pc) := by
  have carried : ∀ other, ∀ job ∈ ((sys.setAdd thread pc).add other).pending?,
      job ∈ (sys.add other).pending? := by
    intro other job member
    by_cases same : other = thread
    · subst same
      rw [setAdd_add_self] at member
      exact pending job member
    · rwa [setAdd_add_of_ne _ _ same] at member
  constructor
  case enqueued_added => exact jobs.enqueued_added
  case pending_added =>
    exact fun other job member => jobs.pending_added other job (carried other job member)
  case pending_fresh =>
    exact fun other index job member =>
      jobs.pending_fresh other index job (carried other job member)
  case pending_unique =>
    exact fun left right job inLeft inRight =>
      jobs.pending_unique left right job (carried left job inLeft) (carried right job inRight)
  case caller =>
    intro index busy
    by_cases same : Thread.worker index = thread
    · exact jobs.caller index (same ▸ active)
    · rw [setAdd_add_of_ne _ _ same] at busy
      exact jobs.caller index busy

/-- A move of an active add function on a queue that enqueues nothing. -/
theorem Jobs.setTwqAdd {sys : System Job} (jobs : Jobs sys) (index : Nat) (twq : Threadwq Job)
    (thread : Thread) (pc : AddPc Job) (sameJobs : enqueued twq.log = enqueued (sys.twq index).log)
    (sameCallback : twq.worker.inCallback = (sys.twq index).worker.inCallback)
    (pending : ∀ job ∈ pc.pending?, job ∈ (sys.add thread).pending?)
    (active : (sys.add thread).isIdle = false) :
    Jobs ((sys.setTwq index twq).setAdd thread pc) := by
  have changed := jobs.setTwq index twq sameJobs fun busy =>
    sameCallback.trans (jobs.caller index busy)
  exact changed.setAdd thread pc pending active

theorem Jobs.setIdx {sys : System Job} (jobs : Jobs sys) (idx : UInt32) :
    Jobs (sys.setIdx idx) where
  enqueued_added := jobs.enqueued_added
  pending_added := jobs.pending_added
  pending_fresh := jobs.pending_fresh
  pending_unique := jobs.pending_unique
  caller := jobs.caller

/-- An add function enqueues the job it carries and carries none afterwards. -/
theorem Jobs.place {sys : System Job} (jobs : Jobs sys) {thread : Thread} {job : Job}
    (carries : (sys.add thread).pending? = some job) (index : Nat) (pc : AddPc Job)
    (done : pc.pending? = none) :
    Jobs ((sys.place thread index job).setAdd thread pc) := by
  have active : (sys.add thread).isIdle = false := by
    cases position : sys.add thread <;> simp [position, AddPc.pending?] at carries ⊢ <;> rfl
  have members : ∀ other found,
      found ∈ enqueued (((sys.place thread index job).setAdd thread pc).twq other).log →
        found ∈ enqueued (sys.twq other).log ∨ found = job := by
    intro other found member
    rw [setAdd_twq, place_twq] at member
    by_cases same : other = index
    · subst same
      rw [setTwq_twq_self] at member
      simpa [enqueue, enqueued] using member
    · rw [setTwq_twq_of_ne _ _ same] at member
      exact Or.inl member
  have carried : ∀ other found,
      found ∈ (((sys.place thread index job).setAdd thread pc).add other).pending? →
        found ∈ (sys.add other).pending? ∧ other ≠ thread := by
    intro other found member
    by_cases same : other = thread
    · subst same
      rw [setAdd_add_self, done] at member
      cases member
    · rw [setAdd_add_of_ne _ _ same, place_add] at member
      exact ⟨member, same⟩
  constructor
  case enqueued_added =>
    intro other found member
    rcases members other found member with earlier | rfl
    · exact jobs.enqueued_added other found earlier
    · exact jobs.pending_added thread found carries
  case pending_added =>
    exact fun other found member => jobs.pending_added other found (carried other found member).1
  case pending_fresh =>
    intro other index' found member isEnqueued
    obtain ⟨before, different⟩ := carried other found member
    rcases members index' found isEnqueued with earlier | rfl
    · exact jobs.pending_fresh other index' found before earlier
    · exact different (jobs.pending_unique other thread found before carries)
  case pending_unique =>
    exact fun left right found inLeft inRight => jobs.pending_unique left right found
      (carried left found inLeft).1 (carried right found inRight).1
  case caller =>
    intro other busy
    have wasBusy : (sys.add (.worker other)).isIdle = false := by
      by_cases same : Thread.worker other = thread
      · rw [same]
        exact active
      · rwa [setAdd_add_of_ne _ _ same, place_add] at busy
    have inside := jobs.caller other wasBusy
    rw [setAdd_twq, place_twq]
    by_cases same : other = index
    · subst same
      rw [setTwq_twq_self]
      exact inside
    · rwa [setTwq_twq_of_ne _ _ same]

/-- A new call takes up a job that no add function has seen. -/
theorem Jobs.call {sys : System Job} (jobs : Jobs sys) {thread : Thread} {job : Job}
    (allowed : sys.mayCall thread = true) (fresh : job ∉ sys.added)
    (pc : AddPc Job) (carries : pc.pending? = some job) :
    Jobs { sys.setAdd thread pc with added := job :: sys.added } := by
  have carried : ∀ other, ∀ found ∈ ((sys.setAdd thread pc).add other).pending?,
      (other = thread ∧ found = job) ∨ (found ∈ (sys.add other).pending? ∧ found ≠ job) := by
    intro other found member
    by_cases same : other = thread
    · subst same
      rw [setAdd_add_self, carries] at member
      exact Or.inl ⟨rfl, (Option.some.inj member).symm⟩
    · rw [setAdd_add_of_ne _ _ same] at member
      refine Or.inr ⟨member, ?_⟩
      rintro rfl
      exact fresh (jobs.pending_added other _ member)
  constructor
  case enqueued_added =>
    exact fun index found member => List.mem_cons_of_mem _ (jobs.enqueued_added index found member)
  case pending_added =>
    intro other found member
    rcases carried other found member with ⟨_, rfl⟩ | ⟨before, _⟩
    · exact List.mem_cons_self
    · exact List.mem_cons_of_mem _ (jobs.pending_added other found before)
  case pending_fresh =>
    intro other index found member isEnqueued
    rcases carried other found member with ⟨_, rfl⟩ | ⟨before, _⟩
    · exact fresh (jobs.enqueued_added index _ isEnqueued)
    · exact jobs.pending_fresh other index found before isEnqueued
  case pending_unique =>
    intro left right found inLeft inRight
    rcases carried left found inLeft with ⟨rfl, rfl⟩ | ⟨leftBefore, leftNe⟩
    · rcases carried right _ inRight with ⟨rfl, _⟩ | ⟨_, rightNe⟩
      · rfl
      · exact (rightNe rfl).elim
    · rcases carried right found inRight with ⟨_, same⟩ | ⟨rightBefore, _⟩
      · exact (leftNe same).elim
      · exact jobs.pending_unique left right found leftBefore rightBefore
  case caller =>
    intro index busy
    by_cases same : Thread.worker index = thread
    · rw [← same] at allowed
      exact allowed
    · change ((sys.setAdd thread pc).add (.worker index)).isIdle = false at busy
      rw [setAdd_add_of_ne _ _ same] at busy
      exact jobs.caller index busy

/-! ## Steps of the process -/

theorem controllerStep_enqueued {self : Nat} {twq next : Threadwq Job}
    (step : controllerStep self twq = some next) :
    enqueued next.log = enqueued twq.log ∧
      next.worker.inCallback = twq.worker.inCallback := by
  refine ⟨(controllerStep_writes step).enqueued nofun, ?_⟩
  rcases controllerStep_worker step with same | signalled
  · rw [same]
  · rw [signalled, signal_inCallback]

theorem Jobs.addStep {sys next : System Job} (jobs : Jobs sys) {thread : Thread}
    (step : sys.addStep thread = some next) : Jobs next := by
  obtain ⟨point, pc, moves⟩ := addStep_moves step
  have active : (sys.add thread).isIdle = false := pc ▸ moves.active
  cases moves with
  | enqueue index job => exact jobs.place (by rw [pc]; rfl) index _ rfl
  | lock index | unlock index =>
      exact jobs.setTwqAdd index _ thread _ rfl rfl (by simp [AddPc.pending?]) active
  | signal index =>
      exact jobs.setTwqAdd index _ thread _ (by rw [signal_log]) (signal_inCallback _)
        (by simp [AddPc.pending?]) active
  | rrRead job | readIdx job | tryLockFails idx job =>
      exact jobs.setAdd thread _ (by simp [AddPc.pending?, pc]) active
  | rrReset idx job | rrAdvance idx job | setIdx idx job =>
      exact (jobs.setIdx _).setAdd thread _ (by simp [AddPc.pending?, pc]) active
  | tryLock idx job free =>
      exact jobs.setTwqAdd _ _ thread _ rfl rfl (by simp [AddPc.pending?, pc]) active
  | enqueueLocked idx job => exact jobs.place (by rw [pc]; rfl) idx.toNat _ rfl

/-! ## What a step leaves alone -/

theorem addStep_add_of_ne {sys next : System Job} {thread other : Thread}
    (step : sys.addStep thread = some next) (different : other ≠ thread) :
    next.add other = sys.add other := by
  obtain ⟨_, _, moves⟩ := addStep_moves step
  cases moves <;> exact setAdd_add_of_ne _ _ different

/-- An add function does nothing to a worker but signal it. -/
theorem addStep_worker {sys next : System Job} {thread : Thread}
    (step : sys.addStep thread = some next) (index : Nat) :
    (next.twq index).worker = (sys.twq index).worker ∨
      (next.twq index).worker = (sys.twq index).signal.worker := by
  have onQueue : ∀ (other : Nat) (twq : Threadwq Job),
      twq.worker = (sys.twq other).worker ∨ twq.worker = (sys.twq other).signal.worker →
      ((sys.setTwq other twq).twq index).worker = (sys.twq index).worker ∨
        ((sys.setTwq other twq).twq index).worker = (sys.twq index).signal.worker := by
    intro other twq changed
    exact forall_setTwq (fun index later => later.worker = (sys.twq index).worker ∨
      later.worker = (sys.twq index).signal.worker) changed (fun _ _ => Or.inl rfl) index
  obtain ⟨_, _, moves⟩ := addStep_moves step
  cases moves with
  | enqueue | enqueueLocked | unlock | lock | tryLock => exact onQueue _ _ (Or.inl rfl)
  | signal => exact onQueue _ _ (Or.inr rfl)
  | rrRead | rrReset | rrAdvance | readIdx | tryLockFails | setIdx => exact Or.inl rfl

theorem step_add_of_ne [DecidableEq Job] {sys next : System Job} {action : Action Job}
    {thread : Thread}
    (step : sys.step action = some next) (different : action.thread? ≠ some thread) :
    next.add thread = sys.add thread := by
  cases step_moves step with
  | worker | controller | spurious | rcu => rfl
  | call => exact setAdd_add_of_ne _ _ fun same => different (by rw [same]; rfl)
  | add moved => exact addStep_add_of_ne moved fun same => different (by rw [same]; rfl)

theorem run_add_of_ne [DecidableEq Job] {sys last : System Job}
    {actions : List (Action Job)} {thread : Thread} (ran : sys.run actions = some last)
    (others : ∀ action ∈ actions, action.thread? ≠ some thread) :
    last.add thread = sys.add thread := by
  induction actions generalizing sys with
  | nil =>
      cases ran
      rfl
  | cons action actions ih =>
      unfold run runWhile at ran
      obtain ⟨_, next, taken, rest⟩ := Machine.runWhile_cons ran
      rw [ih rest fun later member => others later (List.mem_cons_of_mem _ member)]
      exact step_add_of_ne taken (others action List.mem_cons_self)

theorem addStep_added {sys next : System Job} {thread : Thread}
    (step : sys.addStep thread = some next) : next.added = sys.added := by
  obtain ⟨_, _, moves⟩ := addStep_moves step
  cases moves <;> rfl

/-- Of the manager only the index changes. -/
theorem addStep_man {sys next : System Job} {thread : Thread}
    (step : sys.addStep thread = some next) :
    next.man.ops = sys.man.ops ∧ next.man.twqPoolNr = sys.man.twqPoolNr := by
  obtain ⟨_, _, moves⟩ := addStep_moves step
  cases moves <;> exact ⟨rfl, rfl⟩

theorem step_man [DecidableEq Job] {sys next : System Job} {action : Action Job}
    (step : sys.step action = some next) :
    next.man.ops = sys.man.ops ∧ next.man.twqPoolNr = sys.man.twqPoolNr := by
  cases step_moves step with
  | worker | controller | call | spurious | rcu => exact ⟨rfl, rfl⟩
  | add moved => exact addStep_man moved

/-- The policy of the manager is fixed. -/
theorem step_ops [DecidableEq Job] {sys next : System Job} {action : Action Job}
    (step : sys.step action = some next) : next.man.ops = sys.man.ops :=
  (step_man step).1

theorem run_ops [DecidableEq Job] {history : List (System Job × Action Job)} {sys : System Job}
    (run : (machine Job).Run history sys) :
    ∀ entry ∈ history, entry.1.man.ops = sys.man.ops :=
  run.unchanged (fun sys => sys.man.ops) fun _ _ _ _ taken => step_ops taken

/-! ## Every step -/

theorem pending?_entryPc (sys : System Job) (entry : Entry) (job : Job) :
    (sys.entryPc entry job).pending? = some job := by
  unfold entryPc
  cases entry with
  | threadwqAddJob index => rfl
  | threadwqManAddJob => cases sys.man.ops <;> rfl

theorem Jobs.step [DecidableEq Job] {sys next : System Job} (jobs : Jobs sys)
    {action : Action Job} (step : sys.step action = some next) : Jobs next := by
  cases step_moves step with
  | @worker index ret twq idle moved =>
      refine jobs.setTwq index twq (workerStep_enqueued moved) fun busy => ?_
      rw [idle] at busy
      cases busy
  | @controller index twq moved =>
      obtain ⟨sameJobs, sameCallback⟩ := controllerStep_enqueued moved
      exact jobs.setTwq index twq sameJobs fun busy => sameCallback ▸ jobs.caller index busy
  | @call thread entry job idle allowed fresh =>
      exact jobs.call allowed fresh _ (pending?_entryPc sys entry job)
  | add moved => exact jobs.addStep moved
  | @spurious index asleep =>
      refine jobs.setTwq index _ rfl fun busy => ?_
      have inside := jobs.caller index busy
      rw [asleep] at inside
      cases inside
  | @rcu index job member =>
      exact jobs.setTwq index _ (by simp [enqueued]) (jobs.caller index)

/-- The queue `index` is left alone or changed in one of the ways of `Change`. -/
def Touches [DecidableEq Job] (sys next : System Job) (index : Nat) : Prop :=
  next.twq index = sys.twq index ∨ Change index (sys.twq index) (next.twq index)

theorem touches_setTwq [DecidableEq Job] {sys : System Job} {index : Nat}
    {twq : Threadwq Job} (change : Change index (sys.twq index) twq) (other : Nat) :
    Touches sys (sys.setTwq index twq) other :=
  forall_setTwq (fun other later => later = sys.twq other ∨ Change other (sys.twq other) later)
    (Or.inr change) (fun _ _ => Or.inl rfl) other

/-- An add function that is about to enqueue does so as a `Change`. -/
theorem Jobs.change_place [DecidableEq Job] {sys : System Job} (jobs : Jobs sys)
    {thread : Thread} {job : Job} (carries : (sys.add thread).pending? = some job)
    (index : Nat) :
    Change index (sys.twq index) (Threadwq.enqueue thread job (sys.twq index)) := by
  refine .enqueue thread job ?_ (jobs.pending_fresh thread index job carries)
  rintro rfl
  apply jobs.caller
  cases position : sys.add (.worker index) <;>
    simp [position, AddPc.pending?] at carries ⊢ <;> rfl

theorem Jobs.touches_addStep [DecidableEq Job] {sys next : System Job} (jobs : Jobs sys)
    {thread : Thread} (step : sys.addStep thread = some next) (other : Nat) :
    Touches sys next other := by
  obtain ⟨point, pc, moves⟩ := addStep_moves step
  cases moves with
  | enqueue index job => exact touches_setTwq (jobs.change_place (by rw [pc]; rfl) index) other
  | lock index free => exact touches_setTwq (.lock thread (lock_eq_some.mpr ⟨free, rfl⟩)) other
  | signal index => exact touches_setTwq (.signal _) other
  | unlock index => exact touches_setTwq (.unlock _) other
  | rrRead | rrReset | rrAdvance | readIdx | tryLockFails | setIdx => exact Or.inl rfl
  | tryLock idx job free =>
      exact touches_setTwq (.lock thread (lock_eq_some.mpr ⟨free, rfl⟩)) other
  | enqueueLocked idx job =>
      exact touches_setTwq (jobs.change_place (by rw [pc]; rfl) idx.toNat) other

/-- Every step of the process changes every queue by a `Change` or not at all. -/
theorem Jobs.touches [DecidableEq Job] {sys next : System Job} (jobs : Jobs sys)
    {action : Action Job} (step : sys.step action = some next) (other : Nat) :
    Touches sys next other := by
  cases step_moves step with
  | worker idle moved => exact touches_setTwq (.worker _ moved) other
  | controller moved => exact touches_setTwq (.controller moved) other
  | call => exact Or.inl rfl
  | add moved => exact jobs.touches_addStep moved other
  | spurious asleep =>
      exact touches_setTwq (.spurious (spuriousWakeup_eq_some.mpr ⟨asleep, rfl⟩)) other
  | rcu member => exact touches_setTwq (.finish _ (execFinishRcu_eq_some.mpr ⟨member, rfl⟩)) other

variable [DecidableEq Job]

theorem jobs_of_reachable {sys : System Job} (reachable : (machine Job).Reachable sys) :
    Jobs sys := by
  apply reachable.invariant
  · intro sys start
    exact Initial.jobs start
  · intro sys action next _ jobs step
    exact jobs.step step

/-- What holds of a fresh queue and is kept by every `Change` holds of every queue
in every reachable state. -/
theorem queue_invariant (Inv : Nat → Threadwq Job → Prop)
    (initial : ∀ index ops busy, Inv index (threadwqInit ops busy))
    (preserved : ∀ index twq next, Inv index twq → Change index twq next → Inv index next)
    {sys : System Job} (reachable : (machine Job).Reachable sys) :
    ∀ index, Inv index (sys.twq index) := by
  apply reachable.invariant
  · intro sys start index
    obtain ⟨ops, busy, fresh⟩ := start.twq index
    rw [fresh]
    exact initial index ops busy
  · intro sys action next reachable inv step index
    rcases (jobs_of_reachable reachable).touches step index with same | change
    · rw [same]
      exact inv index
    · exact preserved index _ _ (inv index) change

/-- What every `Change` of a queue keeps, every path keeps. -/
theorem path_keeps {index : Nat} (Keeps : Threadwq Job → Prop)
    (kept : ∀ twq next, Change index twq next → Keeps twq → Keeps next)
    {Allowed : System Job → Action Job → Prop} {sys later : System Job}
    (reachable : (machine Job).Reachable sys) (path : (machine Job).Path Allowed sys later)
    (before : Keeps (sys.twq index)) : Keeps (later.twq index) := by
  induction path with
  | refl => exact before
  | tail path taken ih =>
      obtain ⟨action, _, step⟩ := taken
      have jobs := jobs_of_reachable (Machine.Path.reachable path reachable)
      rcases jobs.touches step index with same | change
      · rw [same]
        exact ih
      · exact kept _ _ change ih

end System

end LinuxCTemplate.Threadwq
