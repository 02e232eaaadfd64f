import LinuxCTemplate.Threadwq.Jobs

/-!
# From the add function to the queue

A job passed to an add function is carried by it until the function puts the job on a
queue, and after that it is on that queue's log.  An add function that starts at a queue of
the pool, or at the manager, stays within the pool.
-/

namespace LinuxCTemplate.Threadwq

open Foundation

variable {Job : Type}

/-- The part of the program that takes the step; a wake-up without a signal and the call of
an add function write nothing. -/
def Action.role : Action Job → Role
  | .worker _ _ | .spurious _ => .worker
  | .controller _ => .controller
  | .call _ _ _ | .add _ => .adder
  | .rcu _ _ => .rcu

/-- A queue that an add function is about to use is one of the first `nr`. -/
def AddPc.Within (nr : Nat) : AddPc Job → Prop
  | .enqueue index _ => index < nr
  | .setIdx idx _ | .enqueueLocked idx _ => idx.toNat < nr
  | _ => True

def Entry.Within (nr : Nat) : Entry → Prop
  | .threadwqAddJob index => index < nr
  | .threadwqManAddJob => True

namespace System

variable {sys next : System Job} {thread : Thread}

/-- A change of one queue by one role. -/
theorem writes_setTwq {role : Role} {index : Nat} {twq : Threadwq Job}
    (writes : Writes role (sys.twq index) twq) (other : Nat) :
    Writes role (sys.twq other) ((sys.setTwq index twq).twq other) :=
  forall_setTwq (fun other later => Writes role (sys.twq other) later) writes
    (fun _ _ => writes_nothing rfl) other

/-- What a step of an add function does with the job the function carries. -/
inductive Carries (sys : System Job) (thread : Thread) (next : System Job) : Prop where
  | carried : (next.add thread).pending? = (sys.add thread).pending? →
      (∀ index, (next.twq index).log = (sys.twq index).log) → Carries sys thread next
  | placed (index : Nat) (job : Job) : (sys.add thread).pending? = some job →
      (next.add thread).pending? = none →
      (∀ nr, (sys.add thread).Within nr → index < nr) →
      next.twq = (sys.setTwq index (Threadwq.enqueue thread job (sys.twq index))).twq →
      Carries sys thread next

theorem sameLog_setTwq {index : Nat} {twq : Threadwq Job}
    (sameLog : twq.log = (sys.twq index).log) (other : Nat) :
    ((sys.setTwq index twq).twq other).log = (sys.twq other).log :=
  forall_setTwq (fun other later => later.log = (sys.twq other).log) sameLog (fun _ _ => rfl) other

theorem addStep_carries (step : sys.addStep thread = some next) : Carries sys thread next := by
  obtain ⟨point, pc, moves⟩ := addStep_moves step
  cases moves with
  | enqueue index job =>
      refine .placed index job (by rw [pc]; rfl) (by rw [setAdd_add_self]; rfl) ?_ rfl
      exact fun nr within => by rwa [pc] at within
  | enqueueLocked idx job =>
      refine .placed idx.toNat job (by rw [pc]; rfl) (by rw [setAdd_add_self]; rfl) ?_ rfl
      exact fun nr within => by rwa [pc] at within
  | lock | unlock | tryLock =>
      exact .carried (by rw [setAdd_add_self, pc]; rfl) (sameLog_setTwq rfl)
  | signal =>
      exact .carried (by rw [setAdd_add_self, pc]; rfl) (sameLog_setTwq (signal_log _))
  | rrRead | rrReset | rrAdvance | readIdx | tryLockFails | setIdx =>
      exact .carried (by rw [setAdd_add_self, pc]; rfl) fun _ => rfl

theorem Carries.writes (carries : Carries sys thread next) (index : Nat) :
    Writes .adder (sys.twq index) (next.twq index) := by
  cases carries with
  | carried _ sameLog => exact writes_nothing (sameLog index)
  | placed other job _ _ _ place =>
      rw [place]
      refine writes_setTwq ?_ index
      exact writes_one rfl rfl

variable {action : Action Job}

theorem step_writes [DecidableEq Job] (step : sys.step action = some next) (index : Nat) :
    Writes action.role (sys.twq index) (next.twq index) := by
  cases step_moves step with
  | worker idle moved => exact writes_setTwq (workerStep_writes moved) index
  | controller moved => exact writes_setTwq (controllerStep_writes moved) index
  | call => exact writes_nothing rfl
  | add moved => exact (addStep_carries moved).writes index
  | spurious =>
      refine writes_setTwq ?_ index
      exact writes_nothing rfl
  | rcu =>
      refine writes_setTwq ?_ index
      exact writes_one rfl rfl

/-- What has been written to a log stays there. -/
theorem log_prefix_of_run [DecidableEq Job] {history : List (System Job × Action Job)}
    (run : (machine Job).Run history sys) (index : Nat) :
    ∀ entry ∈ history, (entry.1.twq index).log <+: (sys.twq index).log := by
  induction run with
  | start => simp
  | @step history state next action run taken ih =>
      intro entry member
      obtain ⟨events, moreLog, _⟩ := step_writes taken index
      rw [moreLog]
      rcases List.mem_append.mp member with earlier | last
      · exact (ih entry earlier).trans (List.prefix_append _ _)
      · rw [List.mem_singleton.mp last]
        exact List.prefix_append _ _

/-! ## The queue of a job -/

/-- A job is still with the add function it was passed to, or on a queue. -/
def AllPlaced (sys : System Job) : Prop :=
  ∀ job ∈ sys.added, (∃ thread, (sys.add thread).pending? = some job) ∨
    ∃ index, job ∈ enqueued (sys.twq index).log

theorem mem_enqueued_of_writes {role : Role} {twq later : Threadwq Job} {job : Job}
    (writes : Writes role twq later) (member : job ∈ enqueued twq.log) :
    job ∈ enqueued later.log := by
  obtain ⟨events, moreLog, _⟩ := writes
  rw [moreLog, enqueued_append]
  exact List.mem_append_left _ member

theorem AllPlaced.addStep (placed : AllPlaced sys) (step : sys.addStep thread = some next) :
    AllPlaced next := by
  have carries := addStep_carries step
  intro job added
  rw [addStep_added step] at added
  rcases placed job added with ⟨carrier, pending⟩ | ⟨index, isEnqueued⟩
  · by_cases same : carrier = thread
    · subst same
      cases carries with
      | carried keeps _ => exact Or.inl ⟨carrier, keeps.trans pending⟩
      | placed index found carried _ _ place =>
          obtain rfl : found = job := Option.some.inj (carried.symm.trans pending)
          refine Or.inr ⟨index, ?_⟩
          rw [place, setTwq_twq_self]
          exact mem_enqueued.mpr ⟨carrier, List.mem_append_right _ List.mem_cons_self⟩
    · left
      refine ⟨carrier, ?_⟩
      rwa [addStep_add_of_ne step same]
  · exact Or.inr ⟨index, mem_enqueued_of_writes (carries.writes index) isEnqueued⟩

/-- A step that neither calls nor is part of an add function. -/
theorem step_others [DecidableEq Job] (step : sys.step action = some next)
    (notAdder : action.role ≠ .adder) :
    next.add = sys.add ∧ next.added = sys.added := by
  cases step_moves step with
  | worker | controller | spurious | rcu => exact ⟨rfl, rfl⟩
  | call | add => exact (notAdder rfl).elim

theorem step_call [DecidableEq Job] {entry : Entry} {job : Job}
    (step : sys.step (.call thread entry job) = some next) :
    (sys.add thread).isIdle = true ∧ job ∉ sys.added ∧
      next = { sys.setAdd thread (sys.entryPc entry job) with added := job :: sys.added } := by
  cases step_moves step with
  | call idle _ fresh => exact ⟨idle, fresh, rfl⟩

theorem AllPlaced.call [DecidableEq Job] {entry : Entry} {job : Job} (placed : AllPlaced sys)
    (step : sys.step (.call thread entry job) = some next) : AllPlaced next := by
  obtain ⟨isIdle, fresh, rfl⟩ := step_call step
  intro found added
  rcases List.mem_cons.mp added with rfl | earlier
  · left
    refine ⟨thread, ?_⟩
    change ((sys.setAdd thread _).add thread).pending? = _
    rw [setAdd_add_self, pending?_entryPc]
  · rcases placed found earlier with ⟨carrier, pending⟩ | isEnqueued
    · left
      refine ⟨carrier, ?_⟩
      have different : carrier ≠ thread := by
        rintro rfl
        cases position : sys.add carrier <;> simp [position, AddPc.pending?, AddPc.isIdle]
          at pending isIdle
      change ((sys.setAdd thread _).add carrier).pending? = _
      rwa [setAdd_add_of_ne _ _ different]
    · exact Or.inr isEnqueued

theorem allPlaced_of_reachable [DecidableEq Job] (reachable : (machine Job).Reachable sys) :
    AllPlaced sys := by
  apply reachable.invariant
  · intro sys initial job added
    rw [initial.added] at added
    cases added
  · intro sys action next _ placed step
    by_cases isAdder : action.role = .adder
    · cases action with
      | call caller entry job => exact placed.call step
      | add caller => exact placed.addStep step
      | _ => cases isAdder
    · obtain ⟨sameAdd, sameAdded⟩ := step_others step isAdder
      intro job added
      rw [sameAdded] at added
      rcases placed job added with pending | ⟨index, isEnqueued⟩
      · left
        rwa [sameAdd]
      · exact Or.inr ⟨index, mem_enqueued_of_writes (step_writes step index) isEnqueued⟩

/-- No job is on two queues. -/
def OnePlace (sys : System Job) : Prop :=
  ∀ left right, ∀ job ∈ enqueued (sys.twq left).log, job ∈ enqueued (sys.twq right).log →
    left = right

theorem OnePlace.addStep (onePlace : OnePlace sys) (jobs : Jobs sys)
    (step : sys.addStep thread = some next) : OnePlace next := by
  cases addStep_carries step with
  | carried _ sameLog =>
      intro left right job inLeft inRight
      rw [sameLog] at inLeft inRight
      exact onePlace left right job inLeft inRight
  | placed index job carried _ _ place =>
      have members : ∀ other found, found ∈ enqueued (next.twq other).log →
          found ∈ enqueued (sys.twq other).log ∨ other = index ∧ found = job := by
        intro other found member
        rw [place] at member
        by_cases same : other = index
        · subst same
          rw [setTwq_twq_self] at member
          simpa [enqueue, enqueued] using member
        · rw [setTwq_twq_of_ne _ _ same] at member
          exact Or.inl member
      have fresh : ∀ other, job ∉ enqueued (sys.twq other).log :=
        fun other => jobs.pending_fresh thread other job carried
      intro left right found inLeft inRight
      rcases members left found inLeft with inLeft | ⟨isLeft, isJob⟩ <;>
        rcases members right found inRight with inRight | ⟨isRight, isJob'⟩
      · exact onePlace left right found inLeft inRight
      · exact (fresh left (isJob' ▸ inLeft)).elim
      · exact (fresh right (isJob ▸ inRight)).elim
      · rw [isLeft, isRight]

theorem onePlace_of_reachable [DecidableEq Job] (reachable : (machine Job).Reachable sys) :
    OnePlace sys := by
  apply reachable.invariant
  · intro sys initial left right job inLeft
    obtain ⟨ops, busy, fresh⟩ := initial.twq left
    rw [fresh] at inLeft
    cases inLeft
  · intro sys action next reachable onePlace step
    by_cases isAdd : ∃ thread, action = .add thread
    · obtain ⟨thread, rfl⟩ := isAdd
      exact onePlace.addStep (jobs_of_reachable reachable) step
    · have sameJobs : ∀ index, enqueued (next.twq index).log = enqueued (sys.twq index).log := by
        intro index
        cases action with
        | add thread => exact (isAdd ⟨thread, rfl⟩).elim
        | call thread entry job =>
            obtain ⟨_, _, rfl⟩ := step_call step
            rfl
        | _ => exact (step_writes step index).enqueued nofun
      intro left right job inLeft inRight
      rw [sameJobs] at inLeft inRight
      exact onePlace left right job inLeft inRight

/-! ## The sequence of the enqueues -/

/-- The jobs that `placed` has for one queue. -/
def placedOn (sys : System Job) (index : Nat) : List Job :=
  sys.placed.filterMap fun entry => if entry.1 = index then some entry.2 else none

/-- On every queue `placed` has the same jobs in the same sequence as the queue's log. -/
def PlacedAsLogged (sys : System Job) : Prop :=
  ∀ index, sys.placedOn index = enqueued (sys.twq index).log

theorem PlacedAsLogged.keep (asLogged : PlacedAsLogged sys) (samePlaced : next.placed = sys.placed)
    (sameJobs : ∀ index, enqueued (next.twq index).log = enqueued (sys.twq index).log) :
    PlacedAsLogged next := by
  intro index
  rw [placedOn, samePlaced, sameJobs]
  exact asLogged index

theorem PlacedAsLogged.place (asLogged : PlacedAsLogged sys) (index : Nat) (job : Job) :
    PlacedAsLogged (sys.place thread index job) := by
  intro other
  have before := asLogged other
  simp only [placedOn, place_placed, List.filterMap_append, place_twq] at before ⊢
  by_cases same : index = other
  · subst same
    rw [setTwq_twq_self, before]
    simp [Threadwq.enqueue, enqueued]
  · rw [setTwq_twq_of_ne _ _ (Ne.symm same), before]
    simp [same]

theorem PlacedAsLogged.addStep (asLogged : PlacedAsLogged sys)
    (step : sys.addStep thread = some next) : PlacedAsLogged next := by
  obtain ⟨point, _, moves⟩ := addStep_moves step
  cases moves with
  | enqueue index job => exact asLogged.place index job
  | enqueueLocked idx job => exact asLogged.place idx.toNat job
  | signal index =>
      refine asLogged.keep rfl fun other => congrArg enqueued ?_
      exact sameLog_setTwq (signal_log _) other
  | lock | unlock | tryLock =>
      refine asLogged.keep rfl fun other => congrArg enqueued ?_
      refine sameLog_setTwq ?_ other
      rfl
  | rrRead | rrReset | rrAdvance | readIdx | tryLockFails | setIdx =>
      exact asLogged.keep rfl fun _ => rfl

theorem PlacedAsLogged.step [DecidableEq Job] {action : Action Job}
    (asLogged : PlacedAsLogged sys) (step : sys.step action = some next) :
    PlacedAsLogged next := by
  have sameJobs : action.role ≠ .adder → ∀ index,
      enqueued (next.twq index).log = enqueued (sys.twq index).log :=
    fun notAdder index => (step_writes step index).enqueued notAdder
  cases step_moves step with
  | add moved => exact asLogged.addStep moved
  | call => exact asLogged.keep rfl fun _ => rfl
  | worker | controller | spurious | rcu => exact asLogged.keep rfl (sameJobs nofun)

theorem Initial.placedAsLogged (initial : Initial sys) : PlacedAsLogged sys := by
  intro index
  obtain ⟨ops, busy, fresh⟩ := initial.twq index
  rw [placedOn, initial.placed, fresh]
  rfl

/-! ## The pool of the manager -/

theorem within_entryPc {nr : Nat} {entry : Entry} {job : Job} (within : entry.Within nr) :
    (sys.entryPc entry job).Within nr := by
  unfold entryPc
  cases entry with
  | threadwqAddJob index => exact within
  | threadwqManAddJob => cases sys.man.ops <;> exact trivial

theorem addStep_within (pool : 0 < sys.man.twqPoolNr)
    (within : (sys.add thread).Within sys.man.twqPoolNr.toNat)
    (step : sys.addStep thread = some next) :
    (next.add thread).Within sys.man.twqPoolNr.toNat := by
  have positive : 0 < sys.man.twqPoolNr.toNat := UInt32.lt_iff_toNat_lt.mp pool
  have isTried : ∀ idx, (sys.tried idx).toNat < sys.man.twqPoolNr.toNat := by
    intro idx
    unfold tried
    split
    next => exact positive
    next inPool => exact UInt32.lt_iff_toNat_lt.mp (UInt32.not_le.mp inPool)
  obtain ⟨point, pc, moves⟩ := addStep_moves step
  rw [pc] at within
  cases moves with rw [setAdd_add_self]
  | rrReset => exact positive
  | rrAdvance idx job inPool => exact UInt32.lt_iff_toNat_lt.mp (UInt32.not_le.mp inPool)
  | tryLock idx => exact isTried idx
  | setIdx => exact within
  | _ => exact trivial

end System

end LinuxCTemplate.Threadwq
