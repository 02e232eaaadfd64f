import LinuxCTemplate.Threadwq.Handover
import LinuxCTemplate.Threadwq.Shutdown

/-!
# Queues that are stopped after the last job

When no job is added once `threadwq_exit` has been called on some queue, every job counts
as enqueued before the exit request of its queue, and the flush leaves none of them behind.
-/

namespace LinuxCTemplate.Threadwq

open Foundation

variable {Job : Type}

/-- Every job was enqueued before the first exit request. -/
def Settled (log : List (Event Job)) : Prop :=
  enqueued (History.before Event.isRequest log) = enqueued log

/-- A history without an exit request is cut nowhere. -/
theorem before_append_of_unasked {log : List (Event Job)}
    (unasked : log.any Event.isRequest = false) (events : List (Event Job)) :
    History.before Event.isRequest (log ++ events) =
      log ++ History.before Event.isRequest events := by
  apply List.takeWhile_append_of_pos
  rw [List.any_eq_false] at unasked
  exact fun event member => by simpa using unasked event member

theorem settled_of_unasked {log : List (Event Job)}
    (unasked : log.any Event.isRequest = false) : Settled log := by
  have whole := before_append_of_unasked unasked []
  rw [List.append_nil] at whole
  unfold Settled
  rw [whole]
  exact congrArg enqueued (List.append_nil log)

/-- What is not enqueued does not unsettle. -/
theorem Settled.append {log events : List (Event Job)} (settled : Settled log)
    (nothing : enqueued events = []) : Settled (log ++ events) := by
  unfold Settled
  rw [enqueued_append, nothing, List.append_nil]
  cases requested : log.any Event.isRequest with
  | true =>
      rw [History.before_append_of_any requested]
      exact settled
  | false =>
      have less : enqueued (History.before Event.isRequest events) <+: enqueued events :=
        (List.takeWhile_prefix _).filterMap _
      rw [nothing, List.prefix_nil] at less
      rw [before_append_of_unasked requested, enqueued_append, less, List.append_nil]

namespace System

/-- The add functions keep to the first `nr` queues, and no job is added too late. -/
structure Orderly (nr : UInt32) (sys : System Job) : Prop where
  pool : sys.man.twqPoolNr = nr
  positive : 0 < nr
  within : ∀ thread, (sys.add thread).Within nr.toNat
  range : ∀ index, ∀ job ∈ enqueued (sys.twq index).log, index < nr.toNat
  settled : ∀ index, Settled (sys.twq index).log

variable {nr : UInt32} {sys next : System Job}

theorem Orderly.initial (initial : Initial sys) (pool : sys.man.twqPoolNr = nr)
    (positive : 0 < nr) : Orderly nr sys := by
  have noLog : ∀ index, (sys.twq index).log = [] := by
    intro index
    obtain ⟨ops, busy, fresh⟩ := initial.twq index
    rw [fresh]
    rfl
  constructor
  case pool => exact pool
  case positive => exact positive
  case within =>
    intro thread
    rw [initial.add]
    exact trivial
  case range =>
    intro index job member
    rw [noLog] at member
    cases member
  case settled =>
    intro index
    rw [noLog]
    rfl

/-- An add function, while no queue has been asked to stop. -/
theorem Orderly.addStep (orderly : Orderly nr sys) {thread : Thread}
    (step : sys.addStep thread = some next)
    (unasked : ∀ index, (sys.twq index).log.any Event.isRequest = false) : Orderly nr next := by
  have carries := addStep_carries step
  constructor
  case pool => rw [(addStep_man step).2, orderly.pool]
  case positive => exact orderly.positive
  case within =>
    intro other
    by_cases same : other = thread
    · subst same
      have within := orderly.within other
      rw [← orderly.pool] at within ⊢
      exact addStep_within (orderly.pool ▸ orderly.positive) within step
    · rw [addStep_add_of_ne step same]
      exact orderly.within other
  case range =>
    intro index job member
    cases carries with
    | carried _ sameLog =>
        rw [sameLog] at member
        exact orderly.range index job member
    | placed other found _ _ target place =>
        rw [place] at member
        by_cases same : index = other
        · subst same
          exact target _ (orderly.within thread)
        · rw [setTwq_twq_of_ne _ _ same] at member
          exact orderly.range index job member
  case settled =>
    intro index
    apply settled_of_unasked
    rw [(carries.writes index).any_isRequest nofun]
    exact unasked index

theorem Orderly.step [DecidableEq Job] (orderly : Orderly nr sys) {action : Action Job}
    (step : sys.step action = some next)
    (calls : ∀ thread entry job, action = .call thread entry job → entry.Within nr.toNat)
    (unasked : action.role = .adder →
      ∀ index, (sys.twq index).log.any Event.isRequest = false) : Orderly nr next := by
  by_cases isAdder : action.role = .adder
  · cases action with
    | add thread => exact orderly.addStep step (unasked isAdder)
    | call thread entry job =>
        obtain ⟨_, _, rfl⟩ := step_call step
        refine ⟨orderly.pool, orderly.positive, fun other => ?_, orderly.range, orderly.settled⟩
        change ((sys.setAdd thread _).add other).Within _
        by_cases same : other = thread
        · subst same
          rw [setAdd_add_self]
          exact within_entryPc (calls other entry job rfl)
        · rw [setAdd_add_of_ne _ _ same]
          exact orderly.within other
    | _ => cases isAdder
  · have writes := step_writes step
    constructor
    case pool => rw [(step_man step).2, orderly.pool]
    case positive => exact orderly.positive
    case within =>
      rw [(step_others step isAdder).1]
      exact orderly.within
    case range =>
      intro index job member
      rw [(writes index).enqueued isAdder] at member
      exact orderly.range index job member
    case settled =>
      intro index
      have sameJobs := (writes index).enqueued isAdder
      obtain ⟨events, moreLog, _⟩ := writes index
      rw [moreLog, enqueued_append, List.append_right_eq_self] at sameJobs
      rw [moreLog]
      exact (orderly.settled index).append sameJobs

/-- When `threadwq_exit` has returned on every queue of the pool, every job has been handed to
`call_rcu`. -/
theorem Orderly.handed [DecidableEq Job] (orderly : Orderly nr sys)
    (reachable : (machine Job).Reachable sys)
    (noneAdding : ∀ thread, (sys.add thread).isIdle = true)
    (returned : ∀ index, index < nr.toNat → (sys.twq index).controller = .returned)
    {job : Job} (added : job ∈ sys.added) :
    ∃ index, index < nr.toNat ∧ job ∈ handedToRcu (sys.twq index).log := by
  rcases allPlaced_of_reachable reachable job added with ⟨thread, pending⟩ | ⟨index, member⟩
  · have isIdle := noneAdding thread
    cases position : sys.add thread <;>
      simp [position, AddPc.isIdle, AddPc.pending?] at isIdle pending
  · have inRange := orderly.range index job member
    have shutdown := shutdown_of_reachable reachable index
    have workerReturned := shutdown.joined (returned index inRange)
    have owed : Owed index (sys.twq index).log job := by
      left
      rw [orderly.settled index]
      exact member
    have isStarted := shutdown.drained (by rw [workerReturned]; rfl) job owed
    rw [(delivery_of_reachable reachable index).started_eq_handedToRcu workerReturned] at isStarted
    exact ⟨index, inRange, isStarted⟩

section Logs

variable [DecidableEq Job] {index : Nat} {job : Job}

theorem enqueued_of_handed (reachable : (machine Job).Reachable sys)
    (handed : job ∈ handedToRcu (sys.twq index).log) : job ∈ enqueued (sys.twq index).log := by
  have delivery := delivery_of_reachable reachable index
  rw [delivery.queue, delivery.starting, delivery.handing]
  simp [handed]

theorem added_of_handed (reachable : (machine Job).Reachable sys)
    (handed : job ∈ handedToRcu (sys.twq index).log) : job ∈ sys.added :=
  (jobs_of_reachable reachable).enqueued_added index job (enqueued_of_handed reachable handed)

theorem handed_of_finished (reachable : (machine Job).Reachable sys)
    (isFinished : job ∈ finished (sys.twq index).log) :
    job ∈ handedToRcu (sys.twq index).log := by
  rw [(delivery_of_reachable reachable index).finishing.mem_iff]
  exact List.mem_append_left _ isFinished

theorem added_of_finished (reachable : (machine Job).Reachable sys)
    (isFinished : job ∈ finished (sys.twq index).log) : job ∈ sys.added :=
  added_of_handed reachable (handed_of_finished reachable isFinished)

/-- A job handed to `call_rcu` is finished or waits there, not both. -/
theorem mem_rcu_iff (reachable : (machine Job).Reachable sys) :
    job ∈ (sys.twq index).rcu ↔
      job ∈ handedToRcu (sys.twq index).log ∧ job ∉ finished (sys.twq index).log := by
  have delivery := delivery_of_reachable reachable index
  have nodup := delivery.finishing.nodup_iff.mp delivery.handedToRcu_nodup
  rw [delivery.finishing.mem_iff, List.mem_append]
  constructor
  · intro queued
    exact ⟨Or.inr queued, fun isFinished => nodup.disjoint isFinished queued⟩
  · rintro ⟨isFinished | queued, notFinished⟩
    · exact (notFinished isFinished).elim
    · exact queued

end Logs

end System

end LinuxCTemplate.Threadwq
