import LinuxCTemplate.Main.Background

/-!
# At most one instance

Whatever the instances do and however their steps interleave, at most one of them is past
`keep_single` and has not given the lock back, and a new instance is refused only while
there is such a one, or a parent that `daemon` has not ended yet.
-/

namespace LinuxCTemplate.Main

open Foundation

namespace Single

variable {sys : Instances} {pid : Nat}

/-! ## One step and whole runs -/

/-- A process goes to the handlers of `exit`. -/
theorem handlers (inv : Single sys) (started : pid < sys.files.procs) {process : Process}
    (sameLock : process.processLockFd = (sys.process pid).processLockFd)
    (sameLine : process.line = (sys.process pid).line)
    (sameOption : process.optBackground = (sys.process pid).optBackground)
    {status : Int} (isHandlers : process.pc = .handlers status)
    (stayed : (sys.process pid).pc.gone = false) : Single (sys.setProcess pid process) := by
  refine inv.move_to started sameLock sameLine sameOption ?_ ?_ stayed ?_ ?_ <;> rw [isHandlers]
  · rfl
  · rfl
  · exact nofun
  · exact nofun

theorem procStep (inv : Single sys) (started : pid < sys.files.procs) {ok : Bool}
    {next : Instances} (taken : sys.procStep pid ok = some next) : Single next := by
  unfold Instances.procStep at taken
  have own := inv.own pid
  cases here : (sys.process pid).pc <;> simp only [here] at taken
  case argparse =>
    split at taken <;> cases taken
    next => exact inv.handlers started rfl rfl rfl rfl (by rw [here]; rfl)
    next isParsed => exact inv.parsed started here isParsed
  case openLock =>
    split at taken <;> cases taken
    next => exact inv.opened started here
    next =>
      have early : (sys.process pid).pc.early = true := by
        rw [here]
        rfl
      have noLock := inv.lockFd_of_early early
      exact inv.handlers started noLock.symm rfl rfl rfl (by rw [here]; rfl)
  case flock fd =>
    split at taken <;> cases taken
    next => exact inv.refused started here
    next files took =>
      split at took
      · exact inv.locked started here took
      · cases took
  case closeLock fd =>
    cases taken
    exact inv.closed_refused started here
  case atexit =>
    cases taken
    refine inv.move_to started rfl rfl rfl ?_ ?_ (by rw [here]; rfl) ?_ ?_
    all_goals
      dsimp only
      split
    · rfl
    · rfl
    · rfl
    · rfl
    next asked => exact fun _ => own.option asked
    next => exact nofun
    · exact nofun
    · exact nofun
  case setsid =>
    have asked := own.leaving (by rw [here]; rfl)
    split at taken <;> cases taken
    next => exact inv.move_to started rfl rfl rfl rfl rfl (by rw [here]; rfl) (fun _ => asked) nofun
    next => exact inv.handlers started rfl rfl rfl rfl (by rw [here]; rfl)
  case fork =>
    split at taken <;> cases taken
    next => exact inv.forked started here
    next => exact inv.handlers started rfl rfl rfl rfl (by rw [here]; rfl)
  case parent =>
    cases taken
    exact inv.ended started (some 0)
  case daemonSetsid =>
    have asked := own.leaving (by rw [here]; rfl)
    split at taken <;> cases taken
    next => exact inv.move_to started rfl rfl rfl rfl rfl (by rw [here]; rfl) (fun _ => asked) nofun
    next => exact inv.handlers started rfl rfl rfl rfl (by rw [here]; rfl)
  case openNull =>
    split at taken <;> cases taken
    next => exact inv.opened_null started here
    next => exact inv.handlers started rfl rfl rfl rfl (by rw [here]; rfl)
  case dupNull fd new =>
    cases taken
    refine inv.dupped started here ?_
    split
    next less => exact Or.inl ⟨rfl, less⟩
    next => exact Or.inr rfl
  case closeNull fd =>
    cases taken
    refine inv.closed_null started here ?_
    split
    · exact Or.inl rfl
    · exact Or.inr rfl
  case initopsExecInit =>
    split at taken <;> cases taken
    next => exact inv.move_to started rfl rfl rfl rfl rfl (by rw [here]; rfl) nofun nofun
    next => exact inv.handlers started rfl rfl rfl rfl (by rw [here]; rfl)
  case tests =>
    cases taken
    exact inv.handlers started rfl rfl rfl rfl (by rw [here]; rfl)
  case handlers status =>
    split at taken <;> cases taken
    next fd _ isLock =>
      refine inv.move_to started rfl rfl rfl rfl rfl (by rw [here]; rfl) nofun ?_
      rintro _ _ ⟨⟩
      exact isLock
    next => exact inv.move_to started rfl rfl rfl rfl rfl (by rw [here]; rfl) nofun nofun
  case unlock fd status =>
    cases taken
    exact inv.unlocked started here
  case closeUnlocked fd status =>
    cases taken
    exact inv.closed_unlocked started here
  case exiting status =>
    cases taken
    exact inv.ended started (some status)
  case dead => cases taken

theorem step (inv : Single sys) {action : InstanceAction} (standard : action.Standard)
    {next : Instances} (taken : sys.step action = some next) : Single next := by
  cases action with
  | spawn line inherited =>
      cases taken
      exact inv.spawned standard
  | proc pid ok =>
      simp only [Instances.step] at taken
      split at taken
      next started => exact inv.procStep started taken
      next => cases taken
  | kill pid =>
      simp only [Instances.step] at taken
      split at taken <;> cases taken
      next started => exact inv.ended started.1 none

theorem initial : Single Instances.initial := by
  constructor
  case files => exact ⟨fun _ _ => rfl, nofun, nofun⟩
  case absent => exact fun _ _ => ⟨none, rfl⟩
  case own => exact fun _ => .of_plain rfl nofun nofun nofun nofun nofun
  case unique => exact fun _ _ => nofun
  case owned => exact nofun

end Single

/-- The invariant holds in every state of a run in which the instances are started as they
should be. -/
theorem Instances.single_of_run {history : List (Instances × InstanceAction)} {sys : Instances}
    (run : machine.Run history sys) (standard : ∀ entry ∈ history, entry.2.Standard) :
    Machine.Visits history sys Single := by
  refine run.invariant_of_steps (fun _ action => action.Standard) ?_ ?_ standard
  · rintro _ rfl
    exact Single.initial
  · exact fun sys action next _ inv standard taken => inv.step standard taken

/-- The program points between the success of `keep_single` and the end of the tests, but
that of the parent that `daemon` is about to end. -/
def Pc.working : Pc → Bool
  | .atexit | .setsid | .fork | .daemonSetsid | .openNull | .dupNull _ _ | .closeNull _
  | .initopsExecInit | .tests => true
  | _ => false

/-- Who works has got the lock. -/
def Process.Admitted (process : Process) : Prop :=
  process.pc.working = true → process.processLockFd.isSome = true

theorem Process.Admitted.inside {process : Process} (admitted : process.Admitted)
    (working : process.pc.working = true) : process.inside = true := by
  rw [Process.inside, admitted working]
  cases here : process.pc <;> rw [here] at working <;> first | rfl | cases working

namespace Instances

variable {sys next : Instances} {pid : Nat}

theorem admitted_goOn (admitted : ∀ other, (sys.process other).Admitted)
    (files : OpenFiles File) {process : Process} (also : process.Admitted) (other : Nat) :
    ((sys.goOn pid files process).process other).Admitted := by
  by_cases isPid : other = pid
  · subst isPid
    rw [show (sys.goOn other files process).process other = process from Function.update_self ..]
    exact also
  · rw [show (sys.goOn pid files process).process other = sys.process other from
      Function.update_of_ne isPid ..]
    exact admitted other

theorem admitted_procStep (admitted : ∀ other, (sys.process other).Admitted) {ok : Bool}
    (taken : sys.procStep pid ok = some next) (other : Nat) : (next.process other).Admitted := by
  have keeps : ∀ process : Process, (sys.process pid).pc.working = true →
      process.processLockFd = (sys.process pid).processLockFd → process.Admitted := by
    intro process working sameLock _
    rw [sameLock]
    exact admitted pid working
  have out : ∀ process : Process, process.pc.working = false → process.Admitted := by
    intro process notWorking working
    cases notWorking.symm.trans working
  unfold procStep at taken
  cases here : (sys.process pid).pc <;> simp only [here] at taken
  case fork =>
    split at taken <;> cases taken
    next =>
      have parent := @admitted_goOn sys pid admitted (sys.files.fork pid) _
        (out ((sys.process pid).goto .parent) rfl)
      refine admitted_goOn parent _ (keeps _ (by rw [here]; rfl) ?_) other
      rfl
    next => exact admitted_goOn admitted _ (out _ rfl) other
  case flock fd =>
    split at taken <;> cases taken
    next => exact admitted_goOn admitted _ (out _ rfl) other
    next => exact admitted_goOn admitted _ (fun _ => rfl) other
  case argparse | openLock | handlers =>
    split at taken <;> cases taken
    all_goals exact admitted_goOn admitted _ (out _ rfl) other
  case closeLock | parent | tests | unlock | closeUnlocked | exiting =>
    cases taken
    exact admitted_goOn admitted _ (out _ rfl) other
  case atexit | setsid | daemonSetsid | dupNull | closeNull | initopsExecInit =>
    cases taken
    refine admitted_goOn admitted _ (keeps _ (by rw [here]; rfl) ?_) other
    rfl
  case openNull =>
    split at taken <;> cases taken
    all_goals
      refine admitted_goOn admitted _ (keeps _ (by rw [here]; rfl) ?_) other
      rfl
  case dead => cases taken

theorem admitted_of_reachable (reachable : machine.Reachable sys) (pid : Nat) :
    (sys.process pid).Admitted := by
  revert pid
  apply reachable.invariant
  · rintro _ rfl _ working
    cases working
  · intro sys action next _ admitted taken
    have out : ∀ process : Process, process.pc.working = false → process.Admitted := by
      intro process notWorking working
      cases notWorking.symm.trans working
    cases action with
    | spawn line inherited =>
        cases taken
        exact admitted_goOn admitted _ (out _ rfl)
    | proc pid ok =>
        simp only [machine, step] at taken
        split at taken
        · exact admitted_procStep admitted taken
        · cases taken
    | kill pid =>
        simp only [machine, step] at taken
        split at taken <;> cases taken
        exact admitted_goOn admitted _ (out _ rfl)

end Instances

/-! ## The results -/

/-- The process refers to the description that holds the lock. -/
def Instances.HasLock (sys : Instances) (pid : Nat) : Prop :=
  ∃ fd description, (sys.process pid).processLockFd = some fd ∧
    sys.files.descr pid fd = some description ∧ sys.files.holder .lock = some description

/-- At most one process is past `keep_single` and has not given the lock back, and it has the
lock. -/
structure Instances.AtMostOne (sys : Instances) : Prop where
  unique : ∀ left right, (sys.process left).inside = true →
    (sys.process right).inside = true → left = right
  working : ∀ pid, (sys.process pid).pc.working = true → (sys.process pid).inside = true
  locked : ∀ pid, (sys.process pid).inside = true → sys.HasLock pid

namespace Single

variable {sys : Instances} {pid : Nat}

theorem hasLock (inv : Single sys) (inside : (sys.process pid).inside = true) :
    sys.HasLock pid := by
  obtain ⟨fd, isLock⟩ := Option.isSome_iff_exists.mp (Bool.and_eq_true_iff.mp inside).1
  obtain ⟨description, refers, held⟩ := (inv.own pid).holds inside fd isLock
  exact ⟨fd, description, isLock, refers, held⟩

theorem atMostOne (inv : Single sys) (reachable : Instances.machine.Reachable sys) :
    sys.AtMostOne where
  unique := inv.unique
  working pid := (Instances.admitted_of_reachable reachable pid).inside
  locked _ := inv.hasLock

/-- `flock` on the file just opened is refused just if the lock is held at all. -/
theorem tryLock_eq_none_iff (inv : Single sys) {fd : Nat}
    (here : (sys.process pid).pc = .flock fd) :
    sys.files.tryLock pid fd = none ↔ sys.files.holder .lock ≠ none := by
  obtain ⟨description, refers, isLock, notHolder, _⟩ := (inv.own pid).trying fd (Or.inl here)
  constructor
  · intro isRefused free
    have takes := (OpenFiles.tryLock_eq_some refers).mpr
      ⟨fun holder held => (by rw [isLock, free] at held; cases held), rfl⟩
    cases isRefused.symm.trans takes
  · intro held
    obtain ⟨holder, isHolder⟩ := Option.ne_none_iff_exists'.mp held
    cases took : sys.files.tryLock pid fd with
    | none => rfl
    | some next =>
        have onlyOwn := ((OpenFiles.tryLock_eq_some refers).mp took).1
        rw [isLock] at onlyOwn
        obtain rfl := onlyOwn holder isHolder
        exact (notHolder isHolder).elim

end Single

section Results

open Instances

variable {history : List (Instances × InstanceAction)} {sys : Instances}

/-- If those that are to go into the background are started with open standard files, then in
every state of a run at most one instance is past `keep_single` and has not given the lock
back. -/
theorem at_most_one_instance (run : machine.Run history sys)
    (standard : ∀ entry ∈ history, entry.2.Standard) :
    Machine.Visits history sys AtMostOne := by
  obtain ⟨before, last⟩ := single_of_run run standard
  constructor
  · exact fun entry member => (before entry member).atMostOne (run.reachable_of_mem entry member)
  · exact last.atMostOne ⟨history, run⟩

/-- An instance at `flock` is refused only while another process is past `keep_single` and
has not given the lock back, or is the parent that `daemon` is about to end; in the first
case it is refused. -/
theorem refused_only_by_another (run : machine.Run history sys)
    (standard : ∀ entry ∈ history, entry.2.Standard) {pid fd : Nat}
    (here : (sys.process pid).pc = .flock fd) :
    (sys.files.tryLock pid fd = none → ∃ other, other ≠ pid ∧
      ((sys.process other).inside = true ∨ (sys.process other).pc = .parent)) ∧
    ∀ other, (sys.process other).inside = true → sys.files.tryLock pid fd = none := by
  have inv := (single_of_run run standard).2
  rw [inv.tryLock_eq_none_iff here]
  constructor
  · intro isHeld
    obtain ⟨holder, held⟩ := Option.ne_none_iff_exists'.mp isHeld
    obtain ⟨_, other, fd', refers⟩ := inv.files.held _ _ held
    obtain ⟨hasLock, inside_or_parent⟩ := inv.owned holder held other fd' refers
    refine ⟨other, ?_, inside_or_parent⟩
    rintro rfl
    have early : (sys.process other).pc.early = true := by
      rw [here]
      rfl
    have noLock := inv.lockFd_of_early early
    cases noLock.symm.trans hasLock
  · intro other inside
    obtain ⟨_, _, _, _, held⟩ := inv.hasLock inside
    rw [held]
    exact nofun

end Results

namespace Instances

/-- Runs by evaluation. -/
theorem exists_run (actions : List InstanceAction)
    (allowed : InstanceAction → Prop) [DecidablePred allowed]
    (Holds : Instances → Prop) [DecidablePred Holds]
    (checked : (Machine.runWhile step (fun _ action => decide (allowed action)) initial actions).any
      (fun last => decide (Holds last)) = true) :
    ∃ history last, machine.Run history last ∧ (∀ entry ∈ history, allowed entry.2) ∧
      Holds last := by
  obtain ⟨last, ran, holds⟩ := Machine.exists_runWhile step _ initial actions Holds checked
  have start : machine.Run [] initial := .start rfl
  obtain ⟨history, run, _, all⟩ := start.continue_evaluated (fun _ _ _ taken => taken) ran
  exact ⟨history, last, run, fun entry member => of_decide_eq_true (all entry member), holds⟩

/-- The first instance goes into the background.  The second is started with another output
level while the first is about to be a child, and is refused; it ends.  When the first is
killed, a third one gets to its tests. -/
def successionRun : List InstanceAction :=
  let stdio : Descriptors File := [some (.other 0), some (.other 1), some (.other 1)]
  List.flatten [[.spawn ⟨[.background], 0⟩ stdio], List.replicate 6 (.proc 0 true),
    [.spawn ⟨[.verbose], 0⟩ stdio], List.replicate 2 (.proc 2 true), [.proc 0 true],
    List.replicate 7 (.proc 1 true), List.replicate 4 (.proc 2 true), [.kill 1],
    [.spawn ⟨[], 0⟩ stdio], List.replicate 5 (.proc 3 true)]

theorem at_most_one_instance_successionRun :
    ∃ history sys, machine.Run history sys ∧ (sys.process 0).pc = .dead (some 0) ∧
      (sys.process 1).pc = .dead none ∧ (sys.process 2).pc = .dead (some (-1)) ∧
      (sys.process 3).pc = .tests ∧ Machine.Visits history sys AtMostOne := by
  obtain ⟨history, sys, run, standard, first, child, second, third⟩ := exists_run successionRun
    InstanceAction.Standard
    (fun sys => (sys.process 0).pc = .dead (some 0) ∧ (sys.process 1).pc = .dead none ∧
      (sys.process 2).pc = .dead (some (-1)) ∧ (sys.process 3).pc = .tests) (by decide)
  exact ⟨history, sys, run, first, child, second, third, at_most_one_instance run standard⟩

/-- Without the condition two instances can be at their tests: `daemon` lets the descriptor 0,
which is that of the lock, refer to `/dev/null`. -/
theorem closed_stdin_admits_two :
    ∃ history sys, machine.Run history sys ∧ (sys.process 1).pc = .tests ∧
      (sys.process 2).pc = .tests := by
  obtain ⟨history, sys, run, _, child, second⟩ := exists_run
    (List.flatten [[.spawn ⟨[.background], 0⟩ []], List.replicate 7 (.proc 0 true),
      List.replicate 7 (.proc 1 true), [.spawn ⟨[], 0⟩ []], List.replicate 5 (.proc 2 true)])
    (fun _ => True) (fun sys => (sys.process 1).pc = .tests ∧ (sys.process 2).pc = .tests)
    (by decide)
  exact ⟨history, sys, run, child, second⟩

theorem refused_only_by_another_forked :
    ∃ history sys, machine.Run history sys ∧ (sys.process 0).pc = .parent ∧
      (sys.process 1).pc = .daemonSetsid ∧ (sys.process 2).pc = .flock 3 ∧
      (sys.files.tryLock 2 3 = none → ∃ other, other ≠ 2 ∧
        ((sys.process other).inside = true ∨ (sys.process other).pc = .parent)) ∧
      ∀ other, (sys.process other).inside = true → sys.files.tryLock 2 3 = none := by
  obtain ⟨history, sys, run, standard, parent, child, second⟩ := exists_run
    (successionRun.take 10) InstanceAction.Standard
    (fun sys => (sys.process 0).pc = .parent ∧ (sys.process 1).pc = .daemonSetsid ∧
      (sys.process 2).pc = .flock 3) (by decide)
  exact ⟨history, sys, run, parent, child, second, refused_only_by_another run standard second⟩

end Instances

end LinuxCTemplate.Main
