import LinuxCTemplate.Main.LockInvariant

/-!
# Into the background

`daemon` and the beginning and end of a process keep the invariant of the lock: the child
inherits the lock, the parent refers to its description until it has ended, and the
descriptors that are closed are not that of the lock.
-/

namespace LinuxCTemplate.Main

open Foundation

namespace Single

variable {sys : Instances} {pid : Nat}

/-! ## The way into the background -/

/-- `fork`: the child has the lock, the parent still refers to its description. -/
theorem forked (inv : Single sys) (started : pid < sys.files.procs)
    (here : (sys.process pid).pc = .fork) :
    Single ((sys.goOn pid (sys.files.fork pid) ((sys.process pid).goto .parent)).setProcess
      sys.files.procs ((sys.process pid).goto .daemonSetsid)) := by
  have own := inv.own pid
  have frame : OpenFiles.Frame pid sys.files (sys.files.fork pid) := inv.files.fork
  set child := sys.files.procs
  set next := (sys.goOn pid (sys.files.fork pid) ((sys.process pid).goto .parent)).setProcess
    child ((sys.process pid).goto .daemonSetsid)
  have different : pid ≠ child := Nat.ne_of_lt started
  have atChild : next.process child = (sys.process pid).goto .daemonSetsid :=
    Function.update_self ..
  have atPid : next.process pid = (sys.process pid).goto .parent :=
    (Function.update_of_ne different ..).trans (Function.update_self ..)
  have atOther : ∀ other, other ≠ child → other ≠ pid →
      next.process other = sys.process other :=
    fun other notChild notPid =>
      (Function.update_of_ne notChild ..).trans (Function.update_of_ne notPid ..)
  have asked := own.leaving (by rw [here]; rfl)
  have high : ∀ fd, (sys.process pid).processLockFd = some fd → 3 ≤ fd :=
    fun fd isLock => own.high asked fd (Or.inl isLock)
  have stays : ∀ pc, pc.gone = false →
      ((sys.process pid).goto pc).inside = (sys.process pid).inside := by
    intro pc notGone
    simp only [Process.inside, Process.goto, notGone, here]
    rfl
  have parentOut : (next.process pid).inside = false := by
    rw [atPid]
    simp [Process.inside, Process.goto, Pc.gone]
  -- The child is inside for its parent.
  have before : ∀ other, (next.process other).inside = true →
      other ≠ pid ∧ (sys.process (if other = child then pid else other)).inside = true := by
    intro other inside
    have notPid : other ≠ pid := by
      rintro rfl
      cases parentOut.symm.trans inside
    refine ⟨notPid, ?_⟩
    split
    next isChild =>
      rw [isChild, atChild] at inside
      exact (stays .daemonSetsid rfl).symm.trans inside
    next notChild => rwa [atOther other notChild notPid] at inside
  constructor
  case files => exact frame.inv
  case absent =>
    intro other outside
    have notChild : other ≠ child := Nat.ne_of_gt outside
    have notPid : other ≠ pid := by
      rintro rfl
      exact Nat.not_lt.mpr outside (Nat.lt_succ_of_lt started)
    rw [atOther other notChild notPid]
    exact inv.absent other (Nat.le_of_succ_le outside)
  case own =>
    intro other
    by_cases isChild : other = child
    · subst isChild
      rw [atChild]
      refine .of_plain rfl ?_ own.option (fun _ => asked) (fun _ => high)
          (by rintro _ _ ⟨⟩)
      intro inside fd isLock
      have insideBefore := (stays .daemonSetsid rfl).symm.trans inside
      obtain ⟨description, refers, held⟩ := own.holds insideBefore fd isLock
      refine ⟨description, ?_, held⟩
      exact OpenFiles.fork_descr.trans ((if_pos rfl).trans refers)
    · by_cases isPid : other = pid
      · subst isPid
        rw [atPid]
        refine .of_plain rfl ?_ own.option (fun _ => asked) (fun _ => high)
          (by rintro _ _ ⟨⟩)
        intro inside
        rw [← atPid, parentOut] at inside
        cases inside
      · rw [atOther other isChild isPid]
        by_cases isStarted : other < child
        · exact (inv.own other).frame frame inv.files isPid isStarted
        · obtain ⟨status, dead⟩ := inv.absent other (Nat.le_of_not_lt isStarted)
          exact (inv.own other).dead dead
  case unique =>
    intro left right inLeft inRight
    obtain ⟨leftNotPid, leftBefore⟩ := before left inLeft
    obtain ⟨rightNotPid, rightBefore⟩ := before right inRight
    have same := inv.unique _ _ leftBefore rightBefore
    grind
  case owned =>
    intro description held other fd refers
    have refers' : (sys.files.fork pid).descr other fd = some description := refers
    rw [OpenFiles.fork_descr] at refers'
    by_cases isChild : other = child
    · rw [if_pos isChild] at refers'
      obtain ⟨isLock, inside | parent⟩ := inv.owned description held pid fd refers'
      · rw [isChild, atChild]
        exact ⟨isLock, Or.inl ((stays .daemonSetsid rfl).trans inside)⟩
      · cases here.symm.trans parent
    · rw [if_neg isChild] at refers'
      obtain ⟨isLock, status⟩ := inv.owned description held other fd refers'
      by_cases isPid : other = pid
      · subst isPid
        rw [atPid]
        exact ⟨isLock, Or.inr rfl⟩
      · rw [atOther other isChild isPid]
        exact ⟨isLock, status⟩

/-- `/dev/null` is opened. -/
theorem opened_null (inv : Single sys) (started : pid < sys.files.procs)
    (here : (sys.process pid).pc = .openNull) :
    Single (sys.goOn pid (sys.files.openFile pid .devNull).1
      ((sys.process pid).goto (.dupNull (sys.files.openFile pid .devNull).2 0))) := by
  have own := inv.own pid
  have asked := own.leaving (by rw [here]; rfl)
  have frame := inv.files.openFile started .devNull
  set fd := (sys.files.openFile pid .devNull).2
  have inside : ((sys.process pid).goto (.dupNull fd 0)).inside = (sys.process pid).inside := by
    simp only [Process.inside, Process.goto, here]
    rfl
  refine inv.goOn frame started ?_ ?_ (fun now => inside ▸ now) ?_
  · intro other fd' different
    rw [OpenFiles.openFile_descr, if_neg fun isNew => different isNew.1]
  · constructor
    case early => rintro ⟨⟩
    case trying => simp [Process.goto]
    case holds =>
      intro now fd' isLock
      obtain ⟨description, refers, held⟩ := own.holds (inside ▸ now) fd' isLock
      have refers' : (sys.files.openFile pid .devNull).1.descr pid fd' = some description := by
        rw [OpenFiles.openFile_descr, if_neg]
        · exact refers
        · rintro ⟨-, rfl⟩
          cases (Descriptors.lookup_lowest _).symm.trans refers
      exact ⟨description, refers', held⟩
    case option => exact own.option
    case leaving => exact fun _ => asked
    case stdio => simp [Process.goto]
    case high =>
      rintro _ fd' (isLock | trying)
      · exact own.high asked fd' (Or.inl isLock)
      · cases trying
    case null =>
      rintro fd' (⟨new, _, same⟩ | same) <;> cases same
      refine ⟨⟨.devNull, sys.files.fresh⟩, ?_, rfl⟩
      rw [OpenFiles.openFile_descr, if_pos ⟨rfl, rfl⟩]
    case dup =>
      rintro fd' new ⟨⟩
      decide
    case unlocking => rintro _ _ ⟨⟩
  · intro description held fd' refers
    have heldBefore : sys.files.holder .lock = some description := held
    rw [OpenFiles.openFile_descr] at refers
    split at refers
    · obtain rfl := Option.some.inj refers
      exact (Nat.lt_irrefl _ (inv.held_old heldBefore)).elim
    · obtain ⟨isLock, isInside | parent⟩ := inv.owned description heldBefore pid fd' refers
      · exact ⟨isLock, Or.inl (inside.trans isInside)⟩
      · cases here.symm.trans parent

/-- The descriptors 0, 1 and 2 are not that of the lock. -/
theorem dupped (inv : Single sys) (started : pid < sys.files.procs) {fd new : Nat}
    (here : (sys.process pid).pc = .dupNull fd new) {pc : Pc}
    (isNext : pc = .dupNull fd (new + 1) ∧ new < 2 ∨ pc = .closeNull fd) :
    Single (sys.goOn pid (sys.files.dup2 pid fd new) ((sys.process pid).goto pc)) := by
  have own := inv.own pid
  have asked := own.leaving (by rw [here]; rfl)
  have small := own.dup fd new here
  obtain ⟨null, refersNull, isNull⟩ := own.null fd (Or.inl ⟨new, small, here⟩)
  have frame : OpenFiles.Frame pid sys.files (sys.files.dup2 pid fd new) :=
    inv.files.dup2 refersNull
  have started' := Nat.lt_of_lt_of_le started frame.procs
  have inside : ((sys.process pid).goto pc).inside = (sys.process pid).inside := by
    simp only [Process.inside, Process.goto, here]
    rcases isNext with ⟨rfl, _⟩ | rfl <;> rfl
  refine inv.goOn frame started' ?_ ?_ (fun now => inside ▸ now) ?_
  · intro other fd' different
    rw [OpenFiles.dup2_descr refersNull, if_neg fun isNew => different isNew.1]
  · constructor
    case early => rcases isNext with ⟨rfl, _⟩ | rfl <;> rintro ⟨⟩
    case trying => rcases isNext with ⟨rfl, _⟩ | rfl <;> simp [Process.goto]
    case holds =>
      intro now fd' isLock
      obtain ⟨description, refers, held⟩ := own.holds (inside ▸ now) fd' isLock
      have notStdio : fd' ≠ new := by
        have := own.high asked fd' (Or.inl isLock)
        omega
      have refers' : (sys.files.dup2 pid fd new).descr pid fd' = some description := by
        rw [OpenFiles.dup2_descr refersNull, if_neg fun isNew => notStdio isNew.2]
        exact refers
      exact ⟨description, refers', frame.kept _ _ pid fd' held refers'⟩
    case option => exact own.option
    case leaving => exact fun _ => asked
    case stdio => rcases isNext with ⟨rfl, _⟩ | rfl <;> simp [Process.goto]
    case high =>
      rintro _ fd' (isLock | trying)
      · exact own.high asked fd' (Or.inl isLock)
      · rcases isNext with ⟨rfl, _⟩ | rfl <;> cases trying
    case null =>
      intro fd' isNullFd
      have same : fd' = fd := by
        rcases isNext with ⟨rfl, _⟩ | rfl <;> rcases isNullFd with ⟨_, _, here'⟩ | here' <;>
          cases here' <;> rfl
      subst same
      refine ⟨null, ?_, isNull⟩
      rw [OpenFiles.dup2_descr refersNull]
      split
      · rfl
      · exact refersNull
    case dup =>
      rintro fd' new' here'
      rcases isNext with ⟨rfl, less⟩ | rfl <;> cases here'
      exact less
    case unlocking => rcases isNext with ⟨rfl, _⟩ | rfl <;> rintro _ _ ⟨⟩
  · intro description held fd' refers
    have heldBefore := frame.back _ _ held
    rw [OpenFiles.dup2_descr refersNull] at refers
    split at refers
    · obtain rfl := Option.some.inj refers
      cases isNull.symm.trans (inv.files.held _ _ heldBefore).1
    · obtain ⟨isLock, isInside | parent⟩ := inv.owned description heldBefore pid fd' refers
      · exact ⟨isLock, Or.inl (inside.trans isInside)⟩
      · cases here.symm.trans parent

/-- The descriptor of `/dev/null` is not that of the lock. -/
theorem closed_null (inv : Single sys) (started : pid < sys.files.procs) {fd : Nat}
    (here : (sys.process pid).pc = .closeNull fd) {files : OpenFiles File}
    (isNext : files = sys.files.close pid fd ∨ files = sys.files) {stdmsgLv : StdmsgLevel} :
    Single (sys.goOn pid files { sys.process pid with stdmsgLv, pc := .initopsExecInit }) := by
  have own := inv.own pid
  have asked := own.leaving (by rw [here]; rfl)
  obtain ⟨null, refersNull, isNull⟩ := own.null fd (Or.inr here)
  have frame : sys.files.Frame pid files := by
    rcases isNext with rfl | rfl
    · exact inv.files.close started fd
    · exact inv.refl_frame
  have refersAfter : ∀ other fd', (other = pid → fd' ≠ fd) →
      files.descr other fd' = sys.files.descr other fd' := by
    intro other fd' different
    rcases isNext with rfl | rfl
    · rw [OpenFiles.close_descr, if_neg fun isClosed => different isClosed.1 isClosed.2]
    · rfl
  set process : Process := { sys.process pid with stdmsgLv, pc := .initopsExecInit }
  have inside : process.inside = (sys.process pid).inside := by
    simp only [Process.inside, here]
    rfl
  refine inv.goOn frame (Nat.lt_of_lt_of_le started frame.procs) ?_ ?_ (fun now => inside ▸ now) ?_
  · exact fun other fd' different => refersAfter other fd' fun same => (different same).elim
  · refine .of_plain rfl ?_ own.option (by rintro ⟨⟩)
      (fun _ fd' isLock => own.high asked fd' (Or.inl isLock)) (by rintro _ _ ⟨⟩)
    intro now fd' isLock
    obtain ⟨description, refers, held⟩ := own.holds (inside ▸ now) fd' isLock
    have notNull : fd' ≠ fd := by
      rintro rfl
      obtain rfl := Option.some.inj (refersNull.symm.trans refers)
      cases isNull.symm.trans (inv.files.held _ _ held).1
    have refers' := (refersAfter pid fd' fun _ => notNull).trans refers
    exact ⟨description, refers', frame.kept _ _ pid fd' held refers'⟩
  · intro description held fd' refers
    have heldBefore := frame.back _ _ held
    have refersBefore : sys.files.descr pid fd' = some description := by
      rcases isNext with rfl | rfl
      · rw [OpenFiles.close_descr] at refers
        split at refers
        · cases refers
        · exact refers
      · exact refers
    obtain ⟨isLock, isInside | parent⟩ := inv.owned description heldBefore pid fd' refersBefore
    · exact ⟨isLock, Or.inl (inside.trans isInside)⟩
    · cases here.symm.trans parent

/-! ## The end and the beginning of a process -/

/-- The end of a process, whatever its cause. -/
theorem ended (inv : Single sys) (started : pid < sys.files.procs) (status : Option Int) :
    Single (sys.goOn pid (sys.files.exit pid) ((sys.process pid).goto (.dead status))) := by
  have own := inv.own pid
  have notInside : ((sys.process pid).goto (.dead status)).inside = false :=
    Process.not_inside_of_dead rfl
  refine inv.goOn (inv.files.exit started) started ?_ ?_ ?_ ?_
  · intro other fd different
    rw [OpenFiles.exit_descr, if_neg different]
  · refine .of_plain rfl ?_ own.option nofun
      (fun asked fd isLock => own.high asked fd (Or.inl isLock)) nofun
    intro inside
    cases notInside.symm.trans inside
  · intro inside
    cases notInside.symm.trans inside
  · intro description _ fd refers
    rw [OpenFiles.exit_descr, if_pos rfl] at refers
    cases refers

theorem spawned (inv : Single sys) {line : CommandLine} {inherited : Descriptors File}
    (standard : line.Background → StdioOpen inherited) :
    Single (sys.goOn sys.files.procs (sys.files.spawn inherited) (.started line)) := by
  have frame := inv.files.spawn inherited
  refine inv.goOn frame (Nat.lt_succ_self _) ?_ ?_ nofun ?_
  · exact fun other fd different => OpenFiles.spawn_descr_of_ne different
  · constructor
    case early => exact fun _ => rfl
    case trying => simp [Process.started]
    case holds => exact nofun
    case option => exact nofun
    case leaving => exact nofun
    case stdio =>
      intro asked _ fd isStdio
      rw [OpenFiles.spawn_descr_new, Ne, Option.map_eq_none_iff]
      exact standard asked fd isStdio
    case high => simp [Process.started]
    case null => simp [Process.started]
    case dup => exact nofun
    case unlocking => exact nofun
  · intro description held fd refers
    rw [OpenFiles.spawn_descr_new] at refers
    obtain ⟨file, _, rfl⟩ := Option.map_eq_some_iff.mp refers
    exact (Nat.not_lt.mpr (Nat.le_add_right _ _) (inv.held_old (frame.back _ _ held))).elim

end Single

end LinuxCTemplate.Main
