import LinuxCTemplate.Main.Instances

/-!
# The invariant of the lock

The lock belongs to the description that `fio_trylock` has opened.  An instance that has
passed `keep_single` refers to it by `process_lock_fd`, and so does its parent, if it has
gone into the background; nobody else does, so nobody else passes `keep_single` before the
lock is given back or the last of them is gone.

`daemon` closes the descriptors 0, 1 and 2.  An instance that is to go into the background
keeps its lock only if these were open when it was started, since `open` would otherwise
have given one of them to the lock file.
-/

namespace LinuxCTemplate.Main

open Foundation

/-- The process is the parent that `daemon` ends, or has given the lock back, or is dead. -/
def Pc.gone : Pc → Bool
  | .parent | .closeUnlocked _ _ | .dead _ => true
  | _ => false

/-- The process has passed `keep_single` and has not given the lock back. -/
def Process.inside (process : Process) : Bool :=
  process.processLockFd.isSome && !process.pc.gone

/-- The process is not yet past `keep_single`. -/
def Pc.early : Pc → Bool
  | .argparse | .openLock | .flock _ | .closeLock _ => true
  | _ => false

/-- The process is on its way into the background. -/
def Pc.leaving : Pc → Bool
  | .setsid | .fork | .parent | .daemonSetsid | .openNull | .dupNull _ _ | .closeNull _ => true
  | _ => false

/-- At this program point the process uses no descriptor but that of the lock. -/
def Pc.plain : Pc → Bool
  | .argparse | .openLock | .flock _ | .closeLock _ | .dupNull _ _ | .closeNull _ => false
  | _ => true

/-- The command line is one that `argparse` takes, and it asks for the background. -/
def CommandLine.Background (line : CommandLine) : Prop :=
  (argparse line).map Prod.fst = some true

/-- The descriptors 0, 1 and 2 are open. -/
def StdioOpen (table : Descriptors File) : Prop :=
  ∀ fd < 3, table.lookup fd ≠ none

/-- An instance that is to go into the background is started with open standard files. -/
def InstanceAction.Standard : InstanceAction → Prop
  | .spawn line inherited => line.Background → StdioOpen inherited
  | _ => True

instance : DecidablePred InstanceAction.Standard
  | .spawn line inherited => inferInstanceAs (Decidable
      ((argparse line).map Prod.fst = some true → ∀ fd < 3, inherited.lookup fd ≠ none))
  | .proc _ _ | .kill _ => .isTrue trivial

/-! ## The invariant -/

/-- What is known about one process and its files. -/
structure Own (files : OpenFiles File) (pid : Nat) (process : Process) : Prop where
  early : process.pc.early = true → process.processLockFd = none
  /-- A description that is about to be locked belongs to this process alone. -/
  trying : ∀ fd, process.pc = .flock fd ∨ process.pc = .closeLock fd →
    ∃ description, files.descr pid fd = some description ∧ description.file = .lock ∧
      files.holder .lock ≠ some description ∧
      ∀ other fd', files.descr other fd' = some description → other = pid ∧ fd' = fd
  holds : process.inside = true → ∀ fd, process.processLockFd = some fd →
    ∃ description, files.descr pid fd = some description ∧
      files.holder .lock = some description
  option : process.optBackground = true → process.line.Background
  leaving : process.pc.leaving = true → process.line.Background
  stdio : process.line.Background → process.pc = .argparse ∨ process.pc = .openLock →
    ∀ fd < 3, files.descr pid fd ≠ none
  high : process.line.Background → ∀ fd,
    process.processLockFd = some fd ∨ process.pc = .flock fd → 3 ≤ fd
  null : ∀ fd, (∃ new ≤ 2, process.pc = .dupNull fd new) ∨ process.pc = .closeNull fd →
    ∃ description, files.descr pid fd = some description ∧ description.file = .devNull
  dup : ∀ fd new, process.pc = .dupNull fd new → new ≤ 2
  unlocking : ∀ fd status, process.pc = .unlock fd status → process.processLockFd = some fd

/-- At most one instance is inside, and it and its parent have the description that holds the
lock to themselves. -/
structure Single (sys : Instances) : Prop where
  files : sys.files.WellFormed
  absent : ∀ pid, sys.files.procs ≤ pid → ∃ status, (sys.process pid).pc = .dead status
  own : ∀ pid, Own sys.files pid (sys.process pid)
  unique : ∀ left right, (sys.process left).inside = true → (sys.process right).inside = true →
    left = right
  owned : ∀ description, sys.files.holder .lock = some description → ∀ pid fd,
    sys.files.descr pid fd = some description →
    (sys.process pid).processLockFd = some fd ∧
      ((sys.process pid).inside = true ∨ (sys.process pid).pc = .parent)

theorem Process.not_inside_of_dead {process : Process} {status : Option Int}
    (dead : process.pc = .dead status) : process.inside = false := by
  simp [inside, dead, Pc.gone]

theorem Process.not_inside_of_none {process : Process} (noLock : process.processLockFd = none) :
    process.inside = false := by
  rw [inside, noLock]
  rfl

/-- A process that uses no descriptor but that of the lock. -/
theorem Own.of_plain {files : OpenFiles File} {pid : Nat} {process : Process}
    (plain : process.pc.plain = true)
    (holds : process.inside = true → ∀ fd, process.processLockFd = some fd →
      ∃ description, files.descr pid fd = some description ∧
        files.holder .lock = some description)
    (option : process.optBackground = true → process.line.Background)
    (leaving : process.pc.leaving = true → process.line.Background)
    (high : process.line.Background → ∀ fd, process.processLockFd = some fd → 3 ≤ fd)
    (unlocking : ∀ fd status, process.pc = .unlock fd status →
      process.processLockFd = some fd) : Own files pid process := by
  have notPlain : ∀ {pc : Pc}, process.pc = pc → pc.plain = true := by
    rintro _ rfl
    exact plain
  constructor
  case early =>
    intro isEarly
    cases here : process.pc <;> rw [here] at isEarly <;> try cases isEarly
    all_goals cases notPlain here
  case trying =>
    rintro fd (here | here) <;> cases notPlain here
  case holds => exact holds
  case option => exact option
  case leaving => exact leaving
  case stdio =>
    rintro _ (here | here) <;> cases notPlain here
  case high =>
    rintro asked fd (refers | here)
    · exact high asked fd refers
    · cases notPlain here
  case null =>
    rintro fd (⟨new, _, here⟩ | here) <;> cases notPlain here
  case dup =>
    intro fd new here
    cases notPlain here
  case unlocking => exact unlocking

/-- A move to such a program point that changes nothing about the lock. -/
theorem Own.next {files : OpenFiles File} {pid : Nat} {process next : Process}
    (own : Own files pid process) (sameLock : next.processLockFd = process.processLockFd)
    (sameLine : next.line = process.line)
    (sameOption : next.optBackground = process.optBackground) (plain : next.pc.plain = true)
    (inside : next.inside = true → process.inside = true)
    (leaving : next.pc.leaving = true → process.line.Background)
    (unlocking : ∀ fd status, next.pc = .unlock fd status →
      process.processLockFd = some fd) : Own files pid next := by
  refine .of_plain plain ?_ ?_ ?_ ?_ ?_
  · intro isInside fd refers
    exact own.holds (inside isInside) fd (sameLock ▸ refers)
  · rw [sameOption, sameLine]
    exact own.option
  · rw [sameLine]
    exact leaving
  · rw [sameLine, sameLock]
    exact fun asked fd refers => own.high asked fd (Or.inl refers)
  · rw [sameLock]
    exact unlocking

/-- Nothing is asked of the files of a dead process. -/
theorem Own.dead {files next : OpenFiles File} {pid : Nat} {process : Process}
    {status : Option Int} (own : Own files pid process) (dead : process.pc = .dead status) :
    Own next pid process := by
  refine .of_plain ?_ ?_ own.option ?_ (fun asked fd refers => own.high asked fd (Or.inl refers)) ?_
  · rw [dead]
    rfl
  · intro inside
    rw [Process.not_inside_of_dead dead] at inside
    cases inside
  · rw [dead]
    exact nofun
  · rw [dead]
    exact nofun

/-- A step of one process that neither locks nor unlocks leaves another process what it
has. -/
theorem Own.frame {files next : OpenFiles File} {actor pid : Nat} {process : Process}
    (own : Own files pid process) (frame : files.Frame actor next) (inv : files.WellFormed)
    (different : pid ≠ actor) (started : pid < files.procs) : Own next pid process := by
  have same : ∀ fd, next.descr pid fd = files.descr pid fd :=
    fun fd => frame.others pid fd different started
  constructor
  case early => exact own.early
  case trying =>
    intro fd trying
    obtain ⟨description, refers, isLock, notHolder, alone⟩ := own.trying fd trying
    refine ⟨description, (same fd).trans refers, isLock, ?_, ?_⟩
    · exact fun holder => notHolder (frame.back _ _ holder)
    · intro other fd' refers'
      rcases frame.sources other fd' description refers' with before | ⟨fd'', ofActor⟩ | new
      · exact alone other fd' before
      · exact (different (alone actor fd'' ofActor).1.symm).elim
      · exact (Nat.not_lt.mpr new (inv.fresh pid fd description refers)).elim
  case holds =>
    intro inside fd isLockFd
    obtain ⟨description, refers, holder⟩ := own.holds inside fd isLockFd
    have refers' := (same fd).trans refers
    exact ⟨description, refers', frame.kept _ _ pid fd holder refers'⟩
  case option => exact own.option
  case leaving => exact own.leaving
  case stdio =>
    intro asked start fd standard
    rw [same]
    exact own.stdio asked start fd standard
  case high => exact own.high
  case null =>
    intro fd null
    obtain ⟨description, refers, isNull⟩ := own.null fd null
    exact ⟨description, (same fd).trans refers, isNull⟩
  case dup => exact own.dup
  case unlocking => exact own.unlocking

namespace Single

variable {sys : Instances} {pid : Nat}

theorem refl_frame (inv : Single sys) : sys.files.Frame pid sys.files where
  procs := Nat.le_refl _
  others _ _ _ _ := rfl
  sources _ _ _ refers := Or.inl refers
  kept _ _ _ _ held _ := held
  back _ _ held := held
  inv := inv.files

/-- A step of one process that neither locks nor forks. -/
theorem goOn (inv : Single sys) {files : OpenFiles File} {process : Process}
    (frame : sys.files.Frame pid files) (started : pid < files.procs)
    (same : ∀ other fd, other ≠ pid → files.descr other fd = sys.files.descr other fd)
    (own : Own files pid process)
    (inside : process.inside = true → (sys.process pid).inside = true)
    (owned : ∀ description, files.holder .lock = some description → ∀ fd,
      files.descr pid fd = some description → process.processLockFd = some fd ∧
        (process.inside = true ∨ process.pc = .parent)) :
    Single (sys.goOn pid files process) := by
  have atPid : (sys.goOn pid files process).process pid = process := Function.update_self ..
  have atOther : ∀ other, other ≠ pid →
      (sys.goOn pid files process).process other = sys.process other :=
    fun other different => Function.update_of_ne different ..
  have insideBefore : ∀ other, ((sys.goOn pid files process).process other).inside = true →
      (sys.process other).inside = true := by
    intro other isInside
    by_cases isPid : other = pid
    · subst isPid
      rw [atPid] at isInside
      exact inside isInside
    · rwa [atOther other isPid] at isInside
  constructor
  case files => exact frame.inv
  case absent =>
    intro other outside
    have different : other ≠ pid := by
      rintro rfl
      exact Nat.not_lt.mpr outside started
    rw [atOther other different]
    exact inv.absent other (Nat.le_trans frame.procs outside)
  case own =>
    intro other
    by_cases isPid : other = pid
    · subst isPid
      rw [atPid]
      exact own
    · rw [atOther other isPid]
      by_cases isStarted : other < sys.files.procs
      · exact (inv.own other).frame frame inv.files isPid isStarted
      · obtain ⟨status, dead⟩ := inv.absent other (Nat.le_of_not_lt isStarted)
        exact (inv.own other).dead dead
  case unique =>
    exact fun left right inLeft inRight =>
      inv.unique left right (insideBefore left inLeft) (insideBefore right inRight)
  case owned =>
    intro description held other fd refers
    by_cases isPid : other = pid
    · subst isPid
      rw [atPid]
      exact owned description held fd refers
    · rw [atOther other isPid]
      have refers' := (same other fd isPid).symm.trans refers
      exact inv.owned description (frame.back _ _ held) other fd refers'

/-- A step that uses no file. -/
theorem move (inv : Single sys) {process : Process} (started : pid < sys.files.procs)
    (own : Own sys.files pid process)
    (sameLock : process.processLockFd = (sys.process pid).processLockFd)
    (inside : process.inside = (sys.process pid).inside)
    (notParent : (sys.process pid).pc ≠ .parent) :
    Single (sys.setProcess pid process) := by
  refine inv.goOn inv.refl_frame started (fun _ _ _ => rfl) own (fun isInside => inside ▸ isInside)
    fun description held fd refers => ?_
  obtain ⟨isLock, isInside | isParent⟩ := inv.owned description held pid fd refers
  · exact ⟨sameLock.trans isLock, Or.inl (inside.trans isInside)⟩
  · exact (notParent isParent).elim

/-! ## Steps that use no file -/

/-- A move to a program point at which the process uses no descriptor but that of the
lock. -/
theorem move_to (inv : Single sys) (started : pid < sys.files.procs) {process : Process}
    (sameLock : process.processLockFd = (sys.process pid).processLockFd)
    (sameLine : process.line = (sys.process pid).line)
    (sameOption : process.optBackground = (sys.process pid).optBackground)
    (plain : process.pc.plain = true) (stays : process.pc.gone = false)
    (stayed : (sys.process pid).pc.gone = false)
    (leaving : process.pc.leaving = true → (sys.process pid).line.Background)
    (unlocking : ∀ fd status, process.pc = .unlock fd status →
      (sys.process pid).processLockFd = some fd) :
    Single (sys.setProcess pid process) := by
  have inside : process.inside = (sys.process pid).inside := by
    rw [Process.inside, Process.inside, sameLock, stays, stayed]
  refine inv.move started ?_ sameLock inside ?_
  · exact (inv.own pid).next sameLock sameLine sameOption plain (fun now => inside ▸ now) leaving
      unlocking
  · intro parent
    rw [parent] at stayed
    cases stayed

theorem lockFd_of_early (inv : Single sys) (early : (sys.process pid).pc.early = true) :
    (sys.process pid).processLockFd = none :=
  (inv.own pid).early early

/-- A process without the lock does not refer to the description that holds it. -/
theorem not_holder (inv : Single sys) (noLock : (sys.process pid).processLockFd = none)
    {description : Description File} (held : sys.files.holder .lock = some description) {fd : Nat} :
    sys.files.descr pid fd ≠ some description := by
  intro refers
  obtain ⟨isLock, _⟩ := inv.owned description held pid fd refers
  cases noLock.symm.trans isLock

/-- The description that holds the lock is not a new one. -/
theorem held_old (inv : Single sys) {description : Description File}
    (held : sys.files.holder .lock = some description) : description.id < sys.files.fresh := by
  obtain ⟨_, pid, fd, refers⟩ := inv.files.held _ _ held
  exact inv.files.fresh pid fd description refers

/-- A step of a process that does not have the lock. -/
theorem move_without (inv : Single sys) {process : Process} (started : pid < sys.files.procs)
    (own : Own sys.files pid process) (before : (sys.process pid).processLockFd = none)
    (noLock : process.processLockFd = none) : Single (sys.setProcess pid process) := by
  refine inv.goOn inv.refl_frame started (fun _ _ _ => rfl) own ?_ ?_
  · intro inside
    cases (Process.not_inside_of_none noLock).symm.trans inside
  · intro description held fd refers
    exact (inv.not_holder before held refers).elim

/-- The command line is accepted. -/
theorem parsed (inv : Single sys) (started : pid < sys.files.procs)
    (here : (sys.process pid).pc = .argparse) {optBackground : Bool} {stdmsgLv : StdmsgLevel}
    (isParsed : argparse (sys.process pid).line = some (optBackground, stdmsgLv)) :
    Single (sys.setProcess pid
      { sys.process pid with optBackground, stdmsgLv, pc := .openLock }) := by
  have own := inv.own pid
  have early : (sys.process pid).pc.early = true := by
    rw [here]
    rfl
  have noLock := inv.lockFd_of_early early
  refine inv.move_without started ?_ noLock noLock
  constructor
  case early => exact fun _ => noLock
  case trying => simp
  case holds =>
    intro _ fd refers
    cases noLock.symm.trans refers
  case option =>
    rintro (rfl : optBackground = true)
    exact congrArg (Option.map Prod.fst) isParsed
  case leaving => exact nofun
  case stdio => exact fun asked _ => own.stdio asked (Or.inl here)
  case high =>
    rintro _ fd (refers | trying)
    · cases noLock.symm.trans refers
    · cases trying
  case null => simp
  case dup => exact nofun
  case unlocking => exact nofun

/-! ## The lock -/

/-- The lock file is opened: its description is new, and nobody else refers to it. -/
theorem opened (inv : Single sys) (started : pid < sys.files.procs)
    (here : (sys.process pid).pc = .openLock) :
    Single (sys.goOn pid (sys.files.openFile pid .lock).1
      ((sys.process pid).goto (.flock (sys.files.openFile pid .lock).2))) := by
  have own := inv.own pid
  have early : (sys.process pid).pc.early = true := by
    rw [here]
    rfl
  have noLock := inv.lockFd_of_early early
  have holder : (sys.files.openFile pid .lock).1.holder = sys.files.holder := rfl
  refine inv.goOn (inv.files.openFile started .lock) started ?_ ?_ ?_ ?_
  · intro other fd different
    rw [OpenFiles.openFile_descr, if_neg fun isNew => different isNew.1]
  · constructor
    case early => exact fun _ => noLock
    case trying =>
      rintro fd (same | same) <;> cases same
      refine ⟨⟨.lock, sys.files.fresh⟩, ?_, rfl, ?_, ?_⟩
      · rw [OpenFiles.openFile_descr, if_pos ⟨rfl, rfl⟩]
      · rw [holder]
        intro held
        exact Nat.lt_irrefl _ (inv.held_old held)
      · intro other fd' refers
        by_contra elsewhere
        rw [OpenFiles.openFile_descr, if_neg elsewhere] at refers
        exact Nat.lt_irrefl _ (inv.files.fresh other fd' _ refers)
    case holds =>
      intro _ fd refers
      cases noLock.symm.trans refers
    case option => exact own.option
    case leaving => exact nofun
    case stdio => simp [Process.goto]
    case high =>
      rintro asked fd (refers | trying)
      · cases noLock.symm.trans refers
      · cases trying
        exact Descriptors.lowest_ge (own.stdio asked (Or.inr here))
    case null => simp [Process.goto]
    case dup => exact nofun
    case unlocking => exact nofun
  · intro inside
    rw [Process.inside, Process.goto, noLock] at inside
    cases inside
  · intro description held fd refers
    rw [holder] at held
    rw [OpenFiles.openFile_descr] at refers
    split at refers
    · obtain rfl := Option.some.inj refers
      exact (Nat.lt_irrefl _ (inv.held_old held)).elim
    · exact (inv.not_holder noLock held refers).elim

/-- The lock is refused. -/
theorem refused (inv : Single sys) (started : pid < sys.files.procs) {fd : Nat}
    (here : (sys.process pid).pc = .flock fd) :
    Single (sys.setProcess pid ((sys.process pid).goto (.closeLock fd))) := by
  have own := inv.own pid
  have early : (sys.process pid).pc.early = true := by
    rw [here]
    rfl
  have noLock := inv.lockFd_of_early early
  refine inv.move_without started ?_ noLock noLock
  constructor
  case early => exact fun _ => noLock
  case trying =>
    rintro fd' (same | same) <;> cases same
    exact own.trying fd (Or.inl here)
  case holds =>
    intro _ fd refers
    cases noLock.symm.trans refers
  case option => exact own.option
  case leaving => exact nofun
  case stdio => simp [Process.goto]
  case high =>
    rintro _ fd (refers | trying)
    · cases noLock.symm.trans refers
    · cases trying
  case null => simp [Process.goto]
  case dup => exact nofun
  case unlocking => exact nofun

/-- While the lock is free nobody is inside. -/
theorem not_inside_of_free (inv : Single sys) (free : sys.files.holder .lock = none) (other : Nat) :
    (sys.process other).inside = false := by
  by_contra inside
  rw [Bool.not_eq_false] at inside
  obtain ⟨fd, isLock⟩ := Option.isSome_iff_exists.mp (Bool.and_eq_true_iff.mp inside).1
  obtain ⟨description, _, held⟩ := (inv.own other).holds inside fd isLock
  cases free.symm.trans held

/-- A step of one process by which the lock goes to another description or becomes free,
while nobody else is inside. -/
theorem relocked (inv : Single sys) (started : pid < sys.files.procs) {process : Process}
    {next : Option (Description File)} {files : OpenFiles File}
    (isNext : files =
      { sys.files with holder := Function.update sys.files.holder .lock next })
    (others : ∀ other, other ≠ pid → (sys.process other).inside = false)
    (own : Own files pid process)
    (isLock : ∀ description, next = some description →
      description.file = .lock ∧ ∃ fd, sys.files.descr pid fd = some description)
    (alone : ∀ description, next = some description → ∀ other fd,
      sys.files.descr other fd = some description →
        other = pid ∧ process.processLockFd = some fd ∧ process.inside = true) :
    Single (sys.goOn pid files process) := by
  have holder : files.holder .lock = next := by simp [isNext]
  have same : ∀ other fd, files.descr other fd = sys.files.descr other fd := by
    rw [isNext]
    exact fun _ _ => rfl
  have atPid : (sys.goOn pid files process).process pid = process := Function.update_self ..
  have atOther : ∀ other, other ≠ pid →
      (sys.goOn pid files process).process other = sys.process other :=
    fun other different => Function.update_of_ne different ..
  have insidePid : ∀ other, ((sys.goOn pid files process).process other).inside = true →
      other = pid := by
    intro other inside
    by_contra different
    rw [atOther other different, others other different] at inside
    cases inside
  constructor
  case files =>
    subst isNext
    constructor
    case absent => exact inv.files.absent
    case fresh => exact inv.files.fresh
    case held =>
      intro file description held
      by_cases isLockFile : file = .lock
      · subst isLockFile
        obtain ⟨isFile, fd, refers⟩ := isLock description (holder.symm.trans held)
        exact ⟨isFile, pid, fd, refers⟩
      · refine inv.files.held file description ?_
        rw [← held]
        exact (Function.update_of_ne isLockFile ..).symm
  case absent =>
    intro other outside
    have before : sys.files.procs ≤ other := by
      rw [isNext] at outside
      exact outside
    rw [atOther other (by rintro rfl; exact Nat.not_lt.mpr before started)]
    exact inv.absent other before
  case own =>
    intro other
    by_cases isPid : other = pid
    · subst isPid
      rw [atPid]
      exact own
    · rw [atOther other isPid]
      have before := inv.own other
      constructor
      case early => exact before.early
      case trying =>
        intro fd trying
        obtain ⟨description, refers, isFile, _, onlyOther⟩ := before.trying fd trying
        refine ⟨description, (same other fd).trans refers, isFile, ?_, ?_⟩
        · intro held
          exact isPid (alone description (holder.symm.trans held) other fd refers).1
        · exact fun other' fd' refers' =>
            onlyOther other' fd' ((same other' fd').symm.trans refers')
      case holds =>
        intro inside
        cases (others other isPid).symm.trans inside
      case option => exact before.option
      case leaving => exact before.leaving
      case stdio => exact fun asked start fd standard =>
        (same other fd).symm ▸ before.stdio asked start fd standard
      case high => exact before.high
      case null =>
        intro fd null
        obtain ⟨description, refers, isNull⟩ := before.null fd null
        exact ⟨description, (same other fd).trans refers, isNull⟩
      case dup => exact before.dup
      case unlocking => exact before.unlocking
  case unique =>
    intro left right inLeft inRight
    rw [insidePid left inLeft, insidePid right inRight]
  case owned =>
    intro description held other fd refers
    obtain ⟨rfl, isLockFd, inside⟩ :=
      alone description (holder.symm.trans held) other fd ((same other fd).symm.trans refers)
    rw [atPid]
    exact ⟨isLockFd, Or.inl inside⟩

/-- The lock is taken: it was free, since only this process refers to its description. -/
theorem locked (inv : Single sys) (started : pid < sys.files.procs) {fd : Nat}
    (here : (sys.process pid).pc = .flock fd) {files : OpenFiles File}
    (took : sys.files.tryLock pid fd = some files) :
    Single (sys.goOn pid files
      { sys.process pid with processLockFd := some fd, pc := .atexit }) := by
  have own := inv.own pid
  obtain ⟨description, refers, isLock, notHolder, alone⟩ := own.trying fd (Or.inl here)
  obtain ⟨onlyOwn, isNext⟩ := (OpenFiles.tryLock_eq_some refers).mp took
  rw [isLock] at onlyOwn isNext
  have free : sys.files.holder .lock = none := by
    cases held : sys.files.holder .lock with
    | none => rfl
    | some holder =>
        obtain rfl := onlyOwn holder held
        exact (notHolder held).elim
  refine inv.relocked started isNext (fun other _ => inv.not_inside_of_free free other) ?_ ?_ ?_
  · refine .of_plain rfl ?_ own.option nofun ?_ nofun
    · rintro _ _ ⟨⟩
      refine ⟨description, ?_, ?_⟩
      · rw [isNext]
        exact refers
      · simp [isNext]
    · rintro asked _ ⟨⟩
      exact own.high asked fd (Or.inr here)
  · rintro _ ⟨⟩
    exact ⟨isLock, fd, refers⟩
  · rintro _ ⟨⟩ other fd' refers'
    obtain ⟨rfl, rfl⟩ := alone other fd' refers'
    exact ⟨rfl, rfl, rfl⟩

/-- After the refusal the lock file is closed. -/
theorem closed_refused (inv : Single sys) (started : pid < sys.files.procs) {fd : Nat}
    (here : (sys.process pid).pc = .closeLock fd) :
    Single (sys.goOn pid (sys.files.close pid fd)
      { sys.process pid with processLockFd := none, pc := .handlers (-1) }) := by
  have early : (sys.process pid).pc.early = true := by
    rw [here]
    rfl
  have noLock := inv.lockFd_of_early early
  have frame := inv.files.close started fd
  refine inv.goOn frame started ?_ ?_ nofun ?_
  · intro other fd' different
    rw [OpenFiles.close_descr, if_neg fun isClosed => different isClosed.1]
  · exact .of_plain rfl nofun (inv.own pid).option nofun nofun nofun
  · intro description held fd' refers
    rw [OpenFiles.close_descr] at refers
    split at refers
    · cases refers
    · exact (inv.not_holder noLock (frame.back _ _ held) refers).elim

/-- The lock is given back. -/
theorem unlocked (inv : Single sys) (started : pid < sys.files.procs) {fd : Nat} {status : Int}
    (here : (sys.process pid).pc = .unlock fd status) :
    Single (sys.goOn pid (sys.files.unlock pid fd)
      ((sys.process pid).goto (.closeUnlocked fd status))) := by
  have own := inv.own pid
  have isLock := own.unlocking fd status here
  have inside : (sys.process pid).inside = true := by
    rw [Process.inside, isLock, here]
    rfl
  obtain ⟨description, refers, held⟩ := own.holds inside fd isLock
  have isFile : description.file = .lock := (inv.files.held _ _ held).1
  have unlock : sys.files.unlock pid fd =
      { sys.files with holder := Function.update sys.files.holder .lock none } := by
    unfold OpenFiles.unlock
    rw [refers]
    simp only [isFile, held, if_true]
  refine inv.relocked started unlock ?_ ?_ nofun nofun
  · intro other different
    by_contra otherInside
    rw [Bool.not_eq_false] at otherInside
    exact different (inv.unique other pid otherInside inside)
  · refine .of_plain rfl ?_ own.option nofun ?_ nofun
    · intro now
      simp [Process.inside, Process.goto, Pc.gone] at now
    · exact fun asked fd' isLock' => own.high asked fd' (Or.inl isLock')

/-- After the release the lock file is closed. -/
theorem closed_unlocked (inv : Single sys) (started : pid < sys.files.procs) {fd : Nat}
    {status : Int} (here : (sys.process pid).pc = .closeUnlocked fd status) :
    Single (sys.goOn pid (sys.files.close pid fd)
      { sys.process pid with processLockFd := none, pc := .exiting status }) := by
  have frame := inv.files.close started fd
  refine inv.goOn frame started ?_ ?_ nofun ?_
  · intro other fd' different
    rw [OpenFiles.close_descr, if_neg fun isClosed => different isClosed.1]
  · exact .of_plain rfl nofun (inv.own pid).option nofun nofun nofun
  · intro description held fd' refers
    rw [OpenFiles.close_descr] at refers
    split at refers
    · cases refers
    · obtain ⟨_, inside | parent⟩ := inv.owned description (frame.back _ _ held) pid fd' refers
      · simp [Process.inside, here, Pc.gone] at inside
      · cases here.symm.trans parent

end Single

end LinuxCTemplate.Main
