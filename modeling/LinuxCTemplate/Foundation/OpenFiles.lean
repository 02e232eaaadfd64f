import Mathlib.Logic.Function.Basic

/-!
# Open files and advisory locks

Processes refer to open file descriptions by descriptors.  `open` makes a description of its
own under the lowest free descriptor; a forked child gets the descriptors of its parent,
which refer to the same descriptions.  An advisory lock on a file belongs to a description:
every process may release it by a descriptor of this description, and it is released when
the last of these descriptors is closed.
-/

namespace LinuxCTemplate.Foundation

universe u

/-! ## Tables of descriptors -/

/-- The descriptors of a process.  Behind the end of the list all are closed. -/
abbrev Descriptors (α : Type u) := List (Option α)

namespace Descriptors

variable {α : Type u}

/-- What a descriptor refers to. -/
def lookup (table : Descriptors α) (fd : Nat) : Option α :=
  table[fd]?.join

/-- Let a descriptor refer to something else, or close it. -/
def put : Descriptors α → Nat → Option α → Descriptors α
  | [], 0, entry => [entry]
  | [], fd + 1, entry => none :: put [] fd entry
  | _ :: table, 0, entry => entry :: table
  | first :: table, fd + 1, entry => first :: put table fd entry

/-- The lowest closed descriptor. -/
def lowest : Descriptors α → Nat
  | [] => 0
  | none :: _ => 0
  | some _ :: table => lowest table + 1

@[simp] theorem lookup_nil (fd : Nat) : lookup ([] : Descriptors α) fd = none := rfl

@[simp] theorem lookup_cons_succ (entry : Option α) (table : Descriptors α) (fd : Nat) :
    lookup (entry :: table) (fd + 1) = lookup table fd := rfl

theorem lookup_put (table : Descriptors α) (fd : Nat) (entry : Option α) (other : Nat) :
    lookup (put table fd entry) other = if other = fd then entry else lookup table other := by
  fun_induction put table fd entry generalizing other with
  | case1 entry | case3 first table entry =>
      cases other with
      | zero => rfl
      | succ other => rfl
  | case2 fd entry ih | case4 first table fd entry ih =>
      cases other with
      | zero => rfl
      | succ other => simp [ih]

theorem mem_iff_lookup {table : Descriptors α} {value : α} :
    some value ∈ table ↔ ∃ fd, lookup table fd = some value := by
  rw [List.mem_iff_getElem?]
  unfold lookup
  simp only [Option.join_eq_some_iff]

theorem lookup_lowest (table : Descriptors α) : lookup table (lowest table) = none := by
  fun_induction lowest table with
  | case1 | case2 => rfl
  | case3 first table ih => exact ih

theorem lowest_ge {table : Descriptors α} {bound : Nat}
    (isOpen : ∀ fd < bound, lookup table fd ≠ none) : bound ≤ lowest table := by
  by_contra less
  exact isOpen _ (Nat.lt_of_not_le less) (lookup_lowest table)

end Descriptors

/-! ## Processes and their files -/

/-- An open file description. -/
structure Description (File : Type u) where
  file : File
  id : Nat
  deriving DecidableEq, Repr

/-- The descriptors of all processes, numbered in the sequence of their starts, and for each
file the description that holds its lock. -/
structure OpenFiles (File : Type u) where
  table : Nat → Descriptors (Description File)
  procs : Nat
  holder : File → Option (Description File)
  fresh : Nat

namespace OpenFiles

open Descriptors

variable {File : Type u}

/-- The description that a descriptor of a process refers to. -/
def descr (files : OpenFiles File) (pid fd : Nat) : Option (Description File) :=
  lookup (files.table pid) fd

def setTable (files : OpenFiles File) (pid : Nat) (table : Descriptors (Description File)) :
    OpenFiles File :=
  { files with table := Function.update files.table pid table }

@[simp] theorem setTable_descr_self (files : OpenFiles File) (pid fd : Nat)
    (table : Descriptors (Description File)) :
    (files.setTable pid table).descr pid fd = lookup table fd := by
  simp [descr, setTable]

theorem setTable_descr_of_ne (files : OpenFiles File) {pid other : Nat} (fd : Nat)
    (table : Descriptors (Description File)) (different : other ≠ pid) :
    (files.setTable pid table).descr other fd = files.descr other fd := by
  simp [descr, setTable, different]

variable [DecidableEq File]

/-- A descriptor of some process refers to the description. -/
def isOpen (files : OpenFiles File) (description : Description File) : Bool :=
  (List.range files.procs).any fun pid => (files.table pid).contains (some description)

/-- A description that is not open any more loses its lock. -/
def settle (files : OpenFiles File) : OpenFiles File :=
  { files with holder := fun file => (files.holder file).filter files.isOpen }

/-- `open` -/
def openFile (files : OpenFiles File) (pid : Nat) (file : File) : OpenFiles File × Nat :=
  let fd := lowest (files.table pid)
  ({ files.setTable pid (put (files.table pid) fd (some ⟨file, files.fresh⟩)) with
      fresh := files.fresh + 1 }, fd)

/-- `close` -/
def close (files : OpenFiles File) (pid fd : Nat) : OpenFiles File :=
  (files.setTable pid (put (files.table pid) fd none)).settle

/-- `dup2`, which closes the new descriptor first where it is open. -/
def dup2 (files : OpenFiles File) (pid old new : Nat) : OpenFiles File :=
  match files.descr pid old with
  | none => files
  | some description => (files.setTable pid (put (files.table pid) new (some description))).settle

/-- `flock(fd, LOCK_EX | LOCK_NB)`, which fails where another description holds the lock. -/
def tryLock (files : OpenFiles File) (pid fd : Nat) : Option (OpenFiles File) :=
  match files.descr pid fd with
  | none => none
  | some description =>
      if (files.holder description.file).all (· = description) then
        some { files with
          holder := Function.update files.holder description.file (some description) }
      else
        none

/-- `flock(fd, LOCK_UN)` -/
def unlock (files : OpenFiles File) (pid fd : Nat) : OpenFiles File :=
  match files.descr pid fd with
  | none => files
  | some description =>
      if files.holder description.file = some description then
        { files with holder := Function.update files.holder description.file none }
      else
        files

/-- `fork`: the child is the next process. -/
def fork (files : OpenFiles File) (pid : Nat) : OpenFiles File :=
  { files.setTable files.procs (files.table pid) with procs := files.procs + 1 }

/-- The end of a process, whatever its cause: its descriptors are closed. -/
def exit (files : OpenFiles File) (pid : Nat) : OpenFiles File :=
  (files.setTable pid []).settle

/-- A new process with descriptions of its own. -/
def spawn (files : OpenFiles File) (inherited : Descriptors File) : OpenFiles File :=
  { files.setTable files.procs
      (inherited.mapIdx fun fd file => file.map fun file => ⟨file, files.fresh + fd⟩) with
    procs := files.procs + 1
    fresh := files.fresh + inherited.length }

/-! ## What the operations do -/

variable {files : OpenFiles File} {pid other fd fd' : Nat} {file : File}
  {description : Description File}

/-- Processes that are not started have no descriptors, every description has its own number,
and a lock is held by an open description of its file. -/
structure WellFormed (files : OpenFiles File) : Prop where
  absent : ∀ pid, files.procs ≤ pid → files.table pid = []
  fresh : ∀ pid fd description, files.descr pid fd = some description →
    description.id < files.fresh
  held : ∀ file description, files.holder file = some description →
    description.file = file ∧ ∃ pid fd, files.descr pid fd = some description

omit [DecidableEq File] in
theorem WellFormed.lt_procs (inv : WellFormed files)
    (refers : files.descr pid fd = some description) : pid < files.procs := by
  by_contra absent
  rw [descr, inv.absent pid (Nat.le_of_not_lt absent)] at refers
  cases refers

theorem isOpen_iff : files.isOpen description = true ↔
    ∃ pid < files.procs, ∃ fd, files.descr pid fd = some description := by
  simp only [isOpen, List.any_eq_true, List.mem_range, List.contains_iff_mem, mem_iff_lookup]
  rfl

@[simp] theorem settle_descr : files.settle.descr pid fd = files.descr pid fd := rfl

theorem settle_holder : files.settle.holder file = some description ↔
    files.holder file = some description ∧ files.isOpen description = true := by
  simp [settle, Option.filter_eq_some_iff]

omit [DecidableEq File] in
theorem setTable_descr (table : Descriptors (Description File)) :
    (files.setTable pid table).descr other fd =
      if other = pid then lookup table fd else files.descr other fd := by
  by_cases same : other = pid
  · rw [if_pos same, same, setTable_descr_self]
  · rw [if_neg same, setTable_descr_of_ne _ _ _ same]

omit [DecidableEq File] in
/-- `open` lets the lowest closed descriptor refer to a new description. -/
theorem openFile_descr : (files.openFile pid file).1.descr other fd =
    if other = pid ∧ fd = (files.openFile pid file).2 then some ⟨file, files.fresh⟩
    else files.descr other fd := by
  change (files.setTable pid _).descr other fd = _
  rw [setTable_descr, lookup_put]
  by_cases same : other = pid
  · subst same
    simp [openFile, descr]
  · simp [same]

theorem close_descr : (files.close pid fd).descr other fd' =
    if other = pid ∧ fd' = fd then none else files.descr other fd' := by
  change (files.setTable pid _).descr other fd' = _
  rw [setTable_descr, lookup_put]
  by_cases same : other = pid
  · subst same
    simp [descr]
  · simp [same]

theorem dup2_descr {old new : Nat} (refers : files.descr pid old = some description) :
    (files.dup2 pid old new).descr other fd =
      if other = pid ∧ fd = new then some description else files.descr other fd := by
  unfold dup2
  rw [refers]
  change (files.setTable pid _).descr other fd = _
  rw [setTable_descr, lookup_put]
  by_cases same : other = pid
  · subst same
    simp [descr]
  · simp [same]

omit [DecidableEq File] in
theorem fork_descr : (files.fork pid).descr other fd =
    if other = files.procs then files.descr pid fd else files.descr other fd := by
  change (files.setTable files.procs _).descr other fd = _
  rw [setTable_descr]
  rfl

theorem exit_descr : (files.exit pid).descr other fd =
    if other = pid then none else files.descr other fd := by
  change (files.setTable pid []).descr other fd = _
  rw [setTable_descr]
  rfl

omit [DecidableEq File] in
theorem spawn_descr_new {inherited : Descriptors File} :
    (files.spawn inherited).descr files.procs fd =
      (lookup inherited fd).map fun file => ⟨file, files.fresh + fd⟩ := by
  change (files.setTable files.procs _).descr files.procs fd = _
  rw [setTable_descr_self]
  unfold lookup
  rw [List.getElem?_mapIdx]
  cases inherited[fd]? with
  | none => rfl
  | some file => rfl

omit [DecidableEq File] in
theorem spawn_descr_of_ne {inherited : Descriptors File} (different : other ≠ files.procs) :
    (files.spawn inherited).descr other fd = files.descr other fd := by
  change (files.setTable files.procs _).descr other fd = _
  rw [setTable_descr_of_ne _ _ _ different]

/-- `flock` succeeds where the lock is free or with the description already. -/
theorem tryLock_eq_some {next : OpenFiles File} (refers : files.descr pid fd = some description) :
    files.tryLock pid fd = some next ↔
      (∀ holder, files.holder description.file = some holder → holder = description) ∧
        next = { files with
          holder := Function.update files.holder description.file (some description) } := by
  unfold tryLock
  rw [refers]
  simp only [Option.all_eq_true, decide_eq_true_eq]
  split
  next free =>
    constructor
    · intro same
      exact ⟨free, (Option.some.inj same).symm⟩
    · rintro ⟨_, rfl⟩
      rfl
  next taken =>
    constructor
    · exact nofun
    · exact fun ⟨free, _⟩ => (taken free).elim

/-! ## Steps that lock nothing -/

/-- A step of one process that neither locks nor unlocks a file: the others keep their
descriptors, what is referred to anew is a description of this process or a new one, and a
lock is lost only with the last descriptor. -/
structure Frame (actor : Nat) (files next : OpenFiles File) : Prop where
  procs : files.procs ≤ next.procs
  others : ∀ pid fd, pid ≠ actor → pid < files.procs → next.descr pid fd = files.descr pid fd
  sources : ∀ pid fd description, next.descr pid fd = some description →
    files.descr pid fd = some description ∨
      (∃ fd', files.descr actor fd' = some description) ∨ files.fresh ≤ description.id
  kept : ∀ file description pid fd, files.holder file = some description →
    next.descr pid fd = some description → next.holder file = some description
  back : ∀ file description, next.holder file = some description →
    files.holder file = some description
  inv : WellFormed next

/-- A step that lets the descriptors of a process refer to descriptions it has already. -/
theorem WellFormed.settle (inv : WellFormed files) (inside : pid < files.procs)
    {table : Descriptors (Description File)}
    (had : ∀ fd description, lookup table fd = some description →
      ∃ fd', files.descr pid fd' = some description) :
    Frame pid files (files.setTable pid table).settle := by
  have referred : ∀ other fd description,
      (files.setTable pid table).descr other fd = some description →
      files.descr other fd = some description ∨ ∃ fd', files.descr pid fd' = some description := by
    intro other fd description refers
    rw [setTable_descr] at refers
    split at refers
    · exact Or.inr (had fd description refers)
    · exact Or.inl refers
  have absent : ∀ other, files.procs ≤ other → (files.setTable pid table).table other = [] := by
    intro other outside
    have different : other ≠ pid := by omega
    simp [setTable, different, inv.absent other outside]
  have started : ∀ other fd description,
      (files.setTable pid table).descr other fd = some description → other < files.procs := by
    intro other fd description refers
    by_contra outside
    rw [descr, absent other (Nat.le_of_not_lt outside)] at refers
    cases refers
  constructor
  case procs => exact Nat.le_refl _
  case others =>
    intro other fd different _
    rw [settle_descr, setTable_descr, if_neg different]
  case sources =>
    intro other fd description refers
    rcases referred other fd description refers with same | own
    · exact Or.inl same
    · exact Or.inr (Or.inl own)
  case kept =>
    intro file description other fd held refers
    exact settle_holder.mpr
      ⟨held, isOpen_iff.mpr ⟨other, started other fd description refers, fd, refers⟩⟩
  case back => exact fun file description held => (settle_holder.mp held).1
  case inv =>
    constructor
    case absent => exact absent
    case fresh =>
      intro other fd description refers
      rcases referred other fd description refers with same | ⟨fd', own⟩
      · exact inv.fresh other fd description same
      · exact inv.fresh pid fd' description own
    case held =>
      intro file description held
      obtain ⟨before, isOpen⟩ := settle_holder.mp held
      obtain ⟨other, _, fd, refers⟩ := isOpen_iff.mp isOpen
      exact ⟨(inv.held file description before).1, other, fd, refers⟩

theorem WellFormed.close (inv : WellFormed files) (inside : pid < files.procs) (fd : Nat) :
    Frame pid files (files.close pid fd) := by
  refine inv.settle inside fun fd' description refers => ?_
  rw [lookup_put] at refers
  split at refers
  · cases refers
  · exact ⟨fd', refers⟩

theorem WellFormed.exit (inv : WellFormed files) (inside : pid < files.procs) :
    Frame pid files (files.exit pid) :=
  inv.settle inside fun fd description refers => by cases refers

theorem WellFormed.dup2 (inv : WellFormed files) {old new : Nat}
    (refers : files.descr pid old = some description) :
    Frame pid files (files.dup2 pid old new) := by
  unfold OpenFiles.dup2
  rw [refers]
  refine inv.settle (inv.lt_procs refers) fun fd found isFound => ?_
  rw [lookup_put] at isFound
  split at isFound
  · exact ⟨old, isFound ▸ refers⟩
  · exact ⟨fd, isFound⟩

omit [DecidableEq File] in
/-- A step that only adds references. -/
theorem WellFormed.grow (inv : WellFormed files) {next : OpenFiles File}
    (moreProcs : files.procs ≤ next.procs) (sameHolder : next.holder = files.holder)
    (moreFresh : files.fresh ≤ next.fresh)
    (others : ∀ other fd, other ≠ pid → other < files.procs →
      next.descr other fd = files.descr other fd)
    (same : ∀ other fd description, files.descr other fd = some description →
      next.descr other fd = some description)
    (absent : ∀ other, next.procs ≤ other → next.table other = [])
    (sources : ∀ other fd description, next.descr other fd = some description →
      files.descr other fd = some description ∨
        (∃ fd', files.descr pid fd' = some description) ∨
          files.fresh ≤ description.id ∧ description.id < next.fresh) :
    Frame pid files next where
  procs := moreProcs
  others := others
  sources other fd description refers := by
    rcases sources other fd description refers with before | own | new
    · exact Or.inl before
    · exact Or.inr (Or.inl own)
    · exact Or.inr (Or.inr new.1)
  kept file description _ _ held _ := by rw [sameHolder, held]
  back file description held := by rw [← sameHolder, held]
  inv :=
    { absent
      fresh := by
        intro other fd description refers
        rcases sources other fd description refers with before | ⟨fd', own⟩ | new
        · exact Nat.lt_of_lt_of_le (inv.fresh other fd description before) moreFresh
        · exact Nat.lt_of_lt_of_le (inv.fresh pid fd' description own) moreFresh
        · exact new.2
      held := by
        intro file description held
        rw [sameHolder] at held
        obtain ⟨isFile, other, fd, refers⟩ := inv.held file description held
        exact ⟨isFile, other, fd, same other fd description refers⟩ }

omit [DecidableEq File] in
theorem WellFormed.openFile (inv : WellFormed files) (inside : pid < files.procs) (file : File) :
    Frame pid files (files.openFile pid file).1 := by
  have atLowest : files.descr pid (files.openFile pid file).2 = none := lookup_lowest _
  refine inv.grow (Nat.le_refl _) rfl (Nat.le_succ _) ?_ ?_ ?_ ?_
  · intro other fd different _
    rw [openFile_descr, if_neg fun isNew => different isNew.1]
  · intro other fd description refers
    rw [openFile_descr, if_neg]
    · exact refers
    · rintro ⟨rfl, rfl⟩
      rw [atLowest] at refers
      cases refers
  · intro other outside
    have different : other ≠ pid := by
      rintro rfl
      exact Nat.not_lt.mpr outside inside
    simp only [OpenFiles.openFile, setTable, Function.update_of_ne different]
    exact inv.absent other outside
  · intro other fd description refers
    rw [openFile_descr] at refers
    split at refers
    · obtain rfl := Option.some.inj refers
      exact Or.inr (Or.inr ⟨Nat.le_refl _, Nat.lt_succ_self _⟩)
    · exact Or.inl refers

omit [DecidableEq File] in
theorem WellFormed.fork (inv : WellFormed files) : Frame pid files (files.fork pid) := by
  refine inv.grow (Nat.le_succ _) rfl (Nat.le_refl _) ?_ ?_ ?_ ?_
  · intro other fd _ inside
    rw [fork_descr, if_neg (Nat.ne_of_lt inside)]
  · intro other fd description refers
    rw [fork_descr, if_neg (Nat.ne_of_lt (inv.lt_procs refers)), refers]
  · intro other outside
    have different : other ≠ files.procs := Nat.ne_of_gt outside
    simp only [OpenFiles.fork, setTable, Function.update_of_ne different]
    exact inv.absent other (Nat.le_of_succ_le outside)
  · intro other fd description refers
    rw [fork_descr] at refers
    split at refers
    · exact Or.inr (Or.inl ⟨fd, refers⟩)
    · exact Or.inl refers

omit [DecidableEq File] in
theorem WellFormed.spawn (inv : WellFormed files) (inherited : Descriptors File) :
    Frame files.procs files (files.spawn inherited) := by
  refine inv.grow (Nat.le_succ _) rfl (Nat.le_add_right _ _) ?_ ?_ ?_ ?_
  · intro other fd different _
    exact spawn_descr_of_ne different
  · intro other fd description refers
    rw [spawn_descr_of_ne (Nat.ne_of_lt (inv.lt_procs refers)), refers]
  · intro other outside
    have different : other ≠ files.procs := Nat.ne_of_gt outside
    simp only [OpenFiles.spawn, setTable, Function.update_of_ne different]
    exact inv.absent other (Nat.le_of_succ_le outside)
  · intro other fd description refers
    by_cases same : other = files.procs
    · subst same
      rw [spawn_descr_new] at refers
      obtain ⟨file, found, rfl⟩ := Option.map_eq_some_iff.mp refers
      have inside : fd < inherited.length :=
        (List.getElem?_eq_some_iff.mp (Option.join_eq_some_iff.mp found)).1
      exact Or.inr (Or.inr ⟨Nat.le_add_right _ _, Nat.add_lt_add_left inside _⟩)
    · rw [spawn_descr_of_ne same] at refers
      exact Or.inl refers

end OpenFiles

end LinuxCTemplate.Foundation
