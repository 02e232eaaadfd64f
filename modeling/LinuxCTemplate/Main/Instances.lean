import LinuxCTemplate.Foundation.OpenFiles
import LinuxCTemplate.Foundation.Transition

/-!
# Instances of the program

`main` up to its tests, and its end: the command line, `keep_single`, which lets only one
instance pass by `fio_trylock` of the lock file, the way into the background by `setsid`
and `daemon`, and `exit` with the handler `unlock_process`.

The state has any number of processes.  Every system call is a step of its own, which may
fail for reasons of its own, and a process may die at any point.  `daemon(0, 0)` is the
library's: it forks, the parent ends by `_exit`, which runs no handlers, and the child lets
the descriptors 0, 1 and 2 refer to `/dev/null`.  Each `open` of the lock file opens the
same file.
-/

namespace LinuxCTemplate.Main

open Foundation

/-! ## The command line -/

/-- `stdmsg_level_t` -/
abbrev StdmsgLevel := Nat

def stdmsgLvNone : StdmsgLevel := 0

/-- `STDMSG_LV_DFL`, which is `STDMSG_LV_INFO` -/
def stdmsgLvDfl : StdmsgLevel := 2

def stdmsgLvMax : StdmsgLevel := 5

def stdmsgLvInc (level : StdmsgLevel) : StdmsgLevel :=
  if level < stdmsgLvMax then level + 1 else level

def stdmsgLvDec (level : StdmsgLevel) : StdmsgLevel :=
  if level > stdmsgLvNone then level - 1 else level

def stdmsgLvSet (level : StdmsgLevel) : StdmsgLevel :=
  if level ≥ stdmsgLvMax then stdmsgLvMax else level

/-- What `getopt_long` returns for an option; `other` is any other character, as for an
unknown option. -/
inductive Getopt where
  | background
  | quiet
  | verbose
  | help
  | other
  deriving DecidableEq, Repr

/-- The command line: the options as `getopt_long` returns them, and the number of arguments
that are none. -/
structure CommandLine where
  options : List Getopt
  operands : Nat
  deriving DecidableEq, Repr

/-- The loop of `argparse` with `opt_background` and `stdmsg_lv`. -/
def argparseLoop (optBackground : Bool) (stdmsgLv : StdmsgLevel) :
    List Getopt → Option (Bool × StdmsgLevel)
  | [] => some (optBackground, stdmsgLv)
  | .background :: options => argparseLoop true stdmsgLv options
  | .quiet :: options => argparseLoop optBackground (stdmsgLvDec stdmsgLv) options
  | .verbose :: options => argparseLoop optBackground (stdmsgLvInc stdmsgLv) options
  | .help :: _ | .other :: _ => none

/-- `argparse`: `none` where it returns -1. -/
def argparse (line : CommandLine) : Option (Bool × StdmsgLevel) :=
  match argparseLoop false stdmsgLvDfl line.options with
  | none => none
  | some (optBackground, stdmsgLv) =>
      if 0 < line.operands then none else some (optBackground, stdmsgLv)

/-! ## A process -/

/-- The files of the program, and all others. -/
inductive File where
  | lock
  | devNull
  | other (id : Nat)
  deriving DecidableEq, Repr

/-- Program points of an instance.  `openLock` to `closeLock` belong to `fio_trylock`,
`fork` to `closeNull` to `daemon`, `handlers` to `exiting` to `exit`, and `unlock` and
`closeUnlocked` to `fio_unlock`, called by `unlock_process`. -/
inductive Pc where
  | argparse
  | openLock
  | flock (fd : Nat)
  | closeLock (fd : Nat)
  | atexit
  | setsid
  | fork
  | parent
  | daemonSetsid
  | openNull
  | dupNull (fd new : Nat)
  | closeNull (fd : Nat)
  | initopsExecInit
  | tests
  | handlers (status : Int)
  | unlock (fd : Nat) (status : Int)
  | closeUnlocked (fd : Nat) (status : Int)
  | exiting (status : Int)
  | dead (status : Option Int)
  deriving DecidableEq, Repr

/-- The process has not ended. -/
def Pc.alive : Pc → Bool
  | .dead _ => false
  | _ => true

/-- `processLockFd` is `none` where the source has -1; `registered` says that `atexit` has
taken up `unlock_process`. -/
structure Process where
  pc : Pc
  line : CommandLine
  optBackground : Bool
  stdmsgLv : StdmsgLevel
  processLockFd : Option Nat
  registered : Bool
  deriving DecidableEq, Repr

def Process.goto (process : Process) (pc : Pc) : Process := { process with pc }

/-- A process at the beginning of `main`. -/
def Process.started (line : CommandLine) : Process where
  pc := .argparse
  line
  optBackground := false
  stdmsgLv := stdmsgLvDfl
  processLockFd := none
  registered := false

/-- The processes, numbered in the sequence of their starts, and their files. -/
structure Instances where
  files : OpenFiles File
  process : Nat → Process

/-- What can happen next: a new instance is started with some open files, a process makes a
step, in which a system call may fail, or it dies. -/
inductive InstanceAction where
  | spawn (line : CommandLine) (inherited : Descriptors File)
  | proc (pid : Nat) (ok : Bool)
  | kill (pid : Nat)
  deriving DecidableEq, Repr

namespace Instances

def setProcess (sys : Instances) (pid : Nat) (process : Process) : Instances :=
  { sys with process := Function.update sys.process pid process }

/-- The process goes on with other open files. -/
def goOn (sys : Instances) (pid : Nat) (files : OpenFiles File) (process : Process) : Instances :=
  { sys.setProcess pid process with files }

/-- One step of a process. -/
def procStep (sys : Instances) (pid : Nat) (ok : Bool) : Option Instances :=
  let process := sys.process pid
  match process.pc with
  | .argparse =>
      match Main.argparse process.line with
      | none => some (sys.setProcess pid (process.goto (.handlers (-1))))
      | some (optBackground, stdmsgLv) =>
          some (sys.setProcess pid { process with optBackground, stdmsgLv, pc := .openLock })
  | .openLock =>
      if ok then
        let (files, fd) := sys.files.openFile pid .lock
        some (sys.goOn pid files (process.goto (.flock fd)))
      else
        some (sys.setProcess pid { process with processLockFd := none, pc := .handlers (-1) })
  | .flock fd =>
      match if ok then sys.files.tryLock pid fd else none with
      | none => some (sys.setProcess pid (process.goto (.closeLock fd)))
      | some files =>
          some (sys.goOn pid files { process with processLockFd := some fd, pc := .atexit })
  | .closeLock fd =>
      some (sys.goOn pid (sys.files.close pid fd)
        { process with processLockFd := none, pc := .handlers (-1) })
  | .atexit =>
      some (sys.setProcess pid { process with
        registered := ok
        pc := if process.optBackground then .setsid else .initopsExecInit })
  | .setsid => some (sys.setProcess pid (process.goto (if ok then .fork else .handlers (-1))))
  | .fork =>
      if ok then
        some ((sys.goOn pid (sys.files.fork pid) (process.goto .parent)).setProcess
          sys.files.procs (process.goto .daemonSetsid))
      else
        some (sys.setProcess pid (process.goto (.handlers (-1))))
  | .parent => some (sys.goOn pid (sys.files.exit pid) (process.goto (.dead (some 0))))
  | .daemonSetsid =>
      some (sys.setProcess pid (process.goto (if ok then .openNull else .handlers (-1))))
  | .openNull =>
      if ok then
        let (files, fd) := sys.files.openFile pid .devNull
        some (sys.goOn pid files (process.goto (.dupNull fd 0)))
      else
        some (sys.setProcess pid (process.goto (.handlers (-1))))
  | .dupNull fd new =>
      some (sys.goOn pid (sys.files.dup2 pid fd new)
        (process.goto (if new < 2 then .dupNull fd (new + 1) else .closeNull fd)))
  | .closeNull fd =>
      some (sys.goOn pid (if 2 < fd then sys.files.close pid fd else sys.files)
        { process with stdmsgLv := stdmsgLvSet stdmsgLvNone, pc := .initopsExecInit })
  | .initopsExecInit =>
      some (sys.setProcess pid (process.goto (if ok then .tests else .handlers (-1))))
  | .tests => some (sys.setProcess pid (process.goto (.handlers 0)))
  | .handlers status =>
      match process.registered, process.processLockFd with
      | true, some fd => some (sys.setProcess pid (process.goto (.unlock fd status)))
      | _, _ => some (sys.setProcess pid (process.goto (.exiting status)))
  | .unlock fd status =>
      some (sys.goOn pid (sys.files.unlock pid fd) (process.goto (.closeUnlocked fd status)))
  | .closeUnlocked fd status =>
      some (sys.goOn pid (sys.files.close pid fd)
        { process with processLockFd := none, pc := .exiting status })
  | .exiting status =>
      some (sys.goOn pid (sys.files.exit pid) (process.goto (.dead (some status))))
  | .dead _ => none

/-- One step of the system. -/
def step (sys : Instances) : InstanceAction → Option Instances
  | .spawn line inherited =>
      some (sys.goOn sys.files.procs (sys.files.spawn inherited) (.started line))
  | .proc pid ok => if pid < sys.files.procs then sys.procStep pid ok else none
  | .kill pid =>
      if pid < sys.files.procs ∧ (sys.process pid).pc.alive then
        some (sys.goOn pid (sys.files.exit pid) ((sys.process pid).goto (.dead none)))
      else
        none

/-- Before the first instance is started. -/
def initial : Instances where
  files := { table := fun _ => [], procs := 0, holder := fun _ => none, fresh := 0 }
  process _ := (Process.started ⟨[], 0⟩).goto (.dead none)

def machine : Machine Instances InstanceAction where
  Start sys := sys = initial
  Step sys action next := sys.step action = some next

end Instances

end LinuxCTemplate.Main
