import Mathlib.Data.List.Basic
import Mathlib.Data.List.Nodup

/-!
# The init/exit hook table

The linker collects one pointer per `DEFINE_INITOPS` into a section; the program
walks that section once per order.  A section is a list of entries and a pointer
into it is a section index.  A run is recorded as the list of callback calls it
makes, and `outcome` supplies what the init callback of the entry at an index
returns.  One start-up calls each init at most once, so a function of the index
covers every outcome, whatever state the callbacks share.
-/

namespace LinuxCTemplate

/-! The enumerators of `initops_order_t`.  An object of the type may hold other
values, so an order is any natural number. -/

def initopsOrderFirst : Nat := 0
def initopsOrderXxx : Nat := 1
def initopsOrderLast : Nat := 2
def initopsOrderMax : Nat := 3

/-- `INITOPS_ORDER_ANY` -/
def initopsOrderAny : Nat := initopsOrderLast

/-- `struct initops`.  A callback is a function pointer, `none` for `NULL`. -/
structure Initops (Fn Priv : Type) where
  name : String
  order : Nat
  init : Option Fn
  exit : Option Fn
  priv : Priv
  deriving DecidableEq, Repr

namespace Initops

/-- One callback call: the function called, its argument, and the section index
of the entry it was taken from. -/
inductive Call (Fn Priv : Type) where
  | init (entry : Nat) (fn : Fn) (priv : Priv)
  | exit (entry : Nat) (fn : Fn) (priv : Priv)
  deriving DecidableEq, Repr

variable {Fn Priv : Type}

/-- What `init` of the entry at a section index returns. -/
abbrev Outcome := Nat → Int

/-! ## Tear-down -/

/-- The body shared by the two walks that call exits:
`if (initops->order == order && initops->exit) initops->exit(initops->priv)`. -/
def exitEntry (order : Nat) (iter : Nat) (initops : Initops Fn Priv) :
    List (Call Fn Priv) :=
  if initops.order = order then
    match initops.exit with
    | some fn => [.exit iter fn initops.priv]
    | none => []
  else
    []

/-- `for (; iter < &__stop_section_initops; iter++)` of
`initops_exec_exit_by_order`; the list is what is left of the section. -/
def exitScan (order : Nat) : Nat → List (Initops Fn Priv) → List (Call Fn Priv)
  | _, [] => []
  | iter, initops :: rest =>
      exitEntry order iter initops ++ exitScan order (iter + 1) rest

/-- `initops_exec_exit_by_order`.  The C function has no return statement and its
callers ignore the value. -/
def initopsExecExitByOrder (table : List (Initops Fn Priv)) (order : Nat) :
    List (Call Fn Priv) :=
  exitScan order 0 table

/-- `for (; order >= INITOPS_ORDER_FIRST; order--)`: the loop variable is an
`int`, so the last round is that of order `0`. -/
def exitOrdersFrom (table : List (Initops Fn Priv)) : Nat → List (Call Fn Priv)
  | 0 => initopsExecExitByOrder table initopsOrderFirst
  | order + 1 => initopsExecExitByOrder table (order + 1) ++ exitOrdersFrom table order

/-- `initops_exec_exit` -/
def initopsExecExit (table : List (Initops Fn Priv)) : List (Call Fn Priv) :=
  exitOrdersFrom table initopsOrderMax

/-! ## Start-up -/

/-- The forward walk of `initops_exec_init_by_order`.  The second component is
the value of `iter` at `goto fallback`, or `none` when the walk completes. -/
def initScan (outcome : Outcome) (order : Nat) :
    Nat → List (Initops Fn Priv) → List (Call Fn Priv) × Option Nat
  | _, [] => ([], none)
  | iter, initops :: rest =>
      if initops.order = order then
        match initops.init with
        | some fn =>
            if outcome iter < 0 then
              ([.init iter fn initops.priv], some iter)
            else
              let (calls, failed) := initScan outcome order (iter + 1) rest
              (.init iter fn initops.priv :: calls, failed)
        | none => initScan outcome order (iter + 1) rest
      else
        initScan outcome order (iter + 1) rest

/-- `for (; iter > &__start_section_initops; iter--)` of the fallback: the walk
starts at `iter` itself and stops before it visits the first section entry. -/
def fallbackWalk (table : List (Initops Fn Priv)) (order : Nat) :
    Nat → List (Call Fn Priv)
  | 0 => []
  | iter + 1 =>
      (match table[iter + 1]? with
        | some initops => exitEntry order (iter + 1) initops
        | none => []) ++ fallbackWalk table order iter

/-- `initops_exec_init_by_order` -/
def initopsExecInitByOrder (table : List (Initops Fn Priv)) (outcome : Outcome)
    (order : Nat) : List (Call Fn Priv) × Int :=
  match initScan outcome order 0 table with
  | (calls, none) => (calls, 0)
  | (calls, some iter) =>
      if iter = 0 then
        (calls, -1)
      else
        (calls ++ fallbackWalk table order iter, -1)

/-- `for (order = INITOPS_ORDER_FIRST; order <= INITOPS_ORDER_MAX; order++)` with
`rounds` orders to go.  The second component is the order at `goto fallback`. -/
def initOrdersFrom (table : List (Initops Fn Priv)) (outcome : Outcome) :
    (rounds : Nat) → Nat → List (Call Fn Priv) × Option Nat
  | 0, _ => ([], none)
  | rounds + 1, order =>
      let (calls, ret) := initopsExecInitByOrder table outcome order
      if ret ≠ 0 then
        (calls, some order)
      else
        let (later, failed) := initOrdersFrom table outcome rounds (order + 1)
        (calls ++ later, failed)

/-- `for (; order > INITOPS_ORDER_FIRST; order--)` of the fallback of
`initops_exec_init`. -/
def fallbackOrdersFrom (table : List (Initops Fn Priv)) : Nat → List (Call Fn Priv)
  | 0 => []
  | order + 1 => initopsExecExitByOrder table (order + 1) ++ fallbackOrdersFrom table order

/-- `initops_exec_init`.  At the fallback `order -= 1` comes first; from order `0`
the C variable becomes `-1` and the loop does not run, as from `0` here. -/
def initopsExecInit (table : List (Initops Fn Priv)) (outcome : Outcome) :
    List (Call Fn Priv) × Int :=
  match initOrdersFrom table outcome (initopsOrderMax + 1) initopsOrderFirst with
  | (calls, none) => (calls, 0)
  | (calls, some order) => (calls ++ fallbackOrdersFrom table (order - 1), -1)

/-! ## Reading a list of calls -/

/-- Section indices of the entries whose init was called, in call order. -/
def initEntries (calls : List (Call Fn Priv)) : List Nat :=
  calls.filterMap fun
    | .init entry _ _ => some entry
    | .exit _ _ _ => none

/-- Section indices of the entries whose exit was called, in call order. -/
def exitEntries (calls : List (Call Fn Priv)) : List Nat :=
  calls.filterMap fun
    | .init _ _ _ => none
    | .exit entry _ _ => some entry

@[simp] theorem exitEntries_nil : exitEntries ([] : List (Call Fn Priv)) = [] := rfl

@[simp] theorem initEntries_append (left right : List (Call Fn Priv)) :
    initEntries (left ++ right) = initEntries left ++ initEntries right := by
  simp [initEntries]

@[simp] theorem exitEntries_append (left right : List (Call Fn Priv)) :
    exitEntries (left ++ right) = exitEntries left ++ exitEntries right := by
  simp [exitEntries]

@[simp] theorem initEntries_init (entry : Nat) (fn : Fn) (priv : Priv)
    (calls : List (Call Fn Priv)) :
    initEntries (.init entry fn priv :: calls) = entry :: initEntries calls := rfl

@[simp] theorem exitEntries_init (entry : Nat) (fn : Fn) (priv : Priv)
    (calls : List (Call Fn Priv)) :
    exitEntries (.init entry fn priv :: calls) = exitEntries calls := rfl

end Initops

end LinuxCTemplate
