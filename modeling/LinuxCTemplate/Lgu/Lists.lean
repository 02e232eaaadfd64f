import LinuxCTemplate.Foundation.Rings
import LinuxCTemplate.Foundation.Transition
import LinuxCTemplate.Lgu.List

/-!
# Programs of list operations

The operations of `list.h` on the lists of a program, all in one memory.  For a program a
list is a head with the nodes behind it; what each operation means is said on these lists,
and the links in memory follow.
-/

namespace LinuxCTemplate.ListHead

open Foundation

/-! ## The other operations -/

def listAddTail (new head : Nat) (mem : Memory) : Memory :=
  __listAdd new (prev mem head) head mem

def listDelInit (entry : Nat) (mem : Memory) : Memory :=
  let mem := __listDel (prev mem entry) (next mem entry) mem
  initListHead entry mem

def listMove (list head : Nat) (mem : Memory) : Memory :=
  let mem := __listDel (prev mem list) (next mem list) mem
  listAdd list head mem

def listMoveTail (list head : Nat) (mem : Memory) : Memory :=
  let mem := __listDel (prev mem list) (next mem list) mem
  listAddTail list head mem

def listIsLast (list head : Nat) (mem : Memory) : Bool :=
  next mem list == head

set_option linter.style.nameCheck false in
def __listSplice (list head : Nat) (mem : Memory) : Memory :=
  let first := next mem list
  let last := prev mem list
  let at_ := next mem head
  let mem := setPrev mem first head
  let mem := setNext mem head first
  let mem := setNext mem last at_
  setPrev mem at_ last

def listSplice (list head : Nat) (mem : Memory) : Memory :=
  if !listEmpty list mem then __listSplice list head mem else mem

def listSpliceInit (list head : Nat) (mem : Memory) : Memory :=
  if !listEmpty list mem then initListHead list (__listSplice list head mem) else mem

/-- `list_for_each`: the nodes for which its body is run. -/
def listForEach (head : Nat) (mem : Memory) (fuel : Nat) : Option (List Nat) :=
  walk (next mem) head fuel (next mem head)

/-- `list_for_each_prev` -/
def listForEachPrev (head : Nat) (mem : Memory) (fuel : Nat) : Option (List Nat) :=
  walk (prev mem) head fuel (prev mem head)

/-- `list_for_each_safe` from `pos` on, with `n` the next node. -/
def listForEachSafe (head : Nat) (body : Nat → Memory → Memory) :
    Nat → Nat → Nat → Memory → Option (List Nat × Memory)
  | 0, _, _, _ => none
  | fuel + 1, pos, n, mem =>
      if pos = head then
        some ([], mem)
      else
        let mem := body pos mem
        (listForEachSafe head body fuel n (next mem n) mem).map fun (visited, mem) =>
          (pos :: visited, mem)

/-! ## What they write -/

section Writes

variable {known : List Nat} {mem : Memory} {node : Nat}

theorem next_add_between (spaced : Spaced known) {new before after : Nat} (inNew : new ∈ known)
    (inBefore : before ∈ known) (inAfter : after ∈ known) (isKnown : node ∈ known) :
    next (__listAdd new before after mem) node =
      Function.update (Function.update (next mem) new after) before new node := by
  have away : ∀ written ∈ known, Separate written node :=
    fun written member => spaced.separate written member node isKnown
  unfold __listAdd
  rw [next_setNext (away before inBefore) (spaced.pointer new inNew), Function.update_apply,
    next_setPrev (away new inNew), next_setNext (away new inNew) (spaced.pointer after inAfter),
    Function.update_apply, next_setPrev (away after inAfter), Function.update_apply,
    Function.update_apply]

theorem prev_add_between (spaced : Spaced known) {new before after : Nat} (inNew : new ∈ known)
    (inBefore : before ∈ known) (inAfter : after ∈ known) (isKnown : node ∈ known) :
    prev (__listAdd new before after mem) node =
      Function.update (Function.update (prev mem) after new) new before node := by
  have away : ∀ written ∈ known, Separate written node :=
    fun written member => spaced.separate written member node isKnown
  unfold __listAdd
  rw [prev_setNext (away before inBefore),
    prev_setPrev (away new inNew) (spaced.pointer before inBefore), Function.update_apply,
    prev_setNext (away new inNew), prev_setPrev (away after inAfter) (spaced.pointer new inNew),
    Function.update_apply, Function.update_apply, Function.update_apply]

theorem next_del_between (spaced : Spaced known) {before after : Nat} (inBefore : before ∈ known)
    (inAfter : after ∈ known) (isKnown : node ∈ known) :
    next (__listDel before after mem) node = Function.update (next mem) before after node := by
  have away : ∀ written ∈ known, Separate written node :=
    fun written member => spaced.separate written member node isKnown
  unfold __listDel
  rw [next_setNext (away before inBefore) (spaced.pointer after inAfter), Function.update_apply,
    next_setPrev (away after inAfter), Function.update_apply]

theorem prev_del_between (spaced : Spaced known) {before after : Nat} (inBefore : before ∈ known)
    (inAfter : after ∈ known) (isKnown : node ∈ known) :
    prev (__listDel before after mem) node = Function.update (prev mem) after before node := by
  have away : ∀ written ∈ known, Separate written node :=
    fun written member => spaced.separate written member node isKnown
  unfold __listDel
  rw [prev_setNext (away before inBefore),
    prev_setPrev (away after inAfter) (spaced.pointer before inBefore)]

theorem next_initListHead (spaced : Spaced known) {ptr : Nat} (inPtr : ptr ∈ known)
    (isKnown : node ∈ known) :
    next (initListHead ptr mem) node = Function.update (next mem) ptr ptr node := by
  have away := spaced.separate ptr inPtr node isKnown
  unfold initListHead
  rw [next_setPrev away, next_setNext away (spaced.pointer ptr inPtr)]

theorem prev_initListHead (spaced : Spaced known) {ptr : Nat} (inPtr : ptr ∈ known)
    (isKnown : node ∈ known) :
    prev (initListHead ptr mem) node = Function.update (prev mem) ptr ptr node := by
  have away := spaced.separate ptr inPtr node isKnown
  unfold initListHead
  rw [prev_setPrev away (spaced.pointer ptr inPtr), Function.update_apply, prev_setNext away,
    Function.update_apply]

/-- Of a node that is deleted only its own links are different from `__list_del`. -/
theorem links_listDel (spaced : Spaced known) {entry : Nat} (inEntry : entry ∈ known)
    (isKnown : node ∈ known) (notEntry : node ≠ entry) :
    next (listDel entry mem) node = next (__listDel (prev mem entry) (next mem entry) mem) node ∧
      prev (listDel entry mem) node =
        prev (__listDel (prev mem entry) (next mem entry) mem) node := by
  have away := spaced.separate entry inEntry node isKnown
  unfold listDel
  rw [next_setPrev away, next_setNext away isPointer_poison.1, Function.update_of_ne notEntry,
    prev_setPrev away isPointer_poison.2, Function.update_of_ne notEntry, prev_setNext away]
  exact ⟨rfl, rfl⟩

theorem next_splice_between (spaced : Spaced known) {list head : Nat} (inHead : head ∈ known)
    (inFirst : next mem list ∈ known) (inLast : prev mem list ∈ known)
    (inAt : next mem head ∈ known) (isKnown : node ∈ known) :
    next (__listSplice list head mem) node =
      Function.update (Function.update (next mem) head (next mem list)) (prev mem list)
        (next mem head) node := by
  have away : ∀ written ∈ known, Separate written node :=
    fun written member => spaced.separate written member node isKnown
  unfold __listSplice
  rw [next_setPrev (away _ inAt), next_setNext (away _ inLast) (spaced.pointer _ inAt),
    Function.update_apply, next_setNext (away head inHead) (spaced.pointer _ inFirst),
    Function.update_apply, next_setPrev (away _ inFirst), Function.update_apply,
    Function.update_apply]

theorem prev_splice_between (spaced : Spaced known) {list head : Nat} (inHead : head ∈ known)
    (inFirst : next mem list ∈ known) (inLast : prev mem list ∈ known)
    (inAt : next mem head ∈ known) (isKnown : node ∈ known) :
    prev (__listSplice list head mem) node =
      Function.update (Function.update (prev mem) (next mem list) head) (next mem head)
        (prev mem list) node := by
  have away : ∀ written ∈ known, Separate written node :=
    fun written member => spaced.separate written member node isKnown
  unfold __listSplice
  rw [prev_setPrev (away _ inAt) (spaced.pointer _ inLast), Function.update_apply,
    prev_setNext (away _ inLast), prev_setNext (away head inHead),
    prev_setPrev (away _ inFirst) (spaced.pointer head inHead), Function.update_apply,
    Function.update_apply, Function.update_apply]

end Writes

end LinuxCTemplate.ListHead
