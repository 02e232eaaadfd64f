import LinuxCTemplate.Foundation.Memory
import LinuxCTemplate.Foundation.Ring

/-!
# `struct list_head`

A node is the address of a `struct list_head`: 16 bytes, `next` in the first 8 and
`prev` in the last.  The operations read and write memory in the sequence of the
source.  On nodes that do not overlap a link write changes one link, so the
operations are those of a ring, and they write to no byte outside the nodes they link.
-/

namespace LinuxCTemplate.ListHead

open Foundation

/-- `sizeof(void *)` -/
def pointerSize : Nat := 8

/-- `sizeof(struct list_head)` -/
def size : Nat := 16

def next (mem : Memory) (node : Nat) : Nat := mem.load node pointerSize

def prev (mem : Memory) (node : Nat) : Nat := mem.load (node + 8) pointerSize

def setNext (mem : Memory) (node value : Nat) : Memory := mem.store node pointerSize value

def setPrev (mem : Memory) (node value : Nat) : Memory :=
  mem.store (node + 8) pointerSize value

/-- `LIST_POISON1` -/
def listPoison1 : Nat := 0x00100100

/-- `LIST_POISON2` -/
def listPoison2 : Nat := 0x00200200

def initListHead (ptr : Nat) (mem : Memory) : Memory :=
  let mem := setNext mem ptr ptr
  setPrev mem ptr ptr

set_option linter.style.nameCheck false in
def __listAdd (new prev next : Nat) (mem : Memory) : Memory :=
  let mem := setPrev mem next new
  let mem := setNext mem new next
  let mem := setPrev mem new prev
  setNext mem prev new

def listAdd (new head : Nat) (mem : Memory) : Memory :=
  __listAdd new head (next mem head) mem

set_option linter.style.nameCheck false in
def __listDel (prev next : Nat) (mem : Memory) : Memory :=
  let mem := setPrev mem next prev
  setNext mem prev next

def listDel (entry : Nat) (mem : Memory) : Memory :=
  let mem := __listDel (prev mem entry) (next mem entry) mem
  let mem := setNext mem entry listPoison1
  setPrev mem entry listPoison2

def listEmpty (head : Nat) (mem : Memory) : Bool :=
  next mem head == head

/-- `list_entry`, for a member at an offset. -/
def listEntry (ptr offset : Nat) : Nat := ptr - offset

/-! ## Single links -/

/-- Two nodes are the same or do not overlap. -/
def Separate (left right : Nat) : Prop :=
  left = right ∨ Memory.Apart left size right size

/-- A value that a pointer can hold. -/
def IsPointer (value : Nat) : Prop := value < 256 ^ pointerSize

theorem isPointer_poison : IsPointer listPoison1 ∧ IsPointer listPoison2 := by
  unfold IsPointer listPoison1 listPoison2 pointerSize
  decide

section Links

variable {mem : Memory} {node other value : Nat}

theorem next_setNext (separate : Separate node other) (fits : IsPointer value) :
    next (setNext mem node value) other = Function.update (next mem) node value other := by
  by_cases same : other = node
  · rw [same, Function.update_self]
    exact Memory.load_store_self fits
  · rw [Function.update_of_ne same]
    apply Memory.load_store_of_apart
    simp only [Separate, Memory.Apart, size, pointerSize] at separate ⊢
    omega

theorem prev_setNext (separate : Separate node other) :
    prev (setNext mem node value) other = prev mem other := by
  apply Memory.load_store_of_apart
  simp only [Separate, Memory.Apart, size, pointerSize] at separate ⊢
  omega

theorem next_setPrev (separate : Separate node other) :
    next (setPrev mem node value) other = next mem other := by
  apply Memory.load_store_of_apart
  simp only [Separate, Memory.Apart, size, pointerSize] at separate ⊢
  omega

theorem prev_setPrev (separate : Separate node other) (fits : IsPointer value) :
    prev (setPrev mem node value) other = Function.update (prev mem) node value other := by
  by_cases same : other = node
  · rw [same, Function.update_self]
    exact Memory.load_store_self fits
  · rw [Function.update_of_ne same]
    apply Memory.load_store_of_apart
    simp only [Separate, Memory.Apart, size, pointerSize] at separate ⊢
    omega

variable {byte : Nat}

theorem setNext_of_outside (outside : byte < node ∨ node + size ≤ byte) :
    setNext mem node value byte = mem byte := by
  apply Memory.store_of_outside
  simp only [size, pointerSize] at outside ⊢
  omega

theorem setPrev_of_outside (outside : byte < node ∨ node + size ≤ byte) :
    setPrev mem node value byte = mem byte := by
  apply Memory.store_of_outside
  simp only [size, pointerSize] at outside ⊢
  omega

end Links

/-! ## Lists -/

/-- The nodes are pointers and do not overlap. -/
structure Spaced (nodes : List Nat) : Prop where
  separate : ∀ left ∈ nodes, ∀ right ∈ nodes, Separate left right
  pointer : ∀ node ∈ nodes, IsPointer node

theorem Spaced.subset {nodes fewer : List Nat} (spaced : Spaced nodes) (subset : fewer ⊆ nodes) :
    Spaced fewer where
  separate left inLeft right inRight := spaced.separate left (subset inLeft) right (subset inRight)
  pointer node member := spaced.pointer node (subset member)

/-- A well-formed circular doubly linked list in memory. -/
def IsList (mem : Memory) (head : Nat) (nodes : List Nat) : Prop :=
  Ring (next mem) (prev mem) head nodes

variable {mem mem' : Memory} {head new first : Nat} {nodes rest : List Nat}

/-- A list survives every change of memory outside its nodes. -/
theorem IsList.congr (isList : IsList mem head nodes)
    (same : ∀ node ∈ head :: nodes, ∀ byte, node ≤ byte → byte < node + size →
      mem' byte = mem byte) : IsList mem' head nodes := by
  apply Ring.congr isList
  · intro node member
    apply Memory.load_congr
    intro byte low high
    exact same node member byte low (by simp only [size, pointerSize] at high ⊢; omega)
  · intro node member
    apply Memory.load_congr
    intro byte low high
    exact same node member byte (by omega) (by simp only [size, pointerSize] at high ⊢; omega)

theorem isList_initListHead (pointer : IsPointer head) :
    IsList (initListHead head mem) head [] := by
  have self : Separate head head := Or.inl rfl
  refine ⟨List.nodup_singleton head, ?_, ?_⟩
  · unfold initListHead
    rw [next_setPrev self, next_setNext self pointer, Function.update_self]
  · unfold initListHead
    rw [prev_setPrev self pointer, Function.update_self]

theorem IsList.listEmpty_iff (isList : IsList mem head nodes) :
    listEmpty head mem = true ↔ nodes = [] := by
  rw [listEmpty, beq_iff_eq, Ring.nil_iff isList]

theorem IsList.listAdd (isList : IsList mem head nodes) (fresh : new ∉ head :: nodes)
    (spaced : Spaced (new :: head :: nodes)) :
    IsList (listAdd new head mem) head (new :: nodes) := by
  have nextMem : next mem head ∈ new :: head :: nodes :=
    List.mem_cons_of_mem _ (Ring.next_head_mem isList)
  have headMem : head ∈ new :: head :: nodes := by simp
  have newMem : new ∈ new :: head :: nodes := by simp
  apply Ring.insert isList fresh
  · intro node member
    have away : ∀ written ∈ new :: head :: nodes, Separate written node :=
      fun written inList => spaced.separate written inList node member
    unfold ListHead.listAdd __listAdd
    rw [next_setNext (away head headMem) (spaced.pointer new newMem), Function.update_apply,
      next_setPrev (away new newMem), next_setNext (away new newMem) (spaced.pointer _ nextMem),
      Function.update_apply, next_setPrev (away _ nextMem), Function.update_apply,
      Function.update_apply]
  · intro node member
    have away : ∀ written ∈ new :: head :: nodes, Separate written node :=
      fun written inList => spaced.separate written inList node member
    unfold ListHead.listAdd __listAdd
    rw [prev_setNext (away head headMem), prev_setPrev (away new newMem) (spaced.pointer _ headMem),
      Function.update_apply, prev_setNext (away new newMem),
      prev_setPrev (away _ nextMem) (spaced.pointer new newMem), Function.update_apply,
      Function.update_apply, Function.update_apply]

/-- `list_del` of the first node. -/
theorem IsList.listDel_first (isList : IsList mem head (first :: rest))
    (spaced : Spaced (head :: first :: rest)) : IsList (listDel first mem) head rest := by
  have firstMem : first ∈ head :: first :: rest := by simp
  have prevMem : prev mem first ∈ head :: first :: rest := by
    rw [Ring.prev_first isList]
    exact List.mem_cons_self
  have nextMem : next mem first ∈ head :: first :: rest := by
    rw [Ring.next_first isList]
    cases rest <;> simp
  have kept : ∀ node ∈ head :: rest, node ∈ head :: first :: rest ∧ node ≠ first := by
    obtain ⟨headNotIn, restNodup⟩ := List.nodup_cons.mp isList.nodup
    intro node member
    rcases List.mem_cons.mp member with rfl | inRest
    · exact ⟨List.mem_cons_self, fun same => headNotIn (same ▸ List.mem_cons_self)⟩
    · exact ⟨by simp [inRest], fun same => (List.nodup_cons.mp restNodup).1 (same ▸ inRest)⟩
  apply Ring.remove_first isList
  · intro node member
    obtain ⟨inList, notFirst⟩ := kept node member
    have away : ∀ written ∈ head :: first :: rest, Separate written node :=
      fun written written_mem => spaced.separate written written_mem node inList
    unfold listDel __listDel
    rw [next_setPrev (away first firstMem), next_setNext (away first firstMem) isPointer_poison.1,
      Function.update_of_ne notFirst, next_setNext (away _ prevMem) (spaced.pointer _ nextMem),
      Function.update_apply, next_setPrev (away _ nextMem), Function.update_apply]
  · intro node member
    obtain ⟨inList, notFirst⟩ := kept node member
    have away : ∀ written ∈ head :: first :: rest, Separate written node :=
      fun written written_mem => spaced.separate written written_mem node inList
    unfold listDel __listDel
    rw [prev_setPrev (away first firstMem) isPointer_poison.2, Function.update_of_ne notFirst,
      prev_setNext (away first firstMem), prev_setNext (away _ prevMem),
      prev_setPrev (away _ nextMem) (spaced.pointer _ prevMem)]

/-! ## Bytes that are not written -/

/-- The byte is in none of the nodes. -/
def Outside (byte : Nat) (nodes : List Nat) : Prop :=
  ∀ node ∈ nodes, byte < node ∨ node + size ≤ byte

theorem IsList.listAdd_of_outside (isList : IsList mem head nodes) {byte : Nat}
    (outside : Outside byte (new :: head :: nodes)) :
    ListHead.listAdd new head mem byte = mem byte := by
  have away : ∀ node ∈ head :: nodes, byte < node ∨ node + size ≤ byte :=
    fun node member => outside node (List.mem_cons_of_mem _ member)
  unfold ListHead.listAdd __listAdd
  rw [setNext_of_outside (away head List.mem_cons_self),
    setPrev_of_outside (outside new List.mem_cons_self),
    setNext_of_outside (outside new List.mem_cons_self),
    setPrev_of_outside (away _ (Ring.next_head_mem isList))]

theorem IsList.listDel_first_of_outside (isList : IsList mem head (first :: rest)) {byte : Nat}
    (outside : Outside byte (head :: first :: rest)) : listDel first mem byte = mem byte := by
  have nextMem : next mem first ∈ head :: first :: rest := by
    rw [Ring.next_first isList]
    cases rest <;> simp
  have away := outside first (by simp)
  unfold listDel __listDel
  rw [setPrev_of_outside away, setNext_of_outside away]
  rw [Ring.prev_first isList, setNext_of_outside (outside head List.mem_cons_self),
    setPrev_of_outside (outside _ nextMem)]

end LinuxCTemplate.ListHead
