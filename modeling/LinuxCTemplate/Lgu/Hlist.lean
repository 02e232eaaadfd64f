import LinuxCTemplate.Foundation.Chains
import LinuxCTemplate.Foundation.Transition
import LinuxCTemplate.Lgu.List

/-!
# `struct hlist_head` and `struct hlist_node`

A head is a pointer to the first node.  A node has the pointer `next`, and `pprev`, which is
the address of the pointer to it.  Both `first` and `next` are at the address of their struct,
so `pprev` is the address of the head or of the node before.
-/

namespace LinuxCTemplate.Hlist

open Foundation
open ListHead (pointerSize IsPointer listPoison1 listPoison2)

/-- `h->first` of a head, `n->next` of a node, and `*pprev`. -/
def link (mem : Memory) (place : Nat) : Nat := mem.load place pointerSize

def pprev (mem : Memory) (node : Nat) : Nat := mem.load (node + 8) pointerSize

def setLink (mem : Memory) (place value : Nat) : Memory := mem.store place pointerSize value

def setPprev (mem : Memory) (node value : Nat) : Memory := mem.store (node + 8) pointerSize value

/-! ## Operations -/

def initHlistHead (ptr : Nat) (mem : Memory) : Memory := setLink mem ptr 0

def initHlistNode (ptr : Nat) (mem : Memory) : Memory :=
  let mem := setLink mem ptr 0
  setPprev mem ptr 0

def hlistUnhashed (h : Nat) (mem : Memory) : Bool := pprev mem h == 0

def hlistEmpty (h : Nat) (mem : Memory) : Bool := link mem h == 0

set_option linter.style.nameCheck false in
def __hlistDel (n : Nat) (mem : Memory) : Memory :=
  let next := link mem n
  let before := pprev mem n
  let mem := setLink mem before next
  if next ≠ 0 then setPprev mem next before else mem

def hlistDel (n : Nat) (mem : Memory) : Memory :=
  let mem := __hlistDel n mem
  let mem := setLink mem n listPoison1
  setPprev mem n listPoison2

def hlistDelInit (n : Nat) (mem : Memory) : Memory :=
  if pprev mem n ≠ 0 then initHlistNode n (__hlistDel n mem) else mem

def hlistAddHead (n h : Nat) (mem : Memory) : Memory :=
  let first := link mem h
  let mem := setLink mem n first
  let mem := if first ≠ 0 then setPprev mem first n else mem
  let mem := setLink mem h n
  setPprev mem n h

def hlistAddBefore (n next : Nat) (mem : Memory) : Memory :=
  let mem := setPprev mem n (pprev mem next)
  let mem := setLink mem n next
  let mem := setPprev mem next n
  setLink mem (pprev mem n) n

/-- The new node is `next`. -/
def hlistAddAfter (n next : Nat) (mem : Memory) : Memory :=
  let mem := setLink mem next (link mem n)
  let mem := setLink mem n next
  let mem := setPprev mem next n
  if link mem next ≠ 0 then setPprev mem (link mem next) next else mem

/-- `hlist_for_each`, without the prefetching: the nodes for which its body is run. -/
def hlistForEach (head : Nat) (mem : Memory) (fuel : Nat) : Option (List Nat) :=
  walk (link mem) 0 fuel (link mem head)

/-- `hlist_for_each_safe` from `pos` on. -/
def hlistForEachSafe (body : Nat → Memory → Memory) :
    Nat → Nat → Memory → Option (List Nat × Memory)
  | 0, _, _ => none
  | fuel + 1, pos, mem =>
      if pos = 0 then
        some ([], mem)
      else
        let n := link mem pos
        let mem := body pos mem
        (hlistForEachSafe body fuel n mem).map fun (visited, mem) => (pos :: visited, mem)

/-! ## Known heads and nodes -/

/-- The heads and nodes of a program. -/
structure Known where
  heads : List Nat
  nodes : List Nat

/-- Where the pointers to nodes are. -/
def Known.places (known : Known) : List Nat := known.heads ++ known.nodes

/-- Heads and nodes are pointers, not `NULL`, and do not overlap. -/
structure Known.Spaced (known : Known) : Prop where
  pointer : ∀ place ∈ known.places, place ≠ 0 ∧ IsPointer place
  heads : ∀ left ∈ known.heads, ∀ right ∈ known.heads, left = right ∨ Memory.Apart left 8 right 8
  nodes : ∀ left ∈ known.nodes, ∀ right ∈ known.nodes,
    left = right ∨ Memory.Apart left 16 right 16
  mixed : ∀ head ∈ known.heads, ∀ node ∈ known.nodes, Memory.Apart head 8 node 16

/-- The byte is in no head and in no node. -/
def Known.Outside (known : Known) (byte : Nat) : Prop :=
  (∀ head ∈ known.heads, byte < head ∨ head + 8 ≤ byte) ∧
    ∀ node ∈ known.nodes, byte < node ∨ node + 16 ≤ byte

/-- Nothing but known heads and nodes is written. -/
def WritesOnly (known : Known) (mem mem' : Memory) : Prop :=
  ∀ byte, known.Outside byte → mem' byte = mem byte

section Links

variable {known : Known} {mem : Memory} {place node value : Nat}

theorem Known.mem_places : place ∈ known.places ↔ place ∈ known.heads ∨ place ∈ known.nodes :=
  List.mem_append

theorem Known.mem_places_of_node (isNode : node ∈ known.nodes) : node ∈ known.places :=
  List.mem_append_right _ isNode

theorem Known.mem_places_of_head (isHead : place ∈ known.heads) : place ∈ known.places :=
  List.mem_append_left _ isHead

theorem Known.Spaced.ne_zero (spaced : known.Spaced) (isNode : node ∈ known.nodes) : node ≠ 0 :=
  (spaced.pointer node (Known.mem_places_of_node isNode)).1

namespace Known.Spaced

variable (spaced : known.Spaced)

include spaced

theorem links_apart {other : Nat} (isPlace : place ∈ known.places) (isOther : other ∈ known.places)
    (different : other ≠ place) : Memory.Apart place pointerSize other pointerSize := by
  have heads := spaced.heads
  have nodes := spaced.nodes
  have mixed := spaced.mixed
  unfold Memory.Apart at heads nodes mixed
  unfold Memory.Apart pointerSize
  rcases Known.mem_places.mp isPlace with isHead | isNode <;>
    rcases Known.mem_places.mp isOther with isHead' | isNode'
  · have apart := heads place isHead other isHead'
    omega
  · have apart := mixed place isHead other isNode'
    omega
  · have apart := mixed other isHead' place isNode
    omega
  · have apart := nodes place isNode other isNode'
    omega

theorem link_apart_pprev (isPlace : place ∈ known.places) (isNode : node ∈ known.nodes) :
    Memory.Apart place pointerSize (node + 8) pointerSize := by
  have nodes := spaced.nodes
  have mixed := spaced.mixed
  unfold Memory.Apart at nodes mixed
  unfold Memory.Apart pointerSize
  rcases Known.mem_places.mp isPlace with isHead | isNode'
  · have apart := mixed place isHead node isNode
    omega
  · have apart := nodes place isNode' node isNode
    omega

theorem pprevs_apart {other : Nat} (isNode : node ∈ known.nodes) (isOther : other ∈ known.nodes)
    (different : other ≠ node) : Memory.Apart (node + 8) pointerSize (other + 8) pointerSize := by
  have apart := spaced.nodes node isNode other isOther
  unfold Memory.Apart at apart ⊢
  unfold pointerSize
  omega

end Known.Spaced

/-! ## The pointers -/

/-- The pointers of the known heads and nodes. -/
def links (known : Known) (mem : Memory) (place : Nat) : Nat :=
  if place ∈ known.places then link mem place else 0

/-- `pprev` of the known nodes. -/
def backs (known : Known) (mem : Memory) (node : Nat) : Nat :=
  if node ∈ known.nodes then pprev mem node else 0

theorem isPointer_link (mem : Memory) (place : Nat) : IsPointer (link mem place) :=
  mem.load_lt place pointerSize

theorem links_of_mem (isPlace : place ∈ known.places) : links known mem place = link mem place :=
  if_pos isPlace

theorem backs_of_mem (isNode : node ∈ known.nodes) : backs known mem node = pprev mem node :=
  if_pos isNode

theorem links_setLink (spaced : known.Spaced) (isPlace : place ∈ known.places)
    (fits : IsPointer value) :
    links known (setLink mem place value) = Function.update (links known mem) place value := by
  funext other
  by_cases same : other = place
  · subst same
    rw [Function.update_self, links_of_mem isPlace]
    exact Memory.load_store_self fits
  · rw [Function.update_of_ne same]
    unfold links
    split
    next isOther => exact Memory.load_store_of_apart (spaced.links_apart isPlace isOther same)
    next => rfl

theorem backs_setLink (spaced : known.Spaced) (isPlace : place ∈ known.places) :
    backs known (setLink mem place value) = backs known mem := by
  funext other
  unfold backs
  split
  next isOther => exact Memory.load_store_of_apart (spaced.link_apart_pprev isPlace isOther)
  next => rfl

theorem links_setPprev (spaced : known.Spaced) (isNode : node ∈ known.nodes) :
    links known (setPprev mem node value) = links known mem := by
  funext other
  unfold links
  split
  next isOther =>
    exact Memory.load_store_of_apart (spaced.link_apart_pprev isOther isNode).symm
  next => rfl

theorem backs_setPprev (spaced : known.Spaced) (isNode : node ∈ known.nodes)
    (fits : IsPointer value) :
    backs known (setPprev mem node value) = Function.update (backs known mem) node value := by
  funext other
  by_cases same : other = node
  · subst same
    rw [Function.update_self, backs_of_mem isNode]
    exact Memory.load_store_self fits
  · rw [Function.update_of_ne same]
    unfold backs
    split
    next isOther => exact Memory.load_store_of_apart (spaced.pprevs_apart isNode isOther same)
    next => rfl

theorem writesOnly_setLink (isPlace : place ∈ known.places) :
    WritesOnly known mem (setLink mem place value) := by
  intro byte outside
  apply Memory.store_of_outside
  unfold pointerSize
  rcases Known.mem_places.mp isPlace with isHead | isNode
  · exact outside.1 place isHead
  · have outsideNode := outside.2 place isNode
    omega

theorem writesOnly_setPprev (isNode : node ∈ known.nodes) :
    WritesOnly known mem (setPprev mem node value) := by
  intro byte outside
  apply Memory.store_of_outside
  have outsideNode := outside.2 node isNode
  unfold pointerSize
  omega

theorem WritesOnly.trans {mem' mem'' : Memory} (first : WritesOnly known mem mem')
    (second : WritesOnly known mem' mem'') : WritesOnly known mem mem'' :=
  fun byte outside => (second byte outside).trans (first byte outside)

/-- A node in front of what a pointer points to, if that is a node. -/
theorem writesOnly_setPprev_of_ne {back : Nat} (isNode : node ≠ 0 → node ∈ known.nodes) :
    WritesOnly known mem (if node ≠ 0 then setPprev mem node back else mem) := by
  split
  next notNull => exact writesOnly_setPprev (isNode notNull)
  next => exact fun _ _ => rfl

theorem links_setPprev_of_ne (spaced : known.Spaced) {back : Nat}
    (isNode : node ≠ 0 → node ∈ known.nodes) :
    links known (if node ≠ 0 then setPprev mem node back else mem) = links known mem := by
  split
  next notNull => exact links_setPprev spaced (isNode notNull)
  next => rfl

/-- What is written at `NULL` does not count. -/
theorem backs_setPprev_of_ne (spaced : known.Spaced) {back other : Nat}
    (isNode : node ≠ 0 → node ∈ known.nodes) (fits : IsPointer back) (notNull : other ≠ 0) :
    backs known (if node ≠ 0 then setPprev mem node back else mem) other =
      Function.update (backs known mem) node back other := by
  split
  next => rw [backs_setPprev spaced (isNode ‹_›) fits]
  next isNull =>
    rw [Function.update_of_ne]
    rintro rfl
    exact isNull notNull

end Links

/-! ## What the operations do to the pointers -/

section Effects

variable {known : Known} {mem : Memory} {n h next place : Nat} (spaced : known.Spaced)

include spaced

theorem links_initHlistHead (isHead : h ∈ known.heads) :
    links known (initHlistHead h mem) = Function.update (links known mem) h 0 :=
  links_setLink spaced (Known.mem_places_of_head isHead) (Nat.pow_pos (by decide))

theorem backs_initHlistHead (isHead : h ∈ known.heads) :
    backs known (initHlistHead h mem) = backs known mem :=
  backs_setLink spaced (Known.mem_places_of_head isHead)

theorem links_initHlistNode (isNode : n ∈ known.nodes) :
    links known (initHlistNode n mem) = Function.update (links known mem) n 0 := by
  unfold initHlistNode
  rw [links_setPprev spaced isNode,
    links_setLink spaced (Known.mem_places_of_node isNode) (Nat.pow_pos (by decide))]

theorem backs_initHlistNode (isNode : n ∈ known.nodes) :
    backs known (initHlistNode n mem) = Function.update (backs known mem) n 0 := by
  unfold initHlistNode
  rw [backs_setPprev spaced isNode (Nat.pow_pos (by decide)),
    backs_setLink spaced (Known.mem_places_of_node isNode)]

theorem inserts_hlistAddHead (isNode : n ∈ known.nodes) (isHead : h ∈ known.heads)
    (isNext : link mem h ≠ 0 → link mem h ∈ known.nodes) :
    Inserts 0 h n (links known mem) (backs known mem) (links known (hlistAddHead n h mem))
      (backs known (hlistAddHead n h mem)) := by
  have placeN := Known.mem_places_of_node isNode
  have placeH := Known.mem_places_of_head isHead
  have fitsN := (spaced.pointer n placeN).2
  have fitsH := (spaced.pointer h placeH).2
  constructor
  case isLink =>
    unfold hlistAddHead
    rw [links_setPprev spaced isNode, links_setLink spaced placeH fitsN,
      links_setPprev_of_ne spaced isNext, links_setLink spaced placeN (isPointer_link mem h),
      links_of_mem placeH]
  case isBack =>
    intro node notNull
    unfold hlistAddHead
    rw [backs_setPprev spaced isNode fitsH, backs_setLink spaced placeH, Function.update_apply,
      Function.update_apply, backs_setPprev_of_ne spaced isNext fitsN notNull,
      backs_setLink spaced placeN, links_of_mem placeH]

/-- `pprev` of the new node is not overwritten. -/
theorem pprev_of_hlistAddBefore (isNode : n ∈ known.nodes) (inNext : next ∈ known.nodes)
    (different : n ≠ next) (isPlace : pprev mem next ∈ known.places) :
    pprev (setPprev (setLink (setPprev mem n (pprev mem next)) n next) next n) n =
      pprev mem next := by
  have placeN := Known.mem_places_of_node isNode
  rw [← backs_of_mem isNode, backs_setPprev spaced inNext (spaced.pointer n placeN).2,
    Function.update_of_ne different, backs_setLink spaced placeN,
    backs_setPprev spaced isNode (spaced.pointer _ isPlace).2, Function.update_self]

theorem inserts_hlistAddBefore (isNode : n ∈ known.nodes) (inNext : next ∈ known.nodes)
    (different : n ≠ next) (isPlace : pprev mem next ∈ known.places)
    (points : link mem (pprev mem next) = next) :
    Inserts 0 (pprev mem next) n (links known mem) (backs known mem)
      (links known (hlistAddBefore n next mem)) (backs known (hlistAddBefore n next mem)) := by
  have placeN := Known.mem_places_of_node isNode
  have fitsN := (spaced.pointer n placeN).2
  have fitsNext := (spaced.pointer next (Known.mem_places_of_node inNext)).2
  have fitsPlace := (spaced.pointer _ isPlace).2
  have isBack := pprev_of_hlistAddBefore spaced isNode inNext different isPlace
  constructor
  case isLink =>
    simp only [hlistAddBefore, isBack]
    rw [links_setLink spaced isPlace fitsN, links_setPprev spaced inNext,
      links_setLink spaced placeN fitsNext, links_setPprev spaced isNode, links_of_mem isPlace,
      points]
  case isBack =>
    intro node _
    simp only [hlistAddBefore, isBack]
    rw [backs_setLink spaced isPlace, backs_setPprev spaced inNext fitsN,
      backs_setLink spaced placeN, backs_setPprev spaced isNode fitsPlace, links_of_mem isPlace,
      points, Function.update_comm different]

/-- `next` of the new node is not overwritten. -/
theorem link_of_hlistAddAfter (isNode : n ∈ known.nodes) (inNext : next ∈ known.nodes)
    (different : n ≠ next) :
    link (setPprev (setLink (setLink mem next (link mem n)) n next) next n) next = link mem n := by
  have placeNext := Known.mem_places_of_node inNext
  rw [← links_of_mem placeNext, links_setPprev spaced inNext,
    links_setLink spaced (Known.mem_places_of_node isNode) (spaced.pointer next placeNext).2,
    Function.update_of_ne different.symm,
    links_setLink spaced placeNext (isPointer_link mem n), Function.update_self]

theorem inserts_hlistAddAfter (isNode : n ∈ known.nodes) (inNext : next ∈ known.nodes)
    (different : n ≠ next) (isNext : link mem n ≠ 0 → link mem n ∈ known.nodes)
    (notNext : link mem n ≠ next) :
    Inserts 0 n next (links known mem) (backs known mem) (links known (hlistAddAfter n next mem))
      (backs known (hlistAddAfter n next mem)) := by
  have placeN := Known.mem_places_of_node isNode
  have placeNext := Known.mem_places_of_node inNext
  have fitsN := (spaced.pointer n placeN).2
  have fitsNext := (spaced.pointer next placeNext).2
  have isLink := @link_of_hlistAddAfter _ mem _ _ spaced isNode inNext different
  constructor
  case isLink =>
    simp only [hlistAddAfter, isLink]
    rw [links_setPprev_of_ne spaced isNext, links_setPprev spaced inNext,
      links_setLink spaced placeN fitsNext, links_setLink spaced placeNext (isPointer_link mem n),
      links_of_mem placeN]
  case isBack =>
    intro node notNull
    simp only [hlistAddAfter, isLink]
    rw [backs_setPprev_of_ne spaced isNext fitsNext notNull, backs_setPprev spaced inNext fitsN,
      backs_setLink spaced placeN, backs_setLink spaced placeNext, links_of_mem placeN,
      Function.update_comm notNext.symm]

/-- `__hlist_del`, whatever is done to the node itself afterwards. -/
theorem removes_of_hlistDel (isNode : n ∈ known.nodes) (isPlace : pprev mem n ∈ known.places)
    (isNext : link mem n ≠ 0 → link mem n ∈ known.nodes) {mem' : Memory}
    (sameLink : ∀ other, other ≠ n →
      links known mem' other = links known (__hlistDel n mem) other)
    (sameBack : ∀ other, other ≠ n →
      backs known mem' other = backs known (__hlistDel n mem) other) :
    Removes 0 (backs known mem n) n (links known mem) (backs known mem) (links known mem')
      (backs known mem') := by
  have placeN := Known.mem_places_of_node isNode
  have fitsPlace := (spaced.pointer _ isPlace).2
  rw [backs_of_mem isNode]
  constructor
  case isLink =>
    intro other notEntry
    rw [sameLink other notEntry, __hlistDel, links_setPprev_of_ne spaced isNext,
      links_setLink spaced isPlace (isPointer_link mem n), links_of_mem placeN]
  case isBack =>
    intro node notNull notEntry
    rw [sameBack node notEntry, __hlistDel, backs_setPprev_of_ne spaced isNext fitsPlace notNull,
      backs_setLink spaced isPlace, links_of_mem placeN]

theorem links_hlistDel (isNode : n ∈ known.nodes) {other : Nat} (notEntry : other ≠ n) :
    links known (hlistDel n mem) other = links known (__hlistDel n mem) other := by
  unfold hlistDel
  rw [links_setPprev spaced isNode, links_setLink spaced (Known.mem_places_of_node isNode)
    ListHead.isPointer_poison.1, Function.update_of_ne notEntry]

theorem backs_hlistDel (isNode : n ∈ known.nodes) {other : Nat} (notEntry : other ≠ n) :
    backs known (hlistDel n mem) other = backs known (__hlistDel n mem) other := by
  unfold hlistDel
  rw [backs_setPprev spaced isNode ListHead.isPointer_poison.2, Function.update_of_ne notEntry,
    backs_setLink spaced (Known.mem_places_of_node isNode)]

end Effects

end LinuxCTemplate.Hlist
