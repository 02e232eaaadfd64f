import LinuxCTemplate.Lgu.Hlist

/-!
# Programs of hlist operations

A program has lists behind its heads, and nodes that are initialised and in no list, which
`hlist_unhashed` tells from the others.  Each operation is a step on these.
-/

namespace LinuxCTemplate.Hlist

open Foundation

/-! ## Operations -/

/-- The macros and functions for hlists that write. -/
inductive HlistOp where
  | initHlistHead (ptr : Nat)
  | initHlistNode (ptr : Nat)
  | hlistDel (n : Nat)
  | hlistDelInit (n : Nat)
  | hlistAddHead (n h : Nat)
  | hlistAddBefore (n next : Nat)
  | hlistAddAfter (n next : Nat)
  deriving DecidableEq, Repr

def HlistOp.run : HlistOp → Memory → Memory
  | .initHlistHead ptr => Hlist.initHlistHead ptr
  | .initHlistNode ptr => Hlist.initHlistNode ptr
  | .hlistDel n => Hlist.hlistDel n
  | .hlistDelInit n => Hlist.hlistDelInit n
  | .hlistAddHead n h => Hlist.hlistAddHead n h
  | .hlistAddBefore n next => Hlist.hlistAddBefore n next
  | .hlistAddAfter n next => Hlist.hlistAddAfter n next

/-- The operations of a program, in sequence. -/
def runOps (ops : List HlistOp) (mem : Memory) : Memory :=
  ops.foldl (fun mem op => op.run mem) mem

/-- The operation is called with known heads and nodes, each in its place. -/
def HlistOp.Typed (known : Known) : HlistOp → Prop
  | .initHlistHead ptr => ptr ∈ known.heads
  | .initHlistNode n | .hlistDel n | .hlistDelInit n => n ∈ known.nodes
  | .hlistAddHead n h => n ∈ known.nodes ∧ h ∈ known.heads
  | .hlistAddBefore n next | .hlistAddAfter n next => n ∈ known.nodes ∧ next ∈ known.nodes

instance (known : Known) : DecidablePred (HlistOp.Typed known)
  | .initHlistHead ptr => inferInstanceAs (Decidable (ptr ∈ known.heads))
  | .initHlistNode n | .hlistDel n | .hlistDelInit n =>
      inferInstanceAs (Decidable (n ∈ known.nodes))
  | .hlistAddHead n h => inferInstanceAs (Decidable (n ∈ known.nodes ∧ h ∈ known.heads))
  | .hlistAddBefore n next | .hlistAddAfter n next =>
      inferInstanceAs (Decidable (n ∈ known.nodes ∧ next ∈ known.nodes))

/-- The lists of a program, and the nodes that are initialised and in no list. -/
structure Hlists where
  lists : ListTable Nat
  unhashed : Set Nat

/-- What an operation means, where it has a meaning. -/
inductive HlistStep (state : Hlists) : HlistOp → Hlists → Prop where
  | initHead (ptr : Nat) : HlistStep state (.initHlistHead ptr)
      ⟨Function.update state.lists ptr (some []), state.unhashed⟩
  | initNode {ptr : Nat} : ¬ state.lists.Member ptr →
      HlistStep state (.initHlistNode ptr) ⟨state.lists, insert ptr state.unhashed⟩
  | del {n head : Nat} {nodes : List Nat} : state.lists head = some nodes → n ∈ nodes →
      HlistStep state (.hlistDel n)
        ⟨Function.update state.lists head (some (nodes.erase n)), state.unhashed⟩
  | delInit {n head : Nat} {nodes : List Nat} : state.lists head = some nodes → n ∈ nodes →
      HlistStep state (.hlistDelInit n)
        ⟨Function.update state.lists head (some (nodes.erase n)), insert n state.unhashed⟩
  | delInitUnhashed {n : Nat} : n ∈ state.unhashed → HlistStep state (.hlistDelInit n) state
  | addHead {n h : Nat} {nodes : List Nat} : ¬ state.lists.Member n →
      state.lists h = some nodes → HlistStep state (.hlistAddHead n h)
        ⟨Function.update state.lists h (some (n :: nodes)), state.unhashed \ {n}⟩
  | addBefore {n next head : Nat} {nodes : List Nat} : ¬ state.lists.Member n →
      state.lists head = some nodes → next ∈ nodes → HlistStep state (.hlistAddBefore n next)
        ⟨Function.update state.lists head (some (insertBefore next n nodes)),
          state.unhashed \ {n}⟩
  | addAfter {n next head : Nat} {nodes : List Nat} : ¬ state.lists.Member next →
      state.lists head = some nodes → n ∈ nodes → HlistStep state (.hlistAddAfter n next)
        ⟨Function.update state.lists head (some (insertAfter n next nodes)),
          state.unhashed \ {next}⟩

/-- The calls with a meaning: a node that is in no list is initialised or put in, one that is in
a list is deleted, and `hlist_del_init` may also find one that is unhashed. -/
def HlistOp.Proper (state : Hlists) : HlistOp → Prop
  | .initHlistHead _ => True
  | .initHlistNode ptr => ¬ state.lists.Member ptr
  | .hlistDel n => state.lists.Member n
  | .hlistDelInit n => state.lists.Member n ∨ n ∈ state.unhashed
  | .hlistAddHead n h => ¬ state.lists.Member n ∧ state.lists h ≠ none
  | .hlistAddBefore n next => ¬ state.lists.Member n ∧ state.lists.Member next
  | .hlistAddAfter n next => state.lists.Member n ∧ ¬ state.lists.Member next

/-- Programs that call the operations with known heads and nodes, where they have a meaning. -/
def hlistMachine (known : Known) : Machine Hlists HlistOp where
  Start state := state = ⟨fun _ => none, ∅⟩
  Step state op state' := op.Typed known ∧ HlistStep state op state'

/-! ## Lists in memory -/

/-- The lists are in memory, and their heads and nodes are known. -/
structure Holds (known : Known) (mem : Memory) (state : Hlists) : Prop where
  chains : Chains (links known mem) (backs known mem) 0 state.lists state.unhashed
  heads : ∀ head nodes, state.lists head = some nodes → head ∈ known.heads ∧ nodes ⊆ known.nodes
  unhashed : ∀ node ∈ state.unhashed, node ∈ known.nodes

/-- Memory has become what the state says, and only known heads and nodes have been written. -/
def Does (known : Known) (mem mem' : Memory) (state : Hlists) : Prop :=
  Holds known mem' state ∧ WritesOnly known mem mem'

theorem Known.Spaced.not_both {known : Known} (spaced : known.Spaced) {place : Nat}
    (isHead : place ∈ known.heads) : place ∉ known.nodes := by
  intro isNode
  have apart := spaced.mixed place isHead place isNode
  unfold Memory.Apart at apart
  omega

section Steps

variable {known : Known} {mem mem' : Memory} {state : Hlists} {head n next : Nat}
  {nodes nodes' : List Nat} {unhashed : Set Nat}

theorem Holds.mem_places (holds : Holds known mem state) (isHead : state.lists head = some nodes)
    {place : Nat} (member : place ∈ head :: nodes) : place ∈ known.places := by
  obtain ⟨headKnown, nodesKnown⟩ := holds.heads head nodes isHead
  rcases List.mem_cons.mp member with rfl | inNodes
  · exact Known.mem_places_of_head headKnown
  · exact Known.mem_places_of_node (nodesKnown inNodes)

/-- A known node of a list is one of those behind its head. -/
theorem Holds.exists_nodes (holds : Holds known mem state) (spaced : known.Spaced)
    (isNode : n ∈ known.nodes) (member : state.lists.Member n) :
    ∃ head nodes, state.lists head = some nodes ∧ n ∈ nodes := by
  obtain ⟨head, nodes, isHead, inList⟩ := member
  refine ⟨head, nodes, isHead, (List.mem_cons.mp inList).resolve_left ?_⟩
  rintro rfl
  exact spaced.not_both (holds.heads n nodes isHead).1 isNode

theorem Holds.next_known (holds : Holds known mem state) (isHead : state.lists head = some nodes)
    {place : Nat} (member : place ∈ head :: nodes) :
    link mem place ≠ 0 → link mem place ∈ known.nodes := by
  rw [← links_of_mem (holds.mem_places isHead member)]
  intro notNull
  exact (holds.heads head nodes isHead).2 (holds.chains.link_mem isHead member notNull)

/-- The place of a node of a list. -/
theorem Holds.place_known (holds : Holds known mem state) (isHead : state.lists head = some nodes)
    (member : n ∈ nodes) : backs known mem n = pprev mem n ∧ pprev mem n ∈ known.places ∧
      link mem (pprev mem n) = n := by
  have isNode := (holds.heads head nodes isHead).2 member
  obtain ⟨points, inList⟩ := holds.chains.link_back isHead member
  have isPlace := holds.mem_places isHead inList
  rw [backs_of_mem isNode] at points isPlace ⊢
  rw [links_of_mem isPlace] at points
  exact ⟨rfl, isPlace, points⟩

/-- Another list behind one head, whose nodes are known. -/
theorem Holds.setList (holds : Holds known mem state) (isHead : state.lists head = some nodes)
    (chains : Chains (links known mem') (backs known mem') 0
      (Function.update state.lists head (some nodes')) unhashed)
    (isKnown : ∀ node ∈ nodes', node ∈ nodes ∨ node ∈ known.nodes)
    (unhashedKnown : ∀ node ∈ unhashed, node ∈ known.nodes) :
    Holds known mem' ⟨Function.update state.lists head (some nodes'), unhashed⟩ where
  chains := chains
  heads other others isOther := by
    rcases ListTable.eq_some_of_update isOther with ⟨rfl, rfl⟩ | ⟨_, isOther⟩
    · obtain ⟨headKnown, nodesKnown⟩ := holds.heads other nodes isHead
      exact ⟨headKnown, fun node member => (isKnown node member).elim (@nodesKnown node) id⟩
    · exact holds.heads other others isOther
  unhashed := unhashedKnown

variable (holds : Holds known mem state) (spaced : known.Spaced)

include holds spaced

theorem Holds.does_initHlistHead (isHead : head ∈ known.heads) :
    Does known mem (initHlistHead head mem)
      ⟨Function.update state.lists head (some []), state.unhashed⟩ := by
  have isPlace := Known.mem_places_of_head isHead
  have notNode := spaced.not_both isHead
  have fresh : ¬ ListTable.Member (Function.update state.lists head none) head := by
    rintro ⟨other, others, isOther, inOther⟩
    obtain ⟨different, isOther⟩ := ListTable.eq_some_of_drop isOther
    rcases List.mem_cons.mp inOther with same | inOthers
    · exact different same.symm
    · exact notNode ((holds.heads other others isOther).2 inOthers)
  have created := (holds.chains.drop head).create fresh
    (fun isUnhashed => notNode (holds.unhashed head isUnhashed)) (spaced.pointer head isPlace).1
    (links_initHlistHead spaced isHead) (backs_initHlistHead spaced isHead)
  rw [Function.update_idem] at created
  refine ⟨⟨created, fun other others isOther => ?_, holds.unhashed⟩, writesOnly_setLink isPlace⟩
  rcases ListTable.eq_some_of_update isOther with ⟨rfl, rfl⟩ | ⟨_, isOther⟩
  · exact ⟨isHead, List.nil_subset _⟩
  · exact holds.heads other others isOther

theorem Holds.does_initHlistNode (isNode : n ∈ known.nodes) (fresh : ¬ state.lists.Member n) :
    Does known mem (initHlistNode n mem) ⟨state.lists, insert n state.unhashed⟩ := by
  have freed := holds.chains.free fresh (spaced.ne_zero isNode) (links_initHlistNode spaced isNode)
    (backs_initHlistNode spaced isNode)
  refine ⟨⟨freed, holds.heads, ?_⟩, ?_⟩
  · rintro node (rfl | isUnhashed)
    · exact isNode
    · exact holds.unhashed node isUnhashed
  · exact (writesOnly_setLink (Known.mem_places_of_node isNode)).trans (writesOnly_setPprev isNode)

section Removals

variable (isHead : state.lists head = some nodes) (member : n ∈ nodes)

include isHead member

omit spaced in
theorem Holds.writesOnly_del : WritesOnly known mem (__hlistDel n mem) := by
  obtain ⟨_, isPlace, _⟩ := holds.place_known isHead member
  have isNext := holds.next_known isHead (List.mem_cons_of_mem head member)
  unfold __hlistDel
  exact (writesOnly_setLink isPlace).trans (writesOnly_setPprev_of_ne isNext)

/-- Memory in which only the node itself may be other than after `__hlist_del`. -/
theorem Holds.removed
    (sameLink : ∀ other, other ≠ n →
      links known mem' other = links known (__hlistDel n mem) other)
    (sameBack : ∀ other, other ≠ n →
      backs known mem' other = backs known (__hlistDel n mem) other)
    (freed : ∀ node ∈ unhashed, node ∈ state.unhashed ∨ node = n ∧ backs known mem' node = 0) :
    Holds known mem' ⟨Function.update state.lists head (some (nodes.erase n)), unhashed⟩ := by
  have isNode := (holds.heads head nodes isHead).2 member
  obtain ⟨_, isPlace, _⟩ := holds.place_known isHead member
  have isNext := holds.next_known isHead (List.mem_cons_of_mem head member)
  refine holds.setList isHead (holds.chains.remove isHead member
    (removes_of_hlistDel spaced isNode isPlace isNext sameLink sameBack) freed) ?_ ?_
  · exact fun node inErased => Or.inl (List.mem_of_mem_erase inErased)
  · intro node isUnhashed
    rcases freed node isUnhashed with before | ⟨rfl, _⟩
    · exact holds.unhashed node before
    · exact isNode

theorem Holds.does_hlistDel : Does known mem (hlistDel n mem)
    ⟨Function.update state.lists head (some (nodes.erase n)), state.unhashed⟩ := by
  have isNode := (holds.heads head nodes isHead).2 member
  constructor
  · exact holds.removed spaced isHead member (fun _ => links_hlistDel spaced isNode)
      (fun _ => backs_hlistDel spaced isNode) fun _ => Or.inl
  · exact ((holds.writesOnly_del isHead member).trans
      (writesOnly_setLink (Known.mem_places_of_node isNode))).trans (writesOnly_setPprev isNode)

theorem Holds.does_hlistDelInit : Does known mem (hlistDelInit n mem)
    ⟨Function.update state.lists head (some (nodes.erase n)), insert n state.unhashed⟩ := by
  have isNode := (holds.heads head nodes isHead).2 member
  obtain ⟨_, isPlace, _⟩ := holds.place_known isHead member
  have notNull := (spaced.pointer _ isPlace).1
  rw [hlistDelInit, if_pos notNull]
  constructor
  · refine holds.removed spaced isHead member ?_ ?_ ?_
    · intro other notEntry
      rw [links_initHlistNode spaced isNode, Function.update_of_ne notEntry]
    · intro other notEntry
      rw [backs_initHlistNode spaced isNode, Function.update_of_ne notEntry]
    · rintro node (rfl | isUnhashed)
      · refine Or.inr ⟨rfl, ?_⟩
        rw [backs_initHlistNode spaced isNode, Function.update_self]
      · exact Or.inl isUnhashed
  · exact (holds.writesOnly_del isHead member).trans
      ((writesOnly_setLink (Known.mem_places_of_node isNode)).trans (writesOnly_setPprev isNode))

end Removals

omit spaced in
/-- `hlist_del_init` does nothing to a node that is unhashed. -/
theorem Holds.hlistDelInit_unhashed (isUnhashed : n ∈ state.unhashed) :
    hlistDelInit n mem = mem := by
  have isFree := (holds.chains.loose n isUnhashed).2.1
  rw [backs_of_mem (holds.unhashed n isUnhashed)] at isFree
  rw [hlistDelInit, if_neg (not_not.mpr isFree)]

section Insertions

variable (isHead : state.lists head = some nodes)

include isHead

omit spaced in
/-- The lists with a known node put in. -/
theorem Holds.inserted (isNode : n ∈ known.nodes)
    (chains : Chains (links known mem') (backs known mem') 0
      (Function.update state.lists head (some nodes')) (state.unhashed \ {n}))
    (isKnown : ∀ node ∈ nodes', node = n ∨ node ∈ nodes) :
    Holds known mem' ⟨Function.update state.lists head (some nodes'), state.unhashed \ {n}⟩ := by
  refine holds.setList isHead chains ?_ fun node isUnhashed => holds.unhashed node isUnhashed.1
  intro node member
  rcases isKnown node member with rfl | before
  · exact Or.inr isNode
  · exact Or.inl before

theorem Holds.does_hlistAddHead (isNode : n ∈ known.nodes) (fresh : ¬ state.lists.Member n) :
    Does known mem (hlistAddHead n head mem)
      ⟨Function.update state.lists head (some (n :: nodes)), state.unhashed \ {n}⟩ := by
  have headKnown := (holds.heads head nodes isHead).1
  have isNext := holds.next_known isHead List.mem_cons_self
  constructor
  · refine holds.inserted isHead isNode (holds.chains.insert_first isHead fresh
      (spaced.ne_zero isNode) (inserts_hlistAddHead spaced isNode headKnown isNext)) ?_
    exact fun node member => List.mem_cons.mp member
  · exact (((writesOnly_setLink (Known.mem_places_of_node isNode)).trans
      (writesOnly_setPprev_of_ne isNext)).trans
        (writesOnly_setLink (Known.mem_places_of_head headKnown))).trans
          (writesOnly_setPprev isNode)

theorem Holds.does_hlistAddBefore (member : next ∈ nodes) (isNode : n ∈ known.nodes)
    (fresh : ¬ state.lists.Member n) : Does known mem (hlistAddBefore n next mem)
      ⟨Function.update state.lists head (some (insertBefore next n nodes)),
        state.unhashed \ {n}⟩ := by
  have inNext := (holds.heads head nodes isHead).2 member
  obtain ⟨isBack, isPlace, points⟩ := holds.place_known isHead member
  have different : n ≠ next := by
    rintro rfl
    exact fresh ⟨head, nodes, isHead, List.mem_cons_of_mem head member⟩
  have inserts := inserts_hlistAddBefore spaced isNode inNext different isPlace points
  constructor
  · rw [← isBack] at inserts
    exact holds.inserted isHead isNode (holds.chains.insert_before isHead member fresh
      (spaced.ne_zero isNode) inserts) fun _ => mem_insertBefore
  · have isBack' : pprev (setPprev (setLink (setPprev mem n (pprev mem next)) n next) next n) n =
        pprev mem next := pprev_of_hlistAddBefore spaced isNode inNext different isPlace
    simp only [hlistAddBefore, isBack']
    exact (((writesOnly_setPprev isNode).trans
      (writesOnly_setLink (Known.mem_places_of_node isNode))).trans
        (writesOnly_setPprev inNext)).trans (writesOnly_setLink isPlace)

theorem Holds.does_hlistAddAfter (member : n ∈ nodes) (inNext : next ∈ known.nodes)
    (fresh : ¬ state.lists.Member next) : Does known mem (hlistAddAfter n next mem)
      ⟨Function.update state.lists head (some (insertAfter n next nodes)),
        state.unhashed \ {next}⟩ := by
  have isNode := (holds.heads head nodes isHead).2 member
  have inList := List.mem_cons_of_mem head member
  have isNext := holds.next_known isHead inList
  have different : n ≠ next := by
    rintro rfl
    exact fresh ⟨head, nodes, isHead, inList⟩
  have notNext : link mem n ≠ next := by
    rw [← links_of_mem (holds.mem_places isHead inList)]
    intro isNew
    have inNodes := holds.chains.link_mem isHead inList (isNew ▸ spaced.ne_zero inNext)
    exact fresh ⟨head, nodes, isHead, List.mem_cons_of_mem head (isNew ▸ inNodes)⟩
  have inserts := inserts_hlistAddAfter spaced isNode inNext different isNext notNext
  constructor
  · exact holds.inserted isHead inNext (holds.chains.insert_after isHead member fresh
      (spaced.ne_zero inNext) inserts) fun _ => mem_insertAfter
  · have isLink := @link_of_hlistAddAfter _ mem _ _ spaced isNode inNext different
    simp only [hlistAddAfter, isLink]
    exact (((writesOnly_setLink (Known.mem_places_of_node inNext)).trans
      (writesOnly_setLink (Known.mem_places_of_node isNode))).trans
        (writesOnly_setPprev inNext)).trans (writesOnly_setPprev_of_ne isNext)

end Insertions

theorem Holds.step {op : HlistOp} {state' : Hlists} (typed : op.Typed known)
    (step : HlistStep state op state') : Does known mem (op.run mem) state' := by
  unfold HlistOp.run
  cases step with
  | initHead ptr => exact holds.does_initHlistHead spaced typed
  | initNode fresh => exact holds.does_initHlistNode spaced typed fresh
  | del isHead member => exact holds.does_hlistDel spaced isHead member
  | delInit isHead member => exact holds.does_hlistDelInit spaced isHead member
  | delInitUnhashed isUnhashed =>
      dsimp only
      rw [holds.hlistDelInit_unhashed isUnhashed]
      exact ⟨holds, fun _ _ => rfl⟩
  | addHead fresh isHead => exact holds.does_hlistAddHead spaced isHead typed.1 fresh
  | addBefore fresh isHead member =>
      exact holds.does_hlistAddBefore spaced isHead member typed.1 fresh
  | addAfter fresh isHead member =>
      exact holds.does_hlistAddAfter spaced isHead member typed.2 fresh

/-- Each proper call has a meaning. -/
theorem Holds.exists_hlistStep {op : HlistOp} (typed : op.Typed known) (proper : op.Proper state) :
    ∃ state', HlistStep state op state' := by
  cases op with
  | initHlistHead ptr => exact ⟨_, .initHead ptr⟩
  | initHlistNode ptr => exact ⟨_, .initNode proper⟩
  | hlistDel n =>
      obtain ⟨head, nodes, isHead, member⟩ := holds.exists_nodes spaced typed proper
      exact ⟨_, .del isHead member⟩
  | hlistDelInit n =>
      rcases proper with isMember | isUnhashed
      · obtain ⟨head, nodes, isHead, member⟩ := holds.exists_nodes spaced typed isMember
        exact ⟨_, .delInit isHead member⟩
      · exact ⟨_, .delInitUnhashed isUnhashed⟩
  | hlistAddHead n h =>
      obtain ⟨nodes, isHead⟩ := Option.ne_none_iff_exists'.mp proper.2
      exact ⟨_, .addHead proper.1 isHead⟩
  | hlistAddBefore n next =>
      obtain ⟨head, nodes, isHead, member⟩ := holds.exists_nodes spaced typed.2 proper.2
      exact ⟨_, .addBefore proper.1 isHead member⟩
  | hlistAddAfter n next =>
      obtain ⟨head, nodes, isHead, member⟩ := holds.exists_nodes spaced typed.1 proper.1
      exact ⟨_, .addAfter proper.2 isHead member⟩

end Steps

/-! ## Programs -/

/-- Reading a list in memory gives what it is: whether it is empty, and its nodes, none of them
unhashed. -/
structure ReadsAs (mem : Memory) (head : Nat) (nodes : List Nat) : Prop where
  empty : hlistEmpty head mem = true ↔ nodes = []
  forEach : ∀ fuel, nodes.length < fuel → hlistForEach head mem fuel = some nodes
  hashed : ∀ node ∈ nodes, hlistUnhashed node mem = false

/-- The chain of a list, in terms of the memory. -/
theorem Holds.chain {known : Known} {mem : Memory} {state : Hlists}
    (holds : Holds known mem state) {head : Nat} {nodes : List Nat}
    (isHead : state.lists head = some nodes) :
    Chain (link mem) (backs known mem) 0 (head :: nodes) :=
  (holds.chains.chain head nodes isHead).congr
    (fun _ member => (links_of_mem (holds.mem_places isHead member)).symm) fun _ _ => rfl

theorem Holds.readsAs {known : Known} {mem : Memory} {state : Hlists}
    (holds : Holds known mem state) (spaced : known.Spaced) {head : Nat} {nodes : List Nat}
    (isHead : state.lists head = some nodes) : ReadsAs mem head nodes := by
  have chain := holds.chain isHead
  constructor
  case empty =>
    have first := @Chain.link_eq _ _ _ _ _ [] _ chain
    rw [hlistEmpty, beq_iff_eq, first]
    cases nodes with
    | nil => simp
    | cons node nodes => simpa using chain.ne_null (by simp)
  case forEach => exact fun _ => chain.walk_eq
  case hashed =>
    intro node member
    obtain ⟨_, isPlace, _⟩ := holds.place_known isHead member
    rw [hlistUnhashed, beq_eq_false_iff_ne]
    exact (spaced.pointer _ isPlace).1

theorem does_runOps {known : Known} (spaced : known.Spaced) {history : List (Hlists × HlistOp)}
    {state : Hlists} (run : (hlistMachine known).Run history state) (mem : Memory) :
    Does known mem (runOps (history.map Prod.snd) mem) state := by
  induction run with
  | start initial =>
      rw [initial]
      refine ⟨⟨⟨by simp, ?_, by simp⟩, by simp, by simp⟩, fun _ _ => rfl⟩
      intro left right leftNodes rightNodes _ isLeft
      cases isLeft
  | @step history state next op run taken ih =>
      obtain ⟨holds, writes⟩ := ih
      obtain ⟨holds', writesMore⟩ := holds.step spaced taken.1 taken.2
      rw [List.map_append, runOps, List.foldl_append]
      exact ⟨holds', writes.trans writesMore⟩

/-- In any memory to start with, after a program of hlist operations every list reads as what
the operations mean, `hlist_unhashed` tells the nodes that are initialised and in no list, no
byte outside the heads and nodes has been written, and every proper call may come next. -/
theorem programs_read_as_hlists {known : Known} (spaced : known.Spaced)
    {history : List (Hlists × HlistOp)} {state : Hlists}
    (run : (hlistMachine known).Run history state) (mem : Memory) :
    (∀ head nodes, state.lists head = some nodes →
      ReadsAs (runOps (history.map Prod.snd) mem) head nodes) ∧
    (∀ node ∈ state.unhashed, hlistUnhashed node (runOps (history.map Prod.snd) mem) = true) ∧
    WritesOnly known mem (runOps (history.map Prod.snd) mem) ∧
    ∀ op : HlistOp, op.Typed known → op.Proper state →
      ∃ state', (hlistMachine known).Step state op state' := by
  obtain ⟨holds, writes⟩ := does_runOps spaced run mem
  refine ⟨fun _ _ => holds.readsAs spaced, fun node isUnhashed => ?_, writes,
    fun op typed proper => ?_⟩
  · have isFree := (holds.chains.loose node isUnhashed).2.1
    rw [backs_of_mem (holds.unhashed node isUnhashed)] at isFree
    rw [hlistUnhashed, isFree, beq_self_eq_true]
  · obtain ⟨state', step⟩ := holds.exists_hlistStep spaced typed proper
    exact ⟨state', typed, step⟩

/-- A hash table of two buckets, and three nodes. -/
def twoBuckets : Known where
  heads := [4096, 4104]
  nodes := [8192, 12288, 16384]

theorem spaced_twoBuckets : twoBuckets.Spaced where
  pointer := by
    unfold ListHead.IsPointer
    decide
  heads := by
    unfold Memory.Apart
    decide
  nodes := by
    unfold Memory.Apart
    decide
  mixed := by
    unfold Memory.Apart
    decide

/-- A bucket is filled from all sides, one node is taken out twice, and one goes to the other
bucket. -/
def rehash : List HlistOp :=
  [.initHlistHead 4096, .initHlistHead 4104, .initHlistNode 8192, .hlistAddHead 8192 4096,
    .hlistAddBefore 12288 8192, .hlistAddAfter 8192 16384, .hlistDelInit 8192, .hlistDelInit 8192,
    .hlistDel 12288, .hlistAddHead 12288 4104]

/-- A node is in no list, if the two buckets do not have it. -/
theorem fresh_of_run {history : List (Hlists × HlistOp)} {state : Hlists}
    (run : (hlistMachine twoBuckets).Run history state) {new : Nat}
    (notIn : ∀ head ∈ twoBuckets.heads, ∀ nodes ∈ state.lists head, new ∉ head :: nodes) :
    ¬ state.lists.Member new := by
  have holds := (does_runOps spaced_twoBuckets run fun _ => 0).1
  rintro ⟨head, nodes, isHead, inList⟩
  exact notIn head (holds.heads head nodes isHead).1 nodes isHead inList

theorem programs_read_as_hlists_rehash :
    ReadsAs (runOps rehash fun _ => 0) 4096 [16384] ∧
      ReadsAs (runOps rehash fun _ => 0) 4104 [12288] ∧
      hlistUnhashed 8192 (runOps rehash fun _ => 0) = true := by
  have start : (hlistMachine twoBuckets).Run [] ⟨fun _ => none, ∅⟩ := .start rfl
  have first := start.step ⟨by decide, .initHead 4096⟩
  have second := first.step ⟨by decide, .initHead 4104⟩
  have third := second.step ⟨by decide, @HlistStep.initNode _ 8192
    (fresh_of_run second (by decide))⟩
  have fourth := third.step ⟨by decide, @HlistStep.addHead _ 8192 4096 []
    (fresh_of_run third (by decide)) rfl⟩
  have fifth := fourth.step ⟨by decide, @HlistStep.addBefore _ 12288 8192 4096 [8192]
    (fresh_of_run fourth (by decide)) rfl (by decide)⟩
  have sixth := fifth.step ⟨by decide, @HlistStep.addAfter _ 8192 16384 4096 [12288, 8192]
    (fresh_of_run fifth (by decide)) rfl (by decide)⟩
  have seventh := sixth.step ⟨by decide, @HlistStep.delInit _ 8192 4096 [12288, 8192, 16384] rfl
    (by decide)⟩
  have eighth := seventh.step ⟨by decide, .delInitUnhashed (Set.mem_insert 8192 _)⟩
  have ninth := eighth.step ⟨by decide, @HlistStep.del _ 12288 4096 [12288, 16384] rfl
    (by decide)⟩
  have tenth := ninth.step ⟨by decide, @HlistStep.addHead _ 12288 4104 []
    (fresh_of_run ninth (by decide)) rfl⟩
  obtain ⟨reads, unhashed, _⟩ := programs_read_as_hlists spaced_twoBuckets tenth fun _ => 0
  exact ⟨reads 4096 [16384] rfl, reads 4104 [12288] rfl,
    unhashed 8192 ⟨Set.mem_insert 8192 _, by decide⟩⟩

end LinuxCTemplate.Hlist
