import LinuxCTemplate.Lgu.Lists

/-!
# What list operations mean

The operations of `list.h` as steps on a table of lists, each list given by its head and the
nodes behind it.  Every call that keeps to what the header asks for is one of these steps.
-/

namespace LinuxCTemplate.ListHead

open Foundation

/-! ## Operations -/

/-- `INIT_LIST_HEAD` and the functions of `list.h` that write. -/
inductive ListOp where
  | initListHead (ptr : Nat)
  | listAdd (new head : Nat)
  | listAddTail (new head : Nat)
  | listDel (entry : Nat)
  | listDelInit (entry : Nat)
  | listMove (list head : Nat)
  | listMoveTail (list head : Nat)
  | listSplice (list head : Nat)
  | listSpliceInit (list head : Nat)
  deriving DecidableEq, Repr

def ListOp.run : ListOp → Memory → Memory
  | .initListHead ptr => ListHead.initListHead ptr
  | .listAdd new head => ListHead.listAdd new head
  | .listAddTail new head => ListHead.listAddTail new head
  | .listDel entry => ListHead.listDel entry
  | .listDelInit entry => ListHead.listDelInit entry
  | .listMove list head => ListHead.listMove list head
  | .listMoveTail list head => ListHead.listMoveTail list head
  | .listSplice list head => ListHead.listSplice list head
  | .listSpliceInit list head => ListHead.listSpliceInit list head

/-- The operations of a program, in sequence. -/
def runOps (ops : List ListOp) (mem : Memory) : Memory :=
  ops.foldl (fun mem op => op.run mem) mem

/-- The nodes an operation is called with. -/
def ListOp.args : ListOp → List Nat
  | .initListHead node | .listDel node | .listDelInit node => [node]
  | .listAdd left right | .listAddTail left right | .listMove left right
  | .listMoveTail left right | .listSplice left right | .listSpliceInit left right => [left, right]

/-- An entry leaves its list, or a list that is all there is behind its head is given up. -/
inductive TakenOut (lists : ListTable Nat) (entry : Nat) : ListTable Nat → Prop where
  | inside {head : Nat} {nodes : List Nat} : lists head = some nodes → entry ∈ nodes →
      TakenOut lists entry (Function.update lists head (some (nodes.erase entry)))
  | alone : lists entry = some [] → TakenOut lists entry (Function.update lists entry none)

/-- What an operation means, where it has a meaning: a node goes after or before any node of a
list that is not its own, and what was behind it, if it was a head, is in no list any more; a
node of a list is deleted or moved; a list is put behind any node of another.  The head of a
list that was joined to another has no list any more, unless it is initialised again.  Any
node of a list may count as its head. -/
inductive ListStep : ListTable Nat → ListOp → ListTable Nat → Prop where
  | init {lists : ListTable Nat} {ptr : Nat} :
      ¬ ListTable.Member (Function.update lists ptr none) ptr →
      ListStep lists (.initListHead ptr) (Function.update lists ptr (some []))
  | add {lists : ListTable Nat} {new pos head : Nat} {nodes : List Nat} :
      ¬ ListTable.Member (Function.update lists new none) new →
      Function.update lists new none head = some nodes → pos ∈ head :: nodes →
      ListStep lists (.listAdd new pos) (Function.update (Function.update lists new none) head
        (some (putAfter pos new head nodes)))
  | addTail {lists : ListTable Nat} {new pos head : Nat} {nodes : List Nat} :
      ¬ ListTable.Member (Function.update lists new none) new →
      Function.update lists new none head = some nodes → pos ∈ head :: nodes →
      ListStep lists (.listAddTail new pos) (Function.update (Function.update lists new none) head
        (some (putBefore pos new head nodes)))
  | del {lists out : ListTable Nat} {entry : Nat} : TakenOut lists entry out →
      ListStep lists (.listDel entry) out
  | delInit {lists out : ListTable Nat} {entry : Nat} : TakenOut lists entry out →
      ListStep lists (.listDelInit entry) (Function.update out entry (some []))
  | move {lists out : ListTable Nat} {entry pos target : Nat} {others : List Nat} :
      TakenOut lists entry out → out target = some others → pos ∈ target :: others →
      ListStep lists (.listMove entry pos)
        (Function.update out target (some (putAfter pos entry target others)))
  | moveTail {lists out : ListTable Nat} {entry pos target : Nat} {others : List Nat} :
      TakenOut lists entry out → out target = some others → pos ∈ target :: others →
      ListStep lists (.listMoveTail entry pos)
        (Function.update out target (some (putBefore pos entry target others)))
  | spliceEmpty {lists : ListTable Nat} {list head : Nat} : lists list = some [] →
      ListStep lists (.listSplice list head) lists
  | splice {lists : ListTable Nat} {list head first : Nat} {rest nodes : List Nat} : list ≠ head →
      lists list = some (first :: rest) → lists head = some nodes →
      ListStep lists (.listSplice list head)
        (Function.update (Function.update lists list none) head (some (first :: rest ++ nodes)))
  | spliceInitEmpty {lists : ListTable Nat} {list head : Nat} : lists list = some [] →
      ListStep lists (.listSpliceInit list head) lists
  | spliceInit {lists : ListTable Nat} {list head first : Nat} {rest nodes : List Nat} :
      list ≠ head → lists list = some (first :: rest) → lists head = some nodes →
      ListStep lists (.listSpliceInit list head)
        (Function.update (Function.update (Function.update lists list none) head
          (some (first :: rest ++ nodes))) list (some []))
  | turnBefore {lists turned lists' : ListTable Nat} {op : ListOp} : lists.Turns turned →
      ListStep turned op lists' → ListStep lists op lists'
  | turnAfter {lists done lists' : ListTable Nat} {op : ListOp} : ListStep lists op done →
      done.Turns lists' → ListStep lists op lists'

/-- The calls with a meaning: a node is added next to a node of a list that is not its own; a
node of a list is deleted, or moved next to another; a list is joined to another one, or has
nothing behind its head. -/
def ListOp.Proper (lists : ListTable Nat) : ListOp → Prop
  | .initListHead _ => True
  | .listAdd new pos | .listAddTail new pos => lists.Member pos ∧ ¬ lists.Together new pos
  | .listDel entry | .listDelInit entry => lists.Member entry
  | .listMove entry pos | .listMoveTail entry pos =>
      lists.Member entry ∧ lists.Member pos ∧ entry ≠ pos
  | .listSplice list pos | .listSpliceInit list pos =>
      lists list = some [] ∨
        lists.Member list ∧ lists.Member pos ∧ ¬ lists.Together list pos

/-- Programs that call the operations with known nodes only, where they have a meaning. -/
def listMachine (known : List Nat) : Machine (ListTable Nat) ListOp where
  Start lists := lists = fun _ => none
  Step lists op lists' := op.args ⊆ known ∧ ListStep lists op lists'

section Meaning

variable {lists turned : ListTable Nat} {op : ListOp}

theorem ListStep.before {lists' : ListTable Nat}
    (isTurned : Relation.ReflGen ListTable.Turns lists turned)
    (step : ListStep turned op lists') : ListStep lists op lists' := by
  cases isTurned with
  | refl => exact step
  | single turns => exact .turnBefore turns step

/-- A node of a list can be taken out. -/
theorem exists_takenOut {entry : Nat} (member : lists.Member entry) :
    ∃ turned out, Relation.ReflGen ListTable.Turns lists turned ∧ TakenOut turned entry out := by
  obtain ⟨head, nodes, isHead, inList⟩ := member
  rcases List.mem_cons.mp inList with rfl | inNodes
  · -- The head leaves its list to the others.
    cases nodes with
    | nil => exact ⟨lists, _, .refl, .alone isHead⟩
    | cons first rest =>
        have inFront : lists entry = some ([] ++ first :: rest) := isHead
        exact ⟨_, _, .single (.turn inFront), .inside (Function.update_self ..) (by simp)⟩
  · exact ⟨lists, _, .refl, .inside isHead inNodes⟩

/-- Who was in a list still is, but for the node taken out. -/
theorem TakenOut.member_of_ne {out : ListTable Nat} {entry pos : Nat}
    (taken : TakenOut lists entry out) (member : lists.Member pos) (different : pos ≠ entry) :
    out.Member pos := by
  obtain ⟨other, others, isOther, inOther⟩ := member
  cases taken with
  | @inside head nodes isHead inNodes =>
      by_cases sameHead : other = head
      · subst sameHead
        obtain rfl := Option.some.inj (isHead.symm.trans isOther)
        refine ⟨other, _, Function.update_self .., ?_⟩
        simpa [List.mem_erase_of_ne different] using inOther
      · exact ⟨other, others, by rw [Function.update_of_ne sameHead, isOther], inOther⟩
  | alone isAlone =>
      have notEntry : other ≠ entry := by
        rintro rfl
        obtain rfl := Option.some.inj (isAlone.symm.trans isOther)
        exact different (List.mem_singleton.mp inOther)
      exact ⟨other, others, by rw [Function.update_of_ne notEntry, isOther], inOther⟩

theorem member_of_turned {node : Nat} (isTurned : Relation.ReflGen ListTable.Turns lists turned)
    (apart : lists.Apart) (member : lists.Member node) : turned.Member node := by
  obtain ⟨head, nodes, isHead, inList⟩ := member
  obtain ⟨other, others, isOther, inOther, _⟩ :=
    (ListTable.together_of_turned isTurned apart).mpr ⟨head, nodes, isHead, inList, inList⟩
  exact ⟨other, others, isOther, inOther⟩

theorem exists_added (apart : lists.Apart) {new pos : Nat} (member : lists.Member pos)
    (notTogether : ¬ lists.Together new pos) :
    ∃ turned head nodes, Relation.ReflGen ListTable.Turns lists turned ∧
      ¬ ListTable.Member (Function.update turned new none) new ∧
      Function.update turned new none head = some nodes ∧ pos ∈ head :: nodes := by
  obtain ⟨turned, isTurned, fresh⟩ := apart.exists_fresh new
  obtain ⟨head, nodes, isHead, inList⟩ := member_of_turned isTurned apart member
  have notNew : head ≠ new := by
    rintro rfl
    exact notTogether ((ListTable.together_of_turned isTurned apart).mp
      ⟨head, nodes, isHead, List.mem_cons_self, inList⟩)
  exact ⟨turned, head, nodes, isTurned, fresh, by rw [Function.update_of_ne notNew, isHead], inList⟩

theorem exists_moved (apart : lists.Apart) {entry pos : Nat} (member : lists.Member entry)
    (inList : lists.Member pos) (different : entry ≠ pos) :
    ∃ turned out target others, Relation.ReflGen ListTable.Turns lists turned ∧
      TakenOut turned entry out ∧ out target = some others ∧ pos ∈ target :: others := by
  obtain ⟨turned, out, isTurned, taken⟩ := exists_takenOut member
  obtain ⟨target, others, isTarget, inTarget⟩ :=
    taken.member_of_ne (member_of_turned isTurned apart inList) different.symm
  exact ⟨turned, out, target, others, isTurned, taken, isTarget, inTarget⟩

theorem exists_joined {list pos : Nat} (member : lists.Member list) (inList : lists.Member pos)
    (apart : lists.Apart) (notTogether : ¬ lists.Together list pos) :
    ∃ turned both nodes others, Relation.ReflGen ListTable.Turns lists turned ∧
      Relation.ReflGen ListTable.Turns turned both ∧ both list = some nodes ∧
      both pos = some others ∧ list ≠ pos := by
  obtain ⟨turned, nodes, isTurned, isList, _⟩ := ListTable.exists_turned member
  obtain ⟨both, others, isBoth, isPos, same⟩ :=
    ListTable.exists_turned (member_of_turned isTurned apart inList)
  have stillNot := mt (ListTable.together_of_turned isTurned apart).mp notTogether
  refine ⟨turned, both, nodes, others, isTurned, isBoth, ?_, isPos, ?_⟩
  · rw [same list stillNot, isList]
  · rintro rfl
    obtain ⟨head, _, isHead, inRing⟩ := member
    exact notTogether ⟨head, _, isHead, inRing, inRing⟩

/-- Each of these calls has a meaning, if no node is in two lists. -/
theorem exists_listStep (apart : lists.Apart) (proper : op.Proper lists) :
    ∃ lists', ListStep lists op lists' := by
  cases op with
  | initListHead ptr =>
      obtain ⟨turned, isTurned, fresh⟩ := apart.exists_fresh ptr
      exact ⟨_, .before isTurned (.init fresh)⟩
  | listAdd new pos =>
      obtain ⟨_, _, _, isTurned, fresh, isHead, inList⟩ := exists_added apart proper.1 proper.2
      exact ⟨_, .before isTurned (.add fresh isHead inList)⟩
  | listAddTail new pos =>
      obtain ⟨_, _, _, isTurned, fresh, isHead, inList⟩ := exists_added apart proper.1 proper.2
      exact ⟨_, .before isTurned (.addTail fresh isHead inList)⟩
  | listDel entry =>
      obtain ⟨_, _, isTurned, taken⟩ := exists_takenOut proper
      exact ⟨_, .before isTurned (.del taken)⟩
  | listDelInit entry =>
      obtain ⟨_, _, isTurned, taken⟩ := exists_takenOut proper
      exact ⟨_, .before isTurned (.delInit taken)⟩
  | listMove entry pos =>
      obtain ⟨member, inList, different⟩ := proper
      obtain ⟨_, _, _, _, isTurned, taken, isTarget, inTarget⟩ :=
        exists_moved apart member inList different
      exact ⟨_, .before isTurned (.move taken isTarget inTarget)⟩
  | listMoveTail entry pos =>
      obtain ⟨member, inList, different⟩ := proper
      obtain ⟨_, _, _, _, isTurned, taken, isTarget, inTarget⟩ :=
        exists_moved apart member inList different
      exact ⟨_, .before isTurned (.moveTail taken isTarget inTarget)⟩
  | listSplice list pos =>
      rcases proper with isEmpty | ⟨member, inList, notTogether⟩
      · exact ⟨_, .spliceEmpty isEmpty⟩
      · obtain ⟨_, _, nodes, _, isTurned, isBoth, isList, isPos, different⟩ :=
          exists_joined member inList apart notTogether
        cases nodes with
        | nil => exact ⟨_, .before isTurned (.before isBoth (.spliceEmpty isList))⟩
        | cons => exact ⟨_, .before isTurned (.before isBoth (.splice different isList isPos))⟩
  | listSpliceInit list pos =>
      rcases proper with isEmpty | ⟨member, inList, notTogether⟩
      · exact ⟨_, .spliceInitEmpty isEmpty⟩
      · obtain ⟨_, _, nodes, _, isTurned, isBoth, isList, isPos, different⟩ :=
          exists_joined member inList apart notTogether
        cases nodes with
        | nil => exact ⟨_, .before isTurned (.before isBoth (.spliceInitEmpty isList))⟩
        | cons => exact ⟨_, .before isTurned (.before isBoth (.spliceInit different isList isPos))⟩

end Meaning

end LinuxCTemplate.ListHead
