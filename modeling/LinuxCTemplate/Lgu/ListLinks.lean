import LinuxCTemplate.Lgu.ListPrograms

/-!
# Lists in memory

A program of list operations computes on lists: after it, every list in memory is what the
steps on the table say, forwards and backwards, and no byte outside the nodes has been written.
-/

namespace LinuxCTemplate.ListHead

open Foundation

/-- The lists are in memory, and their nodes are known. -/
structure Holds (known : List Nat) (mem : Memory) (lists : ListTable Nat) : Prop where
  rings : Rings (next mem) (prev mem) lists
  known : ∀ node, lists.Member node → node ∈ known

/-- Nothing but known nodes is written. -/
def WritesOnly (known : List Nat) (mem mem' : Memory) : Prop :=
  ∀ byte, Outside byte known → mem' byte = mem byte

section Steps

variable {known : List Nat} {mem : Memory} {lists : ListTable Nat} {head entry new pos : Nat}
  {nodes : List Nat}

theorem WritesOnly.trans {mem' mem'' : Memory} (first : WritesOnly known mem mem')
    (second : WritesOnly known mem' mem'') : WritesOnly known mem mem'' :=
  fun byte outside => (second byte outside).trans (first byte outside)

theorem writesOnly_setNext {node value : Nat} (member : node ∈ known) :
    WritesOnly known mem (setNext mem node value) :=
  fun _ outside => setNext_of_outside (outside node member)

theorem writesOnly_setPrev {node value : Nat} (member : node ∈ known) :
    WritesOnly known mem (setPrev mem node value) :=
  fun _ outside => setPrev_of_outside (outside node member)

theorem writesOnly_initListHead (member : head ∈ known) :
    WritesOnly known mem (initListHead head mem) :=
  (writesOnly_setNext member).trans (writesOnly_setPrev member)

theorem writesOnly_add {before after : Nat} (inNew : new ∈ known) (inBefore : before ∈ known)
    (inAfter : after ∈ known) : WritesOnly known mem (__listAdd new before after mem) :=
  (((writesOnly_setPrev inAfter).trans (writesOnly_setNext inNew)).trans
    (writesOnly_setPrev inNew)).trans (writesOnly_setNext inBefore)

theorem writesOnly_del {before after : Nat} (inBefore : before ∈ known) (inAfter : after ∈ known) :
    WritesOnly known mem (__listDel before after mem) :=
  (writesOnly_setPrev inAfter).trans (writesOnly_setNext inBefore)

theorem writesOnly_listAdd (inNew : new ∈ known) (inPos : pos ∈ known)
    (inNext : next mem pos ∈ known) : WritesOnly known mem (listAdd new pos mem) :=
  writesOnly_add inNew inPos inNext

theorem writesOnly_listAddTail (inNew : new ∈ known) (inPos : pos ∈ known)
    (inPrev : prev mem pos ∈ known) : WritesOnly known mem (listAddTail new pos mem) :=
  writesOnly_add inNew inPrev inPos

theorem writesOnly_listDel (isKnown : entry ∈ known) (inPrev : prev mem entry ∈ known)
    (inNext : next mem entry ∈ known) : WritesOnly known mem (listDel entry mem) := by
  unfold listDel
  have poisoned : ∀ mem, WritesOnly known mem
      (setPrev (setNext mem entry listPoison1) entry listPoison2) :=
    fun mem => (writesOnly_setNext isKnown).trans (writesOnly_setPrev isKnown)
  exact (writesOnly_del inPrev inNext).trans (poisoned _)

theorem Holds.next_known (holds : Holds known mem lists) (isHead : lists head = some nodes)
    (member : pos ∈ head :: nodes) : next mem pos ∈ known :=
  holds.known _ ⟨head, nodes, isHead, (holds.rings.ring head nodes isHead).next_mem member⟩

theorem Holds.prev_known (holds : Holds known mem lists) (isHead : lists head = some nodes)
    (member : pos ∈ head :: nodes) : prev mem pos ∈ known :=
  holds.known _ ⟨head, nodes, isHead, (holds.rings.ring head nodes isHead).prev_mem member⟩

/-- The nodes of a list that is put in are known. -/
theorem Holds.known_update (holds : Holds known mem lists) {value : Option (List Nat)}
    (inKnown : ∀ nodes, value = some nodes → ∀ node ∈ head :: nodes, node ∈ known) (node : Nat)
    (member : ListTable.Member (Function.update lists head value) node) : node ∈ known := by
  obtain ⟨other, others, isOther, inOther⟩ := member
  by_cases isHead : other = head
  · subst isHead
    rw [Function.update_self] at isOther
    exact inKnown others isOther node inOther
  · rw [Function.update_of_ne isHead] at isOther
    exact holds.known node ⟨other, others, isOther, inOther⟩

theorem Holds.initListHead (holds : Holds known mem lists) (spaced : Spaced known)
    (fresh : ¬ lists.Member head) (isKnown : head ∈ known) :
    Holds known (initListHead head mem) (Function.update lists head (some [])) where
  rings := holds.rings.create holds.known fresh isKnown
    (fun _ => next_initListHead spaced isKnown) (fun _ => prev_initListHead spaced isKnown)
  known := holds.known_update (by
    rintro _ ⟨⟩ node member
    exact List.mem_singleton.mp member ▸ isKnown)

theorem Holds.listAdd (holds : Holds known mem lists) (spaced : Spaced known)
    (isHead : lists head = some nodes) (member : pos ∈ head :: nodes) (fresh : ¬ lists.Member new)
    (isKnown : new ∈ known) :
    Holds known (listAdd new pos mem)
      (Function.update lists head (some (putAfter pos new head nodes))) := by
  have inPos := holds.known pos ⟨head, nodes, isHead, member⟩
  have inNext := holds.next_known isHead member
  constructor
  case rings =>
    exact holds.rings.insert_after holds.known isHead member fresh isKnown
      (fun _ => next_add_between spaced isKnown inPos inNext)
      (fun _ => prev_add_between spaced isKnown inPos inNext)
  case known =>
    refine holds.known_update ?_
    rintro _ ⟨⟩ node inNew
    rcases mem_putAfter inNew with rfl | inOld
    · exact isKnown
    · exact holds.known node ⟨head, nodes, isHead, inOld⟩

theorem Holds.listAddTail (holds : Holds known mem lists) (spaced : Spaced known)
    (isHead : lists head = some nodes) (member : pos ∈ head :: nodes) (fresh : ¬ lists.Member new)
    (isKnown : new ∈ known) :
    Holds known (listAddTail new pos mem)
      (Function.update lists head (some (putBefore pos new head nodes))) := by
  have inPos := holds.known pos ⟨head, nodes, isHead, member⟩
  have inPrev := holds.prev_known isHead member
  constructor
  case rings =>
    exact holds.rings.insert_before holds.known isHead member fresh isKnown
      (fun _ => next_add_between spaced isKnown inPrev inPos)
      (fun _ => prev_add_between spaced isKnown inPrev inPos)
  case known =>
    refine holds.known_update ?_
    rintro _ ⟨⟩ node inNew
    rcases mem_putBefore inNew with rfl | inOld
    · exact isKnown
    · exact holds.known node ⟨head, nodes, isHead, inOld⟩

omit mem nodes in
theorem TakenOut.member {out : ListTable Nat} (taken : TakenOut lists entry out) :
    lists.Member entry := by
  cases taken with
  | inside isHead member => exact ⟨_, _, isHead, List.mem_cons_of_mem _ member⟩
  | alone isAlone => exact ⟨_, _, isAlone, List.mem_cons_self⟩

theorem Holds.drop (holds : Holds known mem lists) (head : Nat) :
    Holds known mem (Function.update lists head none) where
  rings := holds.rings.drop head
  known := holds.known_update (by rintro _ ⟨⟩)

/-- Any node of a list may count as its head. -/
theorem Holds.turn (holds : Holds known mem lists) {turned : ListTable Nat}
    (turns : lists.Turns turned) : Holds known mem turned where
  rings := holds.rings.turn turns
  known := by
    cases turns with
    | @turn head pos xs ys isHead =>
        refine (holds.drop head).known_update ?_
        rintro _ ⟨⟩ node inList
        refine holds.known node ⟨head, _, isHead, ?_⟩
        simp only [List.mem_cons, List.mem_append] at inList ⊢
        tauto

/-- Memory in which only the links of a node taken out may be other than after
`__list_del`. -/
theorem Holds.takenOut (holds : Holds known mem lists) (spaced : Spaced known)
    {out : ListTable Nat} (taken : TakenOut lists entry out) {mem' : Memory}
    (same : ∀ node ∈ known, node ≠ entry →
      next mem' node = next (__listDel (prev mem entry) (next mem entry) mem) node ∧
        prev mem' node = prev (__listDel (prev mem entry) (next mem entry) mem) node) :
    Holds known mem' out := by
  cases taken with
  | @inside head nodes isHead member =>
      have inRing := List.mem_cons_of_mem head member
      have inNext := holds.next_known isHead inRing
      have inPrev := holds.prev_known isHead inRing
      constructor
      case rings =>
        refine holds.rings.remove holds.known isHead member ?_ ?_
        · intro node isKnown notEntry
          rw [(same node isKnown notEntry).1, next_del_between spaced inPrev inNext isKnown]
        · intro node isKnown notEntry
          rw [(same node isKnown notEntry).2, prev_del_between spaced inPrev inNext isKnown]
      case known =>
        refine holds.known_update ?_
        rintro _ ⟨⟩ node inNew
        refine holds.known node ⟨head, nodes, isHead, ?_⟩
        rcases List.mem_cons.mp inNew with rfl | inErased
        · exact List.mem_cons_self
        · exact List.mem_cons_of_mem _ (List.mem_of_mem_erase inErased)
  | alone isAlone =>
      have ring := holds.rings.ring entry [] isAlone
      have isKnown := holds.known entry ⟨entry, [], isAlone, List.mem_cons_self⟩
      have dropped := holds.drop entry
      refine ⟨dropped.rings.congr fun node member => ?_, dropped.known⟩
      have notEntry : node ≠ entry := by
        rintro rfl
        exact ListTable.Apart.not_member_drop holds.rings.apart isAlone List.mem_cons_self member
      have inKnown := dropped.known node member
      obtain ⟨sameNext, samePrev⟩ := same node inKnown notEntry
      -- The links of the only node are its own.
      rw [sameNext, samePrev, ring.linked.1, ring.linked.2,
        next_del_between spaced isKnown isKnown inKnown,
        prev_del_between spaced isKnown isKnown inKnown, Function.update_of_ne notEntry,
        Function.update_of_ne notEntry]
      exact ⟨rfl, rfl⟩

/-- A node taken out is in no list. -/
theorem Holds.not_member_out (holds : Holds known mem lists) {out : ListTable Nat}
    (taken : TakenOut lists entry out) : ¬ out.Member entry := by
  cases taken with
  | @inside head nodes isHead member =>
      obtain ⟨notHead, nodup⟩ := List.nodup_cons.mp (holds.rings.ring head nodes isHead).nodup
      refine ListTable.Apart.not_member_update holds.rings.apart isHead ?_
        fun _ => List.mem_cons_of_mem head member
      intro inNew
      rcases List.mem_cons.mp inNew with rfl | inErased
      · exact notHead member
      · exact nodup.not_mem_erase inErased
  | alone isAlone =>
      exact ListTable.Apart.not_member_drop holds.rings.apart isAlone List.mem_cons_self

/-- The neighbours of a node are known. -/
theorem Holds.links_known (holds : Holds known mem lists) (member : lists.Member pos) :
    prev mem pos ∈ known ∧ next mem pos ∈ known := by
  obtain ⟨head, nodes, isHead, inRing⟩ := member
  exact ⟨holds.prev_known isHead inRing, holds.next_known isHead inRing⟩

theorem Holds.splice (holds : Holds known mem lists) (spaced : Spaced known)
    {list first : Nat} {rest : List Nat} (different : list ≠ head)
    (isList : lists list = some (first :: rest)) (isHead : lists head = some nodes) :
    Holds known (__listSplice list head mem) (Function.update (Function.update lists list none)
      head (some (first :: rest ++ nodes))) := by
  have spliced := holds.rings.ring list _ isList
  have inHead := holds.known head ⟨head, nodes, isHead, List.mem_cons_self⟩
  have inFirst := holds.next_known isList List.mem_cons_self
  have inLast := holds.prev_known isList List.mem_cons_self
  have inAt := holds.next_known isHead List.mem_cons_self
  have isFirst : next mem list = first := spliced.next_head
  constructor
  case rings =>
    rw [← isFirst] at isList ⊢
    exact holds.rings.splice holds.known different isHead isList
      (fun _ => next_splice_between spaced inHead inFirst inLast inAt)
      (fun _ => prev_splice_between spaced inHead inFirst inLast inAt)
  case known =>
    refine (holds.drop list).known_update ?_
    rintro _ ⟨⟩ node inNew
    rcases List.mem_cons.mp inNew with rfl | inBoth
    · exact inHead
    · rcases List.mem_append.mp inBoth with inList | inNodes
      · exact holds.known node ⟨list, _, isList, List.mem_cons_of_mem list inList⟩
      · exact holds.known node ⟨head, _, isHead, List.mem_cons_of_mem head inNodes⟩

theorem Holds.writesOnly_splice (holds : Holds known mem lists) {list : Nat} {others : List Nat}
    (isList : lists list = some others) (isHead : lists head = some nodes) :
    WritesOnly known mem (__listSplice list head mem) := by
  have inHead := holds.known head ⟨head, nodes, isHead, List.mem_cons_self⟩
  have inFirst := holds.next_known isList List.mem_cons_self
  have inLast := holds.prev_known isList List.mem_cons_self
  have inAt := holds.next_known isHead List.mem_cons_self
  exact (((writesOnly_setPrev inFirst).trans (writesOnly_setNext inHead)).trans
    (writesOnly_setNext inLast)).trans (writesOnly_setPrev inAt)

theorem Holds.listEmpty_iff (holds : Holds known mem lists) (isHead : lists head = some nodes) :
    listEmpty head mem = true ↔ nodes = [] :=
  IsList.listEmpty_iff (holds.rings.ring head nodes isHead)

/-! ## One operation -/

/-- An operation does in memory what it means, and writes only known nodes. -/
def Does (known : List Nat) (mem mem' : Memory) (lists' : ListTable Nat) : Prop :=
  Holds known mem' lists' ∧ WritesOnly known mem mem'

theorem Holds.does_listAdd (holds : Holds known mem lists) (spaced : Spaced known)
    (isHead : lists head = some nodes) (member : pos ∈ head :: nodes) (fresh : ¬ lists.Member new)
    (isKnown : new ∈ known) : Does known mem (ListHead.listAdd new pos mem)
      (Function.update lists head (some (putAfter pos new head nodes))) :=
  ⟨holds.listAdd spaced isHead member fresh isKnown,
    writesOnly_listAdd isKnown (holds.known pos ⟨head, nodes, isHead, member⟩)
      (holds.next_known isHead member)⟩

theorem Holds.does_listAddTail (holds : Holds known mem lists) (spaced : Spaced known)
    (isHead : lists head = some nodes) (member : pos ∈ head :: nodes) (fresh : ¬ lists.Member new)
    (isKnown : new ∈ known) : Does known mem (ListHead.listAddTail new pos mem)
      (Function.update lists head (some (putBefore pos new head nodes))) :=
  ⟨holds.listAddTail spaced isHead member fresh isKnown,
    writesOnly_listAddTail isKnown (holds.known pos ⟨head, nodes, isHead, member⟩)
      (holds.prev_known isHead member)⟩

section Removals

variable {out : ListTable Nat} (holds : Holds known mem lists) (spaced : Spaced known)
  (taken : TakenOut lists entry out)

include holds spaced taken

/-- `__list_del` of the neighbours of a node. -/
theorem Holds.does_takeOut :
    Does known mem (__listDel (prev mem entry) (next mem entry) mem) out := by
  obtain ⟨inPrev, inNext⟩ := holds.links_known taken.member
  exact ⟨holds.takenOut spaced taken fun _ _ _ => ⟨rfl, rfl⟩, writesOnly_del inPrev inNext⟩

theorem Holds.does_listDel : Does known mem (ListHead.listDel entry mem) out := by
  obtain ⟨inPrev, inNext⟩ := holds.links_known taken.member
  have isKnown := holds.known entry taken.member
  exact ⟨holds.takenOut spaced taken fun _ => links_listDel spaced isKnown,
    writesOnly_listDel isKnown inPrev inNext⟩

theorem Holds.does_listDelInit : Does known mem (ListHead.listDelInit entry mem)
    (Function.update out entry (some [])) := by
  have isKnown := holds.known entry taken.member
  obtain ⟨without, writes⟩ := holds.does_takeOut spaced taken
  unfold ListHead.listDelInit
  exact ⟨without.initListHead spaced (holds.not_member_out taken) isKnown,
    writes.trans (writesOnly_initListHead isKnown)⟩

variable {target : Nat} {others : List Nat} (isTarget : out target = some others)
  (inTarget : pos ∈ target :: others)

include isTarget inTarget

theorem Holds.does_listMove : Does known mem (ListHead.listMove entry pos mem)
    (Function.update out target (some (putAfter pos entry target others))) := by
  have isKnown := holds.known entry taken.member
  obtain ⟨without, writes⟩ := holds.does_takeOut spaced taken
  obtain ⟨added, writesMore⟩ := without.does_listAdd spaced isTarget inTarget
    (holds.not_member_out taken) isKnown
  unfold ListHead.listMove
  exact ⟨added, writes.trans writesMore⟩

theorem Holds.does_listMoveTail : Does known mem (ListHead.listMoveTail entry pos mem)
    (Function.update out target (some (putBefore pos entry target others))) := by
  have isKnown := holds.known entry taken.member
  obtain ⟨without, writes⟩ := holds.does_takeOut spaced taken
  obtain ⟨added, writesMore⟩ := without.does_listAddTail spaced isTarget inTarget
    (holds.not_member_out taken) isKnown
  unfold ListHead.listMoveTail
  exact ⟨added, writes.trans writesMore⟩

end Removals

section Splices

variable {list first : Nat} {rest : List Nat} (holds : Holds known mem lists)
  (spaced : Spaced known) (different : list ≠ head) (isList : lists list = some (first :: rest))
  (isHead : lists head = some nodes)

include holds isList in
theorem Holds.not_listEmpty : listEmpty list mem = false :=
  Bool.eq_false_iff.mpr (mt (holds.listEmpty_iff isList).mp (List.cons_ne_nil _ _))

include holds spaced different isList isHead

theorem Holds.does_listSplice : Does known mem (ListHead.listSplice list head mem)
    (Function.update (Function.update lists list none) head
      (some (first :: rest ++ nodes))) := by
  simp only [ListHead.listSplice, holds.not_listEmpty isList]
  exact ⟨holds.splice spaced different isList isHead, holds.writesOnly_splice isList isHead⟩

omit spaced in
/-- The head of the list that has gone is in no list. -/
theorem Holds.not_member_splice : ¬ ListTable.Member (Function.update
    (Function.update lists list none) head (some (first :: rest ++ nodes))) list := by
  rintro ⟨other, others, isOther, inOther⟩
  rcases ListTable.eq_some_of_update isOther with ⟨rfl, rfl⟩ | ⟨_, isOther⟩
  · rcases List.mem_cons.mp inOther with isOther | inBoth
    · exact different isOther
    · rcases List.mem_append.mp inBoth with inList | inNodes
      · exact (List.nodup_cons.mp (holds.rings.ring list _ isList).nodup).1 inList
      · exact holds.rings.apart list other _ _ different isList isHead List.mem_cons_self
          (List.mem_cons_of_mem _ inNodes)
  · obtain ⟨notList, isOther⟩ := ListTable.eq_some_of_drop isOther
    exact holds.rings.not_in_other isList notList isOther inOther List.mem_cons_self rfl

theorem Holds.does_listSpliceInit : Does known mem (ListHead.listSpliceInit list head mem)
    (Function.update (Function.update (Function.update lists list none) head
      (some (first :: rest ++ nodes))) list (some [])) := by
  have isKnown := holds.known list ⟨list, _, isList, List.mem_cons_self⟩
  have joined := holds.splice spaced different isList isHead
  simp only [ListHead.listSpliceInit, holds.not_listEmpty isList]
  exact ⟨joined.initListHead spaced (holds.not_member_splice different isList isHead) isKnown,
    (holds.writesOnly_splice isList isHead).trans (writesOnly_initListHead isKnown)⟩

end Splices

theorem Holds.step (holds : Holds known mem lists) (spaced : Spaced known) {op : ListOp}
    {lists' : ListTable Nat} (args : op.args ⊆ known) (step : ListStep lists op lists') :
    Does known mem (op.run mem) lists' := by
  induction step with
  | @init lists ptr fresh =>
      have isKnown : ptr ∈ known := args List.mem_cons_self
      have created := (holds.drop ptr).initListHead spaced fresh isKnown
      rw [Function.update_idem] at created
      exact ⟨created, writesOnly_initListHead isKnown⟩
  | @add lists new pos head nodes fresh isHead member =>
      exact (holds.drop new).does_listAdd spaced isHead member fresh (args List.mem_cons_self)
  | @addTail lists new pos head nodes fresh isHead member =>
      exact (holds.drop new).does_listAddTail spaced isHead member fresh (args List.mem_cons_self)
  | del taken => exact holds.does_listDel spaced taken
  | delInit taken => exact holds.does_listDelInit spaced taken
  | move taken isTarget inTarget => exact holds.does_listMove spaced taken isTarget inTarget
  | moveTail taken isTarget inTarget =>
      exact holds.does_listMoveTail spaced taken isTarget inTarget
  | splice different isList isHead => exact holds.does_listSplice spaced different isList isHead
  | spliceInit different isList isHead =>
      exact holds.does_listSpliceInit spaced different isList isHead
  | spliceEmpty isList =>
      have isEmpty := (holds.listEmpty_iff isList).mpr rfl
      simp only [ListOp.run, ListHead.listSplice, isEmpty]
      exact ⟨holds, fun _ _ => rfl⟩
  | spliceInitEmpty isList =>
      have isEmpty := (holds.listEmpty_iff isList).mpr rfl
      simp only [ListOp.run, ListHead.listSpliceInit, isEmpty]
      exact ⟨holds, fun _ _ => rfl⟩
  | turnBefore turns _ ih => exact ih (holds.turn turns) args
  | turnAfter _ turns ih =>
      obtain ⟨done, writes⟩ := ih holds args
      exact ⟨done.turn turns, writes⟩

end Steps

/-! ## Programs -/

/-- Reading the lists in memory gives what they are: whether a list is empty, which entry is
the last, and the entries forwards and backwards. -/
structure ReadsAs (mem : Memory) (head : Nat) (nodes : List Nat) : Prop where
  empty : listEmpty head mem = true ↔ nodes = []
  last : ∀ entry ∈ nodes, listIsLast entry head mem = true ↔ nodes.getLast? = some entry
  forwards : ∀ fuel, nodes.length < fuel → listForEach head mem fuel = some nodes
  backwards : ∀ fuel, nodes.length < fuel → listForEachPrev head mem fuel = some nodes.reverse

theorem Holds.readsAs {known : List Nat} {mem : Memory} {lists : ListTable Nat}
    (holds : Holds known mem lists) {head : Nat} {nodes : List Nat}
    (isHead : lists head = some nodes) : ReadsAs mem head nodes := by
  have ring := holds.rings.ring head nodes isHead
  constructor
  case empty => exact holds.listEmpty_iff isHead
  case last =>
    intro entry member
    rw [listIsLast, beq_iff_eq]
    exact ring.next_eq_head_iff member
  case forwards => exact fun _ => ring.walk_eq
  case backwards =>
    intro fuel enough
    exact ring.reverse.walk_eq (by rwa [List.length_reverse])

theorem does_runOps {known : List Nat} (spaced : Spaced known)
    {history : List (ListTable Nat × ListOp)} {lists : ListTable Nat}
    (run : (listMachine known).Run history lists) (mem : Memory) :
    Does known mem (runOps (history.map Prod.snd) mem) lists := by
  induction run with
  | start initial =>
      rw [initial]
      exact ⟨⟨⟨nofun, nofun⟩, nofun⟩, fun _ _ => rfl⟩
  | @step history lists next op run taken ih =>
      obtain ⟨holds, writes⟩ := ih
      obtain ⟨holds', writesMore⟩ := holds.step spaced taken.1 taken.2
      rw [List.map_append, runOps, List.foldl_append]
      exact ⟨holds', writes.trans writesMore⟩

/-- In any memory to start with, after a program of list operations every list reads as what
the operations mean, no byte outside the nodes has been written, and every proper call may come
next. -/
theorem programs_read_as_lists {known : List Nat} (spaced : Spaced known)
    {history : List (ListTable Nat × ListOp)} {lists : ListTable Nat}
    (run : (listMachine known).Run history lists) (mem : Memory) :
    (∀ head nodes, lists head = some nodes →
      ReadsAs (runOps (history.map Prod.snd) mem) head nodes) ∧
    WritesOnly known mem (runOps (history.map Prod.snd) mem) ∧
    ∀ op : ListOp, op.args ⊆ known → op.Proper lists →
      ∃ lists', (listMachine known).Step lists op lists' := by
  obtain ⟨holds, writes⟩ := does_runOps spaced run mem
  refine ⟨fun _ _ => holds.readsAs, writes, fun op args proper => ?_⟩
  obtain ⟨lists', step⟩ := exists_listStep holds.rings.apart proper
  exact ⟨lists', args, step⟩

/-- Two heads and two entries. -/
def fourNodes : List Nat := [4096, 8192, 12288, 16384]

theorem spaced_fourNodes : Spaced fourNodes where
  separate := by
    unfold Separate Memory.Apart
    decide
  pointer := by
    unfold IsPointer
    decide

/-- An entry that has been initialised is added, taken out twice and added again, and a list is
joined to another behind it. -/
def rejoin : List ListOp :=
  [.initListHead 4096, .initListHead 8192, .initListHead 12288, .listAddTail 12288 4096,
    .listAddTail 16384 4096, .listDelInit 12288, .listDelInit 12288, .listAdd 12288 8192,
    .listSpliceInit 4096 12288]

/-- A node is in no list but its own, if the lists behind the four nodes do not have it. -/
theorem fresh_of_run {history : List (ListTable Nat × ListOp)} {lists : ListTable Nat}
    (run : (listMachine fourNodes).Run history lists) {new : Nat}
    (notIn : ∀ head ∈ fourNodes, ∀ nodes ∈ Function.update lists new none head,
      new ∉ head :: nodes) : ¬ ListTable.Member (Function.update lists new none) new := by
  have holds := (does_runOps spaced_fourNodes run fun _ => 0).1
  rintro ⟨head, nodes, isHead, inList⟩
  have isKnown := (holds.drop new).known head ⟨head, nodes, isHead, List.mem_cons_self⟩
  exact notIn head isKnown nodes isHead inList

theorem programs_read_as_lists_rejoin :
    ReadsAs (runOps rejoin fun _ => 0) 8192 [12288, 16384] ∧
      ReadsAs (runOps rejoin fun _ => 0) 4096 [] := by
  have start : (listMachine fourNodes).Run [] fun _ => none := .start rfl
  have first := start.step ⟨by decide, @ListStep.init _ 4096 (fresh_of_run start (by decide))⟩
  have second := first.step ⟨by decide, @ListStep.init _ 8192 (fresh_of_run first (by decide))⟩
  have third := second.step ⟨by decide, @ListStep.init _ 12288 (fresh_of_run second (by decide))⟩
  have fourth := third.step ⟨by decide, @ListStep.addTail _ 12288 4096 4096 []
    (fresh_of_run third (by decide)) rfl List.mem_cons_self⟩
  have fifth := fourth.step ⟨by decide, @ListStep.addTail _ 16384 4096 4096 [12288]
    (fresh_of_run fourth (by decide)) rfl List.mem_cons_self⟩
  have sixth := fifth.step ⟨by decide, .delInit (@TakenOut.inside _ 12288 4096 [12288, 16384] rfl
    (by decide))⟩
  have seventh := sixth.step ⟨by decide, .delInit (@TakenOut.alone _ 12288 rfl)⟩
  have eighth := seventh.step ⟨by decide, @ListStep.add _ 12288 8192 8192 []
    (fresh_of_run seventh (by decide)) rfl List.mem_cons_self⟩
  -- The entry counts as the head of its list while the other is joined to it.
  have ninth := eighth.step ⟨by decide,
    .turnBefore (@ListTable.Turns.turn _ _ _ 8192 12288 [] [] rfl)
      (.turnAfter (@ListStep.spliceInit _ 4096 12288 16384 [] [8192] (by decide) rfl rfl)
        (@ListTable.Turns.turn _ _ _ 12288 8192 [16384] [] rfl))⟩
  have reads := (programs_read_as_lists spaced_fourNodes ninth fun _ => 0).1
  exact ⟨reads 8192 [12288, 16384] rfl, reads 4096 [] rfl⟩

end LinuxCTemplate.ListHead
