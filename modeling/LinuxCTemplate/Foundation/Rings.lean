import LinuxCTemplate.Foundation.Ring
import LinuxCTemplate.Foundation.Tables

/-!
# Several rings with common links

Any node of a ring may count as its head, so insertion and removal at the head give
insertion and removal at any node, and read backwards a ring is a ring again.  A family of
rings, each named by its head, is kept by the operations that write only links of the ring
concerned and of nodes that are in no ring.
-/

namespace LinuxCTemplate.Foundation

universe u

variable {Node : Type u} {next prev next' prev' : Node → Node}
  {head first last new pos entry : Node} {nodes rest xs ys : List Node}

/-! ## Parts of a ring -/

theorem linked_append_iff :
    Linked next prev first (xs ++ pos :: ys) last ↔
      Linked next prev first xs pos ∧ Linked next prev pos ys last := by
  induction xs generalizing first with
  | nil =>
      rw [List.nil_append, Linked, Linked, and_assoc]
  | cons node xs ih =>
      rw [List.cons_append, Linked, Linked, ih, and_assoc, and_assoc]

theorem Linked.reverse (linked : Linked next prev first nodes last) :
    Linked prev next last nodes.reverse first := by
  induction nodes generalizing first with
  | nil => exact ⟨linked.2, linked.1⟩
  | cons node nodes ih =>
      rw [List.reverse_cons, linked_append_iff]
      exact ⟨ih linked.2.2, linked.2.1, linked.1⟩

/-- The same nodes between other ends. -/
theorem Linked.rewire {first' last' node : Node}
    (linked : Linked next prev first (node :: nodes) last)
    (nextFirst : next' first' = node) (prevNode : prev' node = first')
    (sameNext : ∀ other ∈ (node :: nodes).dropLast, next' other = next other)
    (samePrev : ∀ other ∈ nodes, prev' other = prev other)
    (nextLast : next' ((node :: nodes).getLast (List.cons_ne_nil _ _)) = last')
    (prevLast : prev' last' = (node :: nodes).getLast (List.cons_ne_nil _ _)) :
    Linked next' prev' first' (node :: nodes) last' := by
  induction nodes generalizing first first' node with
  | nil => exact ⟨nextFirst, prevNode, nextLast, prevLast⟩
  | cons second nodes ih =>
      obtain ⟨nextNode, prevSecond, _⟩ := linked.2.2
      refine ⟨nextFirst, prevNode, ih linked.2.2 ?_ ?_ ?_ ?_ nextLast prevLast⟩
      · rw [sameNext node (by simp), nextNode]
      · rw [samePrev second List.mem_cons_self, prevSecond]
      · exact fun other member => sameNext other (List.mem_cons_of_mem _ member)
      · exact fun other member => samePrev other (List.mem_cons_of_mem _ member)

namespace Ring

/-- Read backwards, a ring is a ring. -/
theorem reverse (ring : Ring next prev head nodes) : Ring prev next head nodes.reverse where
  nodup := by
    rw [List.nodup_cons, List.mem_reverse, List.nodup_reverse]
    exact List.nodup_cons.mp ring.nodup
  linked := ring.linked.reverse

/-- Any node may count as the head. -/
theorem rotate (ring : Ring next prev head (xs ++ pos :: ys)) :
    Ring next prev pos (ys ++ head :: xs) where
  nodup := by
    refine (List.Perm.nodup_iff ?_).mp ring.nodup
    rw [← List.cons_append, ← List.cons_append]
    exact List.perm_append_comm
  linked := by
    have parts := linked_append_iff.mp ring.linked
    exact linked_append_iff.mpr parts.symm

theorem next_mem (ring : Ring next prev head nodes) (member : pos ∈ head :: nodes) :
    next pos ∈ head :: nodes := by
  rcases List.mem_cons.mp member with rfl | inNodes
  · exact ring.next_head_mem
  · obtain ⟨xs, ys, rfl⟩ := List.append_of_mem inNodes
    have rotated := ring.rotate.next_head_mem
    simp only [List.mem_cons, List.mem_append] at rotated ⊢
    tauto

theorem prev_mem (ring : Ring next prev head nodes) (member : pos ∈ head :: nodes) :
    prev pos ∈ head :: nodes := by
  have backwards : pos ∈ head :: nodes.reverse → prev pos ∈ head :: nodes.reverse :=
    ring.reverse.next_mem
  simp only [List.mem_cons, List.mem_reverse] at backwards member ⊢
  exact backwards member

theorem prev_next (ring : Ring next prev head nodes) (member : pos ∈ head :: nodes) :
    prev (next pos) = pos := by
  have atHead : ∀ {head nodes}, Ring next prev head nodes → prev (next head) = head := by
    intro head nodes ring
    cases nodes with
    | nil => rw [ring.linked.1, ring.linked.2]
    | cons first rest => rw [ring.linked.1, ring.linked.2.1]
  rcases List.mem_cons.mp member with rfl | inNodes
  · exact atHead ring
  · obtain ⟨xs, ys, rfl⟩ := List.append_of_mem inNodes
    exact atHead ring.rotate

theorem prev_head (ring : Ring next prev head nodes) : prev head = nodes.getLast?.getD head := by
  rw [ring.reverse.next_head, List.headD_eq_head?_getD, List.head?_reverse]

/-- The last node is the one before the head. -/
theorem next_eq_head_iff (ring : Ring next prev head nodes) (member : entry ∈ nodes) :
    next entry = head ↔ nodes.getLast? = some entry := by
  have isLast : nodes.getLast? = some (prev head) := by
    rw [ring.prev_head, List.getLast?_eq_some_getLast (List.ne_nil_of_mem member)]
    rfl
  rw [isLast, Option.some.injEq]
  constructor
  · rintro rfl
    exact ring.prev_next (List.mem_cons_of_mem _ member)
  · rintro rfl
    exact ring.reverse.prev_next List.mem_cons_self

end Ring

section Walks

variable [DecidableEq Node]

theorem Linked.walk_eq (linked : Linked next prev first nodes head) (notIn : head ∉ nodes)
    {fuel : Nat} (enough : nodes.length < fuel) :
    walk next head fuel (next first) = some nodes := by
  induction nodes generalizing first fuel with
  | nil =>
      obtain ⟨fuel, rfl⟩ := Nat.exists_eq_add_of_lt enough
      rw [linked.1, walk, if_pos rfl]
  | cons node nodes ih =>
      cases fuel with
      | zero => cases enough
      | succ fuel =>
          rw [List.mem_cons, not_or] at notIn
          rw [linked.1, walk, if_neg (Ne.symm notIn.1),
            ih linked.2.2 notIn.2 (Nat.lt_of_succ_lt_succ enough), Option.map_some]

/-- A walk around a ring visits its nodes in sequence. -/
theorem Ring.walk_eq (ring : Ring next prev head nodes) {fuel : Nat}
    (enough : nodes.length < fuel) : walk next head fuel (next head) = some nodes :=
  ring.linked.walk_eq (List.nodup_cons.mp ring.nodup).1 enough

end Walks

/-! ## Operations at any node -/

variable [DecidableEq Node]

namespace Ring

omit [DecidableEq Node] in
theorem split (ring : Ring next prev head nodes) (member : pos ∈ nodes) :
    ∃ xs ys, nodes = xs ++ pos :: ys ∧ pos ∉ xs ∧ pos ∉ ys ∧ head ≠ pos := by
  obtain ⟨notHead, nodup⟩ := List.nodup_cons.mp ring.nodup
  obtain ⟨xs, ys, rfl⟩ := List.append_of_mem member
  refine ⟨xs, ys, rfl, ?_, ?_, ?_⟩
  · exact fun inXs => nodup.disjoint inXs List.mem_cons_self
  · exact (List.nodup_cons.mp nodup.of_append_right).1
  · rintro rfl
    exact notHead member

/-- Insertion after any node. -/
theorem insert_after (ring : Ring next prev head nodes) (member : pos ∈ head :: nodes)
    (fresh : new ∉ head :: nodes)
    (isNext : ∀ node ∈ new :: head :: nodes, next' node =
      Function.update (Function.update next new (next pos)) pos new node)
    (isPrev : ∀ node ∈ new :: head :: nodes, prev' node =
      Function.update (Function.update prev (next pos) new) new pos node) :
    Ring next' prev' head (putAfter pos new head nodes) := by
  by_cases isHead : head = pos
  · subst isHead
    rw [putAfter, if_pos rfl]
    exact ring.insert fresh isNext isPrev
  · have inNodes := (List.mem_cons.mp member).resolve_left (Ne.symm isHead)
    obtain ⟨xs, ys, rfl, notBefore, _, _⟩ := ring.split inNodes
    rw [putAfter, if_neg isHead, insertAfter_append notBefore]
    have same : ∀ node, node ∈ pos :: (ys ++ head :: xs) ↔ node ∈ head :: (xs ++ pos :: ys) := by
      intro node
      simp only [List.mem_cons, List.mem_append]
      tauto
    have inserted : Ring next' prev' pos (new :: (ys ++ head :: xs)) := by
      refine ring.rotate.insert (fun inRing => fresh ((same new).mp inRing)) ?_ ?_
      · exact fun node inRing => isNext node (by rwa [List.mem_cons, ← same, ← List.mem_cons])
      · exact fun node inRing => isPrev node (by rwa [List.mem_cons, ← same, ← List.mem_cons])
    rw [← List.cons_append] at inserted
    exact inserted.rotate

/-- Insertion before any node, which is insertion after it read backwards. -/
theorem insert_before (ring : Ring next prev head nodes) (member : pos ∈ head :: nodes)
    (fresh : new ∉ head :: nodes)
    (isNext : ∀ node ∈ new :: head :: nodes, next' node =
      Function.update (Function.update next new pos) (prev pos) new node)
    (isPrev : ∀ node ∈ new :: head :: nodes, prev' node =
      Function.update (Function.update prev pos new) new (prev pos) node) :
    Ring next' prev' head (putBefore pos new head nodes) := by
  have notPos : new ≠ pos := fun same => fresh (same ▸ member)
  have notPrev : new ≠ prev pos := fun same => fresh (same ▸ ring.prev_mem member)
  have same : ∀ node, node ∈ head :: nodes.reverse ↔ node ∈ head :: nodes := by
    intro node
    rw [List.mem_cons, List.mem_cons, List.mem_reverse]
  have mirrored : Ring prev' next' head (putAfter pos new head nodes.reverse) := by
    refine ring.reverse.insert_after ((same pos).mpr member)
      (fun inRing => fresh ((same new).mp inRing)) ?_ ?_
    · intro node inRing
      rw [isPrev node (by rwa [List.mem_cons, ← same, ← List.mem_cons]),
        Function.update_comm notPos]
    · intro node inRing
      rw [isNext node (by rwa [List.mem_cons, ← same, ← List.mem_cons]),
        Function.update_comm notPrev]
  have isReverse :
      (putAfter pos new head nodes.reverse).reverse = putBefore pos new head nodes := by
    unfold putAfter putBefore
    split
    · rw [List.reverse_cons, List.reverse_reverse]
    next notHead =>
      have inNodes := (List.mem_cons.mp member).resolve_left (Ne.symm notHead)
      obtain ⟨xs, ys, rfl, notBefore, notBehind, _⟩ := ring.split inNodes
      rw [insertBefore_append notBefore, List.reverse_append, List.reverse_cons, List.append_assoc,
        List.singleton_append, insertAfter_append (by rwa [List.mem_reverse])]
      simp
  rw [← isReverse]
  exact mirrored.reverse

/-- Removal of any node. -/
theorem remove (ring : Ring next prev head nodes) (member : entry ∈ nodes)
    (isNext : ∀ node ∈ head :: nodes, node ≠ entry →
      next' node = Function.update next (prev entry) (next entry) node)
    (isPrev : ∀ node ∈ head :: nodes, node ≠ entry →
      prev' node = Function.update prev (next entry) (prev entry) node) :
    Ring next' prev' head (nodes.erase entry) := by
  obtain ⟨xs, ys, rfl, notBefore, notBehind, notHead⟩ := ring.split member
  rw [List.erase_append_right _ notBefore, List.erase_cons_head]
  rcases List.eq_nil_or_concat xs with rfl | ⟨front, before, isXs⟩
  · rw [List.nil_append] at ring ⊢
    refine ring.remove_first ?_ ?_
    · intro node inRing
      refine isNext node ?_ ?_
      · simp only [List.nil_append, List.mem_cons] at inRing ⊢
        tauto
      · rintro rfl
        exact (List.mem_cons.mp inRing).elim (Ne.symm notHead) notBehind
    · intro node inRing
      refine isPrev node ?_ ?_
      · simp only [List.nil_append, List.mem_cons] at inRing ⊢
        tauto
      · rintro rfl
        exact (List.mem_cons.mp inRing).elim (Ne.symm notHead) notBehind
  · -- The node before it counts as the head.
    rw [List.concat_eq_append] at isXs
    subst isXs
    rw [List.append_assoc, List.singleton_append] at ring ⊢
    have rotated := ring.rotate
    rw [List.cons_append] at rotated
    have kept : ∀ node ∈ before :: (ys ++ head :: front),
        node ∈ head :: (front ++ before :: entry :: ys) ∧ node ≠ entry := by
      obtain ⟨notLast, nodup⟩ := List.nodup_cons.mp rotated.nodup
      intro node inRing
      constructor
      · simp only [List.mem_cons, List.mem_append] at inRing ⊢
        tauto
      · rintro rfl
        rcases List.mem_cons.mp inRing with rfl | inRest
        · exact notLast List.mem_cons_self
        · exact (List.nodup_cons.mp nodup).1 inRest
    have removed : Ring next' prev' before (ys ++ head :: front) := by
      refine rotated.remove_first ?_ ?_
      · intro node inRing
        exact isNext node (by simpa using (kept node inRing).1) (kept node inRing).2
      · intro node inRing
        exact isPrev node (by simpa using (kept node inRing).1) (kept node inRing).2
    exact removed.rotate

/-- The nodes of one ring go in front of those of another: `first->prev = head`,
`head->next = first`, `last->next = at`, `at->prev = last`. -/
theorem splice {list : Node} (ring : Ring next prev head nodes)
    (spliced : Ring next prev list (first :: rest))
    (apart : List.Disjoint (list :: first :: rest) (head :: nodes))
    (isNext : ∀ node ∈ head :: (first :: rest ++ nodes), next' node =
      Function.update (Function.update next head first) (prev list) (next head) node)
    (isPrev : ∀ node ∈ head :: (first :: rest ++ nodes), prev' node =
      Function.update (Function.update prev first head) (next head) (prev list) node) :
    Ring next' prev' head (first :: rest ++ nodes) := by
  have isLast : prev list = (first :: rest).getLast (List.cons_ne_nil _ _) := by
    rw [spliced.prev_head, List.getLast?_eq_some_getLast (List.cons_ne_nil _ _)]
    rfl
  set last := (first :: rest).getLast (List.cons_ne_nil _ _) with lastIs
  rw [isLast] at isNext isPrev
  have lastIn : last ∈ first :: rest := List.getLast_mem _
  have nextIn := ring.next_head_mem
  have inSpliced : ∀ {node}, node ∈ first :: rest → node ∉ head :: nodes :=
    fun member inRing => apart (List.mem_cons_of_mem _ member) inRing
  have apartFrom : ∀ {node other}, node ∈ first :: rest → other ∈ head :: nodes → node ≠ other := by
    rintro node _ member inRing rfl
    exact inSpliced member inRing
  have toAll : ∀ {node}, node ∈ first :: rest → node ∈ head :: (first :: rest ++ nodes) :=
    fun member => List.mem_cons_of_mem _ (List.mem_append_left _ member)
  have fromRing : ∀ {node}, node ∈ head :: nodes → node ∈ head :: (first :: rest ++ nodes) := by
    intro node member
    simp only [List.mem_cons, List.mem_append] at member ⊢
    tauto
  have splicedNodup := (List.nodup_cons.mp spliced.nodup).2
  -- The links at the ends of what is spliced.
  have nextHead : next' head = first := by
    rw [isNext head List.mem_cons_self,
      Function.update_of_ne (apartFrom lastIn List.mem_cons_self).symm, Function.update_self]
  have prevFirst : prev' first = head := by
    rw [isPrev first (toAll List.mem_cons_self),
      Function.update_of_ne (apartFrom List.mem_cons_self nextIn), Function.update_self]
  have nextLast : next' last = next head := by
    rw [isNext last (toAll lastIn), Function.update_self]
  have prevNext : prev' (next head) = last := by
    rw [isPrev _ (fromRing nextIn), Function.update_self]
  have front : Linked next' prev' head (first :: rest) (next head) := by
    refine spliced.linked.rewire nextHead prevFirst ?_ ?_ nextLast prevNext
    · intro node member
      have notLast : node ≠ last := by
        rintro rfl
        have split := List.dropLast_append_getLast (List.cons_ne_nil first rest)
        rw [← split] at splicedNodup
        exact splicedNodup.disjoint member (List.mem_singleton_self _)
      have inList := List.dropLast_subset _ member
      rw [isNext node (toAll inList), Function.update_of_ne notLast,
        Function.update_of_ne (apartFrom inList List.mem_cons_self)]
    · intro node member
      have notFirst : node ≠ first := by
        rintro rfl
        exact (List.nodup_cons.mp splicedNodup).1 member
      have inList := List.mem_cons_of_mem first member
      rw [isPrev node (toAll inList), Function.update_of_ne (apartFrom inList nextIn),
        Function.update_of_ne notFirst]
  refine ⟨?_, ?_⟩
  · obtain ⟨notHead, nodup⟩ := List.nodup_cons.mp ring.nodup
    refine List.nodup_cons.mpr ⟨?_, splicedNodup.append nodup ?_⟩
    · intro member
      rcases List.mem_append.mp member with inList | inNodes
      · exact inSpliced inList List.mem_cons_self
      · exact notHead inNodes
    · exact fun node inList inNodes => inSpliced inList (List.mem_cons_of_mem _ inNodes)
  · cases nodes with
    | nil =>
        rw [ring.next_head] at front
        rw [List.append_nil]
        exact front
    | cons second nodes =>
        rw [ring.next_head] at front
        refine linked_append_iff.mpr ⟨front, ring.linked.2.2.congr ?_ ?_⟩
        · intro node member
          have notHead : node ≠ head := by
            rintro rfl
            exact (List.nodup_cons.mp ring.nodup).1 member
          have inRing := List.mem_cons_of_mem head member
          rw [isNext node (fromRing inRing), Function.update_of_ne (apartFrom lastIn inRing).symm,
            Function.update_of_ne notHead]
        · intro node member
          have inRing : node ∈ head :: second :: nodes := by
            simp only [List.mem_cons] at member ⊢
            tauto
          have notSecond : node ≠ next head := by
            rw [ring.next_head]
            rintro rfl
            obtain ⟨notIn, nodup⟩ := List.nodup_cons.mp ring.nodup
            rcases List.mem_cons.mp member with isHead | inNodes
            · exact notIn (isHead ▸ List.mem_cons_self)
            · exact (List.nodup_cons.mp nodup).1 inNodes
          rw [isPrev node (fromRing inRing), Function.update_of_ne notSecond,
            Function.update_of_ne (apartFrom List.mem_cons_self inRing).symm]

end Ring

/-! ## Families of rings -/

/-- Each list is in a ring of its own. -/
structure Rings (next prev : Node → Node) (lists : ListTable Node) : Prop where
  ring : ∀ head nodes, lists head = some nodes → Ring next prev head nodes
  apart : ∀ left right leftNodes rightNodes, left ≠ right → lists left = some leftNodes →
    lists right = some rightNodes → List.Disjoint (left :: leftNodes) (right :: rightNodes)

namespace Rings

variable {lists : ListTable Node}

/-- The ring of one head changes; what it has now it had before, or nobody had. -/
theorem replace (rings : Rings next prev lists)
    (had : ∀ node ∈ head :: nodes, lists.Member node →
      ∃ before, lists head = some before ∧ node ∈ head :: before)
    (ring : Ring next' prev' head nodes)
    (same : ∀ other others, other ≠ head → lists other = some others →
      ∀ node ∈ other :: others, next' node = next node ∧ prev' node = prev node) :
    Rings next' prev' (Function.update lists head (some nodes)) := by
  constructor
  case ring =>
    intro other others isOther
    rcases ListTable.eq_some_of_update isOther with ⟨rfl, rfl⟩ | ⟨isHead, isOther⟩
    · exact ring
    · exact (rings.ring other others isOther).congr
        (fun node member => (same other others isHead isOther node member).1)
        (fun node member => (same other others isHead isOther node member).2)
  case apart => exact ListTable.Apart.update rings.apart had

/-- The ring of one head changes to one of its own nodes and of nodes in no ring, and the links
of no other ring change. -/
theorem change (rings : Rings next prev lists) {before : List Node}
    (isHead : lists head = some before) (ring : Ring next' prev' head nodes)
    (had : ∀ node ∈ head :: nodes, lists.Member node → node ∈ head :: before)
    (same : ∀ node, lists.Member node → node ∉ head :: before →
      next' node = next node ∧ prev' node = prev node) :
    Rings next' prev' (Function.update lists head (some nodes)) := by
  refine rings.replace (fun node inRing member => ⟨before, isHead, had node inRing member⟩) ring ?_
  intro other others different isOther node inOther
  exact same node ⟨other, others, isOther, inOther⟩ fun inRing =>
    rings.apart other head others before different isOther isHead inOther inRing

/-- A ring that is given up. -/
theorem drop (rings : Rings next prev lists) (head : Node) :
    Rings next prev (Function.update lists head none) where
  ring other others isOther := rings.ring other others (ListTable.eq_some_of_drop isOther).2
  apart := ListTable.Apart.drop rings.apart head

/-- A ring may be read from any of its nodes. -/
theorem turn (rings : Rings next prev lists) {lists' : ListTable Node}
    (turns : lists.Turns lists') : Rings next prev lists' := by
  refine ⟨?_, turns.apart rings.apart⟩
  cases turns with
  | @turn head pos xs ys isHead =>
      intro other others isOther
      rcases ListTable.eq_some_of_update isOther with ⟨rfl, rfl⟩ | ⟨_, isOther⟩
      · exact (rings.ring head _ isHead).rotate
      · exact rings.ring other others (ListTable.eq_some_of_drop isOther).2

omit [DecidableEq Node] in
/-- The rings depend on the links of their nodes only. -/
theorem congr (rings : Rings next prev lists)
    (same : ∀ node, lists.Member node → next' node = next node ∧ prev' node = prev node) :
    Rings next' prev' lists where
  ring head nodes isHead := (rings.ring head nodes isHead).congr
    (fun node member => (same node ⟨head, nodes, isHead, member⟩).1)
    (fun node member => (same node ⟨head, nodes, isHead, member⟩).2)
  apart := rings.apart

omit [DecidableEq Node] in
/-- A node that is a member of one ring is in no other. -/
theorem not_in_other (rings : Rings next prev lists) (isHead : lists head = some nodes)
    {other node : Node} {others : List Node} (different : other ≠ head)
    (isOther : lists other = some others) (inOther : node ∈ other :: others)
    (member : pos ∈ head :: nodes) : node ≠ pos := by
  rintro rfl
  exact rings.apart other head others nodes different isOther isHead inOther member

/-! The operations, given by the links of the nodes that are known. -/

section Operations

variable {Known : Node → Prop} (rings : Rings next prev lists)
  (known : ∀ node, lists.Member node → Known node)

include rings known

/-- A node that is in no ring gets a ring of its own. -/
theorem create (fresh : ¬ lists.Member new) (knownNew : Known new)
    (isNext : ∀ node, Known node → next' node = Function.update next new new node)
    (isPrev : ∀ node, Known node → prev' node = Function.update prev new new node) :
    Rings next' prev' (Function.update lists new (some [])) := by
  refine rings.replace ?_ ⟨List.nodup_singleton new, ?_, ?_⟩ ?_
  · intro node isNew member
    rw [List.mem_singleton.mp isNew] at member
    exact (fresh member).elim
  · rw [isNext new knownNew, Function.update_self]
  · rw [isPrev new knownNew, Function.update_self]
  · intro other others _ isOther node inOther
    have notNew : node ≠ new := by
      rintro rfl
      exact fresh ⟨other, others, isOther, inOther⟩
    have isKnown := known node ⟨other, others, isOther, inOther⟩
    rw [isNext node isKnown, isPrev node isKnown, Function.update_of_ne notNew,
      Function.update_of_ne notNew]
    exact ⟨rfl, rfl⟩

section Insertions

variable (isHead : lists head = some nodes) (member : pos ∈ head :: nodes)
  (fresh : ¬ lists.Member new) (knownNew : Known new)

omit [DecidableEq Node] rings in
include isHead knownNew in
theorem known_of_mem (node : Node) (inRing : node ∈ new :: head :: nodes) : Known node := by
  rcases List.mem_cons.mp inRing with rfl | inOld
  · exact knownNew
  · exact known node ⟨head, nodes, isHead, inOld⟩

include isHead member fresh knownNew

/-- A node that is in no ring goes behind a node of a ring. -/
theorem insert_after
    (isNext : ∀ node, Known node → next' node =
      Function.update (Function.update next new (next pos)) pos new node)
    (isPrev : ∀ node, Known node → prev' node =
      Function.update (Function.update prev (next pos) new) new pos node) :
    Rings next' prev' (Function.update lists head (some (putAfter pos new head nodes))) := by
  have ring := rings.ring head nodes isHead
  have isKnown := known_of_mem known isHead knownNew
  refine rings.change isHead (ring.insert_after member
    (fun inRing => fresh ⟨head, nodes, isHead, inRing⟩)
    (fun node inRing => isNext node (isKnown node inRing))
    (fun node inRing => isPrev node (isKnown node inRing))) ?_ ?_
  · intro node inRing isMember
    exact (mem_putAfter inRing).resolve_left (by rintro rfl; exact fresh isMember)
  · intro node isMember notIn
    have notNew : node ≠ new := by
      rintro rfl
      exact fresh isMember
    have notPos := (ne_of_mem_of_not_mem member notIn).symm
    have notNext := (ne_of_mem_of_not_mem (ring.next_mem member) notIn).symm
    rw [isNext node (known node isMember), isPrev node (known node isMember),
      Function.update_of_ne notPos, Function.update_of_ne notNew, Function.update_of_ne notNew,
      Function.update_of_ne notNext]
    exact ⟨rfl, rfl⟩

/-- A node that is in no ring goes before a node of a ring. -/
theorem insert_before
    (isNext : ∀ node, Known node → next' node =
      Function.update (Function.update next new pos) (prev pos) new node)
    (isPrev : ∀ node, Known node → prev' node =
      Function.update (Function.update prev pos new) new (prev pos) node) :
    Rings next' prev' (Function.update lists head (some (putBefore pos new head nodes))) := by
  have ring := rings.ring head nodes isHead
  have isKnown := known_of_mem known isHead knownNew
  refine rings.change isHead (ring.insert_before member
    (fun inRing => fresh ⟨head, nodes, isHead, inRing⟩)
    (fun node inRing => isNext node (isKnown node inRing))
    (fun node inRing => isPrev node (isKnown node inRing))) ?_ ?_
  · intro node inRing isMember
    exact (mem_putBefore inRing).resolve_left (by rintro rfl; exact fresh isMember)
  · intro node isMember notIn
    have notNew : node ≠ new := by
      rintro rfl
      exact fresh isMember
    have notPos := (ne_of_mem_of_not_mem member notIn).symm
    have notPrev := (ne_of_mem_of_not_mem (ring.prev_mem member) notIn).symm
    rw [isNext node (known node isMember), isPrev node (known node isMember),
      Function.update_of_ne notPrev, Function.update_of_ne notNew, Function.update_of_ne notNew,
      Function.update_of_ne notPos]
    exact ⟨rfl, rfl⟩

end Insertions

/-- A node that is not the head leaves its ring.  Its own links may be anything. -/
theorem remove (isHead : lists head = some nodes) (member : entry ∈ nodes)
    (isNext : ∀ node, Known node → node ≠ entry →
      next' node = Function.update next (prev entry) (next entry) node)
    (isPrev : ∀ node, Known node → node ≠ entry →
      prev' node = Function.update prev (next entry) (prev entry) node) :
    Rings next' prev' (Function.update lists head (some (nodes.erase entry))) := by
  have ring := rings.ring head nodes isHead
  have inRing := List.mem_cons_of_mem head member
  refine rings.change isHead (ring.remove member
    (fun node here => isNext node (known node ⟨head, nodes, isHead, here⟩))
    (fun node here => isPrev node (known node ⟨head, nodes, isHead, here⟩))) ?_ ?_
  · intro node here _
    rcases List.mem_cons.mp here with rfl | inErased
    · exact List.mem_cons_self
    · exact List.mem_cons_of_mem _ (List.mem_of_mem_erase inErased)
  · intro node isMember notIn
    have notEntry := (ne_of_mem_of_not_mem inRing notIn).symm
    have notNext := (ne_of_mem_of_not_mem (ring.next_mem inRing) notIn).symm
    have notPrev := (ne_of_mem_of_not_mem (ring.prev_mem inRing) notIn).symm
    rw [isNext node (known node isMember) notEntry, isPrev node (known node isMember) notEntry,
      Function.update_of_ne notPrev, Function.update_of_ne notNext]
    exact ⟨rfl, rfl⟩

/-- The nodes of one ring go in front of those of another; its head is given up. -/
theorem splice {list : Node} (different : list ≠ head) (isHead : lists head = some nodes)
    (isList : lists list = some (first :: rest))
    (isNext : ∀ node, Known node → next' node =
      Function.update (Function.update next head first) (prev list) (next head) node)
    (isPrev : ∀ node, Known node → prev' node =
      Function.update (Function.update prev first head) (next head) (prev list) node) :
    Rings next' prev' (Function.update (Function.update lists list none) head
      (some (first :: rest ++ nodes))) := by
  have ring := rings.ring head nodes isHead
  have spliced := rings.ring list (first :: rest) isList
  have isKnown : ∀ node ∈ head :: (first :: rest ++ nodes), Known node := by
    intro node inRing
    simp only [List.mem_cons, List.mem_append] at inRing
    by_cases inList : node = first ∨ node ∈ rest
    · exact known node ⟨list, _, isList, by simp only [List.mem_cons]; tauto⟩
    · exact known node ⟨head, _, isHead, by simp only [List.mem_cons]; tauto⟩
  have dropped := rings.drop list
  refine dropped.replace ?_ (ring.splice spliced
    (rings.apart list head _ _ different isList isHead)
    (fun node inRing => isNext node (isKnown node inRing))
    (fun node inRing => isPrev node (isKnown node inRing))) ?_
  · rintro node inRing ⟨other, others, isOther, inOther⟩
    refine ⟨nodes, by rwa [Function.update_of_ne (Ne.symm different)], ?_⟩
    simp only [List.mem_cons, List.mem_append] at inRing
    by_cases inList : node = first ∨ node ∈ rest
    · obtain ⟨notList, isOther⟩ := ListTable.eq_some_of_drop isOther
      have inSpliced : node ∈ list :: first :: rest := by
        simp only [List.mem_cons]
        tauto
      exact (rings.apart other list _ _ notList isOther isList inOther inSpliced).elim
    · simp only [List.mem_cons]
      tauto
  · intro other others notHead isOther node inOther
    obtain ⟨notList, isOther⟩ := ListTable.eq_some_of_drop isOther
    have notAt : ∀ {pos}, pos ∈ head :: nodes → node ≠ pos :=
      rings.not_in_other isHead notHead isOther inOther
    have notIn : ∀ {pos}, pos ∈ list :: first :: rest → node ≠ pos :=
      rings.not_in_other isList notList isOther inOther
    have nodeKnown := known node ⟨other, others, isOther, inOther⟩
    rw [isNext node nodeKnown, isPrev node nodeKnown,
      Function.update_of_ne (notIn (spliced.prev_mem List.mem_cons_self)),
      Function.update_of_ne (notAt List.mem_cons_self),
      Function.update_of_ne (notAt ring.next_head_mem),
      Function.update_of_ne (notIn (List.mem_cons_of_mem _ List.mem_cons_self))]
    exact ⟨rfl, rfl⟩

end Operations

end Rings

end LinuxCTemplate.Foundation
