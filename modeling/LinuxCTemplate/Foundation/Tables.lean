import Mathlib.Logic.Function.Basic
import Mathlib.Logic.Relation
import Mathlib.Data.List.Nodup

/-!
# Lists with heads

A table gives the list of nodes behind each head.  A node is put next to another or next to
the head; as long as it comes from no list, or from the same one, the lists have no node in
common.
-/

namespace LinuxCTemplate.Foundation

universe u

variable {Node : Type u} [DecidableEq Node] {head new pos : Node} {nodes xs ys : List Node}

/-- The nodes on the way from `pos` to the head. -/
def walk (step : Node → Node) (head : Node) : Nat → Node → Option (List Node)
  | 0, _ => none
  | fuel + 1, pos =>
      if pos = head then some [] else (walk step head fuel (step pos)).map (pos :: ·)

/-! ## Putting a node in -/

/-- The list with a new node after another. -/
def insertAfter (pos new : Node) : List Node → List Node
  | [] => []
  | node :: nodes =>
      if node = pos then node :: new :: nodes else node :: insertAfter pos new nodes

/-- The list with a new node before another. -/
def insertBefore (pos new : Node) : List Node → List Node
  | [] => []
  | node :: nodes =>
      if node = pos then new :: node :: nodes else node :: insertBefore pos new nodes

theorem insertAfter_append (notBefore : pos ∉ xs) :
    insertAfter pos new (xs ++ pos :: ys) = xs ++ pos :: new :: ys := by
  induction xs with
  | nil => rw [List.nil_append, insertAfter, if_pos rfl, List.nil_append]
  | cons node xs ih =>
      rw [List.mem_cons, not_or] at notBefore
      rw [List.cons_append, insertAfter, if_neg (Ne.symm notBefore.1), ih notBefore.2,
        List.cons_append]

theorem insertBefore_append (notBefore : pos ∉ xs) :
    insertBefore pos new (xs ++ pos :: ys) = xs ++ new :: pos :: ys := by
  induction xs with
  | nil => rw [List.nil_append, insertBefore, if_pos rfl, List.nil_append]
  | cons node xs ih =>
      rw [List.mem_cons, not_or] at notBefore
      rw [List.cons_append, insertBefore, if_neg (Ne.symm notBefore.1), ih notBefore.2,
        List.cons_append]

/-- The nodes behind a head, with a new node after one of them or after the head. -/
def putAfter (pos new head : Node) (nodes : List Node) : List Node :=
  if head = pos then new :: nodes else insertAfter pos new nodes

/-- The nodes behind a head, with a new node before one of them or, around the head, before
it. -/
def putBefore (pos new head : Node) (nodes : List Node) : List Node :=
  if head = pos then nodes ++ [new] else insertBefore pos new nodes

theorem mem_insertAfter {node : Node} (member : node ∈ insertAfter pos new nodes) :
    node = new ∨ node ∈ nodes := by
  induction nodes with
  | nil => cases member
  | cons second nodes ih =>
      rw [insertAfter] at member
      split at member <;> simp only [List.mem_cons] at member ⊢ <;> tauto

theorem mem_insertBefore {node : Node} (member : node ∈ insertBefore pos new nodes) :
    node = new ∨ node ∈ nodes := by
  induction nodes with
  | nil => cases member
  | cons second nodes ih =>
      rw [insertBefore] at member
      split at member <;> simp only [List.mem_cons] at member ⊢ <;> tauto

theorem mem_putAfter {node : Node} (member : node ∈ head :: putAfter pos new head nodes) :
    node = new ∨ node ∈ head :: nodes := by
  unfold putAfter at member
  split at member
  · simp only [List.mem_cons] at member ⊢
    tauto
  · have inOld : node ∈ insertAfter pos new nodes → node = new ∨ node ∈ nodes := mem_insertAfter
    simp only [List.mem_cons] at member ⊢
    tauto

theorem mem_putBefore {node : Node} (member : node ∈ head :: putBefore pos new head nodes) :
    node = new ∨ node ∈ head :: nodes := by
  unfold putBefore at member
  split at member
  · simp only [List.mem_cons, List.mem_append] at member ⊢
    tauto
  · have inOld : node ∈ insertBefore pos new nodes → node = new ∨ node ∈ nodes := mem_insertBefore
    simp only [List.mem_cons] at member ⊢
    tauto

/-! ## Tables -/

/-- The nodes behind each head. -/
abbrev ListTable (Node : Type u) := Node → Option (List Node)

omit [DecidableEq Node] in
/-- The node is in one of the rings. -/
def ListTable.Member (lists : ListTable Node) (node : Node) : Prop :=
  ∃ head nodes, lists head = some nodes ∧ node ∈ head :: nodes

/-- The head whose list changed has the new one, the others have what they had. -/
theorem ListTable.eq_some_of_update {lists : ListTable Node} {other : Node} {others : List Node}
    (isOther : Function.update lists head (some nodes) other = some others) :
    other = head ∧ others = nodes ∨ other ≠ head ∧ lists other = some others := by
  by_cases isHead : other = head
  · rw [isHead, Function.update_self] at isOther
    exact Or.inl ⟨isHead, (Option.some.inj isOther).symm⟩
  · rw [Function.update_of_ne isHead] at isOther
    exact Or.inr ⟨isHead, isOther⟩

theorem ListTable.Member.of_update {lists : ListTable Node} {node : Node}
    (member : ListTable.Member (Function.update lists head (some nodes)) node) :
    node ∈ head :: nodes ∨ lists.Member node := by
  obtain ⟨other, others, isOther, inOther⟩ := member
  rcases ListTable.eq_some_of_update isOther with ⟨rfl, rfl⟩ | ⟨_, isOther⟩
  · exact Or.inl inOther
  · exact Or.inr ⟨other, others, isOther, inOther⟩

theorem ListTable.eq_some_of_drop {lists : ListTable Node} {other : Node} {others : List Node}
    (isOther : Function.update lists head none other = some others) :
    other ≠ head ∧ lists other = some others := by
  by_cases isHead : other = head
  · rw [isHead, Function.update_self] at isOther
    cases isOther
  · rw [Function.update_of_ne isHead] at isOther
    exact ⟨isHead, isOther⟩

omit [DecidableEq Node] in
/-- The nodes are in one ring. -/
def ListTable.Together (lists : ListTable Node) (left right : Node) : Prop :=
  ∃ head nodes, lists head = some nodes ∧ left ∈ head :: nodes ∧ right ∈ head :: nodes

/-- A list with another of its nodes for its head. -/
inductive ListTable.Turns (lists : ListTable Node) : ListTable Node → Prop where
  | turn {head pos : Node} {xs ys : List Node} : lists head = some (xs ++ pos :: ys) →
      Turns lists (Function.update (Function.update lists head none) pos
        (some (ys ++ head :: xs)))

omit [DecidableEq Node] in
/-- No node is in two lists. -/
def ListTable.Apart (lists : ListTable Node) : Prop :=
  ∀ left right leftNodes rightNodes, left ≠ right → lists left = some leftNodes →
    lists right = some rightNodes → List.Disjoint (left :: leftNodes) (right :: rightNodes)

namespace ListTable.Apart

variable {lists : ListTable Node}

/-- The list of one head changes; what it has now it had before, or nobody had. -/
theorem update (apart : lists.Apart)
    (had : ∀ node ∈ head :: nodes, lists.Member node →
      ∃ before, lists head = some before ∧ node ∈ head :: before) :
    ListTable.Apart (Function.update lists head (some nodes)) := by
  have fromOthers : ∀ other others, other ≠ head → lists other = some others →
      List.Disjoint (head :: nodes) (other :: others) := by
    intro other others different isOther node inNew inOther
    obtain ⟨before, isHead, inBefore⟩ := had node inNew ⟨other, others, isOther, inOther⟩
    exact apart head other before others (Ne.symm different) isHead isOther inBefore inOther
  intro left right leftNodes rightNodes different isLeft isRight
  rcases ListTable.eq_some_of_update isLeft with ⟨rfl, rfl⟩ | ⟨_, oldLeft⟩
  · rw [Function.update_of_ne (Ne.symm different)] at isRight
    exact fromOthers right rightNodes (Ne.symm different) isRight
  · rcases ListTable.eq_some_of_update isRight with ⟨rfl, rfl⟩ | ⟨_, oldRight⟩
    · exact fun node inLeft inRight => fromOthers left leftNodes different oldLeft inRight inLeft
    · exact apart left right leftNodes rightNodes different oldLeft oldRight

/-- A node that the list of its head has lost is in no list. -/
theorem not_member_update (apart : lists.Apart) {before : List Node} {node : Node}
    (isHead : lists head = some before) (notIn : node ∉ head :: nodes)
    (was : lists.Member node → node ∈ head :: before) :
    ¬ ListTable.Member (Function.update lists head (some nodes)) node := by
  rintro ⟨other, others, isOther, inOther⟩
  rcases ListTable.eq_some_of_update isOther with ⟨rfl, rfl⟩ | ⟨sameHead, isOther⟩
  · exact notIn inOther
  · exact apart other head others before sameHead isOther isHead inOther
      (was ⟨other, others, isOther, inOther⟩)

theorem drop (apart : lists.Apart) (head : Node) :
    ListTable.Apart (Function.update lists head none) :=
  fun left right leftNodes rightNodes different isLeft isRight =>
    apart left right leftNodes rightNodes different (ListTable.eq_some_of_drop isLeft).2
      (ListTable.eq_some_of_drop isRight).2

/-- The nodes of a list that is given up are in no list. -/
theorem not_member_drop (apart : lists.Apart) {node : Node} (isHead : lists head = some nodes)
    (member : node ∈ head :: nodes) :
    ¬ ListTable.Member (Function.update lists head none) node := by
  rintro ⟨other, others, isOther, inOther⟩
  obtain ⟨notHead, isOther⟩ := ListTable.eq_some_of_drop isOther
  exact apart other head others nodes notHead isOther isHead inOther member

end ListTable.Apart

/-! ## Another head -/

namespace ListTable

variable {lists turned : ListTable Node}

/-- Another head changes nothing about which nodes are together. -/
theorem Turns.together_iff (turns : lists.Turns turned) (apart : lists.Apart) {left right : Node} :
    turned.Together left right ↔ lists.Together left right := by
  cases turns with
  | @turn head pos xs ys isHead =>
      have same : ∀ node, node ∈ pos :: (ys ++ head :: xs) ↔ node ∈ head :: (xs ++ pos :: ys) := by
        intro node
        simp only [List.mem_cons, List.mem_append]
        tauto
      constructor
      · rintro ⟨other, others, isOther, inLeft, inRight⟩
        rcases eq_some_of_update isOther with ⟨rfl, rfl⟩ | ⟨_, isOther⟩
        · exact ⟨head, _, isHead, (same left).mp inLeft, (same right).mp inRight⟩
        · exact ⟨other, others, (eq_some_of_drop isOther).2, inLeft, inRight⟩
      · rintro ⟨other, others, isOther, inLeft, inRight⟩
        by_cases sameHead : other = head
        · subst sameHead
          obtain rfl := Option.some.inj (isHead.symm.trans isOther)
          exact ⟨pos, _, Function.update_self .., (same left).mpr inLeft, (same right).mpr inRight⟩
        · have isPos : other ≠ pos := by
            rintro rfl
            exact apart other head others _ sameHead isOther isHead List.mem_cons_self (by simp)
          refine ⟨other, others, ?_, inLeft, inRight⟩
          rw [Function.update_of_ne isPos, Function.update_of_ne sameHead, isOther]

theorem together_of_turned (isTurned : Relation.ReflGen Turns lists turned) (apart : lists.Apart)
    {left right : Node} : turned.Together left right ↔ lists.Together left right := by
  cases isTurned with
  | refl => exact Iff.rfl
  | single turns => exact turns.together_iff apart

theorem Turns.apart (turns : lists.Turns turned) (apart : lists.Apart) : turned.Apart := by
  cases turns with
  | turn isHead =>
      refine (apart.drop _).update fun node inTurned member => ?_
      refine (apart.not_member_drop isHead ?_ member).elim
      simp only [List.mem_cons, List.mem_append] at inTurned ⊢
      tauto

/-- Any node of a list can be made its head. -/
theorem exists_turned {node : Node} (member : lists.Member node) :
    ∃ turned nodes, Relation.ReflGen Turns lists turned ∧ turned node = some nodes ∧
      ∀ other, ¬ lists.Together other node → turned other = lists other := by
  obtain ⟨head, nodes, isHead, inList⟩ := member
  rcases List.mem_cons.mp inList with rfl | inNodes
  · exact ⟨lists, nodes, .refl, isHead, fun _ _ => rfl⟩
  · obtain ⟨xs, ys, rfl⟩ := List.append_of_mem inNodes
    refine ⟨_, _, .single (.turn isHead), Function.update_self .., fun other notTogether => ?_⟩
    rw [Function.update_of_ne, Function.update_of_ne]
    · rintro rfl
      exact notTogether ⟨other, _, isHead, List.mem_cons_self, inList⟩
    · rintro rfl
      exact notTogether ⟨head, _, isHead, inList, inList⟩

/-- No list but one behind the node itself has it, if it is made a head where it is an
entry. -/
theorem Apart.exists_fresh (apart : lists.Apart) (node : Node) :
    ∃ turned, Relation.ReflGen Turns lists turned ∧
      ¬ ListTable.Member (Function.update turned node none) node := by
  by_cases member : lists.Member node
  · obtain ⟨turned, nodes, isTurned, isHead, _⟩ := exists_turned member
    have stillApart : turned.Apart := by
      cases isTurned with
      | refl => exact apart
      | single turns => exact turns.apart apart
    exact ⟨turned, isTurned, stillApart.not_member_drop isHead List.mem_cons_self⟩
  · refine ⟨lists, .refl, ?_⟩
    rintro ⟨other, others, isOther, inOther⟩
    exact member ⟨other, others, (eq_some_of_drop isOther).2, inOther⟩

end ListTable

end LinuxCTemplate.Foundation
