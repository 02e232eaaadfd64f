import Mathlib.Logic.Function.Basic
import Mathlib.Data.List.Nodup

/-!
# Circular doubly linked lists

A ring is a head node and a list of other nodes such that each node and the one after
it, around the head, point at each other.  It is stated over the two link functions, so
it says nothing about where the links are stored.  The rules are insertion after the
head and removal of the first node, as sequences of single link writes.
-/

namespace LinuxCTemplate.Foundation

universe u

variable {Node : Type u} {next prev next' prev' : Node → Node} {head first last new : Node}
  {nodes rest : List Node}

/-- From `first` over `nodes` to `last`, neighbours point at each other. -/
def Linked (next prev : Node → Node) (first : Node) : List Node → Node → Prop
  | [], last => next first = last ∧ prev last = first
  | node :: nodes, last => next first = node ∧ prev node = first ∧ Linked next prev node nodes last

theorem Linked.congr (linked : Linked next prev first nodes last)
    (sameNext : ∀ node ∈ first :: nodes, next' node = next node)
    (samePrev : ∀ node ∈ last :: nodes, prev' node = prev node) :
    Linked next' prev' first nodes last := by
  induction nodes generalizing first with
  | nil =>
      exact ⟨(sameNext first (by simp)).trans linked.1, (samePrev last (by simp)).trans linked.2⟩
  | cons node nodes ih =>
      refine ⟨(sameNext first (by simp)).trans linked.1,
        (samePrev node (by simp)).trans linked.2.1, ih linked.2.2 ?_ ?_⟩
      · exact fun other member => sameNext other (List.mem_cons_of_mem _ member)
      · intro other member
        rcases List.mem_cons.mp member with isLast | inNodes
        · exact samePrev other (by simp [isLast])
        · exact samePrev other (by simp [inNodes])

/-- A circular doubly linked list without repetitions. -/
structure Ring (next prev : Node → Node) (head : Node) (nodes : List Node) : Prop where
  nodup : (head :: nodes).Nodup
  linked : Linked next prev head nodes head

namespace Ring

theorem congr (ring : Ring next prev head nodes)
    (sameNext : ∀ node ∈ head :: nodes, next' node = next node)
    (samePrev : ∀ node ∈ head :: nodes, prev' node = prev node) : Ring next' prev' head nodes :=
  ⟨ring.nodup, ring.linked.congr sameNext samePrev⟩

/-- A ring is determined by its links. -/
theorem next_head (ring : Ring next prev head nodes) :
    next head = nodes.headD head := by
  cases nodes with
  | nil => exact ring.linked.1
  | cons node nodes => exact ring.linked.1

theorem prev_first (ring : Ring next prev head (first :: rest)) : prev first = head :=
  ring.linked.2.1

theorem next_first (ring : Ring next prev head (first :: rest)) :
    next first = rest.headD head := by
  cases rest with
  | nil => exact ring.linked.2.2.1
  | cons node nodes => exact ring.linked.2.2.1

theorem next_head_mem (ring : Ring next prev head nodes) : next head ∈ head :: nodes := by
  rw [ring.next_head]
  cases nodes <;> simp

theorem nil_iff (ring : Ring next prev head nodes) : nodes = [] ↔ next head = head := by
  rw [ring.next_head]
  cases nodes with
  | nil => simp
  | cons node nodes =>
      have different : node ≠ head := by
        rintro rfl
        exact (List.nodup_cons.mp ring.nodup).1 List.mem_cons_self
      simp [different]

variable [DecidableEq Node]

/-- Insertion after the head: `next->prev = new`, `new->next = next`, `new->prev = head`,
`head->next = new`. -/
theorem insert (ring : Ring next prev head nodes) (fresh : new ∉ head :: nodes)
    (isNext : ∀ node ∈ new :: head :: nodes, next' node =
      Function.update (Function.update next new (next head)) head new node)
    (isPrev : ∀ node ∈ new :: head :: nodes, prev' node =
      Function.update (Function.update prev (next head) new) new head node) :
    Ring next' prev' head (new :: nodes) := by
  have notHead : new ≠ head := fun same => fresh (by simp [same])
  have notNext : next head ≠ new := fun same => fresh (same ▸ ring.next_head_mem)
  have nextNew : next' new = next head := by
    rw [isNext new (by simp), Function.update_of_ne notHead, Function.update_self]
  have nextHead : next' head = new := by
    rw [isNext head (by simp), Function.update_self]
  have prevNew : prev' new = head := by
    rw [isPrev new (by simp), Function.update_self]
  have prevNext : prev' (next head) = new := by
    rw [isPrev _ (List.mem_cons_of_mem _ ring.next_head_mem), Function.update_of_ne notNext,
      Function.update_self]
  have nodup : (head :: new :: nodes).Nodup := by
    rw [List.nodup_cons, List.nodup_cons]
    have old := List.nodup_cons.mp ring.nodup
    refine ⟨?_, fun inNodes => fresh (List.mem_cons_of_mem _ inNodes), old.2⟩
    intro member
    rcases List.mem_cons.mp member with same | inNodes
    · exact notHead same.symm
    · exact old.1 inNodes
  refine ⟨nodup, nextHead, prevNew, ?_⟩
  cases nodes with
  | nil =>
      rw [ring.next_head] at nextNew prevNext
      exact ⟨nextNew, prevNext⟩
  | cons first rest =>
      rw [ring.next_head] at nextNew prevNext
      refine ⟨nextNew, prevNext, ring.linked.2.2.congr ?_ ?_⟩
      · intro node member
        have otherThanHead : node ≠ head := by
          rintro rfl
          exact (List.nodup_cons.mp ring.nodup).1 member
        have otherThanNew : node ≠ new := by
          rintro rfl
          exact fresh (List.mem_cons_of_mem _ member)
        rw [isNext node (List.mem_cons_of_mem _ (List.mem_cons_of_mem _ member)),
          Function.update_of_ne otherThanHead, Function.update_of_ne otherThanNew]
      · intro node member
        have inRing : node ∈ head :: first :: rest := by
          rcases List.mem_cons.mp member with isHead | inRest
          · simp [isHead]
          · simp [inRest]
        have otherThanNew : node ≠ new := by
          rintro rfl
          exact fresh inRing
        have otherThanNext : node ≠ next head := by
          rw [ring.next_head]
          rintro rfl
          rcases List.mem_cons.mp member with isHead | inRest
          · exact (List.nodup_cons.mp ring.nodup).1 (isHead ▸ List.mem_cons_self)
          · exact (List.nodup_cons.mp (List.nodup_cons.mp ring.nodup).2).1 inRest
        rw [isPrev node (List.mem_cons_of_mem _ inRing), Function.update_of_ne otherThanNew,
          Function.update_of_ne otherThanNext]

/-- Removal of the first node: `next->prev = prev`, `prev->next = next`. -/
theorem remove_first (ring : Ring next prev head (first :: rest))
    (isNext : ∀ node ∈ head :: rest,
      next' node = Function.update next (prev first) (next first) node)
    (isPrev : ∀ node ∈ head :: rest,
      prev' node = Function.update prev (next first) (prev first) node) :
    Ring next' prev' head rest := by
  rw [ring.prev_first] at isNext isPrev
  obtain ⟨headNotIn, restNodup⟩ := List.nodup_cons.mp ring.nodup
  have nodup : (head :: rest).Nodup :=
    List.nodup_cons.mpr ⟨fun member => headNotIn (List.mem_cons_of_mem _ member),
      (List.nodup_cons.mp restNodup).2⟩
  have nextHead : next' head = next first := by
    rw [isNext head List.mem_cons_self, Function.update_self]
  have linked := ring.linked.2.2
  refine ⟨nodup, ?_⟩
  cases rest with
  | nil =>
      refine ⟨nextHead.trans linked.1, ?_⟩
      rw [isPrev head List.mem_cons_self, linked.1, Function.update_self]
  | cons second rest =>
      obtain ⟨nextFirst, _, others⟩ := linked
      refine ⟨nextHead.trans nextFirst, ?_, others.congr ?_ ?_⟩
      · rw [isPrev second (by simp), nextFirst, Function.update_self]
      · intro node member
        have otherThanHead : node ≠ head := by
          rintro rfl
          exact (List.nodup_cons.mp nodup).1 member
        rw [isNext node (List.mem_cons_of_mem _ member), Function.update_of_ne otherThanHead]
      · intro node member
        have otherThanSecond : node ≠ second := by
          rintro rfl
          rcases List.mem_cons.mp member with isHead | inRest
          · exact (List.nodup_cons.mp nodup).1 (isHead ▸ List.mem_cons_self)
          · exact (List.nodup_cons.mp (List.nodup_cons.mp nodup).2).1 inRest
        have inRing : node ∈ head :: second :: rest := by
          rcases List.mem_cons.mp member with isHead | inRest
          · simp [isHead]
          · simp [inRest]
        rw [isPrev node inRing, nextFirst, Function.update_of_ne otherThanSecond]

end Ring

end LinuxCTemplate.Foundation
