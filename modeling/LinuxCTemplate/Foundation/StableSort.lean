import Mathlib.Data.List.Basic

/-!
# Stable sorting by a key

A walk over a list for each key in turn visits the elements in the sequence of a stable
sort by that key.  A walk that stops right after a certain element is a cut of the list;
cuts compose along concatenation.
-/

namespace LinuxCTemplate.Foundation

universe u

variable {α : Type u}

/-! ## Sorting -/

/-- The elements by ascending key, those of one key in their old sequence. -/
def sortByKey (key : α → Nat) (values : List α) : List α :=
  values.mergeSort fun left right => decide (key left ≤ key right)

section Sorting

variable {values left right : List α}

theorem sortByKey_perm (key : α → Nat) (values : List α) : (sortByKey key values).Perm values :=
  List.mergeSort_perm _ _

theorem sortByKey_pairwise (key : α → Nat) (values : List α) :
    (sortByKey key values).Pairwise fun left right => key left ≤ key right := by
  have sorted := @List.pairwise_mergeSort _ (fun left right => decide (key left ≤ key right))
    (by simpa using fun _ _ _ => Nat.le_trans) (by simpa using fun _ _ => Nat.le_total _ _) values
  exact sorted.imp of_decide_eq_true

/-- Sorting keeps the sequence of the elements of one key. -/
theorem filter_sortByKey (key : α → Nat) (values : List α) (k : Nat) :
    (sortByKey key values).filter (key · == k) = values.filter (key · == k) := by
  have sameKey : (values.filter (key · == k)).Pairwise
      fun left right => decide (key left ≤ key right) = true := by
    apply List.pairwise_of_forall_mem_list
    intro left inLeft right inRight
    simp only [List.mem_filter, beq_iff_eq] at inLeft inRight
    simp [inLeft.2, inRight.2]
  have kept : (values.filter (key · == k)).Sublist (sortByKey key values) :=
    List.sublist_mergeSort (by simpa using fun _ _ _ => Nat.le_trans)
      (by simpa using fun _ _ => Nat.le_total _ _) sameKey List.filter_sublist
  have inFilter := kept.filter (key · == k)
  rw [List.filter_filter] at inFilter
  simp only [Bool.and_self] at inFilter
  exact (inFilter.eq_of_length ((sortByKey_perm key values).filter _).length_eq.symm).symm

/-- A sorted list is determined by its elements of each key in sequence. -/
theorem eq_of_filter_eq (key : α → Nat)
    (leftSorted : left.Pairwise fun first second => key first ≤ key second)
    (rightSorted : right.Pairwise fun first second => key first ≤ key second)
    (same : ∀ k, left.filter (key · == k) = right.filter (key · == k)) : left = right := by
  induction left generalizing right with
  | nil =>
      cases right with
      | nil => rfl
      | cons head right => simpa using same (key head)
  | cons first left ih =>
      cases right with
      | nil => simpa using same (key first)
      | cons second right =>
          have mem_of : ∀ element, element ∈ first :: left ↔ element ∈ second :: right := by
            intro element
            have members := congrArg (element ∈ ·) (same (key element))
            simpa using members
          have leftFirst := (List.pairwise_cons.mp leftSorted).1
          have rightFirst := (List.pairwise_cons.mp rightSorted).1
          have le : key first ≤ key second := by
            rcases List.mem_cons.mp ((mem_of second).mpr List.mem_cons_self) with isFirst | later
            · exact Nat.le_of_eq (by rw [isFirst])
            · exact leftFirst second later
          have ge : key second ≤ key first := by
            rcases List.mem_cons.mp ((mem_of first).mp List.mem_cons_self) with isSecond | later
            · exact Nat.le_of_eq (by rw [isSecond])
            · exact rightFirst first later
          have sameKey : key second = key first := Nat.le_antisymm ge le
          have heads := same (key first)
          simp only [List.filter_cons, sameKey, beq_self_eq_true, if_true, List.cons.injEq] at heads
          obtain rfl := heads.1
          have tails : left = right := by
            apply ih (List.pairwise_cons.mp leftSorted).2 (List.pairwise_cons.mp rightSorted).2
            intro k
            have filtered := same k
            simp only [List.filter_cons] at filtered
            split at filtered
            · exact (List.cons.inj filtered).2
            · exact filtered
          rw [tails]

/-- What the walks for the keys below a bound visit of one key. -/
theorem filter_flatMap_range (key : α → Nat) (values : List α) (bound k : Nat) :
    ((List.range bound).flatMap fun other => values.filter (key · == other)).filter (key · == k) =
      if k < bound then values.filter (key · == k) else [] := by
  induction bound with
  | zero => rfl
  | succ bound ih =>
      rw [List.range_succ, List.flatMap_append, List.filter_append, ih, List.flatMap_singleton,
        List.filter_filter]
      by_cases same : k = bound
      · subst same
        simp
      · have none : values.filter (fun value => key value == k && key value == bound) = [] := by
          rw [List.filter_eq_nil_iff]
          intro value _
          simp only [Bool.and_eq_true, beq_iff_eq]
          exact fun both => same (both.1.symm.trans both.2)
        rw [none, List.append_nil]
        have step : k < bound + 1 ↔ k < bound := by omega
        simp only [step]

theorem flatMap_range_pairwise (key : α → Nat) (values : List α) (bound : Nat) :
    ((List.range bound).flatMap fun k => values.filter (key · == k)).Pairwise
      fun left right => key left ≤ key right := by
  rw [List.pairwise_flatMap]
  constructor
  · intro k _
    apply List.pairwise_of_forall_mem_list
    intro left inLeft right inRight
    simp only [List.mem_filter, beq_iff_eq] at inLeft inRight
    exact Nat.le_of_eq (inLeft.2.trans inRight.2.symm)
  · apply List.pairwise_lt_range.imp
    intro lower upper below left inLeft right inRight
    simp only [List.mem_filter, beq_iff_eq] at inLeft inRight
    rw [inLeft.2, inRight.2]
    exact Nat.le_of_lt below

/-- Walks for the keys in turn visit the elements in the sequence of the sort. -/
theorem flatMap_filter_eq_sortByKey {key : α → Nat} {bound : Nat}
    (below : ∀ value ∈ values, key value < bound) :
    (List.range bound).flatMap (fun k => values.filter (key · == k)) = sortByKey key values := by
  apply eq_of_filter_eq key (flatMap_range_pairwise key values bound)
    (sortByKey_pairwise key values)
  intro k
  rw [filter_flatMap_range, filter_sortByKey]
  split
  next => rfl
  next beyond =>
    symm
    rw [List.filter_eq_nil_iff]
    intro value member
    have bounded := below value member
    simp only [beq_iff_eq]
    omega

end Sorting

/-! ## Cutting -/

/-- The list up to and including the first element to stop at. -/
def cutAfter (stop : α → Bool) : List α → List α
  | [] => []
  | value :: rest => if stop value then [value] else value :: cutAfter stop rest

section Cutting

variable {stop : α → Bool} {left right values : List α}

theorem cutAfter_append_of_any (stops : left.any stop = true) :
    cutAfter stop (left ++ right) = cutAfter stop left := by
  induction left with
  | nil => cases stops
  | cons value left ih =>
      rw [List.cons_append, cutAfter, cutAfter]
      by_cases here : stop value = true
      · rw [if_pos here, if_pos here]
      · rw [List.any_cons, Bool.or_eq_true] at stops
        rw [if_neg here, if_neg here, ih (stops.resolve_left here)]

theorem cutAfter_append_of_not_any (passes : left.any stop = false) :
    cutAfter stop (left ++ right) = left ++ cutAfter stop right := by
  induction left with
  | nil => rfl
  | cons value left ih =>
      rw [List.any_cons, Bool.or_eq_false_iff] at passes
      rw [List.cons_append, cutAfter, passes.1, ih passes.2]
      rfl

theorem cutAfter_prefix (stop : α → Bool) (values : List α) : cutAfter stop values <+: values := by
  induction values with
  | nil => exact List.prefix_rfl
  | cons value values ih =>
      rw [cutAfter]
      split
      · exact List.prefix_cons_inj value |>.mpr List.nil_prefix
      · exact List.prefix_cons_inj value |>.mpr ih

/-- A cut keeps an element to stop at, if there is one. -/
theorem any_cutAfter (stop : α → Bool) (values : List α) :
    (cutAfter stop values).any stop = values.any stop := by
  induction values with
  | nil => rfl
  | cons value values ih =>
      rw [cutAfter]
      split
      next here => simp [here]
      next => rw [List.any_cons, List.any_cons, ih]

end Cutting

end LinuxCTemplate.Foundation
