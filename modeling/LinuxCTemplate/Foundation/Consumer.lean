import Mathlib.Algebra.Ring.Nat
import Mathlib.Data.List.TakeDrop

/-!
# A consumer with a budget

Items are offered one after the other.  The consumer refuses the first item that takes the
total weight over its budget, and it may stop after any item that it has taken.  What it has
done in the end is told by the first item at which it does not go on.
-/

namespace LinuxCTemplate.Foundation.Consumer

universe u

/-- Why no more items are taken. -/
inductive Ending where
  | drained
  | stopped
  | exceeded
  deriving DecidableEq, Repr

variable {α : Type u} {weight : α → Nat} {exceeds exceeds' : Nat → Bool} {stops : Nat → Bool}
  {items taken : List α} {ending : Ending} {k : Nat}

/-- The items that are taken.  `exceeds` tells of a total whether it is over the budget, and
`stops` of a number of items whether the consumer stops at the next one. -/
def consume (weight : α → Nat) (exceeds : Nat → Bool) (stops : Nat → Bool) :
    List α → List α × Ending
  | [] => ([], .drained)
  | item :: items =>
      if exceeds (weight item) then
        ([], .exceeded)
      else if stops 0 then
        ([item], .stopped)
      else
        let later := consume weight (fun total => exceeds (weight item + total))
          (fun number => stops (number + 1)) items
        (item :: later.1, later.2)

/-- The total weight of the first `count` items. -/
def load (weight : α → Nat) (items : List α) (count : Nat) : Nat :=
  ((items.take count).map weight).sum

theorem load_zero (weight : α → Nat) (items : List α) : load weight items 0 = 0 := rfl

theorem load_cons (weight : α → Nat) (item : α) (items : List α) (count : Nat) :
    load weight (item :: items) (count + 1) = weight item + load weight items count := by
  rw [load, List.take_succ_cons, List.map_cons, List.sum_cons, load]

theorem load_succ (weight : α → Nat) {items : List α} {count : Nat} (below : count < items.length) :
    load weight items (count + 1) = load weight items count + weight items[count] := by
  rw [load, load, List.take_succ_eq_append_getElem below, List.map_append, List.sum_append,
    List.map_singleton, List.sum_singleton]

theorem load_le (weight : α → Nat) (items : List α) (count : Nat) :
    load weight items count ≤ (items.map weight).sum := by
  have parts := congrArg (fun items => (items.map weight).sum) (List.take_append_drop count items)
  rw [List.map_append, List.sum_append] at parts
  exact Nat.le.intro parts

/-- The consumer takes the item `k`, and goes on. -/
def Passes (weight : α → Nat) (exceeds stops : Nat → Bool) (items : List α) (k : Nat) : Prop :=
  exceeds (load weight items (k + 1)) = false ∧ stops k = false

/-- The three ways to end, with the items that have been taken. -/
inductive Ended (weight : α → Nat) (exceeds stops : Nat → Bool) (items : List α) :
    List α × Ending → Prop where
  | drained : (∀ k < items.length, Passes weight exceeds stops items k) →
      Ended weight exceeds stops items (items, .drained)
  | stopped (k : Nat) : k < items.length → (∀ j < k, Passes weight exceeds stops items j) →
      exceeds (load weight items (k + 1)) = false → stops k = true →
      Ended weight exceeds stops items (items.take (k + 1), .stopped)
  | exceeded (k : Nat) : k < items.length → (∀ j < k, Passes weight exceeds stops items j) →
      exceeds (load weight items (k + 1)) = true →
      Ended weight exceeds stops items (items.take k, .exceeded)

/-- A first item that passes goes before the ones that pass. -/
theorem Passes.cons {item : α} {count : Nat} (within : exceeds (weight item) = false)
    (goes_on : stops 0 = false)
    (passes : ∀ k < count, Passes weight (fun total => exceeds (weight item + total))
      (fun number => stops (number + 1)) items k) :
    ∀ k < count + 1, Passes weight exceeds stops (item :: items) k := by
  intro k below
  cases k with
  | zero => exact ⟨by rwa [load_cons, load_zero, Nat.add_zero], goes_on⟩
  | succ k =>
      obtain ⟨fits, later⟩ := passes k (Nat.lt_of_succ_lt_succ below)
      exact ⟨by rwa [load_cons], later⟩

theorem consume_ended (weight : α → Nat) (exceeds stops : Nat → Bool) (items : List α) :
    Ended weight exceeds stops items (consume weight exceeds stops items) := by
  induction items generalizing exceeds stops with
  | nil => exact .drained fun k below => (Nat.not_lt_zero k below).elim
  | cons item items ih =>
      rw [consume]
      by_cases isOver : exceeds (weight item) = true
      · rw [if_pos isOver]
        exact .exceeded 0 (Nat.succ_pos _) (fun j below => (Nat.not_lt_zero j below).elim)
          (by rwa [load_cons, load_zero, Nat.add_zero])
      · rw [if_neg isOver]
        have within := Bool.not_eq_true _ ▸ isOver
        by_cases stop : stops 0 = true
        · rw [if_pos stop]
          exact .stopped 0 (Nat.succ_pos _) (fun j below => (Nat.not_lt_zero j below).elim)
            (by rwa [load_cons, load_zero, Nat.add_zero]) stop
        · rw [if_neg stop]
          have goes_on := Bool.not_eq_true _ ▸ stop
          have later := ih (fun total => exceeds (weight item + total)) fun number =>
            stops (number + 1)
          generalize consume weight (fun total => exceeds (weight item + total))
            (fun number => stops (number + 1)) items = result at later ⊢
          cases later with
          | drained all => exact .drained (Passes.cons within goes_on all)
          | stopped k below before fits stop =>
              exact .stopped (k + 1) (Nat.succ_lt_succ below) (Passes.cons within goes_on before)
                (by rwa [load_cons]) stop
          | exceeded k below before isOver =>
              exact .exceeded (k + 1) (Nat.succ_lt_succ below) (Passes.cons within goes_on before)
                (by rwa [load_cons])

section Ended

variable (ended : Ended weight exceeds stops items (taken, ending))
include ended

theorem Ended.isPrefix : taken <+: items := by
  cases ended with
  | drained => exact List.prefix_rfl
  | stopped k => exact List.take_prefix _ _
  | exceeded k => exact List.take_prefix _ _

theorem Ended.eq_of_drained (isDrained : ending = .drained) : taken = items := by
  cases ended with
  | drained => rfl
  | stopped => cases isDrained
  | exceeded => cases isDrained

/-- What has been taken is within the budget. -/
theorem Ended.within (start : exceeds 0 = false) : exceeds (taken.map weight).sum = false := by
  have passed : ∀ k ≤ items.length, (∀ j < k, Passes weight exceeds stops items j) →
      exceeds (load weight items k) = false := by
    intro k _ before
    cases k with
    | zero => exact start
    | succ k => exact (before k (Nat.lt_succ_self k)).1
  cases ended with
  | drained all =>
      have whole := passed items.length (Nat.le_refl _) all
      rwa [load, List.take_length] at whole
  | stopped k below before fits => exact fits
  | exceeded k below before => exact passed k (Nat.le_of_lt below) before

/-- The consumer stops after the last item that it has taken. -/
theorem Ended.stop_last (inTaken : k < taken.length) (stop : stops k = true) :
    k + 1 = taken.length ∧ ending = .stopped := by
  have notBefore : ∀ j, k < j → ¬ ∀ i < j, Passes weight exceeds stops items i := by
    intro j later before
    have goes_on := (before k later).2
    rw [stop] at goes_on
    cases goes_on
  cases ended with
  | drained all => exact (notBefore _ inTaken all).elim
  | stopped j below before =>
      rw [List.length_take] at inTaken ⊢
      have notLater : ¬ k < j := fun later => notBefore j later before
      exact ⟨by omega, rfl⟩
  | exceeded j below before =>
      rw [List.length_take] at inTaken
      exact (notBefore j (by omega) before).elim

/-- The budget ends the consumption exactly if the first item that does not pass exceeds it. -/
theorem Ended.exceeded_iff :
    ending = .exceeded ↔ ∃ k < items.length, exceeds (load weight items (k + 1)) = true ∧
      ∀ j < k, Passes weight exceeds stops items j := by
  constructor
  · rintro rfl
    cases ended with
    | exceeded k below before isOver => exact ⟨k, below, isOver, before⟩
  · rintro ⟨k, below, isOver, before⟩
    cases ended with
    | exceeded => rfl
    | drained all =>
        have fits := (all k below).1
        rw [isOver] at fits
        cases fits
    | stopped j _ before' fits stop =>
        rcases Nat.lt_trichotomy j k with earlier | rfl | later
        · have goes_on := (before j earlier).2
          rw [stop] at goes_on
          cases goes_on
        · rw [isOver] at fits
          cases fits
        · have fits := (before' k later).1
          rw [isOver] at fits
          cases fits

end Ended

/-- Only the totals that are reached within the budget matter. -/
theorem consume_congr
    (agree : ∀ k < items.length, exceeds' (load weight items k) = false →
      exceeds (load weight items (k + 1)) = exceeds' (load weight items (k + 1)))
    (start : exceeds' 0 = false) :
    consume weight exceeds stops items = consume weight exceeds' stops items := by
  induction items generalizing exceeds exceeds' stops with
  | nil => rfl
  | cons item items ih =>
      have first := agree 0 (Nat.succ_pos _) start
      rw [load_cons, load_zero, Nat.add_zero] at first
      rw [consume, consume, first]
      by_cases isOver : exceeds' (weight item) = true
      · rw [if_pos isOver, if_pos isOver]
      · rw [if_neg isOver, if_neg isOver]
        have later : consume weight (fun total => exceeds (weight item + total))
            (fun number => stops (number + 1)) items =
            consume weight (fun total => exceeds' (weight item + total))
              (fun number => stops (number + 1)) items := by
          refine ih ?_ (Bool.not_eq_true _ ▸ isOver)
          intro k below within
          have next := agree (k + 1) (Nat.succ_lt_succ below)
          rw [load_cons, load_cons] at next
          exact next within
        rw [later]

end LinuxCTemplate.Foundation.Consumer
