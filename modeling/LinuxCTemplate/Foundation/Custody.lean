import Mathlib.Data.Set.Card

/-!
# Custody of items

Every live item is on a stack or in the hands of one agent, never both.  The rules
say how items come into being, change hands and disappear; the count of the live items
follows.
-/

namespace LinuxCTemplate.Foundation

universe u v

variable {Item : Type u} {Agent : Type v} {live live' stack freed kept : List Item}
  {held held' : Agent → List Item} {taker : Agent} {item : Item}

/-- Every live item is on the stack or held by exactly one agent. -/
structure Custody (live stack : List Item) (held : Agent → List Item) : Prop where
  cover : ∀ item, item ∈ live ↔ item ∈ stack ∨ ∃ agent, item ∈ held agent
  stackNodup : stack.Nodup
  nodup : ∀ agent, (held agent).Nodup
  apart : ∀ agent, ∀ item ∈ held agent, item ∉ stack
  unique : ∀ left right item, item ∈ held left → item ∈ held right → left = right

/-- One agent has the item besides what it had before; nothing else has changed. -/
structure Gains (taker : Agent) (item : Item) (held held' : Agent → List Item) : Prop where
  own : (held' taker).Perm (item :: held taker)
  others : ∀ agent, agent ≠ taker → held' agent = held agent

theorem Gains.mem_iff (gains : Gains taker item held held') {agent : Agent} {other : Item} :
    other ∈ held' agent ↔ other ∈ held agent ∨ agent = taker ∧ other = item := by
  by_cases same : agent = taker
  · rw [same, gains.own.mem_iff, List.mem_cons]
    simp [or_comm]
  · rw [gains.others agent same]
    simp [same]

namespace Custody

theorem mem_of_held (custody : Custody live stack held) {agent : Agent}
    (member : item ∈ held agent) : item ∈ live :=
  (custody.cover item).mpr (Or.inr ⟨agent, member⟩)

theorem mem_of_stack (custody : Custody live stack held) (member : item ∈ stack) : item ∈ live :=
  (custody.cover item).mpr (Or.inl member)

/-- The order in which an agent holds its items does not matter. -/
theorem perm (custody : Custody live stack held) (same : ∀ agent, (held' agent).Perm (held agent)) :
    Custody live stack held' where
  cover item := by simp only [custody.cover item, (same _).mem_iff]
  stackNodup := custody.stackNodup
  nodup agent := (same agent).nodup_iff.mpr (custody.nodup agent)
  apart agent item member := custody.apart agent item ((same agent).mem_iff.mp member)
  unique left right item inLeft inRight :=
    custody.unique left right item ((same left).mem_iff.mp inLeft) ((same right).mem_iff.mp inRight)

/-- A new item starts on the stack. -/
theorem create (custody : Custody live stack held) (new : item ∉ live) :
    Custody (item :: live) (item :: stack) held where
  cover other := by
    rw [List.mem_cons, List.mem_cons, custody.cover other, or_assoc]
  stackNodup := List.nodup_cons.mpr ⟨fun member => new (custody.mem_of_stack member),
    custody.stackNodup⟩
  nodup := custody.nodup
  apart agent other member inStack := by
    rcases List.mem_cons.mp inStack with rfl | inOld
    · exact new (custody.mem_of_held member)
    · exact custody.apart agent other member inOld
  unique := custody.unique

/-- The top of the stack goes to an agent. -/
theorem take (custody : Custody live (item :: stack) held) (gains : Gains taker item held held') :
    Custody live stack held' where
  cover other := by
    rw [custody.cover other, List.mem_cons]
    simp only [gains.mem_iff, exists_or, exists_eq_left]
    rw [or_comm (a := other = item), or_assoc, or_comm (a := other = item)]
  stackNodup := (List.nodup_cons.mp custody.stackNodup).2
  nodup agent := by
    by_cases same : agent = taker
    · rw [same, gains.own.nodup_iff, List.nodup_cons]
      refine ⟨fun member => ?_, custody.nodup taker⟩
      exact custody.apart taker item member List.mem_cons_self
    · rw [gains.others agent same]
      exact custody.nodup agent
  apart agent other member inStack := by
    rcases gains.mem_iff.mp member with before | ⟨_, rfl⟩
    · exact custody.apart agent other before (List.mem_cons_of_mem _ inStack)
    · exact (List.nodup_cons.mp custody.stackNodup).1 inStack
  unique left right other inLeft inRight := by
    rcases gains.mem_iff.mp inLeft with leftBefore | ⟨isLeft, isItem⟩ <;>
      rcases gains.mem_iff.mp inRight with rightBefore | ⟨isRight, isItem'⟩
    · exact custody.unique left right other leftBefore rightBefore
    · exact (custody.apart left other leftBefore (isItem' ▸ List.mem_cons_self)).elim
    · exact (custody.apart right other rightBefore (isItem ▸ List.mem_cons_self)).elim
    · exact isLeft.trans isRight.symm

/-- An agent puts an item on the stack. -/
theorem give (custody : Custody live stack held') (gains : Gains taker item held held') :
    Custody live (item :: stack) held := by
  have before : ∀ agent other, other ∈ held agent → other ∈ held' agent :=
    fun agent other member => gains.mem_iff.mpr (Or.inl member)
  have inTaker : item ∈ held' taker := gains.mem_iff.mpr (Or.inr ⟨rfl, rfl⟩)
  have notHeld : item ∉ held taker := by
    have nodup := gains.own.nodup_iff.mp (custody.nodup taker)
    exact (List.nodup_cons.mp nodup).1
  constructor
  case cover =>
    intro other
    rw [custody.cover other, List.mem_cons]
    simp only [gains.mem_iff, exists_or, exists_eq_left]
    rw [or_comm (a := other = item), or_assoc, or_comm (a := other = item)]
  case stackNodup =>
    exact List.nodup_cons.mpr ⟨custody.apart taker item inTaker, custody.stackNodup⟩
  case nodup =>
    intro agent
    by_cases same : agent = taker
    · rw [same]
      exact (List.nodup_cons.mp (gains.own.nodup_iff.mp (custody.nodup taker))).2
    · rw [← gains.others agent same]
      exact custody.nodup agent
  case apart =>
    intro agent other member inStack
    rcases List.mem_cons.mp inStack with rfl | inOld
    · have isTaker := custody.unique agent taker other (before agent other member) inTaker
      exact notHeld (isTaker ▸ member)
    · exact custody.apart agent other (before agent other member) inOld
  case unique =>
    intro left right other inLeft inRight
    exact custody.unique left right other (before left other inLeft) (before right other inRight)

/-- Items from the top of the stack disappear. -/
theorem drop (custody : Custody live (freed ++ kept) held) (nodup : live.Nodup)
    (isRest : live.Perm (freed ++ live')) : Custody live' kept held := by
  have stackNodup := List.nodup_append.mp custody.stackNodup
  have liveNodup := List.nodup_append.mp (isRest.nodup_iff.mp nodup)
  constructor
  case cover =>
    intro item
    have cover := custody.cover item
    rw [isRest.mem_iff, List.mem_append, List.mem_append] at cover
    have notBoth : item ∈ freed → item ∉ live' := fun inFreed inLive =>
      liveNodup.2.2 item inFreed item inLive rfl
    have notKept : item ∈ freed → item ∉ kept := fun inFreed inKept =>
      stackNodup.2.2 item inFreed item inKept rfl
    have notHeld : item ∈ freed → ¬ ∃ agent, item ∈ held agent := by
      rintro inFreed ⟨agent, member⟩
      exact custody.apart agent item member (List.mem_append_left _ inFreed)
    constructor
    · intro inLive
      rcases cover.mp (Or.inr inLive) with (inFreed | inKept) | inHands
      · exact (notBoth inFreed inLive).elim
      · exact Or.inl inKept
      · exact Or.inr inHands
    · intro inPlace
      have notFreed : item ∉ freed :=
        fun inFreed => inPlace.elim (notKept inFreed) (notHeld inFreed)
      exact (cover.mpr (inPlace.imp_left Or.inr)).resolve_left notFreed
  case stackNodup => exact stackNodup.2.1
  case nodup => exact custody.nodup
  case apart =>
    intro agent item member inKept
    exact custody.apart agent item member (List.mem_append_right _ inKept)
  case unique => exact custody.unique

/-- The live items are the ones on the stack and the ones in somebody's hands. -/
theorem length_eq (custody : Custody live stack held) (nodup : live.Nodup) :
    {item | ∃ agent, item ∈ held agent}.Finite ∧
      live.length = stack.length + {item | ∃ agent, item ∈ held agent}.ncard := by
  classical
  have isHeld : {item | ∃ agent, item ∈ held agent} = ↑(live.toFinset \ stack.toFinset) := by
    ext item
    simp only [Set.mem_ofPred_eq, Finset.coe_sdiff, Set.mem_sdiff, List.coe_toFinset]
    constructor
    · rintro ⟨agent, member⟩
      exact ⟨custody.mem_of_held member, custody.apart agent item member⟩
    · rintro ⟨isLive, notCached⟩
      exact ((custody.cover item).mp isLive).resolve_left notCached
  have subset : stack.toFinset ⊆ live.toFinset := by
    intro item member
    rw [List.mem_toFinset] at member ⊢
    exact custody.mem_of_stack member
  rw [isHeld, Set.ncard_coe_finset, Finset.card_sdiff_of_subset subset,
    List.toFinset_card_of_nodup nodup, List.toFinset_card_of_nodup custody.stackNodup]
  have le := Finset.card_le_card subset
  rw [List.toFinset_card_of_nodup nodup, List.toFinset_card_of_nodup custody.stackNodup] at le
  exact ⟨Finset.finite_toSet _, (Nat.add_sub_cancel' le).symm⟩

end Custody

end LinuxCTemplate.Foundation
