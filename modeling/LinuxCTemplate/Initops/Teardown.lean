import Mathlib.Data.List.Pairwise
import LinuxCTemplate.Initops.Rollback

/-!
# Tear-down after a successful start-up

For a table all of whose callbacks are present, start-up and tear-down both
concatenate, order by order, the same increasing block of section indices; one
ascends over the orders and the other descends.  Reversing the start-up reverses
every block as well, which tear-down does not do, so the two mirror each other
exactly when no block holds two entries.
-/

namespace LinuxCTemplate.Initops

variable {Fn Priv : Type}

/-- Every entry has an order in `[INITOPS_ORDER_FIRST, INITOPS_ORDER_MAX]` and
both callbacks. -/
def Regular (table : List (Initops Fn Priv)) : Prop :=
  ∀ initops ∈ table, initopsOrderFirst ≤ initops.order ∧ initops.order ≤ initopsOrderMax ∧
    initops.init.isSome ∧ initops.exit.isSome

/-- `initops_exec_exit` calls the exit of every entry once, in the reverse of the
sequence in which `initops_exec_init` called the inits. -/
def MirrorsStartUp (table : List (Initops Fn Priv)) (outcome : Outcome) : Prop :=
  (∀ index, index < table.length → (exitEntries (initopsExecExit table)).count index = 1) ∧
    exitEntries (initopsExecExit table) =
      (initEntries (initopsExecInit table outcome).1).reverse

/-- The section indices of one order, as the exit walk visits them. -/
def block (table : List (Initops Fn Priv)) (order : Nat) : List Nat :=
  exitEntries (initopsExecExitByOrder table order)

/-! ## Lists of blocks -/

/-- Concatenations of blocks of equal lengths agree only blockwise. -/
theorem flatMap_eq_iff {α β : Type} (keys : List α) (left right : α → List β)
    (sameLength : ∀ key ∈ keys, (left key).length = (right key).length) :
    keys.flatMap left = keys.flatMap right ↔ ∀ key ∈ keys, left key = right key := by
  induction keys with
  | nil => simp
  | cons key keys ih =>
      have headLength := sameLength key List.mem_cons_self
      have tailLength := fun other member => sameLength other (List.mem_cons_of_mem key member)
      rw [List.flatMap_cons, List.flatMap_cons, List.forall_mem_cons, ← ih tailLength]
      constructor
      · intro equal
        exact List.append_inj equal headLength
      · rintro ⟨headEqual, tailEqual⟩
        rw [headEqual, tailEqual]

/-- An increasing list that is its own reverse has at most one element. -/
theorem increasing_eq_reverse_iff {values : List Nat} (increasing : values.Pairwise (· < ·)) :
    values = values.reverse ↔ values.length ≤ 1 := by
  constructor
  · intro palindrome
    have decreasing : values.Pairwise (fun left right => right < left) := by
      rw [palindrome, List.pairwise_reverse]
      exact increasing
    match values, increasing, decreasing with
    | [], _, _ => exact Nat.zero_le 1
    | [_], _, _ => exact Nat.le_refl 1
    | first :: second :: _, increasing, decreasing =>
        have less : first < second := List.rel_of_pairwise_cons increasing List.mem_cons_self
        have greater : second < first := List.rel_of_pairwise_cons decreasing List.mem_cons_self
        omega
  · intro short
    match values, short with
    | [], _ => rfl
    | [_], _ => rfl

/-! ## Start-up and tear-down as lists of blocks -/

/-- A completed init walk over entries with both callbacks calls the inits of the
indices whose exits the exit walk calls. -/
theorem initEntries_initScan (outcome : Outcome) (order : Nat)
    (rest : List (Initops Fn Priv)) (iter : Nat)
    (callbacks : ∀ initops ∈ rest, initops.init.isSome ∧ initops.exit.isSome)
    (completes : (initScan outcome order iter rest).2 = none) :
    initEntries (initScan outcome order iter rest).1 =
      exitEntries (exitScan order iter rest) := by
  induction rest generalizing iter with
  | nil => rfl
  | cons initops rest ih =>
      obtain ⟨hasInit, hasExit⟩ := callbacks initops List.mem_cons_self
      have later := ih (iter + 1) fun other member =>
        callbacks other (List.mem_cons_of_mem _ member)
      obtain ⟨fn, init⟩ := Option.isSome_iff_exists.mp hasInit
      obtain ⟨fn', exit⟩ := Option.isSome_iff_exists.mp hasExit
      rw [initScan] at completes ⊢
      rw [exitScan, exitEntries_append, exitEntry]
      by_cases sameOrder : initops.order = order
      · by_cases negative : outcome iter < 0
        · simp [sameOrder, init, negative] at completes
        · simp only [sameOrder, if_true, init, exit, negative, if_false] at completes ⊢
          rw [initEntries_init, later completes]
          rfl
      · simp only [sameOrder, if_false] at completes ⊢
        rw [later completes]
        rfl

/-- One order of a start-up that goes on to the next. -/
theorem initEntries_execInitByOrder {table : List (Initops Fn Priv)} {outcome : Outcome}
    (regular : Regular table) {order : Nat}
    (succeeds : (initopsExecInitByOrder table outcome order).2 = 0) :
    initEntries (initopsExecInitByOrder table outcome order).1 = block table order := by
  have callbacks : ∀ initops ∈ table, initops.init.isSome ∧ initops.exit.isSome :=
    fun initops member => (regular initops member).2.2
  have scanned := initEntries_initScan outcome order table 0 callbacks
  unfold initopsExecInitByOrder at succeeds ⊢
  unfold block initopsExecExitByOrder
  generalize initScan outcome order 0 table = scan at succeeds scanned ⊢
  obtain ⟨calls, failed⟩ := scan
  cases failed with
  | none => exact scanned rfl
  | some failed =>
      by_cases atStart : failed = 0 <;> simp [atStart] at succeeds

theorem initEntries_initOrdersFrom {table : List (Initops Fn Priv)} {outcome : Outcome}
    (regular : Regular table) {rounds order : Nat}
    (completes : (initOrdersFrom table outcome rounds order).2 = none) :
    initEntries (initOrdersFrom table outcome rounds order).1 =
      (List.range' order rounds).flatMap (block table) := by
  induction rounds generalizing order with
  | zero => rfl
  | succ rounds ih =>
      rw [initOrdersFrom] at completes ⊢
      by_cases succeeds : (initopsExecInitByOrder table outcome order).2 = 0
      · simp only [succeeds, ne_eq, not_true_eq_false, if_false] at completes ⊢
        rw [initEntries_append, initEntries_execInitByOrder regular succeeds, ih completes,
          List.range'_succ, List.flatMap_cons]
      · simp [succeeds] at completes

/-- A successful start-up ascends over the blocks. -/
theorem initEntries_execInit {table : List (Initops Fn Priv)} {outcome : Outcome}
    (regular : Regular table) (succeeds : (initopsExecInit table outcome).2 = 0) :
    initEntries (initopsExecInit table outcome).1 =
      (List.range (initopsOrderMax + 1)).flatMap (block table) := by
  have ascending := @initEntries_initOrdersFrom _ _ table outcome regular
    (initopsOrderMax + 1) initopsOrderFirst
  rw [initopsExecInit] at succeeds ⊢
  generalize initOrdersFrom table outcome (initopsOrderMax + 1) initopsOrderFirst =
    loop at succeeds ascending ⊢
  obtain ⟨calls, stopped⟩ := loop
  cases stopped with
  | none =>
      rw [List.range_eq_range']
      exact ascending rfl
  | some stopped => cases succeeds

theorem exitEntries_exitOrdersFrom (table : List (Initops Fn Priv)) (order : Nat) :
    exitEntries (exitOrdersFrom table order) =
      (List.range (order + 1)).reverse.flatMap (block table) := by
  induction order with
  | zero => simp [exitOrdersFrom, block, initopsOrderFirst]
  | succ order ih =>
      rw [exitOrdersFrom, exitEntries_append, ih, @List.range_succ (order + 1),
        List.reverse_append, List.flatMap_append]
      simp [block]

/-- Tear-down descends over the blocks. -/
theorem exitEntries_execExit (table : List (Initops Fn Priv)) :
    exitEntries (initopsExecExit table) =
      (List.range (initopsOrderMax + 1)).reverse.flatMap (block table) :=
  exitEntries_exitOrdersFrom table initopsOrderMax

/-! ## Blocks of a regular table -/

theorem mem_block_iff {table : List (Initops Fn Priv)} (regular : Regular table)
    (order index : Nat) :
    index ∈ block table order ↔
      ∃ initops, table[index]? = some initops ∧ initops.order = order := by
  rw [block, mem_exitEntries_execExitByOrder]
  constructor
  · rintro ⟨initops, lookup, sameOrder, _⟩
    exact ⟨initops, lookup, sameOrder⟩
  · rintro ⟨initops, lookup, sameOrder⟩
    exact ⟨initops, lookup, sameOrder,
      (regular initops (List.mem_of_getElem? lookup)).2.2.2⟩

theorem exitEntries_execExit_nodup (table : List (Initops Fn Priv)) :
    (exitEntries (initopsExecExit table)).Nodup := by
  rw [exitEntries_execExit, List.nodup_flatMap]
  refine ⟨fun order _ => execExitByOrder_nodup table order, ?_⟩
  refine (List.nodup_reverse.mpr List.nodup_range).imp ?_
  intro left right different index inLeft inRight
  simp only [block, mem_exitEntries_execExitByOrder] at inLeft inRight
  exact different (inLeft.order_eq inRight)

/-- Every entry of a regular table is torn down exactly once. -/
theorem execExit_count {table : List (Initops Fn Priv)} (regular : Regular table)
    {index : Nat} (inTable : index < table.length) :
    (exitEntries (initopsExecExit table)).count index = 1 := by
  apply List.count_eq_one_of_mem (exitEntries_execExit_nodup table)
  rw [exitEntries_execExit, List.mem_flatMap]
  have member : table[index] ∈ table := List.getElem_mem inTable
  refine ⟨table[index].order, ?_, (mem_block_iff regular _ _).mpr
    ⟨table[index], List.getElem?_eq_getElem inTable, rfl⟩⟩
  rw [List.mem_reverse, List.mem_range]
  exact Nat.lt_succ_of_le (regular _ member).2.1

/-- No order has two entries exactly when every block has at most one index. -/
theorem orders_nodup_iff {table : List (Initops Fn Priv)} (regular : Regular table) :
    (table.map (·.order)).Nodup ↔ ∀ order, (block table order).length ≤ 1 := by
  have increasing : ∀ order, (block table order).Pairwise (· < ·) := fun order =>
    exitScan_increasing order table 0
  constructor
  · intro nodup order
    have sameIndex : ∀ left ∈ block table order, ∀ right ∈ block table order, left = right := by
      intro left leftMem right rightMem
      obtain ⟨initops, lookup, sameOrder⟩ := (mem_block_iff regular _ _).mp leftMem
      obtain ⟨other, lookup', sameOrder'⟩ := (mem_block_iff regular _ _).mp rightMem
      obtain ⟨leftLt, leftEq⟩ := List.getElem?_eq_some_iff.mp lookup
      obtain ⟨rightLt, rightEq⟩ := List.getElem?_eq_some_iff.mp lookup'
      have leftLt' : left < (table.map (·.order)).length := by simpa using leftLt
      have rightLt' : right < (table.map (·.order)).length := by simpa using rightLt
      have sameEntry : (table.map (·.order))[left] = (table.map (·.order))[right] := by
        simp [leftEq, rightEq, sameOrder, sameOrder']
      exact nodup.getElem_inj_iff.mp sameEntry
    have sorted := increasing order
    match block table order, sameIndex, sorted with
    | [], _, _ => exact Nat.zero_le 1
    | [_], _, _ => exact Nat.le_refl 1
    | first :: second :: _, sameIndex, sorted =>
        have equal := sameIndex first (by simp) second (by simp)
        have less : first < second := List.rel_of_pairwise_cons sorted List.mem_cons_self
        omega
  · intro short
    rw [List.nodup_iff_pairwise_ne, List.pairwise_iff_getElem]
    intro left right leftLt rightLt less sameOrder
    rw [List.getElem_map, List.getElem_map] at sameOrder
    rw [List.length_map] at leftLt rightLt
    have leftMem : left ∈ block table table[left].order :=
      (mem_block_iff regular _ _).mpr ⟨_, List.getElem?_eq_getElem leftLt, rfl⟩
    have rightMem : right ∈ block table table[left].order :=
      (mem_block_iff regular _ _).mpr ⟨_, List.getElem?_eq_getElem rightLt, sameOrder.symm⟩
    have single := short table[left].order
    match block table table[left].order, leftMem, rightMem, single with
    | [_], leftMem, rightMem, _ =>
        rw [List.mem_singleton] at leftMem rightMem
        omega

/-- Tear-down mirrors a successful start-up of a regular table if and only if no
two entries have the same order. -/
theorem teardown_mirrors_iff (table : List (Initops Fn Priv)) (outcome : Outcome)
    (regular : Regular table) (succeeds : (initopsExecInit table outcome).2 = 0) :
    MirrorsStartUp table outcome ↔ (table.map (·.order)).Nodup := by
  have blockwise : exitEntries (initopsExecExit table) =
        (initEntries (initopsExecInit table outcome).1).reverse ↔
      ∀ order ∈ (List.range (initopsOrderMax + 1)).reverse,
        block table order = (block table order).reverse := by
    rw [exitEntries_execExit, initEntries_execInit regular succeeds, List.reverse_flatMap]
    exact flatMap_eq_iff _ _ _ fun order _ => (List.length_reverse).symm
  rw [orders_nodup_iff regular]
  constructor
  · rintro ⟨_, reversed⟩ order
    by_cases within : order ≤ initopsOrderMax
    · refine (increasing_eq_reverse_iff (exitScan_increasing order table 0)).mp ?_
      exact blockwise.mp reversed order (by simpa using Nat.lt_succ_of_le within)
    · have empty : block table order = [] := by
        rw [List.eq_nil_iff_forall_not_mem]
        intro index member
        obtain ⟨initops, lookup, sameOrder⟩ := (mem_block_iff regular _ _).mp member
        have bound := (regular initops (List.mem_of_getElem? lookup)).2.1
        omega
      rw [empty]
      exact Nat.zero_le 1
  · intro short
    refine ⟨fun index inTable => execExit_count regular inTable, blockwise.mpr ?_⟩
    intro order _
    exact (increasing_eq_reverse_iff (exitScan_increasing order table 0)).mpr (short order)

/-- The sequence of three entries with distinct orders is mirrored. -/
theorem teardown_mirrors_distinct :
    MirrorsStartUp
        ([⟨"last", initopsOrderLast, some 1, some 2, ()⟩,
          ⟨"first", initopsOrderFirst, some 3, some 4, ()⟩,
          ⟨"initops_dummy", initopsOrderMax, some 5, some 6, ()⟩] : List (Initops Nat Unit))
        (fun _ => 0) ↔
      ([initopsOrderLast, initopsOrderFirst, initopsOrderMax] : List Nat).Nodup :=
  teardown_mirrors_iff _ _ (by unfold Regular; decide) (by decide)

/-- Two entries declared with `INITOPS_ORDER_ANY`, and `initops_dummy`. -/
def sharedOrderTable : List (Initops Nat Unit) :=
  [⟨"first", initopsOrderAny, some 1, some 2, ()⟩,
    ⟨"second", initopsOrderAny, some 3, some 4, ()⟩,
    ⟨"initops_dummy", initopsOrderMax, some 5, some 6, ()⟩]

/-- Start-up inits the two entries in section order, and tear-down exits them in
section order again. -/
theorem teardown_not_mirror :
    Regular sharedOrderTable ∧ (initopsExecInit sharedOrderTable fun _ => 0).2 = 0 ∧
      ¬ MirrorsStartUp sharedOrderTable fun _ => 0 := by
  refine ⟨by unfold Regular; decide, by decide, ?_⟩
  rintro ⟨_, reversed⟩
  exact absurd reversed (by decide)

end LinuxCTemplate.Initops
