import LinuxCTemplate.Initops.Walks

/-!
# Rollback of a failed start-up

The first failing entry in execution order decides the whole run: earlier orders
complete, its own order is walked up to it, and the exits called afterwards are
those of the fallback walk in its order followed by those of the earlier orders.

The fallback walk visits the section from the failing entry down to index `1`.
Undoing what was passed would need the indices below the failing entry down to
index `0`, so the rollback is exact only for tables on which the two ranges call
the same exits; `rollback_exact_iff` gives them.
-/

namespace LinuxCTemplate.Initops

variable {Fn Priv : Type}

/-- `earlier` at `index` comes before `failing` at `failed` in execution order:
orders ascend, and the section is walked forward within one order. -/
def Before (index : Nat) (earlier : Initops Fn Priv) (failed : Nat)
    (failing : Initops Fn Priv) : Prop :=
  earlier.order < failing.order ∨ (earlier.order = failing.order ∧ index < failed)

/-- The entry is passed: it has no init, or its init does not return a negative
value. -/
def Passes (outcome : Outcome) (index : Nat) (initops : Initops Fn Priv) : Prop :=
  initops.init = none ∨ 0 ≤ outcome index

/-- `failing` at `failed` is the first entry in execution order whose init
returns a negative value. -/
structure FailsAt (table : List (Initops Fn Priv)) (outcome : Outcome) (failed : Nat)
    (failing : Initops Fn Priv) : Prop where
  lookup : table[failed]? = some failing
  reached : failing.order ≤ initopsOrderMax
  hasInit : failing.init.isSome
  negative : outcome failed < 0
  first : ∀ index earlier, table[index]? = some earlier →
    Before index earlier failed failing → Passes outcome index earlier

/-- The entry at `index` is to be undone: it is of an order above
`INITOPS_ORDER_FIRST`, was passed before the failing entry, and has an exit. -/
def MustUndo (table : List (Initops Fn Priv)) (outcome : Outcome) (failed : Nat)
    (failing : Initops Fn Priv) (index : Nat) : Prop :=
  ∃ earlier, table[index]? = some earlier ∧ earlier.exit.isSome ∧
    initopsOrderFirst < earlier.order ∧ Before index earlier failed failing ∧
    Passes outcome index earlier

/-- A start-up that returns `-1` does so at a failing entry, and the exits it has
called are, each once, exactly those to be undone. -/
def RollbackExact (table : List (Initops Fn Priv)) (outcome : Outcome) : Prop :=
  (initopsExecInit table outcome).2 = -1 →
    ∃ failed failing, FailsAt table outcome failed failing ∧
      (exitEntries (initopsExecInit table outcome).1).Nodup ∧
      ∀ index, index ∈ exitEntries (initopsExecInit table outcome).1 ↔
        MustUndo table outcome failed failing index

/-- The failing entry is the first of the section, or: it has no exit, the first
section entry is not an entry of the same order with an exit unless that order is
`INITOPS_ORDER_FIRST`, and no entry of order `INITOPS_ORDER_FIRST` strictly
between the two has an exit if the failure is in that order. -/
def RollbackSafe (table : List (Initops Fn Priv)) (failed : Nat)
    (failing : Initops Fn Priv) : Prop :=
  failed = 0 ∨
    (failing.exit = none ∧
      (failing.order ≠ initopsOrderFirst → ¬ HasExit table failing.order 0) ∧
      (failing.order = initopsOrderFirst →
        ∀ index, 0 < index → index < failed → ¬ HasExit table initopsOrderFirst index))

/-! ## The failing entry -/

theorem FailsAt.initFails {table : List (Initops Fn Priv)} {outcome : Outcome}
    {failed : Nat} {failing : Initops Fn Priv}
    (fails : FailsAt table outcome failed failing) :
    InitFails table outcome failing.order failed :=
  ⟨failing, fails.lookup, rfl, fails.hasInit, fails.negative⟩

theorem InitFails.not_passes {table : List (Initops Fn Priv)} {outcome : Outcome}
    {order : Nat} {index : Nat} (fails : InitFails table outcome order index)
    {initops : Initops Fn Priv} (lookup : table[index]? = some initops) :
    ¬ Passes outcome index initops := by
  obtain ⟨other, lookup', _, hasInit, negative⟩ := fails
  rw [lookup] at lookup'
  cases lookup'
  rintro (noInit | nonneg)
  · simp [noInit] at hasInit
  · omega

/-- The failing entry is determined by the table and the outcomes. -/
theorem FailsAt.unique {table : List (Initops Fn Priv)} {outcome : Outcome}
    {failed failed' : Nat} {failing failing' : Initops Fn Priv}
    (fails : FailsAt table outcome failed failing)
    (fails' : FailsAt table outcome failed' failing') :
    failed = failed' ∧ failing = failing' := by
  have notBefore : ¬ Before failed failing failed' failing' := fun before =>
    fails.initFails.not_passes fails.lookup (fails'.first _ _ fails.lookup before)
  have notAfter : ¬ Before failed' failing' failed failing := fun before =>
    fails'.initFails.not_passes fails'.lookup (fails.first _ _ fails'.lookup before)
  have sameIndex : failed = failed' := by
    unfold Before at notBefore notAfter
    omega
  subst sameIndex
  exact ⟨rfl, Option.some.inj (fails.lookup.symm.trans fails'.lookup)⟩

/-! ## The run up to the failure -/

/-- One order: no exit is called before the fallback, and the early return for
`iter == &__start_section_initops` agrees with an empty fallback walk. -/
theorem execInitByOrder_eq (table : List (Initops Fn Priv)) (outcome : Outcome)
    (order : Nat) :
    match (initScan outcome order 0 table).2 with
    | none => (initopsExecInitByOrder table outcome order).2 = 0 ∧
        exitEntries (initopsExecInitByOrder table outcome order).1 = []
    | some failed => (initopsExecInitByOrder table outcome order).2 = -1 ∧
        exitEntries (initopsExecInitByOrder table outcome order).1 =
          exitEntries (fallbackWalk table order failed) := by
  have noExits := exitEntries_initScan outcome order table 0
  unfold initopsExecInitByOrder
  generalize initScan outcome order 0 table = scan at noExits ⊢
  obtain ⟨calls, failed⟩ := scan
  cases failed with
  | none => exact ⟨rfl, noExits⟩
  | some failed =>
      by_cases atStart : failed = 0
      · subst atStart
        exact ⟨rfl, noExits⟩
      · simp only [atStart, if_false, exitEntries_append]
        exact ⟨trivial, by rw [noExits, List.nil_append]⟩

/-- The loop over the orders completes exactly when no order fails, and then no
exit has been called. -/
theorem initOrdersFrom_none {table : List (Initops Fn Priv)} {outcome : Outcome}
    {rounds : Nat} {order : Nat}
    (completes : (initOrdersFrom table outcome rounds order).2 = none) :
    exitEntries (initOrdersFrom table outcome rounds order).1 = [] ∧
      ∀ within, order ≤ within → within < order + rounds →
        ∀ index, ¬ InitFails table outcome within index := by
  induction rounds generalizing order with
  | zero => exact ⟨rfl, by omega⟩
  | succ rounds ih =>
      have oneOrder := execInitByOrder_eq table outcome order
      rw [initOrdersFrom] at completes ⊢
      cases scan : (initScan outcome order 0 table).2 with
      | some failed =>
          simp only [scan] at oneOrder
          simp [oneOrder.1] at completes
      | none =>
          simp only [scan] at oneOrder
          simp only [oneOrder.1, ne_eq, not_true_eq_false, if_false] at completes ⊢
          obtain ⟨laterExits, laterPass⟩ := ih completes
          refine ⟨by rw [exitEntries_append, oneOrder.2, laterExits, List.append_nil], ?_⟩
          intro within lower upper
          rcases Nat.eq_or_lt_of_le lower with same | later
          · subst same
            exact (initScan_table_eq_none_iff table outcome order).mp scan
          · exact laterPass within later (by omega)

/-- Where the loop over the orders stops, and the exits called by then. -/
theorem initOrdersFrom_some {table : List (Initops Fn Priv)} {outcome : Outcome}
    {rounds : Nat} {order stopped : Nat}
    (stops : (initOrdersFrom table outcome rounds order).2 = some stopped) :
    stopped < order + rounds ∧
      (∀ within, order ≤ within → within < stopped →
        ∀ index, ¬ InitFails table outcome within index) ∧
      ∃ failed, (initScan outcome stopped 0 table).2 = some failed ∧
        exitEntries (initOrdersFrom table outcome rounds order).1 =
          exitEntries (fallbackWalk table stopped failed) := by
  induction rounds generalizing order with
  | zero => simp [initOrdersFrom] at stops
  | succ rounds ih =>
      have oneOrder := execInitByOrder_eq table outcome order
      rw [initOrdersFrom] at stops ⊢
      cases scan : (initScan outcome order 0 table).2 with
      | some failed =>
          simp only [scan] at oneOrder
          simp only [oneOrder.1, ne_eq, Int.reduceNeg, Int.reduceEq, not_false_eq_true,
            if_true, Option.some.injEq] at stops ⊢
          subst stops
          exact ⟨by omega, by omega, failed, scan, oneOrder.2⟩
      | none =>
          simp only [scan] at oneOrder
          simp only [oneOrder.1, ne_eq, not_true_eq_false, if_false] at stops ⊢
          obtain ⟨bound, earlierPass, failed, scan', exits⟩ := ih stops
          refine ⟨by omega, ?_, failed, scan', ?_⟩
          · intro within lower upper
            rcases Nat.eq_or_lt_of_le lower with same | later
            · subst same
              exact (initScan_table_eq_none_iff table outcome order).mp scan
            · exact earlierPass within later upper
          · rw [exitEntries_append, oneOrder.2, exits, List.nil_append]

/-- The whole start-up.  It returns `0` when no entry fails.  Otherwise it
returns `-1`, and the exits called are those of the fallback walk followed by those
of the earlier orders. -/
theorem initopsExecInit_cases (table : List (Initops Fn Priv)) (outcome : Outcome) :
    ((initopsExecInit table outcome).2 = 0 ∧
        exitEntries (initopsExecInit table outcome).1 = [] ∧
        ∀ order, order ≤ initopsOrderMax → ∀ index, ¬ InitFails table outcome order index) ∨
      ∃ failed failing, FailsAt table outcome failed failing ∧
        (initopsExecInit table outcome).2 = -1 ∧
        exitEntries (initopsExecInit table outcome).1 =
          exitEntries (fallbackWalk table failing.order failed) ++
            exitEntries (fallbackOrdersFrom table (failing.order - 1)) := by
  cases loop : (initOrdersFrom table outcome (initopsOrderMax + 1) initopsOrderFirst).2 with
  | none =>
      obtain ⟨exits, pass⟩ := initOrdersFrom_none loop
      left
      rw [initopsExecInit]
      generalize initOrdersFrom table outcome (initopsOrderMax + 1) initopsOrderFirst =
        result at loop exits ⊢
      obtain ⟨calls, stopped⟩ := result
      cases loop
      refine ⟨rfl, exits, fun order within => pass order (Nat.zero_le _) ?_⟩
      simp only [initopsOrderFirst]
      omega
  | some stopped =>
      obtain ⟨bound, earlierPass, failed, scan, exits⟩ := initOrdersFrom_some loop
      obtain ⟨⟨failing, lookup, sameOrder, hasInit, negative⟩, earlierInOrder⟩ :=
        initScan_table_stops scan
      right
      refine ⟨failed, failing, ⟨lookup, ?_, hasInit, negative, ?_⟩, ?_⟩
      · simp only [initopsOrderFirst] at bound
        omega
      · intro index earlier lookup' before
        by_contra notPasses
        simp only [Passes, not_or] at notPasses
        have fails : InitFails table outcome earlier.order index :=
          ⟨earlier, lookup', rfl, Option.isSome_iff_ne_none.mpr notPasses.1,
            Int.not_le.mp notPasses.2⟩
        rcases before with lower | ⟨same, left⟩
        · exact earlierPass earlier.order (Nat.zero_le _) (sameOrder ▸ lower) index fails
        · rw [same, sameOrder] at fails
          exact earlierInOrder index left fails
      · rw [initopsExecInit, sameOrder]
        generalize initOrdersFrom table outcome (initopsOrderMax + 1) initopsOrderFirst =
          result at loop exits ⊢
        obtain ⟨calls, stopped'⟩ := result
        cases loop
        exact ⟨rfl, by rw [exitEntries_append, exits]⟩

/-! ## The exits called by the fallback -/

theorem mem_exitEntries_fallbackOrders (table : List (Initops Fn Priv))
    (order : Nat) (index : Nat) :
    index ∈ exitEntries (fallbackOrdersFrom table order) ↔
      ∃ within, 0 < within ∧ within ≤ order ∧ HasExit table within index := by
  induction order with
  | zero => simp [fallbackOrdersFrom]
  | succ order ih =>
      rw [fallbackOrdersFrom, exitEntries_append, List.mem_append,
        mem_exitEntries_execExitByOrder, ih]
      constructor
      · rintro (hasExit | ⟨within, positive, bound, hasExit⟩)
        · exact ⟨order + 1, by omega, Nat.le_refl _, hasExit⟩
        · exact ⟨within, positive, by omega, hasExit⟩
      · rintro ⟨within, positive, bound, hasExit⟩
        rcases Nat.eq_or_lt_of_le bound with same | lower
        · subst same
          exact Or.inl hasExit
        · exact Or.inr ⟨within, positive, by omega, hasExit⟩

theorem fallbackOrdersFrom_nodup (table : List (Initops Fn Priv)) (order : Nat) :
    (exitEntries (fallbackOrdersFrom table order)).Nodup := by
  induction order with
  | zero => exact .nil
  | succ order ih =>
      rw [fallbackOrdersFrom, exitEntries_append]
      refine List.Nodup.append (execExitByOrder_nodup table (order + 1)) ih ?_
      intro index inHigher inLower
      rw [mem_exitEntries_execExitByOrder] at inHigher
      obtain ⟨within, _, bound, hasExit⟩ :=
        (mem_exitEntries_fallbackOrders table order index).mp inLower
      have sameOrder := inHigher.order_eq hasExit
      omega

/-- No exit is called twice, whatever the table. -/
theorem fallback_exits_nodup (table : List (Initops Fn Priv)) (order : Nat)
    (failed : Nat) :
    (exitEntries (fallbackWalk table order failed) ++
      exitEntries (fallbackOrdersFrom table (order - 1))).Nodup := by
  refine List.Nodup.append
    ((fallbackWalk_decreasing table order failed).imp fun greater => Nat.ne_of_gt greater)
    (fallbackOrdersFrom_nodup table _) ?_
  intro index inWalk inOrders
  obtain ⟨_, _, hasExit⟩ := (mem_exitEntries_fallbackWalk table order failed index).mp inWalk
  obtain ⟨within, positive, bound, hasExit'⟩ :=
    (mem_exitEntries_fallbackOrders table (order - 1) index).mp inOrders
  have sameOrder := hasExit.order_eq hasExit'
  omega

/-- What is to be undone, by order: the entries of the lower orders, and those of
the failing order that stand before the failing entry. -/
theorem mustUndo_iff {table : List (Initops Fn Priv)} {outcome : Outcome} {failed : Nat}
    {failing : Initops Fn Priv} (fails : FailsAt table outcome failed failing)
    (index : Nat) :
    MustUndo table outcome failed failing index ↔
      (∃ order, 0 < order ∧ order < failing.order ∧ HasExit table order index) ∨
        (0 < failing.order ∧ index < failed ∧ HasExit table failing.order index) := by
  constructor
  · rintro ⟨earlier, lookup, hasExit, aboveFirst, before, _⟩
    rcases before with lower | ⟨same, left⟩
    · exact Or.inl ⟨earlier.order, aboveFirst, lower, earlier, lookup, rfl, hasExit⟩
    · exact Or.inr ⟨same ▸ aboveFirst, left, earlier, lookup, same, hasExit⟩
  · rintro (⟨order, positive, lower, earlier, lookup, rfl, hasExit⟩ |
      ⟨positive, left, earlier, lookup, same, hasExit⟩)
    · exact ⟨earlier, lookup, hasExit, positive, Or.inl lower,
        fails.first _ _ lookup (Or.inl lower)⟩
    · exact ⟨earlier, lookup, hasExit, same ▸ positive, Or.inr ⟨same, left⟩,
        fails.first _ _ lookup (Or.inr ⟨same, left⟩)⟩

/-- The fallback calls exactly the exits to be undone if and only if the table
is safe at the failing entry. -/
theorem fallback_exits_exact_iff {table : List (Initops Fn Priv)} {outcome : Outcome}
    {failed : Nat} {failing : Initops Fn Priv}
    (fails : FailsAt table outcome failed failing) :
    (∀ index, index ∈ exitEntries (fallbackWalk table failing.order failed) ++
        exitEntries (fallbackOrdersFrom table (failing.order - 1)) ↔
      MustUndo table outcome failed failing index) ↔
    RollbackSafe table failed failing := by
  simp only [List.mem_append, mem_exitEntries_fallbackWalk, mem_exitEntries_fallbackOrders,
    mustUndo_iff fails]
  constructor
  · intro exact
    rcases Nat.eq_zero_or_pos failed with atStart | positive
    · exact Or.inl atStart
    · refine Or.inr ⟨?_, ?_, ?_⟩
      · by_contra hasExit
        have called := (exact failed).mp (Or.inl ⟨positive, Nat.le_refl _, failing, fails.lookup,
          rfl, Option.isSome_iff_ne_none.mpr hasExit⟩)
        rcases called with ⟨order, _, lower, hasExit'⟩ | ⟨_, less, _⟩
        · have sameOrder := hasExit'.order_eq
            ⟨failing, fails.lookup, rfl, Option.isSome_iff_ne_none.mpr hasExit⟩
          omega
        · omega
      · intro aboveFirst hasExit
        have undone := (exact 0).mpr
          (Or.inr ⟨Nat.pos_of_ne_zero aboveFirst, positive, hasExit⟩)
        rcases undone with ⟨impossible, _⟩ | ⟨order, _, lower, hasExit'⟩
        · omega
        · have sameOrder := hasExit'.order_eq hasExit
          omega
      · intro isFirst index positive' within hasExit
        have called := (exact index).mp
          (Or.inl ⟨positive', Nat.le_of_lt within, isFirst ▸ hasExit⟩)
        simp only [isFirst, initopsOrderFirst] at called
        omega
  · rintro (rfl | ⟨noExit, startSafe, firstSafe⟩) index
    · constructor
      · rintro (⟨_, _, _⟩ | ⟨order, positive, bound, hasExit⟩)
        · omega
        · exact Or.inl ⟨order, positive, by omega, hasExit⟩
      · rintro (⟨order, positive, lower, hasExit⟩ | ⟨_, impossible, _⟩)
        · exact Or.inr ⟨order, positive, by omega, hasExit⟩
        · omega
    · have notFailing : HasExit table failing.order index → index ≠ failed := by
        rintro ⟨initops, lookup, _, hasExit⟩ rfl
        rw [fails.lookup] at lookup
        cases lookup
        simp [noExit] at hasExit
      constructor
      · rintro (⟨positive, within, hasExit⟩ | ⟨order, positive, bound, hasExit⟩)
        · have before : index < failed :=
            Nat.lt_of_le_of_ne within (notFailing hasExit)
          rcases Nat.eq_zero_or_pos failing.order with isFirst | aboveFirst
          · rw [isFirst] at hasExit
            exact (firstSafe isFirst index positive before hasExit).elim
          · exact Or.inr ⟨aboveFirst, before, hasExit⟩
        · exact Or.inl ⟨order, positive, by omega, hasExit⟩
      · rintro (⟨order, positive, lower, hasExit⟩ | ⟨aboveFirst, before, hasExit⟩)
        · exact Or.inr ⟨order, positive, by omega, hasExit⟩
        · rcases Nat.eq_zero_or_pos index with atStart | positive
          · subst atStart
            exact (startSafe (Nat.ne_of_gt aboveFirst) hasExit).elim
          · exact Or.inl ⟨positive, Nat.le_of_lt before, hasExit⟩

/-! ## Exactness -/

/-- The rollback of a failed start-up is exact if and only if the table is safe
at the failing entry. -/
theorem rollback_exact_iff (table : List (Initops Fn Priv)) (outcome : Outcome) :
    RollbackExact table outcome ↔
      ∀ failed failing, FailsAt table outcome failed failing →
        RollbackSafe table failed failing := by
  rcases initopsExecInit_cases table outcome with
    ⟨returnsZero, _, pass⟩ | ⟨failed, failing, fails, returnsError, exits⟩
  · constructor
    · intro _ failed failing fails
      exact (pass failing.order fails.reached failed fails.initFails).elim
    · intro _ returnsError
      rw [returnsZero] at returnsError
      cases returnsError
  · have exactHere : RollbackExact table outcome ↔
        ∀ index, index ∈ exitEntries (fallbackWalk table failing.order failed) ++
            exitEntries (fallbackOrdersFrom table (failing.order - 1)) ↔
          MustUndo table outcome failed failing index := by
      constructor
      · intro exact
        obtain ⟨failed', failing', fails', _, members⟩ := exact returnsError
        obtain ⟨rfl, rfl⟩ := fails.unique fails'
        rwa [exits] at members
      · intro members _
        refine ⟨failed, failing, fails, ?_, ?_⟩
        · rw [exits]
          exact fallback_exits_nodup table failing.order failed
        · rwa [exits]
    rw [exactHere, fallback_exits_exact_iff fails]
    constructor
    · intro safe failed' failing' fails'
      obtain ⟨rfl, rfl⟩ := fails.unique fails'
      exact safe
    · intro safe
      exact safe failed failing fails

/-- Two entries of order `INITOPS_ORDER_LAST`, the second of which fails, and the
entry `initops_dummy` that `initops.c` itself puts into the section. -/
def failingTable : List (Initops Nat Unit) :=
  [⟨"first", initopsOrderLast, some 1, some 2, ()⟩,
    ⟨"second", initopsOrderLast, some 3, some 4, ()⟩,
    ⟨"initops_dummy", initopsOrderMax, some 5, some 6, ()⟩]

def failingOutcome : Outcome := fun index => if index = 1 then -1 else 0

/-- The run calls the exit of the entry that failed and not that of the entry
that succeeded. -/
theorem rollback_not_exact : ¬ RollbackExact failingTable failingOutcome := by
  intro exact
  obtain ⟨failed, failing, fails, _, members⟩ := exact (by decide)
  have called : 1 ∈ exitEntries (initopsExecInit failingTable failingOutcome).1 := by decide
  obtain ⟨entry, lookup, _, _, _, passes⟩ := (members 1).mp called
  have fails' : InitFails failingTable failingOutcome initopsOrderLast 1 :=
    ⟨_, rfl, rfl, rfl, by decide⟩
  exact fails'.not_passes lookup passes

end LinuxCTemplate.Initops
