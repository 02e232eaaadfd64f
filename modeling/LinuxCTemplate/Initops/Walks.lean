import LinuxCTemplate.Initops.Core

/-!
# What the section walks call

Each of the three walks over the section is characterized by the indices it
calls and by their sequence: the forward walks call increasing indices and the
fallback walk decreasing ones.  The forward init walk stops at the first entry of
its order whose init returns a negative value.
-/

namespace LinuxCTemplate.Initops

variable {Fn Priv : Type}

/-- The entry at `index` is of `order` and has an exit callback. -/
def HasExit (table : List (Initops Fn Priv)) (order : Nat) (index : Nat) : Prop :=
  ∃ initops, table[index]? = some initops ∧ initops.order = order ∧ initops.exit.isSome

/-- The entry at `index` is of `order` and its init returns a negative value. -/
def InitFails (table : List (Initops Fn Priv)) (outcome : Outcome) (order : Nat)
    (index : Nat) : Prop :=
  ∃ initops, table[index]? = some initops ∧ initops.order = order ∧
    initops.init.isSome ∧ outcome index < 0

/-- An index determines the order of its entry. -/
theorem HasExit.order_eq {table : List (Initops Fn Priv)} {left right : Nat}
    {index : Nat} (atLeft : HasExit table left index) (atRight : HasExit table right index) :
    left = right := by
  obtain ⟨initops, lookup, rfl, _⟩ := atLeft
  obtain ⟨other, lookup', rfl, _⟩ := atRight
  rw [lookup] at lookup'
  rw [Option.some.inj lookup']

theorem InitFails.order_eq {table : List (Initops Fn Priv)} {outcome : Outcome}
    {left right : Nat} {index : Nat} (atLeft : InitFails table outcome left index)
    (atRight : InitFails table outcome right index) : left = right := by
  obtain ⟨initops, lookup, rfl, _⟩ := atLeft
  obtain ⟨other, lookup', rfl, _⟩ := atRight
  rw [lookup] at lookup'
  rw [Option.some.inj lookup']

/-! ## The body shared by the exit walks -/

theorem mem_exitEntries_exitEntry (order : Nat) (iter index : Nat)
    (initops : Initops Fn Priv) :
    index ∈ exitEntries (exitEntry order iter initops) ↔
      index = iter ∧ initops.order = order ∧ initops.exit.isSome := by
  unfold exitEntry
  split
  next sameOrder =>
    cases exit : initops.exit with
    | none => simp
    | some fn => simp [exitEntries, sameOrder]
  next otherOrder => simp [otherOrder]

theorem exitEntries_exitEntry_length (order : Nat) (iter : Nat)
    (initops : Initops Fn Priv) :
    (exitEntries (exitEntry order iter initops)).length ≤ 1 := by
  unfold exitEntry
  split
  · cases initops.exit <;> simp [exitEntries]
  · simp

theorem exitEntry_pairwise (order : Nat) (iter : Nat) (initops : Initops Fn Priv)
    (relation : Nat → Nat → Prop) :
    (exitEntries (exitEntry order iter initops)).Pairwise relation := by
  have short := exitEntries_exitEntry_length order iter initops
  match exitEntries (exitEntry order iter initops), short with
  | [], _ => exact .nil
  | [_], _ => exact List.pairwise_singleton _ _

/-! ## `initops_exec_exit_by_order` -/

theorem mem_exitEntries_exitScan (order : Nat) (rest : List (Initops Fn Priv))
    (iter index : Nat) :
    index ∈ exitEntries (exitScan order iter rest) ↔
      iter ≤ index ∧ HasExit rest order (index - iter) := by
  induction rest generalizing iter with
  | nil => simp [exitScan, HasExit]
  | cons initops rest ih =>
      rw [exitScan, exitEntries_append, List.mem_append, mem_exitEntries_exitEntry, ih]
      constructor
      · rintro (⟨rfl, sameOrder, hasExit⟩ | ⟨later, hasExit⟩)
        · exact ⟨Nat.le_refl _, initops, by simp, sameOrder, hasExit⟩
        · obtain ⟨other, lookup, properties⟩ := hasExit
          refine ⟨by omega, other, ?_, properties⟩
          have shift : index - iter = index - (iter + 1) + 1 := by omega
          rw [shift, List.getElem?_cons_succ, lookup]
      · rintro ⟨within, other, lookup, sameOrder, hasExit⟩
        rcases Nat.eq_or_lt_of_le within with here | later
        · subst here
          rw [Nat.sub_self, List.getElem?_cons_zero] at lookup
          cases lookup
          exact Or.inl ⟨rfl, sameOrder, hasExit⟩
        · refine Or.inr ⟨later, other, ?_, sameOrder, hasExit⟩
          have shift : index - iter = index - (iter + 1) + 1 := by omega
          rwa [shift, List.getElem?_cons_succ] at lookup

/-- The forward exit walk calls indices in increasing order. -/
theorem exitScan_increasing (order : Nat) (rest : List (Initops Fn Priv))
    (iter : Nat) : (exitEntries (exitScan order iter rest)).Pairwise (· < ·) := by
  induction rest generalizing iter with
  | nil => exact .nil
  | cons initops rest ih =>
      rw [exitScan, exitEntries_append, List.pairwise_append]
      refine ⟨exitEntry_pairwise _ _ _ _, ih (iter + 1), ?_⟩
      intro earlier earlierMem later laterMem
      rw [mem_exitEntries_exitEntry] at earlierMem
      rw [mem_exitEntries_exitScan] at laterMem
      omega

theorem mem_exitEntries_execExitByOrder (table : List (Initops Fn Priv))
    (order : Nat) (index : Nat) :
    index ∈ exitEntries (initopsExecExitByOrder table order) ↔ HasExit table order index := by
  simp [initopsExecExitByOrder, mem_exitEntries_exitScan]

theorem execExitByOrder_nodup (table : List (Initops Fn Priv)) (order : Nat) :
    (exitEntries (initopsExecExitByOrder table order)).Nodup :=
  (exitScan_increasing order table 0).imp fun less => Nat.ne_of_lt less

/-! ## The fallback walk -/

theorem mem_exitEntries_fallbackWalk (table : List (Initops Fn Priv))
    (order : Nat) (iter index : Nat) :
    index ∈ exitEntries (fallbackWalk table order iter) ↔
      0 < index ∧ index ≤ iter ∧ HasExit table order index := by
  induction iter with
  | zero => simp [fallbackWalk]; omega
  | succ iter ih =>
      rw [fallbackWalk, exitEntries_append, List.mem_append, ih]
      cases lookup : table[iter + 1]? with
      | none =>
          simp only [exitEntries_nil, List.not_mem_nil, false_or]
          constructor
          · rintro ⟨positive, within, hasExit⟩
            exact ⟨positive, by omega, hasExit⟩
          · rintro ⟨positive, within, hasExit⟩
            refine ⟨positive, ?_, hasExit⟩
            by_contra beyond
            have last : index = iter + 1 := by omega
            obtain ⟨other, lookup', _⟩ := hasExit
            rw [last, lookup] at lookup'
            cases lookup'
      | some initops =>
          simp only [mem_exitEntries_exitEntry]
          constructor
          · rintro (⟨rfl, properties⟩ | ⟨positive, within, hasExit⟩)
            · exact ⟨by omega, Nat.le_refl _, initops, lookup, properties⟩
            · exact ⟨positive, by omega, hasExit⟩
          · rintro ⟨positive, within, hasExit⟩
            rcases Nat.eq_or_lt_of_le within with last | earlier
            · subst last
              obtain ⟨other, lookup', properties⟩ := hasExit
              rw [lookup] at lookup'
              cases lookup'
              exact Or.inl ⟨rfl, properties⟩
            · exact Or.inr ⟨positive, by omega, hasExit⟩

/-- The fallback walk calls indices in decreasing order. -/
theorem fallbackWalk_decreasing (table : List (Initops Fn Priv)) (order : Nat)
    (iter : Nat) : (exitEntries (fallbackWalk table order iter)).Pairwise (· > ·) := by
  induction iter with
  | zero => exact .nil
  | succ iter ih =>
      rw [fallbackWalk, exitEntries_append, List.pairwise_append]
      refine ⟨?_, ih, ?_⟩
      · split
        · exact exitEntry_pairwise _ _ _ _
        · exact .nil
      · intro first firstMem later laterMem
        rw [mem_exitEntries_fallbackWalk] at laterMem
        have firstEq : first = iter + 1 := by
          split at firstMem
          · exact ((mem_exitEntries_exitEntry _ _ _ _).mp firstMem).1
          · simp at firstMem
        omega

/-! ## The init walk -/

@[simp] theorem exitEntries_initScan (outcome : Outcome) (order : Nat)
    (rest : List (Initops Fn Priv)) (iter : Nat) :
    exitEntries (initScan outcome order iter rest).1 = [] := by
  induction rest generalizing iter with
  | nil => rfl
  | cons initops rest ih =>
      unfold initScan
      split
      · cases initops.init with
        | none => exact ih (iter + 1)
        | some fn =>
            by_cases negative : outcome iter < 0
            · simp [negative]
            · simp [negative, ih (iter + 1)]
      · exact ih (iter + 1)

/-- The walk completes exactly when no entry of the order fails. -/
theorem initScan_eq_none_iff (outcome : Outcome) (order : Nat)
    (rest : List (Initops Fn Priv)) (iter : Nat) :
    (initScan outcome order iter rest).2 = none ↔
      ∀ offset initops, rest[offset]? = some initops → initops.order = order →
        initops.init.isSome → 0 ≤ outcome (iter + offset) := by
  induction rest generalizing iter with
  | nil => simp [initScan]
  | cons initops rest ih =>
      have split : (∀ offset other, (initops :: rest)[offset]? = some other →
            other.order = order → other.init.isSome → 0 ≤ outcome (iter + offset)) ↔
          (initops.order = order → initops.init.isSome → 0 ≤ outcome iter) ∧
          ∀ offset other, rest[offset]? = some other → other.order = order →
            other.init.isSome → 0 ≤ outcome (iter + 1 + offset) := by
        constructor
        · intro every
          refine ⟨every 0 initops rfl, fun offset other lookup => ?_⟩
          have moved := every (offset + 1) other lookup
          rwa [Nat.add_assoc, Nat.add_comm 1 offset]
        · rintro ⟨here, later⟩ offset other lookup
          cases offset with
          | zero =>
              cases lookup
              exact here
          | succ offset =>
              have moved := later offset other lookup
              rwa [Nat.add_assoc, Nat.add_comm 1 offset] at moved
      rw [split, ← ih, initScan]
      by_cases sameOrder : initops.order = order
      · cases init : initops.init with
        | none => simp [sameOrder]
        | some fn =>
            by_cases negative : outcome iter < 0
            · simp [sameOrder, negative, Int.not_le.mpr negative]
            · simp [sameOrder, negative, Int.not_lt.mp negative]
      · simp [sameOrder]

/-- Where the walk stops: an entry of the order fails there and none before. -/
theorem initScan_stops (outcome : Outcome) (order : Nat)
    (rest : List (Initops Fn Priv)) (iter failed : Nat)
    (stops : (initScan outcome order iter rest).2 = some failed) :
    iter ≤ failed ∧
      (∃ initops, rest[failed - iter]? = some initops ∧ initops.order = order ∧
        initops.init.isSome ∧ outcome failed < 0) ∧
      ∀ offset initops, rest[offset]? = some initops → initops.order = order →
        initops.init.isSome → iter + offset < failed → 0 ≤ outcome (iter + offset) := by
  induction rest generalizing iter with
  | nil => simp [initScan] at stops
  | cons initops rest ih =>
      by_cases failsHere :
          initops.order = order ∧ initops.init.isSome ∧ outcome iter < 0
      · obtain ⟨sameOrder, hasInit, negative⟩ := failsHere
        obtain ⟨fn, init⟩ := Option.isSome_iff_exists.mp hasInit
        have here : iter = failed := by
          simpa [initScan, sameOrder, init, negative] using stops
        subst here
        exact ⟨Nat.le_refl _, ⟨initops, by simp, sameOrder, hasInit, negative⟩, by omega⟩
      · have continues : (initScan outcome order (iter + 1) rest).2 = some failed := by
          rw [initScan] at stops
          by_cases sameOrder : initops.order = order
          · cases init : initops.init with
            | none => simpa [sameOrder, init] using stops
            | some fn =>
                have passes : ¬ outcome iter < 0 := fun negative =>
                  failsHere ⟨sameOrder, by simp [init], negative⟩
                simpa [sameOrder, init, passes] using stops
          · simpa [sameOrder] using stops
        obtain ⟨within, ⟨other, lookup, properties⟩, earlier⟩ := ih (iter + 1) continues
        refine ⟨by omega, ⟨other, ?_, properties⟩, ?_⟩
        · have shift : failed - iter = failed - (iter + 1) + 1 := by omega
          rw [shift, List.getElem?_cons_succ, lookup]
        · intro offset entry lookup' sameOrder hasInit before
          cases offset with
          | zero =>
              cases lookup'
              exact Int.not_lt.mp fun negative =>
                failsHere ⟨sameOrder, hasInit, negative⟩
          | succ offset =>
              have passes := earlier offset entry lookup' sameOrder hasInit (by omega)
              rwa [Nat.add_assoc, Nat.add_comm 1 offset] at passes

theorem initScan_table_eq_none_iff (table : List (Initops Fn Priv)) (outcome : Outcome)
    (order : Nat) :
    (initScan outcome order 0 table).2 = none ↔
      ∀ index, ¬ InitFails table outcome order index := by
  rw [initScan_eq_none_iff]
  constructor
  · rintro passes index ⟨initops, lookup, sameOrder, hasInit, negative⟩
    have nonneg := passes index initops lookup sameOrder hasInit
    rw [Nat.zero_add] at nonneg
    omega
  · intro noFailure index initops lookup sameOrder hasInit
    rw [Nat.zero_add]
    exact Int.not_lt.mp fun negative =>
      noFailure index ⟨initops, lookup, sameOrder, hasInit, negative⟩

theorem initScan_table_stops {table : List (Initops Fn Priv)} {outcome : Outcome}
    {order : Nat} {failed : Nat}
    (stops : (initScan outcome order 0 table).2 = some failed) :
    InitFails table outcome order failed ∧
      ∀ index, index < failed → ¬ InitFails table outcome order index := by
  obtain ⟨_, fails, earlier⟩ := initScan_stops outcome order table 0 failed stops
  refine ⟨fails, ?_⟩
  rintro index before ⟨initops, lookup, sameOrder, hasInit, negative⟩
  have passes := earlier index initops lookup sameOrder hasInit (by omega)
  rw [Nat.zero_add] at passes
  omega

end LinuxCTemplate.Initops
