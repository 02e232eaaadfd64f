import LinuxCTemplate.Foundation.StableSort
import LinuxCTemplate.Initops.Walks

/-!
# The sequence of start-up

`initops_exec_init` scans the section once per order and leaves both loops at the first
init that returns a negative value.  The scans in turn are one walk over the entries in
stable sequence by order, cut right after that init.
-/

namespace LinuxCTemplate.Initops

open Foundation

variable {Fn Priv : Type}

def Call.isInit : Call Fn Priv → Bool
  | .init _ _ _ => true
  | .exit _ _ _ => false

/-- The init calls among the calls. -/
def initCalls (calls : List (Call Fn Priv)) : List (Call Fn Priv) :=
  calls.filter Call.isInit

/-- The entries of a section that have an init, with their section indices. -/
def registered (table : List (Initops Fn Priv)) : List (Initops Fn Priv × Nat) :=
  table.zipIdx.filter fun entry => entry.1.init.isSome

/-- The entries with an init by ascending order, in section order among equals. -/
def startUpSequence (table : List (Initops Fn Priv)) : List (Initops Fn Priv × Nat) :=
  sortByKey (fun entry => entry.1.order) (registered table)

/-- The call of the entry's init with its own `priv`. -/
def initCall (entry : Initops Fn Priv × Nat) : Option (Call Fn Priv) :=
  entry.1.init.map fun fn => .init entry.2 fn entry.1.priv

/-- The init of the entry returns a negative value. -/
def fails (outcome : Outcome) (entry : Initops Fn Priv × Nat) : Bool :=
  outcome entry.2 < 0

@[simp] theorem initCalls_append (left right : List (Call Fn Priv)) :
    initCalls (left ++ right) = initCalls left ++ initCalls right :=
  List.filter_append ..

@[simp] theorem initCalls_init (entry : Nat) (fn : Fn) (priv : Priv)
    (calls : List (Call Fn Priv)) :
    initCalls (.init entry fn priv :: calls) = .init entry fn priv :: initCalls calls := rfl

/-! ## Exit walks make no init call -/

@[simp] theorem initCalls_exitEntry (order iter : Nat) (initops : Initops Fn Priv) :
    initCalls (exitEntry order iter initops) = [] := by
  unfold exitEntry
  split
  · cases initops.exit <;> rfl
  · rfl

@[simp] theorem initCalls_exitScan (order iter : Nat) (rest : List (Initops Fn Priv)) :
    initCalls (exitScan order iter rest) = [] := by
  induction rest generalizing iter with
  | nil => rfl
  | cons initops rest ih => rw [exitScan, initCalls_append, initCalls_exitEntry, ih]; rfl

@[simp] theorem initCalls_fallbackWalk (table : List (Initops Fn Priv)) (order iter : Nat) :
    initCalls (fallbackWalk table order iter) = [] := by
  induction iter with
  | zero => rfl
  | succ iter ih =>
      rw [fallbackWalk, initCalls_append, ih]
      split
      · rw [initCalls_exitEntry]
        rfl
      · rfl

@[simp] theorem initCalls_fallbackOrdersFrom (table : List (Initops Fn Priv)) (order : Nat) :
    initCalls (fallbackOrdersFrom table order) = [] := by
  induction order with
  | zero => rfl
  | succ order ih =>
      rw [fallbackOrdersFrom, initCalls_append, ih, initopsExecExitByOrder, initCalls_exitScan]
      rfl

/-! ## The walks as cuts -/

/-- `Walks walk entries` holds of a walk over the entries: its init calls are theirs, cut
right after the first that fails, and it is left early if there is one. -/
structure Walks {Stop : Type} (outcome : Outcome) (walk : List (Call Fn Priv) × Option Stop)
    (entries : List (Initops Fn Priv × Nat)) : Prop where
  calls : initCalls walk.1 = (cutAfter (fails outcome) entries).filterMap initCall
  stops : walk.2.isSome = entries.any (fails outcome)

theorem walks_initScan (outcome : Outcome) (order iter : Nat) (rest : List (Initops Fn Priv)) :
    Walks outcome (initScan outcome order iter rest)
      (((rest.zipIdx iter).filter fun entry => entry.1.init.isSome).filter
        (·.1.order == order)) := by
  induction rest generalizing iter with
  | nil => exact ⟨rfl, rfl⟩
  | cons initops rest ih =>
      obtain ⟨calls, stops⟩ := ih (iter + 1)
      rw [List.zipIdx_cons, initScan]
      by_cases sameOrder : initops.order = order
      · cases init : initops.init with
        | none => simpa [sameOrder, init] using ih (iter + 1)
        | some fn =>
            by_cases negative : outcome iter < 0
            · constructor <;>
                simp [sameOrder, init, negative, cutAfter, fails, initCall, initCalls, Call.isInit]
            · constructor
              · simp [sameOrder, init, negative, cutAfter, fails, initCall, calls]
              · simp [sameOrder, init, negative, fails, stops]
      · cases init : initops.init <;> simpa [sameOrder, init] using ih (iter + 1)

theorem walks_execInitByOrder (table : List (Initops Fn Priv)) (outcome : Outcome)
    (order : Nat) :
    initCalls (initopsExecInitByOrder table outcome order).1 =
        (cutAfter (fails outcome)
          ((registered table).filter (·.1.order == order))).filterMap initCall ∧
      ((initopsExecInitByOrder table outcome order).2 ≠ 0 ↔
        ((registered table).filter (·.1.order == order)).any (fails outcome) = true) := by
  obtain ⟨calls, stops⟩ := walks_initScan outcome order 0 table
  rw [initopsExecInitByOrder]
  generalize initScan outcome order 0 table = scan at calls stops
  obtain ⟨made, failed⟩ := scan
  unfold registered
  rw [← calls, ← stops]
  cases failed with
  | none => simp
  | some failed => by_cases atStart : failed = 0 <;> simp [atStart]

theorem walks_initOrdersFrom (table : List (Initops Fn Priv)) (outcome : Outcome)
    (rounds order : Nat) :
    Walks outcome (initOrdersFrom table outcome rounds order)
      ((List.range' order rounds).flatMap fun order =>
        (registered table).filter (·.1.order == order)) := by
  induction rounds generalizing order with
  | zero => exact ⟨rfl, rfl⟩
  | succ rounds ih =>
      obtain ⟨laterCalls, laterStops⟩ := ih (order + 1)
      obtain ⟨calls, stops⟩ := walks_execInitByOrder table outcome order
      rw [List.range'_succ, List.flatMap_cons, initOrdersFrom]
      by_cases succeeds : (initopsExecInitByOrder table outcome order).2 = 0
      · have passes : ((registered table).filter (·.1.order == order)).any (fails outcome) =
            false := by
          rw [← Bool.not_eq_true, ← stops]
          exact not_not.mpr succeeds
        have uncut := @cutAfter_append_of_not_any _ _ _ ([] : List _) passes
        rw [List.append_nil, cutAfter, List.append_nil] at uncut
        simp only [succeeds, ne_eq, not_true_eq_false, if_false]
        constructor
        · rw [initCalls_append, calls, laterCalls, uncut, cutAfter_append_of_not_any passes,
            List.filterMap_append]
        · rw [laterStops, List.any_append, passes, Bool.false_or]
      · have fails := stops.mp succeeds
        simp only [succeeds, ne_eq, not_false_eq_true, if_true]
        constructor
        · rw [calls, cutAfter_append_of_any fails]
        · rw [List.any_append, fails]
          rfl

/-- The scans in turn are the walk over the entries in start-up sequence. -/
theorem walks_initOrders {table : List (Initops Fn Priv)}
    (orders : ∀ initops ∈ table, initops.order ≤ initopsOrderMax) (outcome : Outcome) :
    Walks outcome (initOrdersFrom table outcome (initopsOrderMax + 1) initopsOrderFirst)
      (startUpSequence table) := by
  have below : ∀ entry ∈ registered table, entry.1.order < initopsOrderMax + 1 := by
    intro entry member
    have inTable := List.fst_mem_of_mem_zipIdx (List.mem_of_mem_filter member)
    exact Nat.lt_succ_of_le (orders entry.1 inTable)
  have sorted := flatMap_filter_eq_sortByKey below
  unfold startUpSequence
  rw [← sorted, List.range_eq_range']
  exact walks_initOrdersFrom table outcome (initopsOrderMax + 1) initopsOrderFirst

/-! ## Start-up -/

/-- The init calls of `initops_exec_init` are those of the entries in stable sequence by
order, cut right after the first that returns a negative value; each init is called at
most once, with its own `priv`; and the function returns -1 if and only if such a call was
made, and 0 otherwise. -/
structure StartsInOrder (table : List (Initops Fn Priv)) (outcome : Outcome) : Prop where
  calls : initCalls (initopsExecInit table outcome).1 =
    (cutAfter (fails outcome) (startUpSequence table)).filterMap initCall
  once : (initEntries (initopsExecInit table outcome).1).Nodup
  own : ∀ entry fn priv, .init entry fn priv ∈ (initopsExecInit table outcome).1 →
    ∃ initops, table[entry]? = some initops ∧ initops.init = some fn ∧ initops.priv = priv
  failure : (initopsExecInit table outcome).2 = -1 ↔
    ∃ entry ∈ initEntries (initopsExecInit table outcome).1, outcome entry < 0
  success : (initopsExecInit table outcome).2 ≠ -1 → (initopsExecInit table outcome).2 = 0

theorem execInit_calls {table : List (Initops Fn Priv)}
    (orders : ∀ initops ∈ table, initops.order ≤ initopsOrderMax) (outcome : Outcome) :
    initCalls (initopsExecInit table outcome).1 =
        (cutAfter (fails outcome) (startUpSequence table)).filterMap initCall ∧
      (initopsExecInit table outcome).2 =
        if (startUpSequence table).any (fails outcome) then -1 else 0 := by
  obtain ⟨calls, stops⟩ := walks_initOrders orders outcome
  rw [initopsExecInit]
  generalize initOrdersFrom table outcome (initopsOrderMax + 1) initopsOrderFirst = loop
    at calls stops
  obtain ⟨made, stopped⟩ := loop
  rw [← calls, ← stops]
  cases stopped <;> simp

/-- An init call comes from the entry of its index. -/
theorem mem_startUpSequence {table : List (Initops Fn Priv)}
    {entry : Initops Fn Priv × Nat} :
    entry ∈ startUpSequence table ↔ table[entry.2]? = some entry.1 ∧ entry.1.init.isSome := by
  unfold startUpSequence registered
  rw [(sortByKey_perm _ _).mem_iff, List.mem_filter, List.mem_zipIdx_iff_getElem?]

theorem startUpSequence_nodup (table : List (Initops Fn Priv)) :
    ((startUpSequence table).map Prod.snd).Nodup := by
  have sorted := (sortByKey_perm (fun entry => entry.1.order) (registered table)).map Prod.snd
  have indices : ((registered table).map Prod.snd).Sublist (List.range' 0 table.length) := by
    rw [← List.zipIdx_map_snd 0 table]
    exact List.filter_sublist.map Prod.snd
  exact sorted.nodup_iff.mpr (indices.nodup List.nodup_range')

theorem initEntries_eq (calls : List (Call Fn Priv)) :
    initEntries calls = initEntries (initCalls calls) := by
  unfold initEntries initCalls
  rw [List.filterMap_filter]
  congr 1
  funext call
  cases call <;> rfl

theorem initEntries_filterMap_initCall {entries : List (Initops Fn Priv × Nat)}
    (hasInit : ∀ entry ∈ entries, entry.1.init.isSome) :
    initEntries (entries.filterMap initCall) = entries.map Prod.snd := by
  induction entries with
  | nil => rfl
  | cons entry entries ih =>
      obtain ⟨fn, init⟩ := Option.isSome_iff_exists.mp (hasInit entry List.mem_cons_self)
      have isCall : initCall entry = some (.init entry.2 fn entry.1.priv) := by
        simp [initCall, init]
      rw [List.filterMap_cons_some isCall, initEntries_init, List.map_cons,
        ih fun other member => hasInit other (List.mem_cons_of_mem _ member)]

theorem starts_in_order {table : List (Initops Fn Priv)}
    (orders : ∀ initops ∈ table, initops.order ≤ initopsOrderMax) (outcome : Outcome) :
    StartsInOrder table outcome := by
  obtain ⟨calls, result⟩ := execInit_calls orders outcome
  have isPrefix := cutAfter_prefix (fails outcome) (startUpSequence table)
  have hasInit : ∀ entry ∈ cutAfter (fails outcome) (startUpSequence table),
      entry.1.init.isSome :=
    fun entry member => (mem_startUpSequence.mp (isPrefix.subset member)).2
  have entries : initEntries (initopsExecInit table outcome).1 =
      (cutAfter (fails outcome) (startUpSequence table)).map Prod.snd := by
    rw [initEntries_eq, calls, initEntries_filterMap_initCall hasInit]
  constructor
  case calls => exact calls
  case once =>
    rw [entries]
    exact (isPrefix.sublist.map Prod.snd).nodup (startUpSequence_nodup table)
  case own =>
    intro entry fn priv made
    have inCalls : Call.init entry fn priv ∈ initCalls (initopsExecInit table outcome).1 :=
      List.mem_filter.mpr ⟨made, rfl⟩
    rw [calls, List.mem_filterMap] at inCalls
    obtain ⟨⟨initops, index⟩, member, isCall⟩ := inCalls
    obtain ⟨lookup, _⟩ := mem_startUpSequence.mp (isPrefix.subset member)
    obtain ⟨found, init, same⟩ := Option.map_eq_some_iff.mp isCall
    cases same
    exact ⟨initops, lookup, init, rfl⟩
  case failure =>
    have failing : (startUpSequence table).any (fails outcome) = true ↔
        ∃ entry ∈ initEntries (initopsExecInit table outcome).1, outcome entry < 0 := by
      rw [← any_cutAfter, entries, List.any_eq_true]
      simp only [List.mem_map, exists_exists_and_eq_and, fails, decide_eq_true_eq]
    rw [result, ← failing]
    split <;> simp_all
  case success =>
    rw [result]
    split <;> simp

/-- Orders out of sequence, one entry without an init; the init at index 3 fails below. -/
def unsortedTable : List (Initops Nat Unit) :=
  [⟨"a", initopsOrderLast, some 0, some 1, ()⟩, ⟨"b", initopsOrderFirst, some 2, none, ()⟩,
    ⟨"c", initopsOrderXxx, none, some 3, ()⟩, ⟨"d", initopsOrderLast, some 4, none, ()⟩,
    ⟨"e", initopsOrderMax, some 5, none, ()⟩]

theorem starts_in_order_unsorted :
    initEntries (initopsExecInit unsortedTable fun entry => if entry = 3 then -1 else 0).1 =
        [1, 0, 3] ∧
      StartsInOrder unsortedTable fun entry => if entry = 3 then -1 else 0 :=
  ⟨by decide, starts_in_order (by decide) _⟩

end LinuxCTemplate.Initops
