import LinuxCTemplate.Foundation.HighWater
import LinuxCTemplate.Mempool.Limit

/-!
# What a pool keeps

A slice is taken from the system only when none is cached, that is, when all that the pool
has are in use.  So `mp->ref` is the largest number of slices that have been in use at one
moment since the last `mempool_recycle`, and `mp->fail` counts the calls made while as many
were in use as the limit allows.
-/

namespace LinuxCTemplate.Mempool

open Foundation ListHead

/-- The step is a `mempool_recycle`. -/
def Action.isRecycle : Action → Bool
  | .recycle .. => true
  | _ => false

/-- `alloc_slice` leaves the slices alone, or it adds the only one that is not in use. -/
theorem allocSlice_ref {pool pool' : Pool} {stack : List Nat} (blocks : Blocks pool)
    (cached : Cached pool stack) {block slice : Nat}
    (result : allocSlice block pool = .ok (slice, pool')) :
    pool'.mp.ref = pool.mp.ref ∨ stack = [] ∧ pool'.mem = pool.mem ∧
      pool'.mp.listFree = pool.mp.listFree ∧ pool'.mp.ref = pool.mp.ref + 1 ∧
      pool'.live = slice :: pool.live := by
  obtain ⟨rest, allocated⟩ := allocSlice_allocated blocks cached block
  rw [result] at allocated
  cases allocated with
  | reuse | limit | noMemory => exact Or.inl rfl
  | fresh => exact Or.inr ⟨rfl, rfl, rfl, rfl, rfl⟩

namespace System

variable {sys next : System} {stack : List Nat} {action : Action}

/-- After a `mempool_recycle` all slices of the pool are in use. -/
theorem ref_of_recycle (reachable : machine.Reachable sys) (taken : machine.Step sys action next)
    (isRecycle : action.isRecycle = true) : next.pool.mp.ref.toNat = next.inUse.ncard := by
  obtain ⟨stack, inv⟩ := exists_inv reachable
  obtain ⟨stack', kept⟩ := inv.step (step_change taken).2
  cases action <;> try cases isRecycle
  have cleared : stack' = [] := by
    have op := kept.op
    cases op
    rfl
  rw [kept.inv.accounted.ref, cleared, List.length_nil, Nat.zero_add]

/-- Any other step leaves `mp->ref` alone, or adds the last slice that is taken into use. -/
theorem ref_of_not_recycle (reachable : machine.Reachable sys)
    (taken : machine.Step sys action next) (notRecycle : action.isRecycle = false) :
    next.pool.mp.ref = sys.pool.mp.ref ∨
      next.pool.mp.ref.toNat = next.inUse.ncard ∧
        sys.pool.mp.ref.toNat ≤ next.pool.mp.ref.toNat := by
  obtain ⟨stack, inv⟩ := exists_inv reachable
  have change := (step_change taken).2
  obtain ⟨stack', kept⟩ := inv.step change
  have ref' := kept.inv.accounted.ref
  cases change with
  | @allocated thread block slice pool isIdle malloc result =>
      simp only [handOver_pool, setPool_pool] at ref' ⊢
      rcases allocSlice_ref inv.blocks inv.cached result with same | ⟨isNil, mem, list, _, live⟩
      · exact Or.inl same
      · right
        have stillNil : stack' = [] := by
          have list' := kept.inv.cached.list
          simp only [handOver_pool, setPool_pool, mem, list] at list'
          have isEmpty := inv.cached.list.listEmpty_iff.mpr (List.map_eq_nil_iff.mpr isNil)
          exact List.map_eq_nil_iff.mp (list'.listEmpty_iff.mp isEmpty)
        have count := kept.inv.blocks.ref
        simp only [handOver_pool, setPool_pool, live, List.length_cons] at count
        constructor
        · rw [ref', stillNil, List.length_nil, Nat.zero_add]
        · rw [count, inv.blocks.ref]
          exact Nat.le_succ _
  | accepted => exact Or.inl (by rw [returnSlice_pool]; rfl)
  | recycled | recycleDies => cases notRecycle
  | _ => exact Or.inl rfl

end System

/-- `mp->ref` is the largest number of slices in use at one moment since the last
`mempool_recycle`, or since `mempool_init`. -/
theorem ref_isGreatest_inUse {history : List (System × Action)} {sys : System}
    (run : System.machine.Run history sys) :
    IsGreatest {count | ∃ visited ∈ Machine.since Action.isRecycle history sys,
      visited.inUse.ncard = count} sys.pool.mp.ref.toNat := by
  apply run.isGreatest_since
  · intro sys initial
    have ref := (System.inv_initial initial).accounted.ref
    rwa [List.length_nil, Nat.zero_add] at ref
  · exact fun sys action next => System.ref_of_recycle
  · intro sys action next reachable taken notRecycle
    rcases System.ref_of_not_recycle reachable taken notRecycle with same | ⟨isUsed, _⟩
    · exact Or.inl (by rw [same])
    · exact Or.inr isUsed
  · intro sys action next reachable taken notRecycle
    rcases System.ref_of_not_recycle reachable taken notRecycle with same | ⟨_, more⟩
    · rw [same]
    · exact more
  · intro sys reachable
    obtain ⟨stack, inv⟩ := System.exists_inv reachable
    have ref := inv.accounted.ref
    omega

/-! ## Refusals -/

namespace System

/-- The step is a `mempool_alloc` while as many slices are in use as the limit allows. -/
def AtLimit (sys : System) (action : Action) : Prop :=
  (∃ thread block, action = .alloc thread block) ∧ sys.pool.mp.max ≠ 0 ∧
    sys.inUse.ncard = sys.pool.mp.max.toNat

variable {sys next : System} {action : Action}

theorem refusesAt_iff_atLimit (reachable : machine.Reachable sys) (thread block : Nat) :
    RefusesAt block sys.pool ↔ sys.AtLimit (.alloc thread block) := by
  obtain ⟨stack, inv⟩ := exists_inv reachable
  have ref := inv.accounted.ref
  rw [refusesAt_iff inv.blocks inv.cached block]
  constructor
  · rintro ⟨isNil, limited, reached⟩
    have within := UInt64.le_iff_toNat_le.mp (withinLimit reachable limited)
    rw [UInt64.le_iff_toNat_le] at reached
    rw [isNil, List.length_nil, Nat.zero_add] at ref
    exact ⟨⟨thread, block, rfl⟩, limited, by omega⟩
  · rintro ⟨_, limited, allInUse⟩
    have within := UInt64.le_iff_toNat_le.mp (withinLimit reachable limited)
    refine ⟨List.length_eq_zero_iff.mp (by omega), limited, ?_⟩
    rw [UInt64.le_iff_toNat_le]
    omega

/-- A refusal is counted. -/
theorem fail_of_atLimit (reachable : machine.Reachable sys) (taken : machine.Step sys action next)
    (atLimit : sys.AtLimit action) : next.pool.mp.fail = sys.pool.mp.fail + 1 := by
  obtain ⟨⟨thread, block, rfl⟩, _⟩ := id atLimit
  have refuses := (refusesAt_iff_atLimit reachable thread block).mpr atLimit
  cases (step_change taken).2 with
  | allocated isIdle malloc result =>
      obtain ⟨_, rfl⟩ := Prod.mk.inj (Except.ok.inj (result.symm.trans refuses))
      rw [handOver_pool]
      rfl
  | allocDies isIdle result => cases result.symm.trans refuses

/-- Nothing else is. -/
theorem fail_of_not_atLimit (reachable : machine.Reachable sys)
    (taken : machine.Step sys action next) (notAtLimit : ¬ sys.AtLimit action) :
    next.pool.mp.fail = sys.pool.mp.fail := by
  obtain ⟨stack, inv⟩ := exists_inv reachable
  cases (step_change taken).2 with
  | @allocated thread block slice pool isIdle malloc result =>
      rw [handOver_pool]
      have notRefused := mt (refusesAt_iff_atLimit reachable thread block).mp notAtLimit
      obtain ⟨rest, allocated⟩ := allocSlice_allocated inv.blocks inv.cached block
      rw [result] at allocated
      cases allocated with
      | limit => exact (notRefused result).elim
      | reuse | noMemory | fresh => rfl
  | accepted =>
      rw [returnSlice_pool]
      rfl
  | @recycled thread reserve junk pool isIdle result =>
      obtain ⟨pool', ran, recycled⟩ := mempoolRecycle_all reserve junk inv.blocks inv.cached
      obtain rfl : pool = pool' := Except.ok.inj (result.symm.trans ran)
      rw [setPool_pool, recycled.mp]
  | _ => rfl

theorem fail_initial (initial : Initial sys) : sys.pool.mp.fail = 0 := by
  obtain ⟨addr, name, size, max, ctor, dtor, mem, init⟩ := initial.init
  unfold mempoolInit at init
  split at init
  next => cases init
  next =>
    split at init
    next => cases init
    next => cases init
    next =>
      rw [← (Prod.mk.inj (Except.ok.inj init)).1]

end System

open scoped Classical in
/-- `mp->fail` counts the calls of `mempool_alloc` made while as many slices were in use as
the limit allows, modulo 2^64. -/
theorem fail_counts_atLimit {history : List (System × Action)} {sys : System}
    (run : System.machine.Run history sys) :
    sys.pool.mp.fail =
      UInt64.ofNat (history.countP fun entry => decide (entry.1.AtLimit entry.2)) := by
  induction run with
  | start initial => exact System.fail_initial initial
  | @step history state next action run taken ih =>
      rw [List.countP_append, List.countP_singleton]
      by_cases atLimit : state.AtLimit action
      · rw [System.fail_of_atLimit ⟨history, run⟩ taken atLimit, ih,
          if_pos (decide_eq_true atLimit), UInt64.ofNat_add]
        rfl
      · rw [System.fail_of_not_atLimit ⟨history, run⟩ taken atLimit, ih, if_neg]
        · rfl
        · simpa using atLimit

/-! ## Two slices -/

/-- Slices of 32 bytes, at most two. -/
def twoSlicePool : Mempool where
  addr := 4096
  magic := 0x54085408
  sz := 32
  name := [109]
  ref := 0
  max := 2
  fail := 0
  ctor := false
  dtor := false

/-- Both slices are in use when a third thread is refused; one is freed, and then recycled. -/
def twoSliceRun : List Action :=
  [.alloc 0 8192, .alloc 1 12288, .alloc 2 0, .free 0 8192, .magic 0, .link 0,
    .recycle 1 2 fun _ => 0]

theorem twoSlicePool_initial : System.Initial (System.boot twoSlicePool fun _ => 0) := by
  have init : mempoolInit 4096 (some [109]) 32 2 false false (fun _ => 0) =
      .ok (twoSlicePool, initListHead twoSlicePool.listFree fun _ => 0) := rfl
  exact System.boot_initial init (by decide)

theorem ref_isGreatest_inUse_twoSliceRun :
    ∃ history sys, System.machine.Run history sys ∧ sys.pool.mp.ref = 2 ∧
      sys.held 0 = [] ∧ sys.pc 0 = .idle ∧
      IsGreatest {count | ∃ visited ∈ Machine.since Action.isRecycle history sys,
        visited.inUse.ncard = count} sys.pool.mp.ref.toNat := by
  obtain ⟨sys, ran, ref, freed, isIdle⟩ := Machine.exists_runWhile System.step (fun _ _ => true)
    (System.boot twoSlicePool fun _ => 0) (twoSliceRun.take 6)
    (fun sys => sys.pool.mp.ref = 2 ∧ sys.held 0 = [] ∧ sys.pc 0 = .idle) (by decide)
  have start : System.machine.Run [] (System.boot twoSlicePool fun _ => 0) :=
    .start twoSlicePool_initial
  obtain ⟨history, run, _⟩ := start.continue_evaluated (fun _ _ _ taken => taken) ran
  exact ⟨history, sys, run, ref, freed, isIdle, ref_isGreatest_inUse run⟩

open scoped Classical in
theorem fail_counts_atLimit_twoSliceRun :
    ∃ history sys, System.machine.Run history sys ∧ sys.pool.mp.fail = 1 ∧
      sys.pool.mp.ref = 1 ∧ sys.pool.mp.fail =
        UInt64.ofNat (history.countP fun entry => decide (entry.1.AtLimit entry.2)) := by
  obtain ⟨sys, ran, fail, ref⟩ := Machine.exists_runWhile System.step (fun _ _ => true)
    (System.boot twoSlicePool fun _ => 0) twoSliceRun
    (fun sys => sys.pool.mp.fail = 1 ∧ sys.pool.mp.ref = 1) (by decide)
  have start : System.machine.Run [] (System.boot twoSlicePool fun _ => 0) :=
    .start twoSlicePool_initial
  obtain ⟨history, run, _⟩ := start.continue_evaluated (fun _ _ _ taken => taken) ran
  exact ⟨history, sys, run, fail, ref, fail_counts_atLimit run⟩

end LinuxCTemplate.Mempool
