import LinuxCTemplate.Mempool.Accounting

/-!
# The limit of a pool

`alloc_slice` compares `mp->ref`, which counts cached slices and slices in use together,
with `mp->max`.  It does so only when no slice is cached, so a refusal means that as many
slices are in use as the limit allows.
-/

namespace LinuxCTemplate.Mempool

open Foundation ListHead

/-- `alloc_slice` takes the branch `mp->fail++; return NULL`. -/
def RefusesAt (block : Nat) (pool : Pool) : Prop :=
  allocSlice block pool =
    .ok (0, { pool with mp := { pool.mp with fail := pool.mp.fail + 1 } })

theorem fail_add_one_ne (fail : UInt64) : fail + 1 ≠ fail := by
  intro same
  have zero : (1 : UInt64) = 0 := UInt64.add_eq_left.mp same
  cases zero

/-- The branch is taken when no slice is cached and the limit is reached. -/
theorem refusesAt_iff {pool : Pool} {stack : List Nat} (blocks : Blocks pool)
    (cached : Cached pool stack) (block : Nat) :
    RefusesAt block pool ↔ stack = [] ∧ pool.mp.max ≠ 0 ∧ pool.mp.max ≤ pool.mp.ref := by
  have isEmpty : listEmpty pool.mp.listFree pool.mem = true ↔ stack = [] := by
    rw [cached.list.listEmpty_iff, List.map_eq_nil_iff]
  constructor
  · intro refuses
    obtain ⟨rest, allocated⟩ := allocSlice_allocated blocks cached block
    unfold RefusesAt at refuses
    generalize allocSlice block pool = result at refuses allocated
    -- Only in this branch is the new `fail` not the old one.
    have counted : ∀ {slice : Nat} {pool' : Pool}, result = .ok (slice, pool') →
        pool'.mp.fail ≠ pool.mp.fail := by
      intro slice pool' isResult
      have same := Except.ok.inj (isResult.symm.trans refuses)
      rw [(Prod.mk.inj same).2]
      exact fail_add_one_ne pool.mp.fail
    cases allocated with
    | limit limited reached => exact ⟨rfl, limited, reached⟩
    | tooSmall => cases refuses
    | reuse | noMemory | fresh => exact (counted rfl rfl).elim
  · rintro ⟨isNil, limited, reached⟩
    unfold RefusesAt allocSlice
    rw [if_pos (isEmpty.mpr isNil), if_pos ⟨limited, reached⟩]

/-- `mp->ref` is within the limit. -/
def WithinLimit (mp : Mempool) : Prop :=
  mp.max ≠ 0 → mp.ref ≤ mp.max

theorem WithinLimit.of_le {mp mp' : Mempool} (within : WithinLimit mp) (max : mp'.max = mp.max)
    (ref : mp'.ref ≤ mp.ref) : WithinLimit mp' := by
  intro limited
  rw [max] at limited ⊢
  exact UInt64.le_trans ref (within limited)

/-- A new slice is counted only below the limit. -/
theorem withinLimit_allocSlice {block slice : Nat} {pool pool' : Pool}
    (result : allocSlice block pool = .ok (slice, pool')) (within : WithinLimit pool.mp) :
    WithinLimit pool'.mp := by
  by_cases isEmpty : listEmpty pool.mp.listFree pool.mem = true
  · by_cases reached : pool.mp.max ≠ 0 ∧ pool.mp.max ≤ pool.mp.ref
    · rw [allocSlice, if_pos isEmpty, if_pos reached] at result
      obtain ⟨-, rfl⟩ := Prod.mk.inj (Except.ok.inj result)
      exact within
    · by_cases small : pool.mp.sz < sliceSize
      · rw [allocSlice, if_pos isEmpty, if_neg reached, if_pos small] at result
        cases result
      · by_cases none : block = 0
        · rw [allocSlice, if_pos isEmpty, if_neg reached, if_neg small, if_pos none] at result
          obtain ⟨-, rfl⟩ := Prod.mk.inj (Except.ok.inj result)
          exact within
        · rw [allocSlice, if_pos isEmpty, if_neg reached, if_neg small, if_neg none] at result
          obtain ⟨-, rfl⟩ := Prod.mk.inj (Except.ok.inj result)
          intro limited
          have below : pool.mp.ref < pool.mp.max :=
            UInt64.not_le.mp fun isReached => reached ⟨limited, isReached⟩
          rw [UInt64.lt_iff_toNat_lt] at below
          have fits := pool.mp.max.toNat_lt
          rw [UInt64.le_iff_toNat_le, UInt64.toNat_add]
          change (pool.mp.ref.toNat + 1) % 2 ^ 64 ≤ pool.mp.max.toNat
          rw [Nat.mod_eq_of_lt (by omega)]
          exact below
  · rw [allocSlice, if_neg isEmpty] at result
    simp only at result
    split at result
    · cases result
    · obtain ⟨-, rfl⟩ := Prod.mk.inj (Except.ok.inj result)
      exact within

namespace System

variable {sys next : System} {stack : List Nat} {action : Action}

theorem withinLimit_initial (initial : Initial sys) : WithinLimit sys.pool.mp := by
  have none : sys.pool.mp.ref.toNat = 0 := by
    rw [(inv_initial initial).blocks.ref, initial.live]
    rfl
  intro _
  rw [UInt64.le_iff_toNat_le, none]
  exact Nat.zero_le _

theorem Inv.withinLimit_step (inv : Inv sys stack) (change : Change sys action next)
    (within : WithinLimit sys.pool.mp) : WithinLimit next.pool.mp := by
  cases change with
  | allocated isIdle malloc result =>
      rw [handOver_pool, setPool_pool]
      exact withinLimit_allocSlice result within
  | accepted atCtor =>
      rw [returnSlice_pool]
      exact within
  | @recycled thread reserve junk pool isIdle result =>
      obtain ⟨pool', ran, recycled⟩ := mempoolRecycle_all reserve junk inv.blocks inv.cached
      obtain rfl : pool = pool' := Except.ok.inj (result.symm.trans ran)
      rw [setPool_pool]
      refine within.of_le (by rw [recycled.mp]) ?_
      have length := recycled.live.length_eq
      rw [List.length_append] at length
      rw [UInt64.le_iff_toNat_le, recycled.blocks.ref, inv.blocks.ref]
      omega
  | _ => exact within

theorem withinLimit (reachable : machine.Reachable sys) : WithinLimit sys.pool.mp := by
  apply reachable.invariant
  · exact fun _ => withinLimit_initial
  · intro sys action next reachable within taken
    obtain ⟨stack, inv⟩ := exists_inv reachable
    exact inv.withinLimit_step (step_change taken).2 within

/-- The limit of a pool is exact: `mp->ref` never exceeds it, `alloc_slice` refuses when
as many slices are in use as it allows and at no other time, and a pool without a limit
never refuses. -/
structure LimitExact (sys : System) : Prop where
  within : sys.pool.mp.max ≠ 0 → sys.pool.mp.ref ≤ sys.pool.mp.max
  refuses : sys.pool.mp.max ≠ 0 → ∀ block, RefusesAt block sys.pool ↔
    sys.inUse.ncard = sys.pool.mp.max.toNat
  unlimited : sys.pool.mp.max = 0 → ∀ block, ¬ RefusesAt block sys.pool

end System

theorem limit_exact {sys : System} (reachable : System.machine.Reachable sys) :
    sys.LimitExact := by
  obtain ⟨stack, inv⟩ := System.exists_inv reachable
  have within := System.withinLimit reachable
  have ref := inv.accounted.ref
  have refusesAt := refusesAt_iff inv.blocks inv.cached
  constructor
  case within => exact within
  case refuses =>
    intro limited block
    have atMost := UInt64.le_iff_toNat_le.mp (within limited)
    rw [refusesAt block]
    constructor
    · rintro ⟨isNil, _, reached⟩
      rw [UInt64.le_iff_toNat_le] at reached
      rw [isNil, List.length_nil] at ref
      omega
    · -- With all the slices in use there is none left for the stack.
      intro allInUse
      have noneCached : stack.length = 0 := by omega
      refine ⟨List.length_eq_zero_iff.mp noneCached, limited, ?_⟩
      rw [UInt64.le_iff_toNat_le]
      omega
  case unlimited =>
    intro noLimit block refuses
    exact ((refusesAt block).mp refuses).2.1 noLimit

/-! ## One slice -/

/-- Slices of 32 bytes, at most one, with a constructor. -/
def oneSlicePool : Mempool where
  addr := 4096
  magic := 0x54085408
  sz := 32
  name := [109]
  ref := 0
  max := 1
  fail := 0
  ctor := true
  dtor := false

/-- The constructor rejects the slice, which is cached; thread 1 gets it, and thread 2 is
refused. -/
def oneSliceRun : List Action :=
  let fill : Memory := fun _ => 170
  [.alloc 0 8192, .ctor 0 (-1) fill, .magic 0, .link 0, .alloc 1 0, .ctor 1 0 fill, .alloc 2 0]

theorem limit_exact_oneSliceRun :
    ∃ sys, System.machine.Reachable sys ∧ sys.pool.mp.fail = 1 ∧ sys.pool.mp.ref = 1 ∧
      sys.LimitExact := by
  obtain ⟨sys, ran, fail, ref⟩ := Machine.exists_runWhile System.step (fun _ _ => true)
    (System.boot oneSlicePool fun _ => 0) oneSliceRun
    (fun sys => sys.pool.mp.fail = 1 ∧ sys.pool.mp.ref = 1) (by decide)
  have init : mempoolInit 4096 (some [109]) 32 1 true false (fun _ => 0) =
      .ok (oneSlicePool, initListHead oneSlicePool.listFree fun _ => 0) := rfl
  have start : System.machine.Run [] (System.boot oneSlicePool fun _ => 0) :=
    .start (System.boot_initial init (by decide))
  obtain ⟨history, run, _⟩ := start.continue_evaluated (fun _ _ _ taken => taken) ran
  exact ⟨sys, ⟨history, run⟩, fail, ref, limit_exact ⟨history, run⟩⟩

end LinuxCTemplate.Mempool
