import LinuxCTemplate.Mempool.Refinement
import LinuxCTemplate.Mempool.Accounting
import LinuxCTemplate.Mempool.WalkTrace

/-!
# The reserve of a recycle

`__mempool_recycle` returns cached slices to the system until `mp->ref` has come down to
the reserve or none is left.  `mempool_recycle` does not pass its reserve on: it asks for 0
to be kept, so all the cached slices go, whatever the caller wants to keep.
-/

namespace LinuxCTemplate.Mempool

open Foundation ListHead Access

theorem Walked.reserve_le {reserve : UInt32} {pool pool' : Pool} {stack kept : List Nat}
    {accesses : List Access} (walked : Walked reserve pool stack accesses pool' kept)
    (above : reserve.toUInt64 ≤ pool.mp.ref) : reserve.toUInt64 ≤ pool'.mp.ref := by
  induction walked with
  | stop => exact above
  | round _ _ goesOn ref _ _ ih =>
      apply ih
      rw [UInt64.not_le, UInt64.lt_iff_toNat_lt] at goesOn
      have positive : (1 : UInt64) ≤ _ := UInt64.le_iff_toNat_le.mpr (Nat.one_le_of_lt goesOn)
      rw [ref, UInt64.le_iff_toNat_le, UInt64.toNat_sub_of_le _ _ positive]
      exact Nat.le_sub_one_of_lt goesOn

/-- At or below the reserve nothing is returned. -/
theorem Walked.stops {reserve : UInt32} {pool pool' : Pool} {stack kept : List Nat}
    {accesses : List Access} (walked : Walked reserve pool stack accesses pool' kept)
    (below : pool.mp.ref ≤ reserve.toUInt64) : pool' = pool := by
  cases walked with
  | stop => rfl
  | round _ _ goesOn => exact (goesOn below).elim

namespace System

/-- A recycle has kept the reserve: of the slices on the stack it has freed those that are
too many, each once, the others are on `list_free` in the order they had, and it has touched
no slice in use. -/
structure KeepsReserve (sys : System) (reserve : UInt32) (stack : List Nat)
    (accesses : List Access) (pool : Pool) : Prop where
  ref : pool.mp.ref.toNat = min sys.pool.mp.ref.toNat (Max.max reserve.toNat sys.inUse.ncard)
  once : (freed accesses).Nodup
  live : sys.pool.live.Perm (freed accesses ++ pool.live)
  kept : ∃ kept, (freed accesses ++ kept).Perm stack ∧ kept.Sublist stack ∧
    IsList pool.mem pool.mp.listFree (kept.map listOf)
  untouched : ∀ slice ∈ sys.inUse,
    Within (fun byte => ¬ InBlock sys.pool.mp.sz.toNat slice byte) accesses
  unchanged : ∀ slice ∈ sys.inUse, ∀ byte, InBlock sys.pool.mp.sz.toNat slice byte →
    pool.mem byte = sys.pool.mem byte

/-- The function, with its accesses, keeps the reserve, whatever `free` leaves behind. -/
def HonoursReserve (recycle : UInt32 → Memory → Pool → Except Fault Pool)
    (accesses : UInt32 → Memory → Pool → List Access) (sys : System) (reserve : UInt32) : Prop :=
  ∃ stack, sys.Accounted stack ∧ ∀ junk, ∃ pool, recycle reserve junk sys.pool = .ok pool ∧
    sys.KeepsReserve reserve stack (accesses reserve junk sys.pool) pool

variable {sys : System} {stack kept : List Nat} {reserve : UInt32} {accesses : List Access}
  {pool : Pool}

/-- What is left in `mp->ref` after a walk. -/
theorem Inv.ref_walked (inv : Inv sys stack)
    (walked : Walked reserve sys.pool stack accesses pool kept) :
    pool.mp.ref.toNat = kept.length + sys.inUse.ncard := by
  obtain ⟨freed, isStack, recycled, _⟩ := walked.recycled
  have total := inv.accounted.ref
  have length := recycled.live.length_eq
  rw [isStack, List.length_append] at total
  rw [List.length_append] at length
  have before := inv.blocks.ref
  have after := recycled.blocks.ref
  omega

theorem Inv.ref_eq_min (inv : Inv sys stack)
    (walked : Walked reserve sys.pool stack accesses pool kept) :
    pool.mp.ref.toNat = min sys.pool.mp.ref.toNat (Max.max reserve.toNat sys.inUse.ncard) := by
  have total := inv.accounted.ref
  have left := inv.ref_walked walked
  have sameReserve : reserve.toUInt64.toNat = reserve.toNat := UInt32.toNat_toUInt64 reserve
  by_cases below : sys.pool.mp.ref ≤ reserve.toUInt64
  · obtain rfl := walked.stops below
    rw [UInt64.le_iff_toNat_le, sameReserve] at below
    omega
  · have above : reserve.toUInt64 ≤ sys.pool.mp.ref := by
      rw [UInt64.not_le] at below
      exact UInt64.le_of_lt below
    have stays := walked.reserve_le above
    obtain ⟨freed, isStack, _, ends⟩ := walked.recycled
    rw [UInt64.le_iff_toNat_le, sameReserve] at above stays
    rcases ends with nothingKept | reached
    · rw [nothingKept, List.length_nil] at left
      omega
    · rw [UInt64.le_iff_toNat_le, sameReserve] at reached
      omega

theorem Inv.inUse_not_covered (inv : Inv sys stack) {slice byte : Nat}
    (inUse : slice ∈ sys.inUse) (inBlock : InBlock sys.pool.mp.sz.toNat slice byte) :
    ¬ Covered sys.pool.mp stack byte := by
  obtain ⟨thread, owned⟩ := inUse
  have isLive := inv.custody.mem_of_held owned
  have notCached := inv.custody.apart thread slice owned
  exact inv.blocks.not_covered inv.cached.live isLive notCached inBlock.1 inBlock.2

/-- `__mempool_recycle` keeps every reserve. -/
theorem Inv.honoursReserve (inv : Inv sys stack) (reserve : UInt32) :
    HonoursReserve __mempoolRecycle __mempoolRecycleAccesses sys reserve := by
  refine ⟨stack, inv.accounted, fun junk => ?_⟩
  obtain ⟨pool, kept, accesses, ran, isTrace, walked⟩ :=
    mempoolRecycle_walked reserve junk inv.blocks inv.cached
  obtain ⟨given, isStack, recycled, _⟩ := walked.recycled
  have trace := walked.trace.start inv.blocks inv.cached
  refine ⟨pool, ran, ?_⟩
  rw [isTrace]
  generalize startAccesses sys.pool stack ++ accesses = accesses at trace
  obtain rfl : given = Access.freed accesses :=
    List.append_cancel_right (isStack.symm.trans trace.freed)
  have nodup := inv.cached.nodup
  rw [isStack] at nodup
  constructor
  case ref => exact inv.ref_eq_min walked
  case once => exact nodup.of_append_left
  case live => exact recycled.live
  case kept =>
    refine ⟨kept, .of_eq isStack.symm, ?_, recycled.cached.list⟩
    rw [isStack]
    exact List.sublist_append_right _ _
  case untouched =>
    intro slice inUse
    refine trace.within.mono fun byte covered inBlock => ?_
    exact inv.inUse_not_covered inUse inBlock covered
  case unchanged =>
    intro slice inUse byte inBlock
    apply recycled.frame
    rw [← isStack]
    exact inv.inUse_not_covered inUse inBlock

/-- The reserve matters only in what is left. -/
theorem KeepsReserve.of_min_eq {other : UInt32}
    (keeps : KeepsReserve sys reserve stack accesses pool)
    (same : min sys.pool.mp.ref.toNat (Max.max reserve.toNat sys.inUse.ncard) =
      min sys.pool.mp.ref.toNat (Max.max other.toNat sys.inUse.ncard)) :
    KeepsReserve sys other stack accesses pool :=
  { keeps with ref := keeps.ref.trans same }

theorem Inv.listEmpty_iff (inv : Inv sys stack) :
    listEmpty sys.pool.mp.listFree sys.pool.mem = true ↔ stack = [] := by
  rw [inv.cached.list.listEmpty_iff, List.map_eq_nil_iff]

/-- With a slice cached, `mempool_recycle` leaves as many as are in use. -/
theorem Inv.few_of_honoursReserve (inv : Inv sys stack)
    (honours : HonoursReserve mempoolRecycle mempoolRecycleAccesses sys reserve)
    (isCached : stack ≠ []) : reserve.toNat ≤ sys.inUse.ncard := by
  obtain ⟨_, _, keeps⟩ := honours
  obtain ⟨_, _, keepsNone⟩ := inv.honoursReserve 0
  obtain ⟨pool, ran, kept⟩ := keeps fun _ => 0
  obtain ⟨pool', ran', keptNone⟩ := keepsNone fun _ => 0
  obtain rfl : pool = pool' := Except.ok.inj (ran.symm.trans ran')
  have same := kept.ref.symm.trans keptNone.ref
  have zero : (0 : UInt32).toNat = 0 := rfl
  have total := inv.accounted.ref
  have someCached : 0 < stack.length := List.length_pos_iff.mpr isCached
  rw [zero] at same
  omega

theorem Inv.honoursReserve_of_few (inv : Inv sys stack)
    (few : stack = [] ∨ reserve.toNat ≤ sys.inUse.ncard) :
    HonoursReserve mempoolRecycle mempoolRecycleAccesses sys reserve := by
  obtain ⟨stack', accounted, keepsNone⟩ := inv.honoursReserve 0
  refine ⟨stack', accounted, fun junk => ?_⟩
  obtain ⟨pool, ran, keptNone⟩ := keepsNone junk
  have zero : (0 : UInt32).toNat = 0 := rfl
  have total := inv.accounted.ref
  refine ⟨pool, ran, keptNone.of_min_eq ?_⟩
  rw [zero]
  rcases few with noneCached | fewToKeep
  · rw [noneCached, List.length_nil] at total
    omega
  · omega

end System

/-- `mempool_recycle` honours its reserve if and only if no slice is cached or no more are to
be kept than are in use. -/
theorem recycle_honours_reserve_iff {sys : System} (reachable : System.machine.Reachable sys)
    (reserve : UInt32) :
    sys.HonoursReserve mempoolRecycle mempoolRecycleAccesses reserve ↔
      listEmpty sys.pool.mp.listFree sys.pool.mem = true ∨ reserve.toNat ≤ sys.inUse.ncard := by
  obtain ⟨stack, inv⟩ := System.exists_inv reachable
  rw [inv.listEmpty_iff]
  constructor
  · intro honours
    by_cases noneCached : stack = []
    · exact Or.inl noneCached
    · exact Or.inr (inv.few_of_honoursReserve honours noneCached)
  · exact inv.honoursReserve_of_few

/-! ## A cache to keep -/

/-- Two slices are allocated and one is freed. -/
def oneCachedRun : List Action :=
  [.alloc 0 8192, .alloc 1 12288, .free 0 8192, .magic 0, .link 0]

/-- The threads that have made no step. -/
theorem System.idle_of_run {history : List (System × Action)} {sys : System} {count : Nat}
    (run : System.machine.Run history sys)
    (few : ∀ entry ∈ history, decide (entry.2.thread < count) = true) :
    ∀ thread, count ≤ thread → sys.pc thread = .idle := by
  apply (run.invariant_of_steps (fun _ action => decide (action.thread < count) = true) ?_ ?_ few).2
  · intro sys initial thread _
    exact initial.pc thread
  · intro sys action next _ idle isFew taken thread many
    rw [decide_eq_true_eq] at isFew
    rw [((System.step_change taken).2.others (by omega)).1]
    exact idle thread many

theorem exists_oneCached :
    ∃ sys, System.machine.Reachable sys ∧ (∀ thread, sys.pc thread = .idle) ∧
      sys.held 1 = [12288] ∧ sys.pool.mp.ref = 2 ∧
      listEmpty sys.pool.mp.listFree sys.pool.mem = false := by
  obtain ⟨sys, ran, first, second, result⟩ := Machine.exists_runWhile System.step
    (fun _ action => decide (action.thread < 2)) (System.boot plainPool fun _ => 0) oneCachedRun
    (fun sys => sys.pc 0 = .idle ∧ sys.pc 1 = .idle ∧ sys.held 1 = [12288] ∧
      sys.pool.mp.ref = 2 ∧ listEmpty sys.pool.mp.listFree sys.pool.mem = false) (by decide)
  have init : mempoolInit 4096 (some [109]) 32 0 false false (fun _ => 0) =
      .ok (plainPool, initListHead plainPool.listFree fun _ => 0) := rfl
  have start : System.machine.Run [] (System.boot plainPool fun _ => 0) :=
    .start (System.boot_initial init (by decide))
  obtain ⟨history, run, _, few⟩ := start.continue_evaluated (fun _ _ _ taken => taken) ran
  refine ⟨sys, ⟨history, run⟩, fun thread => ?_, result⟩
  rcases thread with _ | _ | thread
  · exact first
  · exact second
  · exact System.idle_of_run run few (thread + 2) (by omega)

/-- Of two slices, one of them cached, none is kept though the caller asks for 5. -/
theorem recycle_ignores_reserve :
    ¬ ∀ (sys : System) (reserve : UInt32), System.machine.Reachable sys →
      sys.HonoursReserve mempoolRecycle mempoolRecycleAccesses reserve := by
  intro honours
  obtain ⟨sys, reachable, _, _, ref, isCached⟩ := exists_oneCached
  obtain ⟨stack, inv⟩ := System.exists_inv reachable
  have nonempty : stack ≠ [] := by
    intro noneCached
    rw [inv.listEmpty_iff.mpr noneCached] at isCached
    cases isCached
  have many : (5 : UInt32).toNat ≤ sys.inUse.ncard :=
    inv.few_of_honoursReserve (honours sys 5 reachable) nonempty
  have total := inv.accounted.ref
  have two : sys.pool.mp.ref.toNat = 2 := by rw [ref]; rfl
  change 5 ≤ _ at many
  omega

/-- One of the two slices is in use, so a reserve of 1 is honoured. -/
theorem recycle_honours_reserve_iff_oneCached :
    ∃ sys : System, sys.held 1 = [12288] ∧ sys.pool.mp.ref = 2 ∧
      (sys.HonoursReserve mempoolRecycle mempoolRecycleAccesses 1 ↔
        listEmpty sys.pool.mp.listFree sys.pool.mem = true ∨
          (1 : UInt32).toNat ≤ sys.inUse.ncard) := by
  obtain ⟨sys, reachable, _, held, ref, _⟩ := exists_oneCached
  exact ⟨sys, held, ref, recycle_honours_reserve_iff reachable 1⟩

end LinuxCTemplate.Mempool
