import LinuxCTemplate.Mempool.Preservation
import Mathlib.Order.CompletePartialOrder

/-!
# Every slice is accounted for

`mp->ref` is the number of slices on `list_free` and in use, through allocation, reuse,
rejection by the constructor, free and recycling, by any number of threads.  A pool of
large enough slices whose constructor accepts `NULL` does not die.
-/

namespace LinuxCTemplate.Mempool

open Foundation ListHead

namespace System

/-- The slices taken off the pool and not yet put back. -/
def inUse (sys : System) : Set Nat := {slice | ∃ thread, slice ∈ sys.owned thread}

/-- `list_free` holds the slices of the stack, each once; a slice in use is in use once, by
one thread, and not on the stack; and `mp->ref` counts them all. -/
structure Accounted (sys : System) (stack : List Nat) : Prop where
  list : IsList sys.pool.mem sys.pool.mp.listFree (stack.map listOf)
  nodup : stack.Nodup
  apart : Disjoint {slice | slice ∈ stack} sys.inUse
  once : ∀ thread, (sys.owned thread).Nodup
  unique : ∀ left right slice, slice ∈ sys.owned left → slice ∈ sys.owned right → left = right
  finite : sys.inUse.Finite
  ref : sys.pool.mp.ref.toNat = stack.length + sys.inUse.ncard

variable {sys next : System} {stack : List Nat} {action : Action}

theorem Inv.accounted (inv : Inv sys stack) : Accounted sys stack := by
  obtain ⟨finite, length⟩ := inv.custody.length_eq inv.blocks.nodup
  constructor
  case list => exact inv.cached.list
  case nodup => exact inv.cached.nodup
  case apart =>
    rw [Set.disjoint_left]
    rintro slice inStack ⟨thread, member⟩
    exact inv.custody.apart thread slice member inStack
  case once => exact inv.custody.nodup
  case unique => exact inv.custody.unique
  case finite => exact finite
  case ref => exact inv.blocks.ref.trans length

/-- `mempool_recycle` takes 1 from `mp->ref` for each slice it returns to the system, and
`mp->ref` has that much to give. -/
def RecycleCounts (sys : System) (stack : List Nat) : Prop :=
  ∀ thread reserve junk next, machine.Step sys (.recycle thread reserve junk) next →
    sys.pool.live.Perm (stack ++ next.pool.live) ∧
      next.pool.mp.ref.toNat + stack.length = sys.pool.mp.ref.toNat

theorem Inv.recycleCounts (inv : Inv sys stack) : RecycleCounts sys stack := by
  intro thread reserve junk next taken
  obtain ⟨pool, ran, recycled⟩ := mempoolRecycle_all reserve junk inv.blocks inv.cached
  obtain ⟨_, change⟩ := step_change taken
  cases change with
  | recycleDies result =>
      rw [result] at ran
      cases ran
  | @recycled _ _ _ pool' isIdle result =>
      obtain rfl : pool' = pool := Except.ok.inj (result.symm.trans ran)
      refine ⟨recycled.live, ?_⟩
      have length := recycled.live.length_eq
      rw [List.length_append] at length
      rw [setPool_pool, recycled.blocks.ref, inv.blocks.ref, length, Nat.add_comm]

/-! ## A pool that does not die -/

/-- The constructor returns 0 when called with `NULL`. -/
def acceptsNull (sys : System) : Action → Bool
  | .ctor thread ret _ => sys.pc thread ≠ .ctor 0 || ret = 0
  | _ => true

/-- No thread is about to pass `NULL` to the destructor or to write its magic. -/
structure Alive (sys : System) : Prop where
  fault : sys.fault = none
  dtor : ∀ thread, sys.pc thread ≠ .dtor 0
  magic : ∀ thread, sys.pc thread ≠ .magic 0

/-- The thread that moves is the only one to look at. -/
theorem Alive.after (alive : Alive sys) (change : Change sys action next)
    (fault : next.fault = sys.fault)
    (own : next.pc action.thread ≠ .dtor 0 ∧ next.pc action.thread ≠ .magic 0) : Alive next := by
  refine ⟨fault.trans alive.fault, fun thread => ?_, fun thread => ?_⟩ <;>
    by_cases same : thread = action.thread
  · exact same ▸ own.1
  · rw [(change.others same).1]
    exact alive.dtor thread
  · exact same ▸ own.2
  · rw [(change.others same).1]
    exact alive.magic thread

theorem freePc_not_null {slice : Nat} (notNull : slice ≠ 0) :
    sys.freePc slice ≠ .dtor 0 ∧ sys.freePc slice ≠ .magic 0 := by
  unfold freePc
  split <;> simp [notNull]

theorem Alive.step (alive : Alive sys) (inv : Inv sys stack)
    (large : sliceSize ≤ sys.pool.mp.sz) (accepts : sys.acceptsNull action = true)
    (change : Change sys action next) : Alive next := by
  have whole := change
  cases change with
  | @allocated thread block slice pool isIdle malloc result =>
      refine alive.after whole (by simp) ?_
      unfold handOver
      split
      · simp [Action.thread]
      · simp [Action.thread, returnSlice_pc]
  | @allocDies thread block fault isIdle result =>
      obtain ⟨rest, allocated⟩ := allocSlice_allocated inv.blocks inv.cached block
      rw [result] at allocated
      cases allocated with
      | tooSmall small => exact (UInt32.not_lt.mpr large small).elim
  | @rejected thread slice ret contents atCtor rejects =>
      have notNull : slice ≠ 0 := by
        rintro rfl
        simp [acceptsNull, atCtor, rejects] at accepts
      refine alive.after whole rfl ?_
      rw [Action.thread, setPc_pc, Function.update_self]
      exact freePc_not_null notNull
  | accepted =>
      refine alive.after whole returnSlice_fault ?_
      simp [Action.thread, returnSlice_pc]
  | @freed thread slice isIdle member =>
      have live := inv.custody.mem_of_held (List.mem_append_left _ member)
      refine alive.after whole rfl ?_
      rw [Action.thread, setPc_pc, Function.update_self]
      exact freePc_not_null (Nat.ne_of_gt (inv.blocks.pos slice live))
  | @destroyed thread slice contents atDtor =>
      have notNull : slice ≠ 0 := by
        rintro rfl
        exact alive.dtor thread atDtor
      refine alive.after whole rfl ?_
      simp [Action.thread, notNull]
  | magicNull atMagic => exact (alive.magic _ atMagic).elim
  | magicSet | linked =>
      refine alive.after whole rfl ?_
      simp [Action.thread]
  | recycled isIdle =>
      refine alive.after whole rfl ?_
      simp [Action.thread, isIdle]
  | @recycleDies thread reserve junk fault result =>
      obtain ⟨pool, ran, _⟩ := mempoolRecycle_all reserve junk inv.blocks inv.cached
      rw [result] at ran
      cases ran
  | wrote isIdle =>
      refine alive.after whole rfl ?_
      simp [Action.thread, isIdle]

theorem alive_initial (initial : Initial sys) : Alive sys where
  fault := initial.fault
  dtor thread := by simp [initial.pc thread]
  magic thread := by simp [initial.pc thread]

/-- The slice size is the one of `mempool_init` throughout. -/
theorem run_sz {history : List (System × Action)} (run : machine.Run history sys) :
    ∀ entry ∈ history, entry.1.pool.mp.sz = sys.pool.mp.sz := by
  refine run.unchanged (fun sys => sys.pool.mp.sz) fun sys action next reachable taken => ?_
  obtain ⟨stack, inv⟩ := exists_inv reachable
  obtain ⟨stack', kept⟩ := inv.step (step_change taken).2
  rw [kept.fields]

theorem alive_of_run {history : List (System × Action)} (run : machine.Run history sys)
    (large : sliceSize ≤ sys.pool.mp.sz)
    (accepts : ∀ entry ∈ history, entry.1.acceptsNull entry.2 = true) : Alive sys := by
  refine (run.invariant_of_steps
    (fun sys action => sliceSize ≤ sys.pool.mp.sz ∧ sys.acceptsNull action = true)
    (fun _ => alive_initial) ?_ fun entry member => ?_).2
  · rintro sys action next reachable alive ⟨large, accepts⟩ taken
    obtain ⟨stack, inv⟩ := exists_inv reachable
    exact alive.step inv large accepts (step_change taken).2
  · rw [run_sz run entry member]
    exact ⟨large, accepts entry member⟩

end System

/-- The accounts of a pool in every state of every run. -/
theorem slices_accounted {history : List (System × Action)} {sys : System}
    (run : System.machine.Run history sys) (large : sliceSize ≤ sys.pool.mp.sz)
    (acceptsNull : ∀ entry ∈ history, entry.1.acceptsNull entry.2 = true) :
    ∃ stack, sys.Accounted stack ∧ sys.RecycleCounts stack ∧ sys.fault = none := by
  obtain ⟨stack, inv⟩ := System.exists_inv ⟨history, run⟩
  exact ⟨stack, inv.accounted, inv.recycleCounts,
    (System.alive_of_run run large acceptsNull).fault⟩

/-! ## A pool with callbacks -/

/-- Slices of 32 bytes, with a constructor and a destructor. -/
def callbackPool : Mempool where
  addr := 4096
  magic := 0x54085408
  sz := 32
  name := [109]
  ref := 0
  max := 0
  fail := 0
  ctor := true
  dtor := true

/-- The constructor rejects the slice at 12288, which is reused by thread 1; thread 2
gets none; thread 0 frees its own. -/
def mixedRun : List Action :=
  let fill : Memory := fun _ => 170
  [.alloc 0 8192, .ctor 0 0 fill, .alloc 1 12288, .ctor 1 (-1) fill, .dtor 1 fill, .magic 1,
    .link 1, .alloc 1 0, .ctor 1 0 fill, .alloc 2 0, .ctor 2 0 fill, .free 0 8192, .dtor 0 fill,
    .magic 0, .link 0]

theorem slices_accounted_mixedRun :
    ∃ history sys, System.machine.Run history sys ∧ sys.held 1 = [12288] ∧
      sys.pool.mp.ref = 2 ∧
      ∃ stack, sys.Accounted stack ∧ sys.RecycleCounts stack ∧ sys.fault = none := by
  obtain ⟨sys, ran, given, ref, sz⟩ := Machine.exists_runWhile System.step System.acceptsNull
    (System.boot callbackPool fun _ => 0) mixedRun
    (fun sys => sys.held 1 = [12288] ∧ sys.pool.mp.ref = 2 ∧ sys.pool.mp.sz = 32) (by decide)
  have init : mempoolInit 4096 (some [109]) 32 0 true true (fun _ => 0) =
      .ok (callbackPool, initListHead callbackPool.listFree fun _ => 0) := rfl
  have start : System.machine.Run [] (System.boot callbackPool fun _ => 0) :=
    .start (System.boot_initial init (by decide))
  obtain ⟨history, run, _, acceptsNull⟩ := start.continue_evaluated (fun _ _ _ taken => taken) ran
  have large : sliceSize ≤ sys.pool.mp.sz := by
    rw [sz]
    decide
  exact ⟨history, sys, run, given, ref, slices_accounted run large acceptsNull⟩

end LinuxCTemplate.Mempool
