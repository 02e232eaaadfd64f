import LinuxCTemplate.Mempool.Limit

/-!
# A call that gets no slice

`alloc_slice` returns `NULL` when the limit is reached, which it counts in `mp->fail`, and
when `malloc` fails, which it does not count.  `mempool_alloc` does not look at the result
before it calls the constructor, so with a constructor the call goes on with `NULL`, and a
constructor that rejects it sends `NULL` through `mempool_free`.
-/

namespace LinuxCTemplate.Mempool

open Foundation ListHead

/-- The limit of the pool is reached. -/
def LimitReached (mp : Mempool) : Prop :=
  mp.max ≠ 0 ∧ mp.max ≤ mp.ref

/-- `mp->fail` has gone up by one; nothing else has changed. -/
def Pool.countFail (pool : Pool) : Pool :=
  { pool with mp := { pool.mp with fail := pool.mp.fail + 1 } }

namespace System

/-- No slice is cached, and the limit is reached or `malloc` fails. -/
def NoSlice (sys : System) (block : Nat) : Prop :=
  listEmpty sys.pool.mp.listFree sys.pool.mem = true ∧ (LimitReached sys.pool.mp ∨ block = 0)

/-- The rest of a call in the pool's code, undisturbed: the thread takes steps until it is
back in client code or the program has died. -/
inductive CallEnds (thread : Nat) : System → List Action → System → Prop where
  | returned {sys : System} : sys.fault = none → sys.pc thread = .idle →
      CallEnds thread sys [] sys
  | died {sys : System} : sys.fault ≠ none → CallEnds thread sys [] sys
  | step {sys next last : System} {action : Action} {actions : List Action} :
      sys.pc thread ≠ .idle → action.thread = thread → sys.step action = some next →
      CallEnds thread next actions last → CallEnds thread sys (action :: actions) last

/-- However its constructor and destructor behave, a call of `mempool_alloc` returns `NULL`
without calling either, the program lives, and of the pool only `mp->fail` has changed, by
one. -/
structure FailsCleanly (sys : System) (thread block : Nat) : Prop where
  called : ∃ next, sys.step (.alloc thread block) = some next
  ends : ∀ next, sys.step (.alloc thread block) = some next →
    ∀ actions last, CallEnds thread next actions last →
      actions = [] ∧ last.fault = none ∧ last.held = sys.held ∧ last.pool = sys.pool.countFail

variable {sys : System} {thread block : Nat}

/-- At the limit `alloc_slice` counts the failure. -/
theorem allocSlice_of_limitReached (noSlice : NoSlice sys block)
    (reached : LimitReached sys.pool.mp) :
    allocSlice block sys.pool = .ok (0, sys.pool.countFail) := by
  have limit : sys.pool.mp.max ≠ 0 ∧ sys.pool.mp.max ≤ sys.pool.mp.ref := reached
  rw [allocSlice, if_pos noSlice.1, if_pos limit]
  rfl

/-- A failure of `malloc` is not counted. -/
theorem allocSlice_of_not_limitReached (noSlice : NoSlice sys block)
    (notReached : ¬ LimitReached sys.pool.mp) :
    allocSlice block sys.pool = .error .bugOnSize ∨
      allocSlice block sys.pool = .ok (0, sys.pool) := by
  have noMemory : block = 0 := noSlice.2.resolve_left notReached
  have limit : ¬ (sys.pool.mp.max ≠ 0 ∧ sys.pool.mp.max ≤ sys.pool.mp.ref) := notReached
  rw [allocSlice, if_pos noSlice.1, if_neg limit, if_pos noMemory]
  by_cases small : sys.pool.mp.sz < sliceSize
  · exact Or.inl (if_pos small)
  · exact Or.inr (if_neg small)

theorem step_alloc (alive : sys.fault = none) (isIdle : sys.pc thread = .idle)
    (malloc : sys.mallocMayReturn block = true) :
    sys.step (.alloc thread block) = some (sys.under (allocSlice block sys.pool)
      fun (slice, pool) => (sys.setPool pool).handOver thread slice) := by
  simp only [step, alive, ne_eq, not_true_eq_false, if_false, isIdle, malloc, and_self, if_true]
  rfl

/-- Back in client code, a call has ended. -/
theorem CallEnds.of_idle {next last : System} {actions : List Action}
    (ends : CallEnds thread next actions last) (alive : next.fault = none)
    (isIdle : next.pc thread = .idle) : actions = [] ∧ last = next := by
  cases ends with
  | returned => exact ⟨rfl, rfl⟩
  | died dead => exact (dead alive).elim
  | step inside => exact (inside isIdle).elim

/-- `NULL` handed to the client. -/
theorem handOver_null (noCtor : sys.pool.mp.ctor = false) :
    sys.handOver thread 0 = sys.setPc thread .idle := by
  simp [handOver, noCtor, returnSlice]

theorem handOver_null_ctor (hasCtor : sys.pool.mp.ctor = true) :
    sys.handOver thread 0 = sys.setPc thread (.ctor 0) := by
  simp [handOver, hasCtor]

/-- A call that has failed goes on to the constructor, if there is one. -/
theorem exists_callEnds_ctor {next : System} (alive : next.fault = none)
    (atCtor : next.pc thread = .ctor 0) :
    ∃ last, CallEnds thread next [.ctor thread 0 fun _ => 0] last := by
  have taken : next.step (.ctor thread 0 fun _ => 0) =
      some ((next.clientWrites thread fun _ => 0).returnSlice thread 0) := by
    simp [step, alive, atCtor]
  refine ⟨_, .step (by simp [atCtor]) rfl taken (.returned ?_ ?_)⟩
  · rw [returnSlice_fault]
    exact alive
  · simp [returnSlice_pc]

/-- The write of the magic through `NULL`. -/
theorem callEnds_magic_null {next : System} (alive : next.fault = none)
    (atMagic : next.pc thread = .magic 0) :
    CallEnds thread next [.magic thread] { next with fault := some .nullDeref } := by
  have taken : next.step (.magic thread) = some { next with fault := some .nullDeref } := by
    simp [step, alive, atMagic]
  exact .step (by simp [atMagic]) rfl taken (.died (by simp))

/-- A constructor that rejects `NULL` makes the program die, after a call of the destructor
with `NULL` if there is one. -/
theorem exists_callEnds_nullDeref {next : System} (alive : next.fault = none)
    (atCtor : next.pc thread = .ctor 0) {ret : Int} (rejects : ret ≠ 0) (contents : Memory) :
    ∃ actions last, CallEnds thread next (.ctor thread ret contents :: actions) last ∧
      last.fault = some .nullDeref := by
  obtain ⟨rejected, isRejected⟩ :
      ∃ rejected, rejected = (next.clientWrites thread contents).setPc thread (next.freePc 0) :=
    ⟨_, rfl⟩
  have taken : next.step (.ctor thread ret contents) = some rejected := by
    rw [isRejected]
    simp only [step, alive, atCtor, rejects, ne_eq, not_true_eq_false, not_false_eq_true, if_true,
      if_false]
    rfl
  have start : next.pc thread ≠ .idle := by simp [atCtor]
  have alive' : rejected.fault = none := by
    rw [isRejected]
    exact alive
  cases hasDtor : next.pool.mp.dtor with
  | false =>
      have atMagic : rejected.pc thread = .magic 0 := by
        rw [isRejected, setPc_pc, Function.update_self, freePc, hasDtor]
        rfl
      exact ⟨_, _, .step start rfl taken (callEnds_magic_null alive' atMagic), rfl⟩
  | true =>
      have atDtor : rejected.pc thread = .dtor 0 := by
        rw [isRejected, setPc_pc, Function.update_self, freePc, hasDtor]
        rfl
      have destroyed : rejected.step (.dtor thread contents) =
          some ((rejected.clientWrites thread contents).setPc thread (.magic 0)) := by
        simp [step, alive', atDtor]
      have rest := @callEnds_magic_null thread
        ((rejected.clientWrites thread contents).setPc thread (.magic 0)) alive' (by simp)
      exact ⟨_, _, .step start rfl taken (.step (by simp [atDtor]) rfl destroyed rest), rfl⟩

/-- With a constructor, `NULL` goes there first. -/
theorem exists_step_alloc_ctor (alive : sys.fault = none) (isIdle : sys.pc thread = .idle)
    (malloc : sys.mallocMayReturn block = true) {pool : Pool}
    (failed : allocSlice block sys.pool = .ok (0, pool)) (hasCtor : pool.mp.ctor = true) :
    ∃ next, sys.step (.alloc thread block) = some next ∧ next.fault = none ∧
      next.pc thread = .ctor 0 := by
  have taken := step_alloc alive isIdle malloc
  rw [failed] at taken
  refine ⟨_, taken, ?_, ?_⟩
  · exact handOver_fault.trans alive
  · change ((sys.setPool pool).handOver thread 0).pc thread = .ctor 0
    rw [handOver_null_ctor hasCtor]
    simp

/-- With a constructor a failed call is never clean. -/
theorem FailsCleanly.no_ctor (alive : sys.fault = none) (isIdle : sys.pc thread = .idle)
    (malloc : sys.mallocMayReturn block = true) {pool : Pool}
    (failed : allocSlice block sys.pool = .ok (0, pool))
    (sameCtor : pool.mp.ctor = sys.pool.mp.ctor)
    (clean : FailsCleanly sys thread block) : sys.pool.mp.ctor = false := by
  by_contra hasCtor
  rw [Bool.not_eq_false, ← sameCtor] at hasCtor
  obtain ⟨next, taken, alive', atCtor⟩ := exists_step_alloc_ctor alive isIdle malloc failed hasCtor
  obtain ⟨last, ends⟩ := exists_callEnds_ctor alive' atCtor
  have noCallback := (clean.ends _ taken _ _ ends).1
  cases noCallback

end System

/-- A call of `mempool_alloc` that gets no slice fails cleanly if and only if the pool has
no constructor and it is the limit that is reached. -/
theorem alloc_fails_cleanly_iff {sys : System} {thread block : Nat} (alive : sys.fault = none)
    (isIdle : sys.pc thread = .idle) (malloc : sys.mallocMayReturn block = true)
    (noSlice : sys.NoSlice block) :
    sys.FailsCleanly thread block ↔ sys.pool.mp.ctor = false ∧ LimitReached sys.pool.mp := by
  have taken := System.step_alloc alive isIdle malloc
  constructor
  · intro clean
    by_cases reached : LimitReached sys.pool.mp
    · have failed := System.allocSlice_of_limitReached noSlice reached
      exact ⟨clean.no_ctor alive isIdle malloc failed rfl, reached⟩
    · exfalso
      rcases System.allocSlice_of_not_limitReached noSlice reached with died | failed
      · rw [died] at taken
        have lives := (clean.ends _ taken [] _ (.died (by simp [System.under]))).2.1
        cases lives
      · have noCtor := clean.no_ctor alive isIdle malloc failed rfl
        have returns := @System.handOver_null (sys.setPool sys.pool) thread noCtor
        rw [failed] at taken
        change sys.step _ = some ((sys.setPool sys.pool).handOver thread 0) at taken
        rw [returns] at taken
        have counted := (clean.ends _ taken [] _ (.returned alive (by simp))).2.2.2
        exact fail_add_one_ne _ (congrArg (fun pool => pool.mp.fail) counted).symm
  · rintro ⟨noCtor, reached⟩
    have returns := @System.handOver_null (sys.setPool sys.pool.countFail) thread noCtor
    rw [System.allocSlice_of_limitReached noSlice reached] at taken
    change sys.step _ = some ((sys.setPool sys.pool.countFail).handOver thread 0) at taken
    rw [returns] at taken
    refine ⟨⟨_, taken⟩, fun next called actions last ends => ?_⟩
    obtain rfl := Option.some.inj (taken.symm.trans called)
    obtain ⟨noCallback, rfl⟩ := ends.of_idle alive (by simp)
    exact ⟨noCallback, alive, rfl, rfl⟩

/-- The first slice is in use; the constructor has accepted it. -/
def exhaustedRun : List Action :=
  [.alloc 0 8192, .ctor 0 0 fun _ => 170]

/-- With the only slice in use the next call goes to the constructor with `NULL`, and if that
rejects it, the program dies. -/
theorem alloc_failure_not_clean :
    ¬ ∀ (sys : System) (thread block : Nat), System.machine.Reachable sys → sys.fault = none →
      sys.pc thread = .idle → sys.mallocMayReturn block = true → sys.NoSlice block →
      sys.FailsCleanly thread block := by
  intro clean
  obtain ⟨sys, ran, alive, isIdle, noneCached, limited, reached, hasCtor⟩ :=
    Machine.exists_runWhile System.step (fun _ _ => true)
      (System.boot oneSlicePool fun _ => 0) exhaustedRun
      (fun sys => sys.fault = none ∧ sys.pc 1 = .idle ∧
        listEmpty sys.pool.mp.listFree sys.pool.mem = true ∧
        sys.pool.mp.max ≠ 0 ∧ sys.pool.mp.max ≤ sys.pool.mp.ref ∧ sys.pool.mp.ctor = true)
      (by decide)
  have init : mempoolInit 4096 (some [109]) 32 1 true false (fun _ => 0) =
      .ok (oneSlicePool, initListHead oneSlicePool.listFree fun _ => 0) := rfl
  have start : System.machine.Run [] (System.boot oneSlicePool fun _ => 0) :=
    .start (System.boot_initial init (by decide))
  obtain ⟨history, run, _⟩ := start.continue_evaluated (fun _ _ _ taken => taken) ran
  have malloc : sys.mallocMayReturn 0 = true := rfl
  have noSlice : sys.NoSlice 0 := ⟨noneCached, Or.inr rfl⟩
  have failed := System.allocSlice_of_limitReached noSlice ⟨limited, reached⟩
  have clean := clean sys 1 0 ⟨history, run⟩ alive isIdle malloc noSlice
  obtain ⟨next, taken, alive', atCtor⟩ :=
    System.exists_step_alloc_ctor alive isIdle malloc failed hasCtor
  have rejects : (-1 : Int) ≠ 0 := by decide
  obtain ⟨actions, last, ends, dies⟩ :=
    System.exists_callEnds_nullDeref alive' atCtor rejects fun _ => 0
  have lives := (clean.ends next taken _ last ends).2.1
  rw [dies] at lives
  cases lives

/-- Without the constructor the next call fails cleanly. -/
theorem alloc_fails_cleanly_iff_exhausted :
    ∃ sys : System, sys.pool.mp.ref = 1 ∧
      (sys.FailsCleanly 1 0 ↔ sys.pool.mp.ctor = false ∧ LimitReached sys.pool.mp) := by
  obtain ⟨sys, ran, alive, isIdle, noneCached, ref⟩ :=
    Machine.exists_runWhile System.step (fun _ _ => true)
      (System.boot { oneSlicePool with ctor := false } fun _ => 0) [.alloc 0 8192]
      (fun sys => sys.fault = none ∧ sys.pc 1 = .idle ∧
        listEmpty sys.pool.mp.listFree sys.pool.mem = true ∧ sys.pool.mp.ref = 1) (by decide)
  have malloc : sys.mallocMayReturn 0 = true := rfl
  exact ⟨sys, ref, alloc_fails_cleanly_iff alive isIdle malloc ⟨noneCached, Or.inr rfl⟩⟩

end LinuxCTemplate.Mempool
