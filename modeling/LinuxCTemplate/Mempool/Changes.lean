import LinuxCTemplate.Mempool.System

/-!
# What a step of a thread can do

`Change` lists the outcomes of a step with the conditions under which they occur.  The
invariants of a pool are proved once for these changes.
-/

namespace LinuxCTemplate.Mempool

open Foundation ListHead

/-- Who takes the step. -/
def Action.thread : Action → Nat
  | .alloc thread _ | .ctor thread _ _ | .free thread _ | .dtor thread _ | .magic thread
  | .link thread | .recycle thread _ _ | .client thread _ => thread

/-- The step is one of client code: a callback or the client itself. -/
def Action.isClient : Action → Bool
  | .ctor .. | .dtor .. | .client .. => true
  | _ => false

namespace System

variable {sys next : System} {thread other slice : Nat} {pc : Pc} {held : List Nat} {pool : Pool}
  {contents : Memory}

section Accessors

@[simp] theorem setPc_pool : (sys.setPc thread pc).pool = sys.pool := rfl

@[simp] theorem setPc_held : (sys.setPc thread pc).held = sys.held := rfl

@[simp] theorem setPc_fault : (sys.setPc thread pc).fault = sys.fault := rfl

@[simp] theorem setPc_pc : (sys.setPc thread pc).pc = Function.update sys.pc thread pc := rfl

@[simp] theorem setHeld_pool : (sys.setHeld thread held).pool = sys.pool := rfl

@[simp] theorem setHeld_pc : (sys.setHeld thread held).pc = sys.pc := rfl

@[simp] theorem setHeld_fault : (sys.setHeld thread held).fault = sys.fault := rfl

@[simp] theorem setHeld_held :
    (sys.setHeld thread held).held = Function.update sys.held thread held := rfl

@[simp] theorem setPool_pool : (sys.setPool pool).pool = pool := rfl

@[simp] theorem setPool_pc : (sys.setPool pool).pc = sys.pc := rfl

@[simp] theorem setPool_held : (sys.setPool pool).held = sys.held := rfl

@[simp] theorem setPool_fault : (sys.setPool pool).fault = sys.fault := rfl

@[simp] theorem clientWrites_pc : (sys.clientWrites thread contents).pc = sys.pc := rfl

@[simp] theorem clientWrites_held : (sys.clientWrites thread contents).held = sys.held := rfl

@[simp] theorem clientWrites_fault : (sys.clientWrites thread contents).fault = sys.fault := rfl

@[simp] theorem returnSlice_pool : (sys.returnSlice thread slice).pool = sys.pool := by
  unfold returnSlice
  split <;> rfl

@[simp] theorem returnSlice_fault : (sys.returnSlice thread slice).fault = sys.fault := by
  unfold returnSlice
  split <;> rfl

theorem returnSlice_pc :
    (sys.returnSlice thread slice).pc = Function.update sys.pc thread .idle := by
  unfold returnSlice
  split <;> rfl

theorem returnSlice_others (different : other ≠ thread) :
    (sys.returnSlice thread slice).pc other = sys.pc other ∧
      (sys.returnSlice thread slice).held other = sys.held other := by
  unfold returnSlice
  split
  · exact ⟨Function.update_of_ne different _ _, rfl⟩
  · exact ⟨Function.update_of_ne different _ _, Function.update_of_ne different _ _⟩

end Accessors

/-- `mempool_alloc` with the slice in hand: to the constructor, or back to the client. -/
def handOver (sys : System) (thread slice : Nat) : System :=
  if sys.pool.mp.ctor then sys.setPc thread (.ctor slice) else sys.returnSlice thread slice

@[simp] theorem handOver_pool : (sys.handOver thread slice).pool = sys.pool := by
  unfold handOver
  split <;> simp

@[simp] theorem handOver_fault : (sys.handOver thread slice).fault = sys.fault := by
  unfold handOver
  split <;> simp

/-- What a step can do. -/
inductive Change (sys : System) : Action → System → Prop where
  | allocated {thread block slice : Nat} {pool : Pool} : sys.pc thread = .idle →
      sys.mallocMayReturn block = true → allocSlice block sys.pool = .ok (slice, pool) →
      Change sys (.alloc thread block) ((sys.setPool pool).handOver thread slice)
  | allocDies {thread block : Nat} {fault : Fault} : sys.pc thread = .idle →
      allocSlice block sys.pool = .error fault →
      Change sys (.alloc thread block) { sys with fault := some fault }
  | rejected {thread slice : Nat} {ret : Int} {contents : Memory} : sys.pc thread = .ctor slice →
      ret ≠ 0 → Change sys (.ctor thread ret contents)
        ((sys.clientWrites thread contents).setPc thread (sys.freePc slice))
  | accepted {thread slice : Nat} {contents : Memory} : sys.pc thread = .ctor slice →
      Change sys (.ctor thread 0 contents)
        ((sys.clientWrites thread contents).returnSlice thread slice)
  | freed {thread slice : Nat} : sys.pc thread = .idle → slice ∈ sys.held thread →
      Change sys (.free thread slice)
        ((sys.setHeld thread ((sys.held thread).erase slice)).setPc thread (sys.freePc slice))
  | destroyed {thread slice : Nat} {contents : Memory} : sys.pc thread = .dtor slice →
      Change sys (.dtor thread contents)
        ((sys.clientWrites thread contents).setPc thread (.magic slice))
  | magicNull {thread : Nat} : sys.pc thread = .magic 0 →
      Change sys (.magic thread) { sys with fault := some .nullDeref }
  | magicSet {thread slice : Nat} : sys.pc thread = .magic slice → slice ≠ 0 →
      Change sys (.magic thread) ((sys.setPool { sys.pool with
        mem := setSliceMagic sys.pool.mem slice }).setPc thread (.link slice))
  | linked {thread slice : Nat} : sys.pc thread = .link slice →
      Change sys (.link thread) ((sys.setPool { sys.pool with
        mem := listAdd (listOf slice) sys.pool.mp.listFree sys.pool.mem }).setPc thread .idle)
  | recycled {thread : Nat} {reserve : UInt32} {junk : Memory} {pool : Pool} :
      sys.pc thread = .idle → mempoolRecycle reserve junk sys.pool = .ok pool →
      Change sys (.recycle thread reserve junk) (sys.setPool pool)
  | recycleDies {thread : Nat} {reserve : UInt32} {junk : Memory} {fault : Fault} :
      mempoolRecycle reserve junk sys.pool = .error fault →
      Change sys (.recycle thread reserve junk) { sys with fault := some fault }
  | wrote {thread : Nat} {contents : Memory} : sys.pc thread = .idle →
      Change sys (.client thread contents) (sys.clientWrites thread contents)

theorem step_change {action : Action} (taken : sys.step action = some next) :
    sys.fault = none ∧ Change sys action next := by
  unfold step at taken
  split at taken
  next => cases taken
  next alive =>
    refine ⟨not_not.mp alive, ?_⟩
    cases action with
    | alloc thread block =>
        simp only at taken
        split at taken
        next possible =>
          cases result : allocSlice block sys.pool with
          | error fault =>
              rw [result] at taken
              cases taken
              exact .allocDies possible.1 result
          | ok given =>
              rw [result] at taken
              cases taken
              exact .allocated possible.1 possible.2 result
        next => cases taken
    | ctor thread ret contents =>
        simp only at taken
        split at taken
        next slice at_ =>
          split at taken
          next reject =>
            cases taken
            exact .rejected at_ reject
          next accept =>
            cases taken
            obtain rfl := not_not.mp accept
            exact .accepted at_
        next => cases taken
    | free thread slice =>
        simp only at taken
        split at taken
        next possible =>
          cases taken
          exact .freed possible.1 possible.2
        next => cases taken
    | dtor thread contents =>
        simp only at taken
        split at taken
        next slice at_ =>
          cases taken
          exact .destroyed at_
        next => cases taken
    | magic thread =>
        simp only at taken
        split at taken
        next slice at_ =>
          split at taken
          next isNull =>
            cases taken
            subst isNull
            exact .magicNull at_
          next notNull =>
            cases taken
            exact .magicSet at_ notNull
        next => cases taken
    | link thread =>
        simp only at taken
        split at taken
        next slice at_ =>
          cases taken
          exact .linked at_
        next => cases taken
    | recycle thread reserve junk =>
        simp only at taken
        split at taken
        next isIdle =>
          cases result : mempoolRecycle reserve junk sys.pool with
          | error fault =>
              rw [result] at taken
              cases taken
              exact .recycleDies result
          | ok pool =>
              rw [result] at taken
              cases taken
              exact .recycled isIdle result
        next => cases taken
    | client thread contents =>
        simp only at taken
        split at taken
        next isIdle =>
          cases taken
          exact .wrote isIdle
        next => cases taken

/-- The other threads stay where they are, with what they hold. -/
theorem Change.others {action : Action} (change : Change sys action next)
    (different : other ≠ action.thread) :
    next.pc other = sys.pc other ∧ next.held other = sys.held other := by
  cases change with
  | allocated =>
      unfold handOver
      split
      · exact ⟨Function.update_of_ne different _ _, rfl⟩
      · exact returnSlice_others different
  | accepted => exact returnSlice_others different
  | freed => exact ⟨Function.update_of_ne different _ _, Function.update_of_ne different _ _⟩
  | allocDies | magicNull | recycled | recycleDies | wrote => exact ⟨rfl, rfl⟩
  | rejected | destroyed | magicSet | linked => exact ⟨Function.update_of_ne different _ _, rfl⟩

theorem Change.owned_of_ne {action : Action} (change : Change sys action next)
    (different : other ≠ action.thread) : next.owned other = sys.owned other := by
  unfold owned
  rw [(change.others different).1, (change.others different).2]

end System

end LinuxCTemplate.Mempool
