import LinuxCTemplate.Foundation.Pairing
import LinuxCTemplate.Mempool.Exit

/-!
# Constructor and destructor calls

The callbacks run outside the lock, on a slice that the thread has taken off the pool or
has got back from its client.  Nobody else has the slice then, so that what has been called
on it follows from where it is: a slice at the constructor or on `list_free` is destroyed
or new, and one that a client holds or hands back is constructed.
-/

namespace LinuxCTemplate.Mempool

open Foundation ListHead Access

/-- A callback on a slice.  The constructor accepts the slice by returning 0. -/
inductive Call where
  | ctor (accepted : Bool)
  | dtor
  deriving DecidableEq, Repr

/-- A constructor call is followed by a destructor call. -/
inductive Call.Closes : Call → Call → Prop where
  | dtor (accepted : Bool) : Closes (.ctor accepted) .dtor

/-- The block that `alloc_slice` gets from `malloc`, if it calls it with success. -/
def mallocOf (block : Nat) (pool : Pool) : Option Nat :=
  match allocSlice block pool with
  | .error _ => none
  | .ok (slice, after) => if after.live = slice :: pool.live then some slice else none

/-- A stack grows by pushes only. -/
theorem StackStep.mem_or_pushed {Item : Type} {before after : List Item} {op : StackOp Item}
    {item : Item} (stackStep : StackStep before op after) (member : item ∈ after) :
    item ∈ before ∨ op = .push item := by
  cases stackStep with
  | push pushed =>
      rcases List.mem_cons.mp member with rfl | inStack
      · exact .inr rfl
      · exact .inl inStack
  | pop => exact .inl (List.mem_cons_of_mem _ member)
  | popEmpty | clear => cases member
  | skip => exact .inl member

namespace System

/-- The callbacks on a slice after a step.  A lifetime begins with `malloc`. -/
def callsAfter (slice : Nat) (calls : List Call) (entry : System × Action) : List Call :=
  match entry.2 with
  | .alloc _ block => if mallocOf block entry.1.pool = some slice then [] else calls
  | .ctor thread ret _ =>
      if entry.1.pc thread = .ctor slice then calls ++ [.ctor (ret = 0)] else calls
  | .dtor thread _ => if entry.1.pc thread = .dtor slice then calls ++ [.dtor] else calls
  | _ => calls

/-- The callbacks on a slice since its last `malloc`. -/
def calls (history : List (System × Action)) (slice : Nat) : List Call :=
  history.foldl (callsAfter slice) []

theorem calls_append (history : List (System × Action)) (entry : System × Action) (slice : Nat) :
    calls (history ++ [entry]) slice = callsAfter slice (calls history slice) entry := by
  rw [calls, List.foldl_append]
  rfl

variable {sys next : System} {stack : List Nat} {action : Action} {before later : Nat → List Call}
  {slice thread : Nat}

/-- Only the slice that the thread works on, or gets from `malloc`, is concerned. -/
theorem callsAfter_of_other (entry : System × Action) (calls : List Call) (notNull : slice ≠ 0)
    (notWorked : slice ∉ (entry.1.pc entry.2.thread).slices)
    (notMalloc : ∀ thread block, entry.2 = .alloc thread block →
      mallocOf block entry.1.pool ≠ some slice) : callsAfter slice calls entry = calls := by
  obtain ⟨sys, action⟩ := entry
  have notAt : ∀ pc : Pc, slice ∈ pc.slices → sys.pc action.thread ≠ pc :=
    fun pc member isPc => notWorked (isPc ▸ member)
  cases action with
  | alloc thread block =>
      simp only [callsAfter]
      rw [if_neg (notMalloc thread block rfl)]
  | ctor thread ret contents =>
      exact if_neg (notAt (.ctor slice) (by simp [Pc.slices, notNull]))
  | dtor thread contents =>
      exact if_neg (notAt (.dtor slice) (by simp [Pc.slices, notNull]))
  | free | magic | link | recycle | client => rfl

/-! ## The invariant -/

/-- The slice has been destroyed after it was constructed. -/
def Destroyed (calls : List Call) : Prop := Paired Call.Closes calls ∧ calls ≠ []

/-- What the callbacks on the slice that a thread works on have been. -/
def CallsAt (calls : Nat → List Call) : Pc → Prop
  | .idle => True
  | .ctor slice => slice ≠ 0 → Paired Call.Closes (calls slice)
  | .dtor slice => slice ≠ 0 → ∃ accepted, Pending Call.Closes (.ctor accepted) (calls slice)
  | .magic slice | .link slice => slice ≠ 0 → Destroyed (calls slice)

structure CallsInv (calls : Nat → List Call) (sys : System) (stack : List Nat) : Prop where
  held : ∀ thread, ∀ slice ∈ sys.held thread, Pending Call.Closes (.ctor true) (calls slice)
  pc : ∀ thread, CallsAt calls (sys.pc thread)
  cached : ∀ slice ∈ stack, Destroyed (calls slice)
  dead : ∀ slice, slice ≠ 0 → slice ∉ sys.pool.live → Paired Call.Closes (calls slice)

theorem CallsAt.congr {pc : Pc} (callsAt : CallsAt before pc)
    (same : ∀ slice ∈ pc.slices, later slice = before slice) : CallsAt later pc := by
  cases pc with
  | idle => trivial
  | ctor slice | dtor slice | magic slice | link slice =>
      intro notNull
      have isSame := same slice (by simp [Pc.slices, notNull])
      rw [isSame]
      exact callsAt notNull

theorem callsInv_initial (initial : Initial sys) : CallsInv (calls []) sys [] where
  held thread slice member := by
    rw [initial.held thread] at member
    cases member
  pc thread := by
    rw [initial.pc thread]
    trivial
  cached slice member := (List.not_mem_nil member).elim
  dead _ _ _ := .nil

/-! ## The steps -/

/-- A new block has not been live before. -/
theorem Change.mallocOf_not_live {block : Nat} {stack' : List Nat}
    (change : Change sys (.alloc thread block) next) (inv' : Inv next stack')
    (malloc : mallocOf block sys.pool = some slice) :
    slice ∉ sys.pool.live ∧ slice ∈ next.pool.live := by
  unfold mallocOf at malloc
  cases change with
  | allocDies isIdle result =>
      rw [result] at malloc
      cases malloc
  | @allocated _ _ given pool isIdle may result =>
      rw [result] at malloc
      dsimp only at malloc
      split at malloc
      next isLive =>
        cases malloc
        have nodup := inv'.blocks.nodup
        rw [handOver_pool, setPool_pool] at nodup ⊢
        rw [isLive] at nodup ⊢
        exact ⟨(List.nodup_cons.mp nodup).1, List.mem_cons_self⟩
      next => cases malloc

theorem stackOp_eq_push :
    sys.stackOp action = .push slice ↔
      ∃ thread, action = .link thread ∧ sys.pc thread = .link slice := by
  constructor
  · intro isPush
    cases action with
    | link thread =>
        refine ⟨thread, rfl, ?_⟩
        simp only [stackOp] at isPush
        split at isPush
        next other atLink =>
          cases isPush
          exact atLink
        next => cases isPush
    | _ => cases isPush
  · rintro ⟨thread, rfl, atLink⟩
    simp only [stackOp, atLink]

/-- Only cached slices are returned to the system. -/
theorem Change.live_or_cached (change : Change sys action next) (inv : Inv sys stack)
    (live : slice ∈ sys.pool.live) : slice ∈ next.pool.live ∨ slice ∈ stack := by
  cases change with
  | @allocated thread block given pool isIdle may result =>
      left
      obtain ⟨rest, allocated⟩ := allocSlice_allocated inv.blocks inv.cached block
      rw [result] at allocated
      rw [handOver_pool, setPool_pool]
      cases allocated with
      | reuse | limit | noMemory => exact live
      | fresh => exact List.mem_cons_of_mem _ live
  | accepted =>
      left
      rw [returnSlice_pool]
      exact live
  | @recycled thread reserve junk pool isIdle result =>
      obtain ⟨pool', ran, recycled⟩ := mempoolRecycle_all reserve junk inv.blocks inv.cached
      obtain rfl : pool = pool' := Except.ok.inj (result.symm.trans ran)
      exact (List.mem_append.mp (recycled.live.mem_iff.mp live)).symm
  | allocDies | rejected | freed | destroyed | magicNull | magicSet | linked | recycleDies
  | wrote => exact .inl live

variable {stack' : List Nat}

theorem callsAfter_of_live (kept : Kept sys stack action next stack')
    (change : Change sys action next) (notNull : slice ≠ 0) (live : slice ∈ sys.pool.live)
    (notWorked : slice ∉ (sys.pc action.thread).slices) (calls : List Call) :
    callsAfter slice calls (sys, action) = calls := by
  apply callsAfter_of_other (sys, action) calls notNull notWorked
  rintro thread block rfl malloc
  exact (change.mallocOf_not_live kept.inv malloc).1 live

theorem callsAfter_of_not_live (kept : Kept sys stack action next stack')
    (change : Change sys action next) (inv : Inv sys stack) (notNull : slice ≠ 0)
    (notLive : slice ∉ sys.pool.live) (notLive' : slice ∉ next.pool.live) (calls : List Call) :
    callsAfter slice calls (sys, action) = calls := by
  have notWorked : slice ∉ (sys.pc action.thread).slices := fun worked =>
    notLive (inv.custody.mem_of_held (List.mem_append_right _ worked))
  apply callsAfter_of_other (sys, action) calls notNull notWorked
  rintro thread block rfl malloc
  exact notLive' (change.mallocOf_not_live kept.inv malloc).2

/-- The callbacks on all slices after a step. -/
def callsNext (before : Nat → List Call) (sys : System) (action : Action) (slice : Nat) :
    List Call := callsAfter slice (before slice) (sys, action)

/-- What other threads have, what is cached and what is gone is not concerned by a step. -/
theorem CallsInv.after (calls : CallsInv before sys stack) (inv : Inv sys stack)
    (kept : Kept sys stack action next stack') (change : Change sys action next)
    (held : ∀ slice ∈ next.held action.thread,
      slice ∈ sys.held action.thread ∨
        Pending Call.Closes (.ctor true) (callsNext before sys action slice))
    (pc : CallsAt (callsNext before sys action) (next.pc action.thread)) :
    CallsInv (callsNext before sys action) next stack' := by
  have positive : ∀ slice ∈ sys.pool.live, slice ≠ 0 :=
    fun slice live => Nat.ne_of_gt (inv.blocks.pos slice live)
  have same : ∀ slice ∈ sys.pool.live, slice ∉ (sys.pc action.thread).slices →
      callsNext before sys action slice = before slice := fun slice live notWorked =>
    callsAfter_of_live kept change (positive slice live) live notWorked _
  have ofOthers : ∀ thread, thread ≠ action.thread → ∀ slice ∈ sys.owned thread,
      callsNext before sys action slice = before slice := by
    intro thread different slice member
    refine same slice (inv.custody.mem_of_held member) fun worked => ?_
    exact different (inv.custody.unique thread _ slice member (List.mem_append_right _ worked))
  have sameCached : ∀ slice ∈ stack, callsNext before sys action slice = before slice := by
    intro slice inStack
    refine same slice (inv.cached.live slice inStack) fun worked => ?_
    exact inv.custody.apart _ slice (List.mem_append_right _ worked) inStack
  constructor
  case held =>
    intro thread slice member
    by_cases own : thread = action.thread
    · rcases held slice (own ▸ member) with before | now
      · have nodup := List.nodup_append.mp (inv.custody.nodup action.thread)
        rw [same slice (inv.custody.mem_of_held (List.mem_append_left _ before))
          fun worked => nodup.2.2 slice before slice worked rfl]
        exact calls.held _ slice before
      · exact now
    · rw [(change.others own).2] at member
      rw [ofOthers thread own slice (List.mem_append_left _ member)]
      exact calls.held thread slice member
  case pc =>
    intro thread
    by_cases own : thread = action.thread
    · rw [own]
      exact pc
    · rw [(change.others own).1]
      exact (calls.pc thread).congr fun slice worked =>
        ofOthers thread own slice (List.mem_append_right _ worked)
  case cached =>
    intro slice member
    rcases kept.op.mem_or_pushed member with inStack | pushed
    · rw [sameCached slice inStack]
      exact calls.cached slice inStack
    · obtain ⟨thread, rfl, atLink⟩ := stackOp_eq_push.mp pushed
      have live : slice ∈ next.pool.live := kept.inv.cached.live slice member
      have linked := calls.pc thread
      rw [atLink] at linked
      exact linked (Nat.ne_of_gt (kept.inv.blocks.pos slice live))
  case dead =>
    intro slice notNull notLive
    by_cases live : slice ∈ sys.pool.live
    · have inStack := (change.live_or_cached inv live).resolve_left notLive
      rw [sameCached slice inStack]
      exact (calls.cached slice inStack).1
    · have isSame : callsNext before sys action slice = before slice :=
        callsAfter_of_not_live kept change inv notNull live notLive _
      rw [isSame]
      exact calls.dead slice notNull live

/-- `mempool_alloc` has a slice that is new or destroyed. -/
theorem CallsInv.paired_of_allocated (calls : CallsInv before sys stack) (inv : Inv sys stack)
    {block : Nat} {pool : Pool} (result : allocSlice block sys.pool = .ok (slice, pool))
    (notNull : slice ≠ 0) :
    Paired Call.Closes (callsNext before sys (.alloc thread block) slice) := by
  change Paired _ (if mallocOf block sys.pool = some slice then [] else before slice)
  by_cases malloc : mallocOf block sys.pool = some slice
  · rw [if_pos malloc]
    exact .nil
  · rw [if_neg malloc]
    obtain ⟨rest, allocated⟩ := allocSlice_allocated inv.blocks inv.cached block
    rw [mallocOf, result] at malloc
    rw [result] at allocated
    cases allocated with
    | reuse => exact (calls.cached slice List.mem_cons_self).1
    | limit | noMemory => exact (notNull rfl).elim
    | fresh => exact (malloc (if_pos rfl)).elim

theorem callsNext_ctor {ret : Int} {contents : Memory} (atCtor : sys.pc thread = .ctor slice) :
    callsNext before sys (.ctor thread ret contents) slice = before slice ++ [.ctor (ret = 0)] :=
  if_pos atCtor

theorem callsNext_dtor {contents : Memory} (atDtor : sys.pc thread = .dtor slice) :
    callsNext before sys (.dtor thread contents) slice = before slice ++ [.dtor] :=
  if_pos atDtor

theorem CallsInv.step (calls : CallsInv before sys stack) (inv : Inv sys stack)
    (kept : Kept sys stack action next stack') (change : Change sys action next)
    (ctor : sys.pool.mp.ctor = true) (dtor : sys.pool.mp.dtor = true) :
    CallsInv (callsNext before sys action) next stack' := by
  have freePc : ∀ slice, sys.freePc slice = .dtor slice := fun slice => if_pos dtor
  have goes_on : next.held action.thread = sys.held action.thread →
      CallsAt (callsNext before sys action) (next.pc action.thread) →
      CallsInv (callsNext before sys action) next stack' := fun sameHeld =>
    calls.after inv kept change fun slice member => .inl (sameHeld ▸ member)
  have whole := change
  cases change with
  | @allocated thread block slice pool isIdle may result =>
      have ctor' : pool.mp.ctor = true := by
        have fields := kept.fields
        rw [handOver_pool, setPool_pool] at fields
        rw [fields]
        exact ctor
      have isHandOver : (sys.setPool pool).handOver thread slice =
          (sys.setPool pool).setPc thread (.ctor slice) := if_pos ctor'
      refine goes_on (by rw [isHandOver]; rfl) ?_
      rw [isHandOver, Action.thread, setPc_pc, Function.update_self]
      exact fun notNull => calls.paired_of_allocated inv result notNull
  | @allocDies thread block fault isIdle =>
      refine goes_on rfl ?_
      change CallsAt _ (sys.pc thread)
      rw [isIdle]
      trivial
  | @rejected thread slice ret contents atCtor rejects =>
      refine goes_on rfl ?_
      rw [Action.thread, setPc_pc, Function.update_self, freePc]
      intro notNull
      have constructed := calls.pc thread
      rw [atCtor] at constructed
      refine ⟨decide (ret = 0), ?_⟩
      rw [callsNext_ctor atCtor]
      exact (constructed notNull).opened _
  | @accepted thread slice contents atCtor =>
      have constructed := calls.pc thread
      rw [atCtor] at constructed
      refine calls.after inv kept whole ?_ ?_
      · intro other member
        simp only [Action.thread, returnSlice] at member
        split at member
        next => exact .inl member
        next notNull =>
          rw [setHeld_held, Function.update_self] at member
          rcases List.mem_cons.mp member with rfl | inHeld
          · right
            rw [callsNext_ctor atCtor]
            exact (constructed notNull).opened _
          · exact .inl inHeld
      · rw [Action.thread, returnSlice_pc, Function.update_self]
        trivial
  | @freed thread slice isIdle member =>
      refine calls.after inv kept whole ?_ ?_
      · intro other inErased
        rw [Action.thread, setPc_held, setHeld_held, Function.update_self] at inErased
        exact .inl (List.mem_of_mem_erase inErased)
      · rw [Action.thread, setPc_pc, Function.update_self, freePc]
        exact fun _ => ⟨true, calls.held thread slice member⟩
  | @destroyed thread slice contents atDtor =>
      refine goes_on rfl ?_
      rw [Action.thread, setPc_pc, Function.update_self]
      intro notNull
      have constructed := calls.pc thread
      rw [atDtor] at constructed
      obtain ⟨accepted, pending⟩ := constructed notNull
      rw [callsNext_dtor atDtor]
      refine ⟨pending.closed (.dtor accepted), ?_⟩
      exact List.append_ne_nil_of_right_ne_nil _ (List.cons_ne_nil _ _)
  | @magicSet thread slice atMagic =>
      refine goes_on rfl ?_
      rw [Action.thread, setPc_pc, Function.update_self]
      have destroyed := calls.pc thread
      rw [atMagic] at destroyed
      exact destroyed
  | @linked thread slice atLink =>
      refine goes_on rfl ?_
      rw [Action.thread, setPc_pc, Function.update_self]
      trivial
  | magicNull | recycled | recycleDies | wrote => exact goes_on rfl (calls.pc _)

/-! ## Runs -/

variable {history : List (System × Action)}

/-- The invariant of a run of a pool with both callbacks. -/
theorem exists_callsInv (run : machine.Run history sys) (ctor : sys.pool.mp.ctor = true)
    (dtor : sys.pool.mp.dtor = true) :
    ∃ stack, Inv sys stack ∧ CallsInv (calls history) sys stack := by
  induction run with
  | start initial => exact ⟨[], inv_initial initial, callsInv_initial initial⟩
  | @step history sys next action run taken ih =>
      obtain ⟨_, change⟩ := step_change taken
      obtain ⟨stack, inv⟩ := exists_inv ⟨history, run⟩
      obtain ⟨_, kept⟩ := inv.step change
      have fields := kept.fields
      rw [fields] at ctor dtor
      obtain ⟨stack, inv, callsInv⟩ := ih ctor dtor
      obtain ⟨stack', kept⟩ := inv.step change
      refine ⟨stack', kept.inv, ?_⟩
      have isNext : calls (history ++ [(sys, action)]) = callsNext (calls history) sys action := by
        funext slice
        exact calls_append history (sys, action) slice
      rw [isNext]
      exact callsInv.step inv kept change ctor dtor

/-- The last callback was a destructor call. -/
theorem Destroyed.getLast? {calls : List Call} (destroyed : Destroyed calls) :
    calls.getLast? = some .dtor := by
  obtain ⟨paired, nonempty⟩ := destroyed
  cases paired with
  | nil => exact (nonempty rfl).elim
  | pair _ closes =>
      cases closes
      simp

/-- The callbacks on a slice in its present lifetime: they take turns, beginning with the
constructor; a client that has the slice is between an accepting constructor call and the
next destructor call; and a recycle or the exit returns it to the system only after a
destructor call. -/
structure CallbacksPair (history : List (System × Action)) (sys : System) (slice : Nat) :
    Prop where
  alternate : Paired Call.Closes (calls history slice) ∨
    ∃ accepted, Pending Call.Closes (.ctor accepted) (calls history slice)
  held : ∀ thread, slice ∈ sys.held thread →
    Pending Call.Closes (.ctor true) (calls history slice)
  recycled : ∀ thread reserve junk next, machine.Step sys (.recycle thread reserve junk) next →
    slice ∈ freed (mempoolRecycleAccesses reserve junk sys.pool) →
      (calls history slice).getLast? = some .dtor
  exited : ∀ junk, slice ∈ freed (mempoolExitAccesses junk sys.pool) →
    (calls history slice).getLast? = some .dtor

theorem eq_of_mem_slices {other : Nat} (worked : slice ∈ if other = 0 then [] else [other]) :
    slice = other := by
  split at worked
  · cases worked
  · exact List.mem_singleton.mp worked

theorem CallsInv.alternate (calls : CallsInv before sys stack) (inv : Inv sys stack)
    (notNull : slice ≠ 0) :
    Paired Call.Closes (before slice) ∨
      ∃ accepted, Pending Call.Closes (.ctor accepted) (before slice) := by
  by_cases live : slice ∈ sys.pool.live
  · rcases (inv.custody.cover slice).mp live with inStack | ⟨thread, inOwned⟩
    · exact .inl (calls.cached slice inStack).1
    · rcases List.mem_append.mp inOwned with inHeld | worked
      · exact .inr ⟨true, calls.held thread slice inHeld⟩
      · have callsAt := calls.pc thread
        generalize sys.pc thread = pc at worked callsAt
        cases pc with
        | idle => cases worked
        | ctor other =>
            obtain rfl := eq_of_mem_slices worked
            exact .inl (callsAt notNull)
        | dtor other =>
            obtain rfl := eq_of_mem_slices worked
            exact .inr (callsAt notNull)
        | magic other | link other =>
            obtain rfl := eq_of_mem_slices worked
            exact .inl (callsAt notNull).1
  · exact .inl (calls.dead slice notNull live)

end System

/-- The callbacks of a pool with a constructor and a destructor pair up on every slice, in
every run. -/
theorem callbacks_pair {history : List (System × Action)} {sys : System}
    (run : System.machine.Run history sys) (ctor : sys.pool.mp.ctor = true)
    (dtor : sys.pool.mp.dtor = true) {slice : Nat} (notNull : slice ≠ 0) :
    System.CallbacksPair history sys slice := by
  obtain ⟨stack, inv, callsInv⟩ := System.exists_callsInv run ctor dtor
  have freed : ∀ junk, slice ∈ freed (__mempoolRecycleAccesses 0 junk sys.pool) →
      (System.calls history slice).getLast? = some .dtor := by
    intro junk isFreed
    rw [inv.freed_all junk] at isFreed
    exact (callsInv.cached slice isFreed).getLast?
  exact ⟨callsInv.alternate inv notNull, fun thread => callsInv.held thread slice,
    fun _ _ junk _ _ => freed junk, freed⟩

/-- The slice that was rejected before a client got it. -/
theorem callbacks_pair_mixedRun :
    ∃ history sys, System.machine.Run history sys ∧ sys.held 1 = [12288] ∧
      System.CallbacksPair history sys 12288 := by
  obtain ⟨sys, ran, given, ctor, dtor⟩ := Machine.exists_runWhile System.step (fun _ _ => true)
    (System.boot callbackPool fun _ => 0) mixedRun
    (fun sys => sys.held 1 = [12288] ∧ sys.pool.mp.ctor = true ∧ sys.pool.mp.dtor = true)
    (by decide)
  have init : mempoolInit 4096 (some [109]) 32 0 true true (fun _ => 0) =
      .ok (callbackPool, initListHead callbackPool.listFree fun _ => 0) := rfl
  have start : System.machine.Run [] (System.boot callbackPool fun _ => 0) :=
    .start (System.boot_initial init (by decide))
  obtain ⟨history, run, _⟩ := start.continue_evaluated (fun _ _ _ taken => taken) ran
  exact ⟨history, sys, run, given, callbacks_pair run ctor dtor (by decide)⟩

end LinuxCTemplate.Mempool
