import LinuxCTemplate.Foundation.Custody
import LinuxCTemplate.Mempool.Changes
import LinuxCTemplate.Mempool.Recycle

/-!
# Every step keeps the pool in order

The live slices are on the stack or in use by one thread each.  A step of the pool's code
moves a slice between the two and writes only to `struct mempool`, to slices of the stack
and to the slice it works on; a step of client code does not write to any of the first two.
So the steps of one thread leave alone what another thread has, and the pool depends on
nothing that clients write.  For the stack, every step is a push, a pop, or a clearance of
an abstract LIFO stack.
-/

namespace LinuxCTemplate.Mempool

open Foundation ListHead

/-! ## The stack -/

/-- The operations of a stack; `pop` carries the item handed out. -/
inductive StackOp (Item : Type) where
  | push (item : Item)
  | pop (result : Option Item)
  | clear
  | skip

/-- A LIFO stack.  The result of a pop is the item pushed last, if there is one; the empty
stack does not determine it. -/
inductive StackStep {Item : Type} : List Item → StackOp Item → List Item → Prop where
  | push (item : Item) (stack : List Item) : StackStep stack (.push item) (item :: stack)
  | pop (item : Item) (stack : List Item) : StackStep (item :: stack) (.pop (some item)) stack
  | popEmpty (result : Option Item) : StackStep [] (.pop result) []
  | clear (stack : List Item) : StackStep stack .clear []
  | skip (stack : List Item) : StackStep stack .skip stack

def stackMachine (Item : Type) : Machine (List Item) (StackOp Item) where
  Start stack := stack = []
  Step := StackStep

namespace System

/-- What a step is for the stack: `alloc_slice` pops, the `list_add` of `mempool_free`
pushes the slice freed, and `mempool_recycle` clears. -/
def stackOp (sys : System) : Action → StackOp Nat
  | .alloc _ block => .pop ((allocSlice block sys.pool).toOption.map Prod.fst)
  | .link thread =>
      match sys.pc thread with
      | .link slice => .push slice
      | _ => .skip
  | .recycle .. => .clear
  | _ => .skip

/-! ## The invariant -/

structure Inv (sys : System) (stack : List Nat) : Prop where
  blocks : Blocks sys.pool
  cached : Cached sys.pool stack
  custody : Custody sys.pool.live stack sys.owned
  linked : ∀ thread slice, sys.pc thread = .link slice →
    slice ≠ 0 ∧ sliceMagic sys.pool.mem slice = mempoolSliceMagic
  noBug : sys.fault ≠ some .bugOnMagic

theorem inv_initial {sys : System} (initial : Initial sys) : Inv sys [] := by
  obtain ⟨addr, name, size, max, ctor, dtor, mem, init⟩ := initial.init
  have started : sys.pool.mp.addr ≠ 0 ∧ sys.pool.mp.ref = 0 ∧
      sys.pool.mem = initListHead sys.pool.mp.listFree mem := by
    unfold mempoolInit at init
    split at init
    next => cases init
    next notNull =>
      split at init
      next => cases init
      next => cases init
      next =>
        simp only [Except.ok.injEq, Prod.mk.injEq] at init
        rw [← init.2, ← init.1]
        exact ⟨notNull, rfl, rfl⟩
  have noneLive : ∀ slice, slice ∉ sys.pool.live := by
    rw [initial.live]
    exact fun _ => List.not_mem_nil
  have noneOwned : ∀ thread, sys.owned thread = [] := by
    intro thread
    rw [owned, initial.held thread, initial.pc thread]
    rfl
  have place := initial.inMemory
  constructor
  case blocks =>
    constructor
    case addr_pos => exact Nat.pos_of_ne_zero started.1
    case addr_le => exact place
    case size => exact fun nonempty => (nonempty initial.live).elim
    case nodup =>
      rw [initial.live]
      exact List.nodup_nil
    case ref =>
      rw [started.2.1, initial.live]
      rfl
    all_goals exact fun slice member => (noneLive slice member).elim
  case cached =>
    refine ⟨fun slice member => (List.not_mem_nil member).elim, ?_,
      fun slice member => (List.not_mem_nil member).elim⟩
    rw [started.2.2]
    apply isList_initListHead
    simp only [IsPointer, listFree, pointerSize, mempoolSize] at place ⊢
    omega
  case custody =>
    constructor
    case cover =>
      intro slice
      simp [noneOwned, noneLive]
    case stackNodup => exact List.nodup_nil
    case nodup =>
      intro thread
      rw [noneOwned]
      exact List.nodup_nil
    case apart => exact fun _ _ _ => List.not_mem_nil
    case unique =>
      intro left right slice inLeft
      rw [noneOwned] at inLeft
      cases inLeft
  case linked =>
    intro thread slice atLink
    rw [initial.pc thread] at atLink
    cases atLink
  case noBug =>
    rw [initial.fault]
    intro impossible
    cases impossible

/-! ## What a step does not write -/

/-- A step leaves the slices in use by other threads as they are, and a step of the pool's
code also the slices that its own thread holds. -/
def Undisturbed (sys : System) (action : Action) (next : System) : Prop :=
  ∀ owner slice, slice ∈ sys.owned owner →
    (owner ≠ action.thread ∨ action.isClient = false ∧ slice ∈ sys.held owner) →
    ∀ byte, sys.inBlock slice byte = true → next.pool.mem byte = sys.pool.mem byte

theorem inBlock_iff {sys : System} {slice byte : Nat} :
    sys.inBlock slice byte = true ↔ slice ≤ byte ∧ byte < slice + sys.pool.mp.sz.toNat := by
  unfold inBlock outsideBlock
  rw [Bool.not_eq_true', Bool.or_eq_false_iff, decide_eq_false_iff_not, decide_eq_false_iff_not,
    Nat.not_lt, Nat.not_le]

variable {sys next : System} {stack : List Nat} {action : Action}

/-- A thread may not write to the slices of others. -/
theorem forbidden_of_covered {thread : Nat} {slices : List Nat}
    (live : ∀ slice ∈ slices, slice ∈ sys.pool.live)
    (notOwned : ∀ slice ∈ slices, slice ∉ sys.owned thread) {byte : Nat}
    (covered : Covered sys.pool.mp slices byte) : sys.forbidden thread byte = true := by
  unfold forbidden
  rw [Bool.or_eq_true]
  rcases covered with inPool | ⟨slice, member, inSlice⟩
  · left
    simp only [inMempool, Bool.and_eq_true, decide_eq_true_eq]
    exact inPool
  · right
    rw [List.any_eq_true]
    refine ⟨slice, live slice member, ?_⟩
    rw [Bool.and_eq_true, decide_eq_true_eq]
    exact ⟨notOwned slice member, inBlock_iff.mpr inSlice⟩

theorem Inv.undisturbed_of_forbidden (inv : Inv sys stack) (isClient : action.isClient = true)
    (kept : ∀ byte, sys.forbidden action.thread byte = true →
      next.pool.mem byte = sys.pool.mem byte) : Undisturbed sys action next := by
  intro owner slice member apart byte inSlice
  have different : owner ≠ action.thread := by
    rcases apart with different | ⟨notClient, _⟩
    · exact different
    · rw [isClient] at notClient
      cases notClient
  apply kept byte
  have covered : Covered sys.pool.mp [slice] byte :=
    Or.inr ⟨slice, List.mem_singleton_self slice, inBlock_iff.mp inSlice⟩
  refine forbidden_of_covered ?_ ?_ covered
  · exact List.forall_mem_singleton.mpr (inv.custody.mem_of_held member)
  · exact List.forall_mem_singleton.mpr fun inOwn =>
      different (inv.custody.unique owner action.thread slice member inOwn)

theorem Inv.undisturbed_of_covered (inv : Inv sys stack)
    (kept : ∀ byte, ¬ Covered sys.pool.mp ((sys.pc action.thread).slices ++ stack) byte →
      next.pool.mem byte = sys.pool.mem byte) : Undisturbed sys action next := by
  intro owner slice member apart byte inSlice
  have inOwned : ∀ other ∈ (sys.pc action.thread).slices, other ∈ sys.owned action.thread :=
    fun other worked => List.mem_append_right _ worked
  have notWorked : slice ∉ (sys.pc action.thread).slices := by
    intro worked
    have same := inv.custody.unique owner action.thread slice member (inOwned slice worked)
    rcases apart with different | ⟨_, inHeld⟩
    · exact different same
    · have nodup := List.nodup_append.mp (inv.custody.nodup action.thread)
      exact nodup.2.2 slice (same ▸ inHeld) slice worked rfl
  have notIn : slice ∉ (sys.pc action.thread).slices ++ stack := by
    rw [List.mem_append, not_or]
    exact ⟨notWorked, inv.custody.apart owner slice member⟩
  have live : ∀ other ∈ (sys.pc action.thread).slices ++ stack, other ∈ sys.pool.live := by
    intro other inList
    rcases List.mem_append.mp inList with worked | inStack
    · exact inv.custody.mem_of_held (inOwned other worked)
    · exact inv.cached.live other inStack
  obtain ⟨low, high⟩ := inBlock_iff.mp inSlice
  exact kept byte (inv.blocks.not_covered live (inv.custody.mem_of_held member) notIn low high)

/-- The magic written by another thread is still there. -/
theorem Inv.linked_next (inv : Inv sys stack) (change : Change sys action next)
    (undisturbed : Undisturbed sys action next)
    (own : ∀ slice, next.pc action.thread = .link slice →
      slice ≠ 0 ∧ sliceMagic next.pool.mem slice = mempoolSliceMagic) :
    ∀ thread slice, next.pc thread = .link slice →
      slice ≠ 0 ∧ sliceMagic next.pool.mem slice = mempoolSliceMagic := by
  intro thread slice atLink
  by_cases same : thread = action.thread
  · subst same
    exact own slice atLink
  · rw [(change.others same).1] at atLink
    obtain ⟨notNull, magic⟩ := inv.linked thread slice atLink
    have member : slice ∈ sys.owned thread := by
      rw [owned, atLink]
      simp [Pc.slices, notNull]
    have large := inv.blocks.sliceSize_le (inv.custody.mem_of_held member)
    refine ⟨notNull, ?_⟩
    rw [← magic]
    apply Memory.load_congr
    intro byte low high
    exact undisturbed thread slice member (Or.inl same) byte (inBlock_iff.mpr ⟨low, by omega⟩)

/-! ## Slices changing hands -/

section Owned

variable {thread slice : Nat}

theorem freePc_slices : (sys.freePc slice).slices = (Pc.ctor slice).slices := by
  unfold freePc
  split <;> rfl

theorem returnSlice_owned :
    ((sys.returnSlice thread slice).owned thread).Perm
      (sys.held thread ++ (Pc.ctor slice).slices) := by
  unfold returnSlice
  split
  next isNull =>
    subst isNull
    simp [owned, Pc.slices]
  next notNull =>
    simp only [owned, setHeld_held, setHeld_pc, setPc_held, setPc_pc, Function.update_self,
      Pc.slices, if_neg notNull, List.append_nil]
    exact List.perm_append_singleton slice (sys.held thread) |>.symm

theorem handOver_owned :
    ((sys.handOver thread slice).owned thread).Perm
      (sys.held thread ++ (Pc.ctor slice).slices) := by
  unfold handOver
  split
  · simp [owned]
  · exact returnSlice_owned

theorem owned_idle (isIdle : sys.pc thread = .idle) : sys.owned thread = sys.held thread := by
  rw [owned, isIdle]
  exact List.append_nil _

/-- Nothing changes hands. -/
theorem Change.custody (change : Change sys action next) {live : List Nat}
    (custody : Custody live stack sys.owned)
    (own : (next.owned action.thread).Perm (sys.owned action.thread)) :
    Custody live stack next.owned := by
  apply custody.perm
  intro other
  by_cases same : other = action.thread
  · rw [same]
    exact own
  · rw [change.owned_of_ne same]

theorem Change.gains (change : Change sys action next)
    (own : (next.owned action.thread).Perm (slice :: sys.owned action.thread)) :
    Gains action.thread slice sys.owned next.owned :=
  ⟨own, fun _ => change.owned_of_ne⟩

theorem handOver_pc_ne_link (other : Nat) :
    (sys.handOver thread slice).pc thread ≠ .link other := by
  unfold handOver
  split
  · simp
  · rw [returnSlice_pc]
    simp

end Owned

/-! ## The steps -/

/-- What a step keeps of the pool's fields. -/
def SameFields (mp mp' : Mempool) : Prop :=
  mp' = { mp with ref := mp'.ref, fail := mp'.fail }

/-- A step is one of the stack, keeps the invariant, disturbs nobody, and changes only
`ref` and `fail` of `struct mempool`. -/
structure Kept (sys : System) (stack : List Nat) (action : Action) (next : System)
    (stack' : List Nat) : Prop where
  op : StackStep stack (sys.stackOp action) stack'
  inv : Inv next stack'
  undisturbed : Undisturbed sys action next
  fields : SameFields sys.pool.mp next.pool.mp

theorem Inv.after (inv : Inv sys stack) (change : Change sys action next) {stack' : List Nat}
    (undisturbed : Undisturbed sys action next) (blocks : Blocks next.pool)
    (cached : Cached next.pool stack') (custody : Custody next.pool.live stack' next.owned)
    (own : ∀ slice, next.pc action.thread = .link slice →
      slice ≠ 0 ∧ sliceMagic next.pool.mem slice = mempoolSliceMagic)
    (fault : next.fault = sys.fault) : Inv next stack' where
  blocks := blocks
  cached := cached
  custody := custody
  linked := inv.linked_next change undisturbed own
  noBug := fault ▸ inv.noBug

theorem fresh_of_mallocMayReturn {block : Nat} (malloc : sys.mallocMayReturn block = true)
    (notNull : block ≠ 0) : Fresh sys.pool block := by
  simp only [mallocMayReturn, Bool.or_eq_true, beq_iff_eq, notNull, false_or, Bool.and_eq_true,
    decide_eq_true_eq, List.all_eq_true] at malloc
  exact ⟨malloc.1.1, malloc.1.2, malloc.2⟩

/-- `mempool_alloc` up to the end of `alloc_slice`: the slice comes off the stack or from
`malloc`, or there is none. -/
theorem Inv.allocated (inv : Inv sys stack) {thread block slice : Nat} {pool : Pool}
    (isIdle : sys.pc thread = .idle) (malloc : sys.mallocMayReturn block = true)
    (result : allocSlice block sys.pool = .ok (slice, pool)) :
    ∃ stack', Kept sys stack (.alloc thread block) ((sys.setPool pool).handOver thread slice)
      stack' := by
  obtain ⟨next, isNext⟩ : ∃ next, next = (sys.setPool pool).handOver thread slice := ⟨_, rfl⟩
  have change : Change sys (.alloc thread block) next := isNext ▸ .allocated isIdle malloc result
  have isPool : pool = next.pool := by rw [isNext, handOver_pool, setPool_pool]
  have fault : next.fault = sys.fault := by rw [isNext, handOver_fault, setPool_fault]
  have own : (next.owned thread).Perm (sys.owned thread ++ (Pc.ctor slice).slices) := by
    rw [isNext, owned_idle isIdle]
    exact handOver_owned
  have notLink : ∀ other, next.pc thread = .link other →
      other ≠ 0 ∧ sliceMagic next.pool.mem other = mempoolSliceMagic := by
    intro other atLink
    rw [isNext] at atLink
    exact (handOver_pc_ne_link other atLink).elim
  have gains : slice ≠ 0 → Gains thread slice sys.owned next.owned := by
    intro notNull
    apply change.gains
    rw [Pc.slices, if_neg notNull] at own
    exact own.trans (List.perm_append_singleton slice _)
  have unmoved : slice = 0 → Custody sys.pool.live stack next.owned := by
    intro isNull
    apply change.custody inv.custody
    rw [Pc.slices, if_pos isNull, List.append_nil] at own
    exact own
  have writesStack :
      (∀ byte, ¬ Covered sys.pool.mp stack byte → pool.mem byte = sys.pool.mem byte) →
      Undisturbed sys (.alloc thread block) next := by
    intro frame
    apply inv.undisturbed_of_covered
    intro byte notCovered
    rw [← isPool]
    apply frame byte
    rwa [Action.thread, isIdle] at notCovered
  have kept : ∀ stack', StackStep stack (.pop (some slice)) stack' →
      (∀ byte, ¬ Covered sys.pool.mp stack byte → pool.mem byte = sys.pool.mem byte) →
      Blocks pool → Cached pool stack' → Custody pool.live stack' next.owned →
      SameFields sys.pool.mp pool.mp → Kept sys stack (.alloc thread block) next stack' := by
    intro stack' popped frame blocks cached custody fields
    have undisturbed := writesStack frame
    rw [isPool] at blocks cached custody fields
    refine ⟨?_, inv.after change undisturbed blocks cached custody notLink fault, undisturbed,
      fields⟩
    rw [stackOp, result]
    exact popped
  rw [← isNext]
  obtain ⟨rest, allocated⟩ := allocSlice_allocated inv.blocks inv.cached block
  rw [result] at allocated
  cases allocated with
  | @reuse _ _ mem cached frame =>
      have live : slice ∈ sys.pool.live := inv.cached.live slice List.mem_cons_self
      have notNull : slice ≠ 0 := Nat.ne_of_gt (inv.blocks.pos slice live)
      exact ⟨rest, kept rest (.pop slice rest) frame (inv.blocks.setMem mem) cached
        (inv.custody.take (gains notNull)) rfl⟩
  | limit =>
      have cached : Cached { sys.pool with
          mp := { sys.pool.mp with fail := sys.pool.mp.fail + 1 } } [] :=
        ⟨inv.cached.live, inv.cached.list, inv.cached.magic⟩
      exact ⟨[], kept [] (.popEmpty _) (fun _ _ => rfl) (inv.blocks.setFail _) cached
        (unmoved rfl) rfl⟩
  | noMemory =>
      exact ⟨[], kept [] (.popEmpty _) (fun _ _ => rfl) inv.blocks inv.cached (unmoved rfl) rfl⟩
  | fresh notNull large =>
      have fresh := fresh_of_mallocMayReturn malloc notNull
      have custody := (inv.custody.create (fresh.not_live large)).take (gains notNull)
      have cached : Cached { sys.pool with
          mp := { sys.pool.mp with ref := sys.pool.mp.ref + 1 }
          live := block :: sys.pool.live } [] :=
        ⟨fun _ member => (List.not_mem_nil member).elim, inv.cached.list,
          fun _ member => (List.not_mem_nil member).elim⟩
      exact ⟨[], kept [] (.popEmpty _) (fun _ _ => rfl)
        (inv.blocks.fresh notNull large fresh) cached custody rfl⟩

/-- A step in which the program dies, but not at the check of a magic. -/
theorem Inv.died (inv : Inv sys stack) {stack' : List Nat} {fault : Fault}
    (op : StackStep stack (sys.stackOp action) stack') (same : stack' = stack)
    (notMagic : fault ≠ .bugOnMagic) :
    Kept sys stack action { sys with fault := some fault } stack' := by
  subst same
  refine ⟨op, ?_, fun _ _ _ _ _ _ => rfl, rfl⟩
  refine ⟨inv.blocks, inv.cached, inv.custody, inv.linked, fun isMagic => ?_⟩
  exact notMagic (Option.some.inj isMagic)

/-- Client code runs: the thread may go on to another point of the pool's code with the
slices it has, but not to the `list_add`. -/
theorem Inv.clientRuns (inv : Inv sys stack) (change : Change sys action next)
    {contents : Memory} (isClient : action.isClient = true)
    (isPool : next.pool = (sys.clientWrites action.thread contents).pool)
    (own : (next.owned action.thread).Perm (sys.owned action.thread))
    (notLink : ∀ slice, next.pc action.thread ≠ .link slice) (fault : next.fault = sys.fault)
    (op : sys.stackOp action = .skip) : Kept sys stack action next stack := by
  have kept : ∀ byte, sys.forbidden action.thread byte = true →
      next.pool.mem byte = sys.pool.mem byte := by
    intro byte isForbidden
    rw [isPool]
    exact Memory.overwrite_of_keep isForbidden
  have undisturbed := inv.undisturbed_of_forbidden isClient kept
  have blocks : Blocks next.pool := isPool ▸ inv.blocks.setMem _
  have cached : Cached next.pool stack := by
    rw [isPool]
    apply inv.cached.congr inv.blocks
    intro byte covered
    apply Memory.overwrite_of_keep
    exact forbidden_of_covered inv.cached.live
      (fun slice inStack inOwn => inv.custody.apart action.thread slice inOwn inStack) covered
  have custody : Custody next.pool.live stack next.owned := by
    rw [isPool]
    exact change.custody inv.custody own
  refine ⟨op ▸ .skip stack, ?_, undisturbed, ?_⟩
  · exact inv.after change undisturbed blocks cached custody
      (fun slice atLink => (notLink slice atLink).elim) fault
  · rw [isPool]
    rfl

theorem freePc_ne_link (slice other : Nat) : sys.freePc slice ≠ .link other := by
  unfold freePc
  split <;> exact fun impossible => nomatch impossible

/-- A client hands a slice to `mempool_free`. -/
theorem Inv.freed (inv : Inv sys stack) {thread slice : Nat} (isIdle : sys.pc thread = .idle)
    (member : slice ∈ sys.held thread) :
    Kept sys stack (.free thread slice)
      ((sys.setHeld thread ((sys.held thread).erase slice)).setPc thread (sys.freePc slice))
      stack := by
  have change : Change sys (.free thread slice) _ := .freed isIdle member
  have inOwned : slice ∈ sys.owned thread := List.mem_append_left _ member
  have notNull : slice ≠ 0 :=
    Nat.ne_of_gt (inv.blocks.pos slice (inv.custody.mem_of_held inOwned))
  have undisturbed : Undisturbed sys (.free thread slice)
      ((sys.setHeld thread ((sys.held thread).erase slice)).setPc thread (sys.freePc slice)) :=
    fun _ _ _ _ _ _ => rfl
  refine ⟨.skip stack, ?_, undisturbed, rfl⟩
  refine inv.after change undisturbed inv.blocks inv.cached ?_ ?_ rfl
  · apply change.custody inv.custody
    rw [Action.thread, owned_idle isIdle]
    simp only [owned, setPc_held, setPc_pc, setHeld_held, Function.update_self, freePc_slices]
    rw [Pc.slices, if_neg notNull]
    calc (sys.held thread).erase slice ++ [slice]
      _ |>.Perm (slice :: (sys.held thread).erase slice) := List.perm_append_singleton _ _
      _ |>.Perm (sys.held thread) := (List.perm_cons_erase member).symm
  · intro other atLink
    rw [Action.thread, setPc_pc, Function.update_self] at atLink
    exact (freePc_ne_link slice other atLink).elim

/-- `slice->magic = MEMPOOL_SLICE_MAGIC` -/
theorem Inv.magicSet (inv : Inv sys stack) {thread slice : Nat}
    (atMagic : sys.pc thread = .magic slice) (notNull : slice ≠ 0) :
    Kept sys stack (.magic thread)
      ((sys.setPool { sys.pool with
        mem := setSliceMagic sys.pool.mem slice }).setPc thread (.link slice)) stack := by
  have change : Change sys (.magic thread) _ := .magicSet atMagic notNull
  have isOwned : sys.owned thread = sys.held thread ++ [slice] := by
    rw [owned, atMagic, Pc.slices, if_neg notNull]
  have inOwned : slice ∈ sys.owned thread := by simp [isOwned]
  have live := inv.custody.mem_of_held inOwned
  have large := inv.blocks.sliceSize_le live
  have undisturbed : Undisturbed sys (.magic thread)
      ((sys.setPool { sys.pool with
        mem := setSliceMagic sys.pool.mem slice }).setPc thread (.link slice)) := by
    apply inv.undisturbed_of_covered
    intro byte notCovered
    apply Memory.store_of_outside
    by_contra inside
    apply notCovered
    refine Or.inr ⟨slice, ?_, by omega, by omega⟩
    rw [Action.thread, atMagic, Pc.slices, if_neg notNull]
    exact List.mem_cons_self
  refine ⟨.skip stack, ?_, undisturbed, rfl⟩
  refine inv.after change undisturbed (inv.blocks.setMem _) ?_ ?_ ?_ rfl
  · exact inv.cached.setSliceMagic inv.blocks live (inv.custody.apart thread slice inOwned)
  · apply change.custody inv.custody
    rw [Action.thread, isOwned]
    simp [owned, Pc.slices, notNull]
  · intro other atLink
    rw [Action.thread, setPc_pc, Function.update_self] at atLink
    cases atLink
    exact ⟨notNull, sliceMagic_setSliceMagic _ _⟩

/-- The `list_add` of `mempool_free`. -/
theorem Inv.linkedIn (inv : Inv sys stack) {thread slice : Nat}
    (atLink : sys.pc thread = .link slice) :
    Kept sys stack (.link thread)
      ((sys.setPool { sys.pool with
        mem := listAdd (listOf slice) sys.pool.mp.listFree sys.pool.mem }).setPc thread .idle)
      (slice :: stack) := by
  have change : Change sys (.link thread) _ := .linked atLink
  obtain ⟨notNull, magic⟩ := inv.linked thread slice atLink
  have isOwned : sys.owned thread = sys.held thread ++ [slice] := by
    rw [owned, atLink, Pc.slices, if_neg notNull]
  have inOwned : slice ∈ sys.owned thread := by simp [isOwned]
  obtain ⟨cached, frame⟩ := inv.cached.listAdd inv.blocks (inv.custody.mem_of_held inOwned)
    (inv.custody.apart thread slice inOwned) magic
  have undisturbed : Undisturbed sys (.link thread)
      ((sys.setPool { sys.pool with
        mem := listAdd (listOf slice) sys.pool.mp.listFree sys.pool.mem }).setPc thread .idle) := by
    apply inv.undisturbed_of_covered
    intro byte notCovered
    apply frame byte
    rwa [Action.thread, atLink, Pc.slices, if_neg notNull] at notCovered
  have op : StackStep stack (sys.stackOp (.link thread)) (slice :: stack) := by
    simp only [stackOp, atLink]
    exact .push slice stack
  refine ⟨op, ?_, undisturbed, rfl⟩
  refine inv.after change undisturbed (inv.blocks.setMem _) cached ?_ ?_ rfl
  · refine inv.custody.give ⟨?_, fun other different => (change.owned_of_ne different).symm⟩
    rw [Action.thread, isOwned]
    simp only [owned, setPc_held, setPool_held, setPc_pc, Function.update_self, Pc.slices,
      List.append_nil]
    exact List.perm_append_singleton slice _
  · intro other atLink
    rw [Action.thread, setPc_pc, Function.update_self] at atLink
    cases atLink

/-- `mempool_recycle` -/
theorem Inv.recycled (inv : Inv sys stack) {thread : Nat} {reserve : UInt32} {junk : Memory}
    {pool : Pool} (isIdle : sys.pc thread = .idle)
    (result : mempoolRecycle reserve junk sys.pool = .ok pool) :
    Kept sys stack (.recycle thread reserve junk) (sys.setPool pool) [] := by
  have change : Change sys (.recycle thread reserve junk) _ := .recycled isIdle result
  obtain ⟨pool', ran, recycled⟩ := mempoolRecycle_all reserve junk inv.blocks inv.cached
  obtain rfl : pool = pool' := Except.ok.inj (result.symm.trans ran)
  have undisturbed : Undisturbed sys (.recycle thread reserve junk) (sys.setPool pool) := by
    apply inv.undisturbed_of_covered
    intro byte notCovered
    apply recycled.frame byte
    rw [Action.thread, isIdle] at notCovered
    rwa [List.append_nil]
  have custody : Custody sys.pool.live (stack ++ []) sys.owned := by
    rw [List.append_nil]
    exact inv.custody
  refine ⟨.clear stack, ?_, undisturbed, ?_⟩
  · refine inv.after change undisturbed recycled.blocks recycled.cached
      (custody.drop inv.blocks.nodup recycled.live) ?_ rfl
    intro slice atLink
    rw [Action.thread, setPool_pc, isIdle] at atLink
    cases atLink
  · unfold SameFields
    rw [setPool_pool, recycled.mp]

/-- Every step keeps the invariant. -/
theorem Inv.step (inv : Inv sys stack) (change : Change sys action next) :
    ∃ stack', Kept sys stack action next stack' := by
  have whole := change
  cases change with
  | allocated isIdle malloc result => exact inv.allocated isIdle malloc result
  | @allocDies thread block fault isIdle result =>
      obtain ⟨rest, allocated⟩ := allocSlice_allocated inv.blocks inv.cached block
      rw [result] at allocated
      cases allocated with
      | tooSmall =>
          refine ⟨[], inv.died ?_ rfl (fun impossible => nomatch impossible)⟩
          exact .popEmpty _
  | @rejected thread slice ret contents atCtor =>
      refine ⟨stack, inv.clientRuns whole rfl rfl ?_ ?_ rfl rfl⟩
      · simp [Action.thread, owned, atCtor, freePc_slices]
      · intro other atLink
        rw [Action.thread, setPc_pc, Function.update_self] at atLink
        exact freePc_ne_link slice other atLink
  | @accepted thread slice contents atCtor =>
      refine ⟨stack, inv.clientRuns whole rfl returnSlice_pool ?_ ?_ returnSlice_fault rfl⟩
      · have isOwned : sys.owned thread = sys.held thread ++ (Pc.ctor slice).slices := by
          rw [owned, atCtor]
        rw [Action.thread, isOwned]
        exact returnSlice_owned
      · simp [Action.thread, returnSlice_pc]
  | freed isIdle member => exact ⟨stack, inv.freed isIdle member⟩
  | destroyed atDtor =>
      refine ⟨stack, inv.clientRuns whole rfl rfl ?_ ?_ rfl rfl⟩
      · simp [Action.thread, owned, atDtor, Pc.slices]
      · simp [Action.thread]
  | magicNull =>
      exact ⟨stack, inv.died (.skip stack) rfl fun impossible => nomatch impossible⟩
  | magicSet atMagic notNull => exact ⟨stack, inv.magicSet atMagic notNull⟩
  | linked atLink => exact ⟨_, inv.linkedIn atLink⟩
  | recycled isIdle result => exact ⟨[], inv.recycled isIdle result⟩
  | @recycleDies thread reserve junk fault result =>
      obtain ⟨pool, ran, _⟩ := mempoolRecycle_all reserve junk inv.blocks inv.cached
      rw [result] at ran
      cases ran
  | wrote isIdle =>
      refine ⟨stack, inv.clientRuns whole rfl rfl (.refl _) ?_ rfl rfl⟩
      intro slice atLink
      rw [Action.thread, clientWrites_pc, isIdle] at atLink
      cases atLink

/-- The invariant holds in every reachable state. -/
theorem exists_inv (reachable : machine.Reachable sys) : ∃ stack, Inv sys stack := by
  apply reachable.invariant
  · exact fun sys initial => ⟨[], inv_initial initial⟩
  · rintro sys action next _ ⟨stack, inv⟩ taken
    obtain ⟨stack', kept⟩ := inv.step (step_change taken).2
    exact ⟨stack', kept.inv⟩

end System

end LinuxCTemplate.Mempool
