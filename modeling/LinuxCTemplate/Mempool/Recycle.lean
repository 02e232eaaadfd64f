import LinuxCTemplate.Mempool.Accesses
import LinuxCTemplate.Mempool.Invariant

/-!
# Recycling

`__mempool_recycle` walks `list_free` with `list_for_each_entry_safe`, which has saved the
next slice before the current one is unlinked and freed.  A round takes the first slice
off the stack and gives its block back; `mp->ref` counts down with the blocks, so the walk
ends when the stack is empty or `ref` has come down to the reserve.
-/

namespace LinuxCTemplate.Mempool

open Foundation ListHead

/-- What `__mempool_recycle` has done: the slices `freed` are no longer live, the slices
`kept` are still on the stack, and no other slice has been written to. -/
structure Recycled (pool : Pool) (freed kept : List Nat) (pool' : Pool) : Prop where
  blocks : Blocks pool'
  cached : Cached pool' kept
  mp : pool'.mp = { pool.mp with ref := pool'.mp.ref }
  live : pool.live.Perm (freed ++ pool'.live)
  frame : ∀ byte, ¬ Covered pool.mp (freed ++ kept) byte → pool'.mem byte = pool.mem byte

theorem Recycled.refl {pool : Pool} {stack : List Nat} (blocks : Blocks pool)
    (cached : Cached pool stack) : Recycled pool [] stack pool where
  blocks := blocks
  cached := cached
  mp := rfl
  live := .refl _
  frame _ _ := rfl

theorem Recycled.trans {pool pool' pool'' : Pool} {first freed kept : List Nat}
    (left : Recycled pool first (freed ++ kept) pool') (right : Recycled pool' freed kept pool'') :
    Recycled pool (first ++ freed) kept pool'' where
  blocks := right.blocks
  cached := right.cached
  mp := by rw [right.mp, left.mp]
  live := by
    rw [List.append_assoc]
    exact left.live.trans (right.live.append_left first)
  frame byte notCovered := by
    rw [List.append_assoc] at notCovered
    rw [← left.frame byte notCovered]
    apply right.frame
    intro covered
    apply notCovered
    rw [left.mp] at covered
    exact Covered.mono covered fun slice member => List.mem_append_right _ member

/-- One round of the walk. -/
theorem recycle_round {pool : Pool} {slice : Nat} {rest : List Nat} (blocks : Blocks pool)
    (cached : Cached pool (slice :: rest)) (junk : Memory) :
    ∃ pool', freeSlice junk slice { pool with mem := listDel (listOf slice) pool.mem } =
        .ok pool' ∧
      pool'.mp.ref = pool.mp.ref - 1 ∧ Recycled pool [slice] rest pool' := by
  obtain ⟨unlinked, frame, magic⟩ := cached.listDel blocks
  have live : slice ∈ pool.live := cached.live slice List.mem_cons_self
  have notIn : slice ∉ rest := (List.nodup_cons.mp cached.nodup).1
  have freed : freeSlice junk slice { pool with mem := listDel (listOf slice) pool.mem } = .ok
      { mp := { pool.mp with ref := pool.mp.ref - 1 }
        mem := (listDel (listOf slice) pool.mem).overwrite (outsideBlock pool.mp slice) junk
        live := pool.live.erase slice } := by
    simp only [freeSlice, magic, live, ne_eq, not_true_eq_false, if_false]
  refine ⟨_, freed, rfl, ?_⟩
  have kept : ∀ byte, Covered pool.mp rest byte → outsideBlock pool.mp slice byte = true := by
    intro byte covered
    by_contra inside
    simp only [outsideBlock, Bool.or_eq_true, decide_eq_true_eq, not_or, not_lt, not_le] at inside
    exact blocks.not_covered unlinked.live live notIn inside.1 inside.2 covered
  have overwritten : Cached { pool with
      mem := (listDel (listOf slice) pool.mem).overwrite (outsideBlock pool.mp slice) junk } rest :=
    unlinked.congr (blocks.setMem _) fun byte covered =>
      Memory.overwrite_of_keep (kept byte covered)
  constructor
  case blocks => exact (blocks.erase live).setMem _
  case cached =>
    constructor
    case live =>
      intro other member
      have different : other ≠ slice := fun same => notIn (same ▸ member)
      exact (List.mem_erase_of_ne different).mpr (unlinked.live other member)
    case list => exact overwritten.list
    case magic => exact overwritten.magic
  case mp => rfl
  case live => exact List.perm_cons_erase live
  case frame =>
    intro byte notCovered
    have outside : outsideBlock pool.mp slice byte = true := by
      by_contra inside
      simp only [outsideBlock, Bool.or_eq_true, decide_eq_true_eq, not_or, not_lt, not_le] at inside
      exact notCovered (Or.inr ⟨slice, List.mem_cons_self, inside⟩)
    exact (Memory.overwrite_of_keep outside).trans (frame byte notCovered)

/-! ## The walk -/

/-- The loop variable stands at the first slice of the stack, or at the head. -/
def AtFirst (mp : Mempool) (stack : List Nat) (slice : Nat) : Prop :=
  listOf slice = (stack.map listOf).headD mp.listFree

theorem atFirst_listEntry {mp : Mempool} {stack : List Nat} {node : Nat}
    (isFirst : node = (stack.map listOf).headD mp.listFree) :
    AtFirst mp stack (listEntry node listOffset) := by
  have large : listOffset ≤ node := by
    rw [isFirst]
    cases stack with
    | nil =>
        simp only [List.map_nil, List.headD_nil, listFree, listOffset]
        omega
    | cons slice stack => exact Nat.le_add_left ..
  calc listEntry node listOffset + listOffset
    _ = node := Nat.sub_add_cancel large
    _ = (stack.map listOf).headD mp.listFree := isFirst

theorem AtFirst.eq {mp : Mempool} {first slice : Nat} {rest : List Nat}
    (atFirst : AtFirst mp (first :: rest) slice) : slice = first :=
  Nat.add_right_cancel atFirst

theorem Cached.next_first {pool : Pool} {slice : Nat} {rest : List Nat}
    (cached : Cached pool (slice :: rest)) :
    next pool.mem (listOf slice) = (rest.map listOf).headD pool.mp.listFree :=
  Ring.next_first cached.list

theorem Cached.listOf_ne_listFree {pool : Pool} {slice : Nat} {rest : List Nat}
    (cached : Cached pool (slice :: rest)) : listOf slice ≠ pool.mp.listFree := by
  intro same
  exact (List.nodup_cons.mp cached.list.nodup).1 (by simp [same])

/-- The accesses of one round that goes on to the slices `rest`. -/
def roundAccesses (pool : Pool) (slice : Nat) (rest : List Nat) : List Access :=
  listDelAccesses (listOf slice) pool.mem ++ [.touch slice 4, .free slice,
    .touch ((rest.map listOf).headD pool.mp.listFree) pointerSize]

/-- The walk over a stack down to the slices it keeps, with its accesses: as long as `ref` is
above the reserve, the first slice is returned to the system. -/
inductive Walked (reserve : UInt32) : Pool → List Nat → List Access → Pool → List Nat → Prop where
  | stop {pool : Pool} {stack : List Nat} : Blocks pool → Cached pool stack →
      (stack = [] ∨ pool.mp.ref ≤ reserve.toUInt64) → Walked reserve pool stack [] pool stack
  | round {pool pool' pool'' : Pool} {slice : Nat} {rest kept : List Nat}
      {accesses : List Access} : Blocks pool → Cached pool (slice :: rest) →
      ¬ pool.mp.ref ≤ reserve.toUInt64 → pool'.mp.ref = pool.mp.ref - 1 →
      Recycled pool [slice] rest pool' → Walked reserve pool' rest accesses pool'' kept →
      Walked reserve pool (slice :: rest) (roundAccesses pool slice rest ++ accesses) pool'' kept

/-- The loop is a walk over the stack. -/
theorem recycleLoop_walked (reserve : UInt32) (junk : Memory) (rounds : Nat) {pool : Pool}
    {stack : List Nat} {slice sliceSave : Nat} (blocks : Blocks pool) (cached : Cached pool stack)
    (counts : pool.mp.ref.toNat = rounds) (atFirst : AtFirst pool.mp stack slice)
    (saved : stack ≠ [] → AtFirst pool.mp stack.tail sliceSave) :
    ∃ pool' kept, recycleLoop reserve junk rounds slice sliceSave pool = .ok pool' ∧
      Walked reserve pool stack (recycleLoopAccesses reserve junk rounds slice sliceSave pool)
        pool' kept := by
  induction rounds generalizing pool stack slice sliceSave with
  | zero =>
      refine ⟨pool, stack, rfl, .stop blocks cached (Or.inr ?_)⟩
      rw [UInt64.le_iff_toNat_le, counts]
      exact Nat.zero_le _
  | succ rounds ih =>
      rw [recycleLoopAccesses]
      cases stack with
      | nil =>
          refine ⟨pool, [], if_pos atFirst, ?_⟩
          rw [if_pos (show listOf slice = pool.mp.listFree from atFirst)]
          exact .stop blocks cached (Or.inl rfl)
      | cons first rest =>
          obtain rfl := atFirst.eq
          rw [recycleLoop, if_neg cached.listOf_ne_listFree, if_neg cached.listOf_ne_listFree]
          by_cases reached : pool.mp.ref ≤ reserve.toUInt64
          · rw [if_pos reached, if_pos reached]
            exact ⟨pool, slice :: rest, rfl, .stop blocks cached (Or.inr reached)⟩
          · obtain ⟨pool', freed, ref, round⟩ := recycle_round blocks cached junk
            simp only [if_neg reached, freed]
            have saved : listOf sliceSave = (rest.map listOf).headD pool.mp.listFree :=
              saved (List.cons_ne_nil _ _)
            have counts' : pool'.mp.ref.toNat = rounds := by
              rw [ref, UInt64.toNat_sub_of_le, counts]
              · rfl
              · rw [UInt64.le_iff_toNat_le, counts]
                exact Nat.succ_pos _
            have atFirst' : AtFirst pool'.mp rest sliceSave := by
              unfold AtFirst
              rw [round.mp]
              exact saved
            obtain ⟨pool'', kept, ran, walked⟩ := @ih pool' rest sliceSave
              (listEntry (next pool'.mem (listOf sliceSave)) listOffset) round.blocks
              round.cached counts' atFirst' (by
                intro nonempty
                cases rest with
                | nil => exact (nonempty rfl).elim
                | cons second rest =>
                    obtain rfl := AtFirst.eq saved
                    exact atFirst_listEntry round.cached.next_first)
            refine ⟨pool'', kept, ran, ?_⟩
            rw [saved]
            have whole := Walked.round blocks cached reached ref round walked
            rw [saved, roundAccesses, List.append_assoc] at whole
            exact whole

/-- The accesses before the first round. -/
def startAccesses (pool : Pool) : List Nat → List Access
  | [] => [.touch pool.mp.listFree pointerSize]
  | slice :: _ => [.touch pool.mp.listFree pointerSize, .touch pool.mp.listFree pointerSize,
      .touch (listOf slice) pointerSize]

/-- `__mempool_recycle` is a walk over the stack. -/
theorem mempoolRecycle_walked (reserve : UInt32) (junk : Memory) {pool : Pool}
    {stack : List Nat} (blocks : Blocks pool) (cached : Cached pool stack) :
    ∃ pool' kept accesses, __mempoolRecycle reserve junk pool = .ok pool' ∧
      __mempoolRecycleAccesses reserve junk pool = startAccesses pool stack ++ accesses ∧
      Walked reserve pool stack accesses pool' kept := by
  unfold __mempoolRecycle __mempoolRecycleAccesses
  cases stack with
  | nil =>
      have isEmpty : listEmpty pool.mp.listFree pool.mem = true :=
        cached.list.listEmpty_iff.mpr List.map_nil
      rw [if_pos isEmpty, if_pos isEmpty]
      exact ⟨pool, [], [], rfl, rfl, .stop blocks cached (Or.inl rfl)⟩
  | cons first rest =>
      have notEmpty : ¬ listEmpty pool.mp.listFree pool.mem = true := by
        rw [cached.list.listEmpty_iff]
        exact List.cons_ne_nil _ _
      rw [if_neg notEmpty, if_neg notEmpty]
      have atFirst : AtFirst pool.mp (first :: rest)
          (listEntry (next pool.mem pool.mp.listFree) listOffset) :=
        atFirst_listEntry (Ring.next_head cached.list)
      have saved : AtFirst pool.mp rest (listEntry (next pool.mem
          (listOf (listEntry (next pool.mem pool.mp.listFree) listOffset))) listOffset) := by
        rw [atFirst.eq]
        exact atFirst_listEntry cached.next_first
      obtain ⟨pool', kept, ran, walked⟩ := recycleLoop_walked reserve junk pool.mp.ref.toNat
        blocks cached rfl atFirst fun _ => saved
      refine ⟨pool', kept, _, ran, ?_, walked⟩
      simp only [startAccesses, atFirst.eq, List.cons_append, List.nil_append]

/-- A walk returns the first slices of the stack, until none is left or `ref` has come down
to the reserve. -/
theorem Walked.recycled {reserve : UInt32} {pool pool' : Pool} {stack kept : List Nat}
    {accesses : List Access} (walked : Walked reserve pool stack accesses pool' kept) :
    ∃ freed, stack = freed ++ kept ∧ Recycled pool freed kept pool' ∧
      (kept = [] ∨ pool'.mp.ref ≤ reserve.toUInt64) := by
  induction walked with
  | stop blocks cached ends => exact ⟨[], rfl, .refl blocks cached, ends⟩
  | @round _ _ _ slice _ _ _ _ _ _ _ round _ ih =>
      obtain ⟨freed, isRest, recycled, ends⟩ := ih
      subst isRest
      exact ⟨slice :: freed, rfl, round.trans recycled, ends⟩

/-- `__mempool_recycle` returns the first slices of the stack to the system, until the
stack is empty or `ref` has come down to the reserve. -/
theorem mempoolRecycle_recycled (reserve : UInt32) (junk : Memory) {pool : Pool}
    {stack : List Nat} (blocks : Blocks pool) (cached : Cached pool stack) :
    ∃ pool' freed kept, __mempoolRecycle reserve junk pool = .ok pool' ∧
      stack = freed ++ kept ∧ Recycled pool freed kept pool' ∧
      (kept = [] ∨ pool'.mp.ref ≤ reserve.toUInt64) := by
  obtain ⟨pool', kept, _, ran, _, walked⟩ := mempoolRecycle_walked reserve junk blocks cached
  obtain ⟨freed, isStack, recycled, ends⟩ := walked.recycled
  exact ⟨pool', freed, kept, ran, isStack, recycled, ends⟩

/-- With nothing to reserve, the whole stack is returned. -/
theorem mempoolRecycle_all (reserve : UInt32) (junk : Memory) {pool : Pool} {stack : List Nat}
    (blocks : Blocks pool) (cached : Cached pool stack) :
    ∃ pool', mempoolRecycle reserve junk pool = .ok pool' ∧ Recycled pool stack [] pool' := by
  obtain ⟨pool', freed, kept, ran, isStack, recycled, ends⟩ :=
    mempoolRecycle_recycled 0 junk blocks cached
  have nothingKept : kept = [] := by
    rcases ends with empty | exhausted
    · exact empty
    · have noRef : pool'.live.length = 0 := by
        rw [← recycled.blocks.ref]
        exact Nat.le_zero.mp (UInt64.le_iff_toNat_le.mp exhausted)
      rw [List.length_eq_zero_iff] at noRef
      apply List.eq_nil_iff_forall_not_mem.mpr
      intro slice member
      have live := recycled.cached.live slice member
      rw [noRef] at live
      cases live
  subst nothingKept
  rw [List.append_nil] at isStack
  subst isStack
  exact ⟨pool', ran, recycled⟩

end LinuxCTemplate.Mempool
