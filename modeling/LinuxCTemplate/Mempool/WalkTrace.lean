import LinuxCTemplate.Mempool.Recycle

/-!
# What recycling touches

A round of the walk reads and writes the links of the first slice and of its neighbours
and the magic, all of them in `struct mempool` or in slices that are still on the stack.
`list_for_each_entry_safe` has saved the next slice, so nothing of a slice is used after
it has been freed.
-/

namespace LinuxCTemplate.Mempool

open Foundation ListHead Access

variable {pool pool' : Pool} {stack rest kept : List Nat} {slice : Nat} {reserve : UInt32}
  {accesses : List Access}

/-- A link of a node of the list. -/
theorem Cached.link_covered (cached : Cached pool stack) (blocks : Blocks pool)
    {node addr byte : Nat} (member : node ∈ pool.mp.listFree :: stack.map listOf)
    (isLink : addr = node ∨ addr = node + 8) (inLink : InBlock pointerSize addr byte) :
    Covered pool.mp stack byte := by
  unfold InBlock pointerSize at inLink
  apply blocks.node_covered cached.live member
  · omega
  · unfold ListHead.size
    omega

theorem Cached.magic_covered (cached : Cached pool stack) (blocks : Blocks pool)
    {byte : Nat} (member : slice ∈ stack) (inMagic : InBlock 4 slice byte) :
    Covered pool.mp stack byte := by
  have large := blocks.sliceSize_le (cached.live slice member)
  unfold InBlock at inMagic
  exact Or.inr ⟨slice, member, inMagic.1, by omega⟩

theorem Cached.headD_mem (stack : List Nat) (head : Nat) :
    (stack.map listOf).headD head ∈ head :: stack.map listOf := by
  cases stack <;> simp

theorem within_listDelAccesses (cached : Cached pool (slice :: rest)) (blocks : Blocks pool) :
    Within (Covered pool.mp (slice :: rest)) (listDelAccesses (listOf slice) pool.mem) := by
  have isFirst : listOf slice ∈ pool.mp.listFree :: (slice :: rest).map listOf := by simp
  have isNext : next pool.mem (listOf slice) ∈ pool.mp.listFree :: (slice :: rest).map listOf := by
    rw [cached.next_first]
    exact List.cons_subset_cons _ (List.subset_cons_self _ _) (Cached.headD_mem rest _)
  have isPrev : prev pool.mem (listOf slice) ∈ pool.mp.listFree :: (slice :: rest).map listOf := by
    rw [Ring.prev_first cached.list]
    exact List.mem_cons_self
  intro addr length member byte inLink
  simp only [listDelAccesses, List.mem_cons, Access.touch.injEq, List.not_mem_nil, or_false]
    at member
  rcases member with isLink | isLink | isLink | isLink | isLink | isLink <;>
    rw [isLink.1, isLink.2] at inLink
  · exact cached.link_covered blocks isFirst (Or.inr rfl) inLink
  · exact cached.link_covered blocks isFirst (Or.inl rfl) inLink
  · exact cached.link_covered blocks isNext (Or.inr rfl) inLink
  · exact cached.link_covered blocks isPrev (Or.inl rfl) inLink
  · exact cached.link_covered blocks isFirst (Or.inl rfl) inLink
  · exact cached.link_covered blocks isFirst (Or.inr rfl) inLink

/-- Before it frees the slice, a round has touched it and its neighbours. -/
theorem within_before_free (cached : Cached pool (slice :: rest)) (blocks : Blocks pool) :
    Within (Covered pool.mp (slice :: rest))
      (listDelAccesses (listOf slice) pool.mem ++ [.touch slice 4]) := by
  refine (within_listDelAccesses cached blocks).append ?_
  intro addr length member byte inMagic
  obtain ⟨rfl, rfl⟩ := Access.touch.inj (List.mem_singleton.mp member)
  exact cached.magic_covered blocks List.mem_cons_self inMagic

theorem freed_before_free (pool : Pool) (slice : Nat) :
    freed (listDelAccesses (listOf slice) pool.mem ++ [.touch slice 4]) = [] := rfl

theorem roundAccesses_eq (pool : Pool) (slice : Nat) (rest : List Nat) (accesses : List Access) :
    roundAccesses pool slice rest ++ accesses =
      (listDelAccesses (listOf slice) pool.mem ++ [.touch slice 4]) ++ .free slice ::
        .touch ((rest.map listOf).headD pool.mp.listFree) pointerSize :: accesses := by
  simp [roundAccesses]

/-- After it has freed the slice, a round touches only what is left. -/
theorem Recycled.next_covered (round : Recycled pool [slice] rest pool') {byte : Nat}
    (inLink : InBlock pointerSize ((rest.map listOf).headD pool.mp.listFree) byte) :
    Covered pool.mp rest byte := by
  have same : pool'.mp.listFree = pool.mp.listFree := by
    rw [round.mp]
    rfl
  have isNode := Cached.headD_mem rest pool.mp.listFree
  rw [← same] at isNode inLink
  have covered := round.cached.link_covered round.blocks isNode (Or.inl rfl) inLink
  rw [round.mp] at covered
  exact covered

/-- The accesses of a walk: it frees the slices that it does not keep, in order; it stays
within `struct mempool` and the slices of the stack; and it touches and frees no slice that
is gone. -/
structure WalkTrace (pool : Pool) (stack kept : List Nat) (accesses : List Access) : Prop where
  freed : stack = freed accesses ++ kept
  within : Within (Covered pool.mp stack) accesses
  safe : ∀ gone : Set Nat, (∀ block ∈ gone, ∀ byte, InBlock pool.mp.sz.toNat block byte →
    ¬ Covered pool.mp stack byte) → Safe pool.mp.sz.toNat gone accesses

theorem WalkTrace.round (blocks : Blocks pool) (cached : Cached pool (slice :: rest))
    (round : Recycled pool [slice] rest pool') (trace : WalkTrace pool' rest kept accesses) :
    WalkTrace pool (slice :: rest) kept (roundAccesses pool slice rest ++ accesses) := by
  have isLive : slice ∈ pool.live := cached.live slice List.mem_cons_self
  have notIn : slice ∉ rest := (List.nodup_cons.mp cached.nodup).1
  have fewer : ∀ byte, Covered pool.mp rest byte → Covered pool.mp (slice :: rest) byte :=
    fun byte covered => covered.mono fun other member => List.mem_cons_of_mem _ member
  have sameSz : pool'.mp.sz = pool.mp.sz := by rw [round.mp]
  have sameCovered : ∀ byte, Covered pool'.mp rest byte ↔ Covered pool.mp rest byte := by
    intro byte
    rw [round.mp]
    rfl
  rw [roundAccesses_eq]
  constructor
  case freed =>
    rw [freed_append, freed_before_free]
    exact congrArg (slice :: ·) trace.freed
  case within =>
    refine (within_before_free cached blocks).append ?_
    intro addr length member byte used
    rw [List.mem_cons, List.mem_cons] at member
    rcases member with isFree | isNext | inRest
    · cases isFree
    · obtain ⟨rfl, rfl⟩ := Access.touch.inj isNext
      exact fewer byte (round.next_covered used)
    · have covered := trace.within addr length inRest byte used
      exact fewer byte ((sameCovered byte).mp covered)
  case safe =>
    intro gone off
    have gone' : ∀ block ∈ insert slice gone, ∀ byte, InBlock pool.mp.sz.toNat block byte →
        ¬ Covered pool.mp rest byte := by
      rintro block (rfl | isGone) byte inBlock covered
      · exact blocks.not_covered (fun other member => cached.live other (.tail _ member)) isLive
          notIn inBlock.1 inBlock.2 covered
      · exact off block isGone byte inBlock (fewer byte covered)
    apply Safe.append_of_within (freed_before_free pool slice) (within_before_free cached blocks)
      off
    refine ⟨?_, ?_, ?_⟩
    · -- The slice itself would be one of the bytes that are off limits.
      intro isGone
      have large := blocks.sliceSize_le isLive
      refine off slice isGone slice ⟨Nat.le_refl _, by omega⟩ (Or.inr ⟨slice, ?_, ?_⟩)
      · exact List.mem_cons_self
      · omega
    · intro block isGone byte used inBlock
      exact gone' block isGone byte inBlock (round.next_covered used)
    · rw [← sameSz]
      apply trace.safe
      intro block isGone byte inBlock covered
      rw [sameSz] at inBlock
      exact gone' block isGone byte inBlock ((sameCovered byte).mp covered)

theorem Walked.trace (walked : Walked reserve pool stack accesses pool' kept) :
    WalkTrace pool stack kept accesses := by
  induction walked with
  | stop blocks cached ends =>
      constructor
      case freed => rfl
      case within => exact fun _ _ member => nomatch member
      case safe => exact fun _ _ => trivial
  | round blocks cached _ _ round _ ih => exact .round blocks cached round ih

theorem within_startAccesses (cached : Cached pool stack) (blocks : Blocks pool) :
    Within (Covered pool.mp stack) (startAccesses pool stack) := by
  have head : pool.mp.listFree ∈ pool.mp.listFree :: stack.map listOf := List.mem_cons_self
  intro addr length member byte inLink
  cases stack with
  | nil =>
      obtain ⟨rfl, rfl⟩ := Access.touch.inj (List.mem_singleton.mp member)
      exact cached.link_covered blocks head (Or.inl rfl) inLink
  | cons slice rest =>
      simp only [startAccesses, List.mem_cons, Access.touch.injEq, List.not_mem_nil, or_false]
        at member
      rcases member with ⟨rfl, rfl⟩ | ⟨rfl, rfl⟩ | ⟨rfl, rfl⟩
      · exact cached.link_covered blocks head (Or.inl rfl) inLink
      · exact cached.link_covered blocks head (Or.inl rfl) inLink
      · exact cached.link_covered blocks (by simp) (Or.inl rfl) inLink

theorem freed_startAccesses (pool : Pool) (stack : List Nat) :
    freed (startAccesses pool stack) = [] := by
  cases stack <;> rfl

/-- The accesses of `__mempool_recycle`. -/
theorem WalkTrace.start (blocks : Blocks pool) (cached : Cached pool stack)
    (trace : WalkTrace pool stack kept accesses) :
    WalkTrace pool stack kept (startAccesses pool stack ++ accesses) where
  freed := by
    rw [freed_append, freed_startAccesses]
    exact trace.freed
  within := (within_startAccesses cached blocks).append trace.within
  safe gone off := Safe.append_of_within (freed_startAccesses pool stack)
    (within_startAccesses cached blocks) off (trace.safe gone off)

end LinuxCTemplate.Mempool
