import Mathlib.Data.List.Perm.Subperm
import LinuxCTemplate.Mempool.System

/-!
# The invariant of a pool

The live blocks do not overlap each other or `struct mempool`, and `mp->ref` counts them.
Some of them, the stack, are linked into `list_free` with the magic in place; what the
others contain does not matter.  Every function that runs under the lock keeps this, and
writes only to `struct mempool` and to slices of the stack.
-/

namespace LinuxCTemplate.Mempool

open Foundation ListHead

/-- The blocks that `malloc` has given to the pool. -/
structure Blocks (pool : Pool) : Prop where
  addr_pos : 0 < pool.mp.addr
  addr_le : pool.mp.addr + mempoolSize ≤ 2 ^ 64
  size : pool.live ≠ [] → sliceSize ≤ pool.mp.sz
  nodup : pool.live.Nodup
  pos : ∀ slice ∈ pool.live, 0 < slice
  le : ∀ slice ∈ pool.live, slice + pool.mp.sz.toNat ≤ 2 ^ 64
  mempool : ∀ slice ∈ pool.live, Memory.Apart slice pool.mp.sz.toNat pool.mp.addr mempoolSize
  apart : ∀ left ∈ pool.live, ∀ right ∈ pool.live, left ≠ right →
    Memory.Apart left pool.mp.sz.toNat right pool.mp.sz.toNat
  ref : pool.mp.ref.toNat = pool.live.length

/-- The stack of cached slices. -/
structure Cached (pool : Pool) (stack : List Nat) : Prop where
  live : ∀ slice ∈ stack, slice ∈ pool.live
  list : IsList pool.mem pool.mp.listFree (stack.map listOf)
  magic : ∀ slice ∈ stack, sliceMagic pool.mem slice = mempoolSliceMagic

/-- The byte belongs to `struct mempool` or to a block of the list. -/
def Covered (mp : Mempool) (slices : List Nat) (byte : Nat) : Prop :=
  (mp.addr ≤ byte ∧ byte < mp.addr + mempoolSize) ∨
    ∃ slice ∈ slices, slice ≤ byte ∧ byte < slice + mp.sz.toNat

theorem Covered.mono {mp : Mempool} {fewer slices : List Nat} {byte : Nat}
    (covered : Covered mp fewer byte) (subset : ∀ slice ∈ fewer, slice ∈ slices) :
    Covered mp slices byte := by
  rcases covered with inMempool | ⟨slice, member, inBlock⟩
  · exact Or.inl inMempool
  · exact Or.inr ⟨slice, subset slice member, inBlock⟩

namespace Blocks

variable {pool : Pool} {slices : List Nat}

theorem sliceSize_le (blocks : Blocks pool) {slice : Nat} (member : slice ∈ pool.live) :
    24 ≤ pool.mp.sz.toNat :=
  UInt32.le_iff_toNat_le.mp (blocks.size (List.ne_nil_of_mem member))

/-- A block is in no other block and not in `struct mempool`. -/
theorem not_covered (blocks : Blocks pool) (live : ∀ slice ∈ slices, slice ∈ pool.live)
    {other byte : Nat} (isLive : other ∈ pool.live) (notIn : other ∉ slices)
    (low : other ≤ byte) (high : byte < other + pool.mp.sz.toNat) :
    ¬ Covered pool.mp slices byte := by
  rintro (inMempool | ⟨slice, member, inBlock⟩)
  · have apart := blocks.mempool other isLive
    unfold Memory.Apart at apart
    omega
  · have apart := blocks.apart other isLive slice (live slice member) fun same =>
      notIn (same ▸ member)
    unfold Memory.Apart at apart
    omega

/-- The nodes of live slices and the head do not overlap. -/
theorem spaced (blocks : Blocks pool) (live : ∀ slice ∈ slices, slice ∈ pool.live) :
    Spaced (pool.mp.listFree :: slices.map listOf) := by
  have place := blocks.addr_le
  have headNode : ∀ slice ∈ slices, Memory.Apart (listOf slice) ListHead.size
      pool.mp.listFree ListHead.size := by
    intro slice member
    have large := blocks.sliceSize_le (live slice member)
    have apart := blocks.mempool slice (live slice member)
    simp only [Memory.Apart, listOf, listOffset, listFree, ListHead.size, mempoolSize] at apart ⊢
    omega
  constructor
  · intro left inLeft right inRight
    rcases List.mem_cons.mp inLeft with rfl | inLeft <;>
      rcases List.mem_cons.mp inRight with rfl | inRight
    · exact Or.inl rfl
    · obtain ⟨slice, member, rfl⟩ := List.mem_map.mp inRight
      exact Or.inr (headNode slice member).symm
    · obtain ⟨slice, member, rfl⟩ := List.mem_map.mp inLeft
      exact Or.inr (headNode slice member)
    · obtain ⟨leftSlice, leftMember, rfl⟩ := List.mem_map.mp inLeft
      obtain ⟨rightSlice, rightMember, rfl⟩ := List.mem_map.mp inRight
      by_cases same : leftSlice = rightSlice
      · exact Or.inl (by rw [same])
      · right
        have large := blocks.sliceSize_le (live leftSlice leftMember)
        have apart := blocks.apart _ (live _ leftMember) _ (live _ rightMember) same
        simp only [Memory.Apart, listOf, listOffset, ListHead.size] at apart ⊢
        omega
  · intro node member
    simp only [mempoolSize] at place
    rcases List.mem_cons.mp member with rfl | inSlices
    · simp only [IsPointer, listFree, pointerSize]
      omega
    · obtain ⟨slice, inLive, rfl⟩ := List.mem_map.mp inSlices
      have large := blocks.sliceSize_le (live slice inLive)
      have fits := blocks.le slice (live slice inLive)
      simp only [IsPointer, listOf, listOffset, pointerSize]
      omega

/-- Every byte of a node is covered. -/
theorem node_covered (blocks : Blocks pool) (live : ∀ slice ∈ slices, slice ∈ pool.live)
    {node byte : Nat} (member : node ∈ pool.mp.listFree :: slices.map listOf)
    (low : node ≤ byte) (high : byte < node + ListHead.size) : Covered pool.mp slices byte := by
  rcases List.mem_cons.mp member with rfl | inSlices
  · left
    simp only [listFree, ListHead.size, mempoolSize] at low high ⊢
    omega
  · obtain ⟨slice, inLive, rfl⟩ := List.mem_map.mp inSlices
    have large := blocks.sliceSize_le (live slice inLive)
    right
    simp only [listOf, listOffset, ListHead.size] at low high
    exact ⟨slice, inLive, by omega, by omega⟩

theorem outside_of_not_covered (blocks : Blocks pool)
    (live : ∀ slice ∈ slices, slice ∈ pool.live) {byte : Nat}
    (notCovered : ¬ Covered pool.mp slices byte) :
    Outside byte (pool.mp.listFree :: slices.map listOf) := by
  intro node member
  by_contra inside
  rw [not_or, Nat.not_lt, Nat.not_le] at inside
  exact notCovered (blocks.node_covered live member inside.1 inside.2)

/-- The magic of a slice is in no node. -/
theorem magic_outside (blocks : Blocks pool) (live : ∀ slice ∈ slices, slice ∈ pool.live)
    {slice byte : Nat} (isLive : slice ∈ pool.live) (low : slice ≤ byte) (high : byte < slice + 4) :
    Outside byte (pool.mp.listFree :: slices.map listOf) := by
  have large := blocks.sliceSize_le isLive
  intro node member
  rcases List.mem_cons.mp member with rfl | inSlices
  · have apart := blocks.mempool slice isLive
    simp only [Memory.Apart, listFree, ListHead.size, mempoolSize] at apart ⊢
    omega
  · obtain ⟨other, inLive, rfl⟩ := List.mem_map.mp inSlices
    simp only [listOf, listOffset, ListHead.size]
    by_cases same : slice = other
    · omega
    · have apart := blocks.apart slice isLive other (live other inLive) same
      simp only [Memory.Apart] at apart
      omega

end Blocks

/-- There are fewer slices than addresses. -/
theorem length_lt_of_fits {live : List Nat} (nodup : live.Nodup)
    (fits : ∀ slice ∈ live, slice + 24 ≤ 2 ^ 64) : live.length < 2 ^ 64 := by
  have subset : live ⊆ List.range (2 ^ 64 - 23) := by
    intro slice member
    have bound := fits slice member
    rw [List.mem_range]
    omega
  have bound := (List.subperm_of_subset nodup subset).length_le
  rw [List.length_range] at bound
  omega

/-- The stack survives every change of memory outside `struct mempool` and its slices. -/
theorem Cached.congr {pool : Pool} {stack : List Nat} (cached : Cached pool stack)
    (blocks : Blocks pool) {mem : Memory}
    (same : ∀ byte, Covered pool.mp stack byte → mem byte = pool.mem byte) :
    Cached { pool with mem } stack where
  live := cached.live
  list := cached.list.congr fun _ member byte low high =>
    same byte (blocks.node_covered cached.live member low high)
  magic slice member := by
    rw [← cached.magic slice member]
    have large := blocks.sliceSize_le (cached.live slice member)
    apply Memory.load_congr
    intro byte low high
    exact same byte (Or.inr ⟨slice, member, low, by omega⟩)

theorem Cached.nodup {pool : Pool} {stack : List Nat} (cached : Cached pool stack) : stack.Nodup :=
  (List.nodup_cons.mp cached.list.nodup).2.of_map

/-! ## Taking a slice off the pool -/

/-- `malloc` may return the block: it overlaps neither `struct mempool` nor a live block. -/
structure Fresh (pool : Pool) (block : Nat) : Prop where
  le : block + pool.mp.sz.toNat ≤ 2 ^ 64
  mempool : Memory.Apart block pool.mp.sz.toNat pool.mp.addr mempoolSize
  apart : ∀ slice ∈ pool.live, Memory.Apart block pool.mp.sz.toNat slice pool.mp.sz.toNat

theorem Fresh.not_live {pool : Pool} {block : Nat} (fresh : Fresh pool block)
    (large : sliceSize ≤ pool.mp.sz) : block ∉ pool.live := by
  have positive : 24 ≤ pool.mp.sz.toNat := UInt32.le_iff_toNat_le.mp large
  intro member
  have apart := fresh.apart block member
  unfold Memory.Apart at apart
  omega

/-- The ways `alloc_slice` ends, by the stack before and after. -/
inductive Allocated (block : Nat) (pool : Pool) :
    List Nat → Except Fault (Nat × Pool) → List Nat → Prop where
  | reuse {slice : Nat} {rest : List Nat} {mem : Memory} : Cached { pool with mem } rest →
      (∀ byte, ¬ Covered pool.mp (slice :: rest) byte → mem byte = pool.mem byte) →
      Allocated block pool (slice :: rest) (.ok (slice, { pool with mem })) rest
  | limit : pool.mp.max ≠ 0 → pool.mp.max ≤ pool.mp.ref →
      Allocated block pool [] (.ok (0, { pool with
        mp := { pool.mp with fail := pool.mp.fail + 1 } })) []
  | tooSmall : pool.mp.sz < sliceSize → Allocated block pool [] (.error .bugOnSize) []
  | noMemory : Allocated block pool [] (.ok (0, pool)) []
  | fresh : block ≠ 0 → sliceSize ≤ pool.mp.sz →
      Allocated block pool [] (.ok (block, { pool with
        mp := { pool.mp with ref := pool.mp.ref + 1 }, live := block :: pool.live })) []

theorem listEntry_listOf (slice : Nat) : listEntry (listOf slice) listOffset = slice :=
  Nat.add_sub_cancel ..

/-- The first node of the list. -/
theorem Cached.next_listFree {pool : Pool} {slice : Nat} {rest : List Nat}
    (cached : Cached pool (slice :: rest)) : next pool.mem pool.mp.listFree = listOf slice :=
  Ring.next_head cached.list

/-- `list_del` of the first slice. -/
theorem Cached.listDel {pool : Pool} {slice : Nat} {rest : List Nat}
    (cached : Cached pool (slice :: rest)) (blocks : Blocks pool) :
    Cached { pool with mem := ListHead.listDel (listOf slice) pool.mem } rest ∧
      (∀ byte, ¬ Covered pool.mp (slice :: rest) byte →
        ListHead.listDel (listOf slice) pool.mem byte = pool.mem byte) ∧
      sliceMagic (ListHead.listDel (listOf slice) pool.mem) slice = mempoolSliceMagic := by
  have outside : ∀ byte, Outside byte (pool.mp.listFree :: (slice :: rest).map listOf) →
      ListHead.listDel (listOf slice) pool.mem byte = pool.mem byte :=
    fun byte => cached.list.listDel_first_of_outside
  have sameMagic : ∀ other ∈ slice :: rest,
      sliceMagic (ListHead.listDel (listOf slice) pool.mem) other = mempoolSliceMagic := by
    intro other member
    rw [← cached.magic other member]
    apply Memory.load_congr
    intro byte low high
    exact outside byte (blocks.magic_outside cached.live (cached.live other member) low high)
  refine ⟨?_, ?_, sameMagic slice List.mem_cons_self⟩
  · constructor
    case live => exact fun other member => cached.live other (List.mem_cons_of_mem _ member)
    case list => exact cached.list.listDel_first (blocks.spaced cached.live)
    case magic => exact fun other member => sameMagic other (List.mem_cons_of_mem _ member)
  · intro byte notCovered
    exact outside byte (blocks.outside_of_not_covered cached.live notCovered)

theorem allocSlice_allocated {pool : Pool} {stack : List Nat} (blocks : Blocks pool)
    (cached : Cached pool stack) (block : Nat) :
    ∃ rest, Allocated block pool stack (allocSlice block pool) rest := by
  unfold allocSlice
  cases stack with
  | nil =>
      simp only [cached.list.listEmpty_iff.mpr List.map_nil, if_true]
      split
      next limit => exact ⟨[], .limit limit.1 limit.2⟩
      next =>
        split
        next small => exact ⟨[], .tooSmall small⟩
        next large =>
          split
          next => exact ⟨[], .noMemory⟩
          next given => exact ⟨[], .fresh given (UInt32.not_lt.mp large)⟩
  | cons slice rest =>
      have notEmpty : ¬ listEmpty pool.mp.listFree pool.mem = true := by
        rw [cached.list.listEmpty_iff]
        exact List.cons_ne_nil _ _
      obtain ⟨cached', frame, magic⟩ := cached.listDel blocks
      simp only [if_neg notEmpty, cached.next_listFree, listEntry_listOf, magic, ne_eq,
        not_true_eq_false, if_false]
      exact ⟨rest, .reuse cached' frame⟩

/-- The blocks do not depend on what is in memory. -/
theorem Blocks.setMem {pool : Pool} (blocks : Blocks pool) (mem : Memory) :
    Blocks { pool with mem } :=
  { blocks with }

theorem Blocks.setFail {pool : Pool} (blocks : Blocks pool) (fail : UInt64) :
    Blocks { pool with mp := { pool.mp with fail } } :=
  { blocks with }

theorem Blocks.fresh {pool : Pool} {block : Nat} (blocks : Blocks pool) (notNull : block ≠ 0)
    (large : sliceSize ≤ pool.mp.sz) (fresh : Fresh pool block) :
    Blocks { pool with
      mp := { pool.mp with ref := pool.mp.ref + 1 }, live := block :: pool.live } := by
  have large' : 24 ≤ pool.mp.sz.toNat := UInt32.le_iff_toNat_le.mp large
  have nodup : (block :: pool.live).Nodup :=
    List.nodup_cons.mpr ⟨fresh.not_live large, blocks.nodup⟩
  have le : ∀ slice ∈ block :: pool.live, slice + pool.mp.sz.toNat ≤ 2 ^ 64 :=
    List.forall_mem_cons.mpr ⟨fresh.le, blocks.le⟩
  constructor
  case addr_pos => exact blocks.addr_pos
  case addr_le => exact blocks.addr_le
  case size => exact fun _ => large
  case nodup => exact nodup
  case pos => exact List.forall_mem_cons.mpr ⟨Nat.pos_of_ne_zero notNull, blocks.pos⟩
  case le => exact le
  case mempool => exact List.forall_mem_cons.mpr ⟨fresh.mempool, blocks.mempool⟩
  case apart =>
    intro left inLeft right inRight different
    rcases List.mem_cons.mp inLeft with isLeft | leftLive <;>
      rcases List.mem_cons.mp inRight with isRight | rightLive
    · exact (different (isLeft.trans isRight.symm)).elim
    · rw [isLeft]
      exact fresh.apart right rightLive
    · rw [isRight]
      exact (fresh.apart left leftLive).symm
    · exact blocks.apart left leftLive right rightLive different
  case ref =>
    have bound := length_lt_of_fits nodup fun slice member =>
      Nat.le_trans (Nat.add_le_add_left large' slice) (le slice member)
    rw [List.length_cons] at bound ⊢
    change (pool.mp.ref + 1).toNat = _
    rw [UInt64.toNat_add, blocks.ref]
    exact Nat.mod_eq_of_lt bound

theorem Blocks.erase {pool : Pool} {slice : Nat} (blocks : Blocks pool)
    (member : slice ∈ pool.live) :
    Blocks { pool with
      mp := { pool.mp with ref := pool.mp.ref - 1 }, live := pool.live.erase slice } where
  addr_pos := blocks.addr_pos
  addr_le := blocks.addr_le
  size _ := blocks.size (List.ne_nil_of_mem member)
  nodup := blocks.nodup.erase slice
  pos other inLive := blocks.pos other (List.mem_of_mem_erase inLive)
  le other inLive := blocks.le other (List.mem_of_mem_erase inLive)
  mempool other inLive := blocks.mempool other (List.mem_of_mem_erase inLive)
  apart left inLeft right inRight :=
    blocks.apart left (List.mem_of_mem_erase inLeft) right (List.mem_of_mem_erase inRight)
  ref := by
    have positive := List.length_pos_of_mem member
    have ref := blocks.ref
    have enough : (1 : UInt64) ≤ pool.mp.ref := by
      rw [UInt64.le_iff_toNat_le, ref]
      exact positive
    change (pool.mp.ref - 1).toNat = (pool.live.erase slice).length
    rw [List.length_erase_of_mem member, UInt64.toNat_sub_of_le _ _ enough, ref]
    rfl

/-! ## Putting a slice back -/

/-- The magic of a slice that is not on the stack can be written. -/
theorem Cached.setSliceMagic {pool : Pool} {stack : List Nat} (cached : Cached pool stack)
    (blocks : Blocks pool) {slice : Nat} (live : slice ∈ pool.live) (notIn : slice ∉ stack) :
    Cached { pool with mem := setSliceMagic pool.mem slice } stack := by
  have large := blocks.sliceSize_le live
  apply cached.congr blocks
  intro byte covered
  apply Memory.store_of_outside
  by_contra inside
  exact blocks.not_covered cached.live live notIn (by omega) (by omega) covered

theorem sliceMagic_setSliceMagic (mem : Memory) (slice : Nat) :
    sliceMagic (Mempool.setSliceMagic mem slice) slice = mempoolSliceMagic :=
  Memory.load_store_self (by unfold mempoolSliceMagic; decide)

/-- `list_add` of a slice in place. -/
theorem Cached.listAdd {pool : Pool} {stack : List Nat} (cached : Cached pool stack)
    (blocks : Blocks pool) {slice : Nat} (live : slice ∈ pool.live) (notIn : slice ∉ stack)
    (magic : sliceMagic pool.mem slice = mempoolSliceMagic) :
    Cached { pool with mem := ListHead.listAdd (listOf slice) pool.mp.listFree pool.mem }
        (slice :: stack) ∧
      ∀ byte, ¬ Covered pool.mp (slice :: stack) byte →
        ListHead.listAdd (listOf slice) pool.mp.listFree pool.mem byte = pool.mem byte := by
  have allLive : ∀ other ∈ slice :: stack, other ∈ pool.live :=
    List.forall_mem_cons.mpr ⟨live, cached.live⟩
  have reorder : ∀ node, node ∈ listOf slice :: pool.mp.listFree :: stack.map listOf ↔
      node ∈ pool.mp.listFree :: (slice :: stack).map listOf := by
    intro node
    simp only [List.map_cons, List.mem_cons]
    exact or_left_comm
  have spaced := (blocks.spaced allLive).subset fun node => (reorder node).mp
  have outside : ∀ byte, Outside byte (pool.mp.listFree :: (slice :: stack).map listOf) →
      ListHead.listAdd (listOf slice) pool.mp.listFree pool.mem byte = pool.mem byte :=
    fun byte away => cached.list.listAdd_of_outside fun node member =>
      away node ((reorder node).mp member)
  have fresh : listOf slice ∉ pool.mp.listFree :: stack.map listOf := by
    intro member
    rcases List.mem_cons.mp member with isHead | inStack
    · have large := blocks.sliceSize_le live
      have apart := blocks.mempool slice live
      simp only [listOf, listOffset, listFree, Memory.Apart, mempoolSize] at isHead apart
      omega
    · obtain ⟨other, inStack, same⟩ := List.mem_map.mp inStack
      exact notIn (Nat.add_right_cancel same ▸ inStack)
  refine ⟨⟨allLive, cached.list.listAdd fresh spaced, ?_⟩, ?_⟩
  · intro other member
    have before : sliceMagic pool.mem other = mempoolSliceMagic := by
      rcases List.mem_cons.mp member with rfl | inStack
      · exact magic
      · exact cached.magic other inStack
    rw [← before]
    apply Memory.load_congr
    intro byte low high
    exact outside byte (blocks.magic_outside allLive (allLive other member) low high)
  · intro byte notCovered
    exact outside byte (blocks.outside_of_not_covered allLive notCovered)

end LinuxCTemplate.Mempool
