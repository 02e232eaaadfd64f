import LinuxCTemplate.Foundation.HeapTrace
import LinuxCTemplate.Mempool.Core

/-!
# What recycling reads, writes and frees

The accesses of `__mempool_recycle` to byte memory, in the order of the source: those of
`list_empty`, of `list_for_each_entry_safe`, of `list_del` and of `free_slice`.
-/

namespace LinuxCTemplate.Mempool

open Foundation ListHead

/-- `list_del`: `entry->prev` and `entry->next` are read, then `next->prev`, `prev->next`,
`entry->next` and `entry->prev` are written. -/
def listDelAccesses (entry : Nat) (mem : Memory) : List Access :=
  [.touch (entry + 8) pointerSize, .touch entry pointerSize,
    .touch (next mem entry + 8) pointerSize, .touch (prev mem entry) pointerSize,
    .touch entry pointerSize, .touch (entry + 8) pointerSize]

/-- The loop of `__mempool_recycle` as in `recycleLoop`.  After `free_slice`, with the
saved slice for the loop variable, `slice_save` is read from its `list.next`. -/
def recycleLoopAccesses (reserve : UInt32) (junk : Memory) :
    Nat → Nat → Nat → Pool → List Access
  | 0, _, _, _ => []
  | rounds + 1, slice, sliceSave, pool =>
      if listOf slice = pool.mp.listFree then
        []
      else if pool.mp.ref ≤ reserve.toUInt64 then
        []
      else
        listDelAccesses (listOf slice) pool.mem ++ .touch slice 4 ::
          match freeSlice junk slice { pool with mem := listDel (listOf slice) pool.mem } with
          | .error _ => []
          | .ok pool =>
              .free slice :: .touch (listOf sliceSave) pointerSize ::
                recycleLoopAccesses reserve junk rounds sliceSave
                  (listEntry (next pool.mem (listOf sliceSave)) listOffset) pool

set_option linter.style.nameCheck false in
/-- `__mempool_recycle` -/
def __mempoolRecycleAccesses (reserve : UInt32) (junk : Memory) (pool : Pool) : List Access :=
  .touch pool.mp.listFree pointerSize ::
    if listEmpty pool.mp.listFree pool.mem then
      []
    else
      let slice := listEntry (next pool.mem pool.mp.listFree) listOffset
      let sliceSave := listEntry (next pool.mem (listOf slice)) listOffset
      .touch pool.mp.listFree pointerSize :: .touch (listOf slice) pointerSize ::
        recycleLoopAccesses reserve junk pool.mp.ref.toNat slice sliceSave pool

/-- `mempool_recycle` -/
def mempoolRecycleAccesses (_reserve : UInt32) (junk : Memory) (pool : Pool) : List Access :=
  __mempoolRecycleAccesses 0 junk pool

end LinuxCTemplate.Mempool
