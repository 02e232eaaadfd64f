import LinuxCTemplate.Lgu.List

/-!
# The memory pool

`struct mempool` and the functions that run under its lock, on byte memory.  A slice is
the address of a block from `malloc`; its `struct mempool_slice` lies in the first bytes
that are handed to the client.  The target is LP64.  Of `struct mempool` only `list_free`
is in byte memory, where the list operations reach it through pointers.

`malloc` is represented by the block it returns (0 for `NULL`) and `free` by the list of
live blocks and by what it leaves in the bytes it takes back.
-/

namespace LinuxCTemplate

open Foundation ListHead

/-- `struct mempool` without its lock and its list.  `ctor` and `dtor` say whether the
callback is present. -/
structure Mempool where
  addr : Nat
  magic : UInt32
  sz : UInt32
  name : List UInt8
  ref : UInt64
  max : UInt64
  fail : UInt64
  ctor : Bool
  dtor : Bool
  deriving DecidableEq, Repr

namespace Mempool

/-- How the program dies: the `BUG_ON`s of the pool, an access through `NULL`, and a
`free` of something that is no live block. -/
inductive Fault where
  | bugOnInit
  | bugOnSize
  | bugOnMagic
  | nullDeref
  | badFree
  deriving DecidableEq, Repr

/-! ## Layout -/

/-- `sizeof(struct mempool)` -/
def mempoolSize : Nat := 88

/-- The address of `list_free`. -/
def listFree (mp : Mempool) : Nat := mp.addr + 72

/-- `sizeof(struct mempool_slice)` -/
def sliceSize : UInt32 := 24

/-- The offset of `list` in `struct mempool_slice`. -/
def listOffset : Nat := 8

/-- `MEMPOOL_SLICE_MAGIC` -/
def mempoolSliceMagic : Nat := 54085408

/-- `slice->magic` -/
def sliceMagic (mem : Memory) (slice : Nat) : Nat := mem.load slice 4

def setSliceMagic (mem : Memory) (slice : Nat) : Memory :=
  mem.store slice 4 mempoolSliceMagic

/-- `&slice->list` -/
def listOf (slice : Nat) : Nat := slice + listOffset

/-! ## Set-up -/

/-- `mempool_calc_slice_size`, in the types of the source: the remainder and the padding
are computed in `size_t`, the padding is stored in and added as `unsigned int`. -/
def mempoolCalcSliceSize (input : UInt32) : UInt32 :=
  let alignToN : UInt64 := 8
  let realSize := if input < sliceSize then sliceSize else input
  let padding : UInt32 :=
    if realSize.toUInt64 % alignToN ≠ 0 then
      (alignToN - realSize.toUInt64 % alignToN).toUInt32
    else
      0
  realSize + padding

/-- `mempool_init` at the address `addr`.  The name is the characters of a C string, or
`none` for `NULL`; `snprintf` keeps 15 of them. -/
def mempoolInit (addr : Nat) (name : Option (List UInt8)) (size : UInt32) (max : UInt64)
    (ctor dtor : Bool) (mem : Memory) : Except Fault (Mempool × Memory) :=
  if addr = 0 then
    .error .bugOnInit
  else
    match name with
    | none | some [] => .error .bugOnInit
    | some name =>
        let mp : Mempool :=
          { addr
            magic := 0x54085408
            sz := mempoolCalcSliceSize size
            name := name.take 15
            ref := 0
            max
            fail := 0
            ctor
            dtor }
        .ok (mp, initListHead mp.listFree mem)

/-! ## Under the lock -/

/-- The pool, memory, and the blocks that `malloc` has given to it. -/
structure Pool where
  mp : Mempool
  mem : Memory
  live : List Nat

/-- `alloc_slice`; `malloc` returns `block` if it is called. -/
def allocSlice (block : Nat) (pool : Pool) : Except Fault (Nat × Pool) :=
  let mp := pool.mp
  if listEmpty mp.listFree pool.mem then
    if mp.max ≠ 0 ∧ mp.max ≤ mp.ref then
      .ok (0, { pool with mp := { mp with fail := mp.fail + 1 } })
    else if mp.sz < sliceSize then
      .error .bugOnSize
    else if block = 0 then
      .ok (0, pool)
    else
      .ok (block, { pool with mp := { mp with ref := mp.ref + 1 }, live := block :: pool.live })
  else
    let slice := listEntry (next pool.mem mp.listFree) listOffset
    let mem := listDel (listOf slice) pool.mem
    if sliceMagic mem slice ≠ mempoolSliceMagic then
      .error .bugOnMagic
    else
      .ok (slice, { pool with mem })

/-- The bytes that a live block does not cover. -/
def outsideBlock (mp : Mempool) (slice byte : Nat) : Bool :=
  byte < slice || slice + mp.sz.toNat ≤ byte

/-- `free_slice`; `free` leaves `junk` in the block. -/
def freeSlice (junk : Memory) (slice : Nat) (pool : Pool) : Except Fault Pool :=
  if sliceMagic pool.mem slice ≠ mempoolSliceMagic then
    .error .bugOnMagic
  else if slice ∉ pool.live then
    .error .badFree
  else
    .ok
      { mp := { pool.mp with ref := pool.mp.ref - 1 }
        mem := pool.mem.overwrite (outsideBlock pool.mp slice) junk
        live := pool.live.erase slice }

/-- The `list_for_each_entry_safe` loop of `__mempool_recycle` at `slice`, with
`slice_save` saved.  Every round takes 1 from `mp->ref`, which the first argument counts;
at 0 the loop breaks, since `reserve` is not negative. -/
def recycleLoop (reserve : UInt32) (junk : Memory) :
    Nat → Nat → Nat → Pool → Except Fault Pool
  | 0, _, _, pool => .ok pool
  | rounds + 1, slice, sliceSave, pool =>
      if listOf slice = pool.mp.listFree then
        .ok pool
      else if pool.mp.ref ≤ reserve.toUInt64 then
        .ok pool
      else
        match freeSlice junk slice { pool with mem := listDel (listOf slice) pool.mem } with
        | .error fault => .error fault
        | .ok pool =>
            recycleLoop reserve junk rounds sliceSave
              (listEntry (next pool.mem (listOf sliceSave)) listOffset) pool

set_option linter.style.nameCheck false in
/-- The body of `mempool_recycle`, for a caller that holds the lock. -/
def __mempoolRecycle (reserve : UInt32) (junk : Memory) (pool : Pool) : Except Fault Pool :=
  if listEmpty pool.mp.listFree pool.mem then
    .ok pool
  else
    let slice := listEntry (next pool.mem pool.mp.listFree) listOffset
    let sliceSave := listEntry (next pool.mem (listOf slice)) listOffset
    recycleLoop reserve junk pool.mp.ref.toNat slice sliceSave pool

/-- `mempool_recycle`, which passes 0 whatever the caller asks to keep. -/
def mempoolRecycle (_reserve : UInt32) (junk : Memory) (pool : Pool) : Except Fault Pool :=
  __mempoolRecycle 0 junk pool

end Mempool

end LinuxCTemplate
