import LinuxCTemplate.Foundation.Transition
import LinuxCTemplate.Mempool.Core

/-!
# Threads that use a pool

Any number of threads call `mempool_alloc`, `mempool_free` and `mempool_recycle`.  What
runs under the lock is one step; the callbacks and the write of the magic run outside it
and are steps of their own.  A thread frees only slices that it got and has not freed
since.  Between the calls, and in the callbacks, client code writes what it likes to all
of memory except `struct mempool` and the slices that it does not hold.
-/

namespace LinuxCTemplate.Mempool

open Foundation ListHead

/-- Program points of a thread.  `ctor` is `mempool_alloc` before its constructor call,
the others are `mempool_free`: before the destructor call, the write of the magic and
`list_add`.  `slice` is 0 for `NULL`. -/
inductive Pc where
  | idle
  | ctor (slice : Nat)
  | dtor (slice : Nat)
  | magic (slice : Nat)
  | link (slice : Nat)
  deriving DecidableEq, Repr

/-- The slice a thread works on in the pool's code. -/
def Pc.slices : Pc → List Nat
  | .idle => []
  | .ctor slice | .dtor slice | .magic slice | .link slice => if slice = 0 then [] else [slice]

/-- The pool, the position of every thread, the slices it got and has not freed, and how
the program died, if it did. -/
structure System where
  pool : Pool
  pc : Nat → Pc
  held : Nat → List Nat
  fault : Option Fault

/-- A callback run or client code may leave any `contents` in the bytes it may write; `ret`
is what the constructor returns, `block` what `malloc` returns, `junk` what `free` leaves
behind. -/
inductive Action where
  | alloc (thread block : Nat)
  | ctor (thread : Nat) (ret : Int) (contents : Memory)
  | free (thread slice : Nat)
  | dtor (thread : Nat) (contents : Memory)
  | magic (thread : Nat)
  | link (thread : Nat)
  | recycle (thread : Nat) (reserve : UInt32) (junk : Memory)
  | client (thread : Nat) (contents : Memory)

namespace System

/-- The slices in use by a thread: those it holds, and the one it works on in the pool's
code. -/
def owned (sys : System) (thread : Nat) : List Nat :=
  sys.held thread ++ (sys.pc thread).slices

/-- The byte belongs to a block. -/
def inBlock (sys : System) (slice byte : Nat) : Bool :=
  !outsideBlock sys.pool.mp slice byte

/-- The byte belongs to `struct mempool`. -/
def inMempool (sys : System) (byte : Nat) : Bool :=
  sys.pool.mp.addr ≤ byte && byte < sys.pool.mp.addr + mempoolSize

/-- The byte is not for the thread to write: it belongs to `struct mempool` or to a live
slice that the thread does not have. -/
def forbidden (sys : System) (thread byte : Nat) : Bool :=
  sys.inMempool byte ||
    sys.pool.live.any fun slice => slice ∉ sys.owned thread && sys.inBlock slice byte

/-- `malloc` returns `NULL` or a block apart from `struct mempool` and from every live
block. -/
def mallocMayReturn (sys : System) (block : Nat) : Bool :=
  let size := sys.pool.mp.sz.toNat
  block == 0 ||
    (block + size ≤ 2 ^ 64 && Memory.Apart block size sys.pool.mp.addr mempoolSize &&
      sys.pool.live.all fun slice => Memory.Apart block size slice size)

def setPc (sys : System) (thread : Nat) (pc : Pc) : System :=
  { sys with pc := Function.update sys.pc thread pc }

def setHeld (sys : System) (thread : Nat) (held : List Nat) : System :=
  { sys with held := Function.update sys.held thread held }

def setPool (sys : System) (pool : Pool) : System := { sys with pool }

/-- Client code of the thread has run. -/
def clientWrites (sys : System) (thread : Nat) (contents : Memory) : System :=
  sys.setPool { sys.pool with mem := sys.pool.mem.overwrite (sys.forbidden thread) contents }

/-- `mempool_alloc` returns the slice, or `NULL`, to the client. -/
def returnSlice (sys : System) (thread slice : Nat) : System :=
  if slice = 0 then
    sys.setPc thread .idle
  else
    (sys.setPc thread .idle).setHeld thread (slice :: sys.held thread)

/-- Where `mempool_free` starts. -/
def freePc (sys : System) (slice : Nat) : Pc :=
  if sys.pool.mp.dtor then .dtor slice else .magic slice

/-- What a function under the lock does to the process. -/
def under {α : Type} (sys : System) (result : Except Fault α) (next : α → System) : System :=
  match result with
  | .ok value => next value
  | .error fault => { sys with fault := some fault }

/-- One step.  A program that has died makes none. -/
def step (sys : System) (action : Action) : Option System :=
  if sys.fault ≠ none then
    none
  else
    match action with
    | .alloc thread block =>
        if sys.pc thread = .idle ∧ sys.mallocMayReturn block then
          some (sys.under (allocSlice block sys.pool) fun (slice, pool) =>
            if pool.mp.ctor then (sys.setPool pool).setPc thread (.ctor slice)
            else (sys.setPool pool).returnSlice thread slice)
        else
          none
    | .ctor thread ret contents =>
        match sys.pc thread with
        | .ctor slice =>
            let sys := sys.clientWrites thread contents
            if ret ≠ 0 then some (sys.setPc thread (sys.freePc slice))
            else some (sys.returnSlice thread slice)
        | _ => none
    | .free thread slice =>
        if sys.pc thread = .idle ∧ slice ∈ sys.held thread then
          some ((sys.setHeld thread ((sys.held thread).erase slice)).setPc thread
            (sys.freePc slice))
        else
          none
    | .dtor thread contents =>
        match sys.pc thread with
        | .dtor slice => some ((sys.clientWrites thread contents).setPc thread (.magic slice))
        | _ => none
    | .magic thread =>
        match sys.pc thread with
        | .magic slice =>
            if slice = 0 then
              some { sys with fault := some .nullDeref }
            else
              some ((sys.setPool { sys.pool with
                mem := setSliceMagic sys.pool.mem slice }).setPc thread (.link slice))
        | _ => none
    | .link thread =>
        match sys.pc thread with
        | .link slice =>
            some ((sys.setPool { sys.pool with
              mem := listAdd (listOf slice) sys.pool.mp.listFree sys.pool.mem }).setPc thread
                .idle)
        | _ => none
    | .recycle thread reserve junk =>
        if sys.pc thread = .idle then
          some (sys.under (mempoolRecycle reserve junk sys.pool) sys.setPool)
        else
          none
    | .client thread contents =>
        if sys.pc thread = .idle then some (sys.clientWrites thread contents) else none

/-- A pool set up by `mempool_init`, before its first use. -/
structure Initial (sys : System) : Prop where
  init : ∃ addr name size max ctor dtor mem,
    mempoolInit addr name size max ctor dtor mem = .ok (sys.pool.mp, sys.pool.mem)
  inMemory : sys.pool.mp.addr + mempoolSize ≤ 2 ^ 64
  live : sys.pool.live = []
  pc : ∀ thread, sys.pc thread = .idle
  held : ∀ thread, sys.held thread = []
  fault : sys.fault = none

def machine : Machine System Action where
  Start := Initial
  Step sys action next := sys.step action = some next

/-- A pool set up in `mem`. -/
def boot (mp : Mempool) (mem : Memory) : System where
  pool := { mp, mem := initListHead mp.listFree mem, live := [] }
  pc _ := .idle
  held _ := []
  fault := none

theorem boot_initial {addr : Nat} {name : Option (List UInt8)} {size : UInt32} {max : UInt64}
    {ctor dtor : Bool} {mp : Mempool} {mem : Memory}
    (init : mempoolInit addr name size max ctor dtor mem =
      .ok (mp, initListHead mp.listFree mem))
    (inMemory : mp.addr + mempoolSize ≤ 2 ^ 64) : Initial (boot mp mem) where
  init := ⟨addr, name, size, max, ctor, dtor, mem, init⟩
  inMemory := inMemory
  live := rfl
  pc _ := rfl
  held _ := rfl
  fault := rfl

end System

end LinuxCTemplate.Mempool
