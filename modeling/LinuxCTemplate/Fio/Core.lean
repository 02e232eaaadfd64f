import LinuxCTemplate.Foundation.FileRead
import LinuxCTemplate.Foundation.Memory

/-!
# Reading a file into memory

`struct fio_easyrw` and its functions.  What the system calls answer is up to an
environment, a new one for every call of a reading function; the content of the file is
the one that it has while it is open.  `malloc` is represented by the block it returns (0
for `NULL`).  The state keeps the blocks that have not been freed, and a trace of what has
been asked of the system and of the callback.
-/

namespace LinuxCTemplate.Fio

open Foundation

/-- `fio_easyrw_res_t` -/
inductive FioEasyrwRes where
  | resOk
  | resInval
  | resOpen
  | resNomem
  | resIo
  | rrrnumOversz
  | resMisc
  deriving DecidableEq, Repr

/-- `struct fio_easyrw`.  `path` is a C string or `none` for `NULL`. -/
structure FioEasyrw where
  path : Option (List UInt8)
  limit : UInt64
  out : Nat
  outLen : UInt32
  outMax : UInt32
  fd : Int
  deriving DecidableEq, Repr

/-- `MY_PAGE_SZ` -/
def myPageSz : UInt32 := 4096

/-- How the program dies: a failed `assert`, and a `read()` that writes past the block. -/
inductive Fault where
  | assert
  | overflow
  deriving DecidableEq, Repr

/-- What `stat()` tells: whether the file is a regular one, and its `st_size`. -/
structure Stat where
  regular : Bool
  size : UInt64
  deriving DecidableEq, Repr

/-- The answers of the system.  `stat()` may fail, `open()` fails with a negative number. -/
structure Environment where
  stat : Option Stat
  malloc : Nat
  openFd : Int
  content : List UInt8
  read : Nat → ReadCall

/-- A callback: what it returns when it is called for the `n`-th block, and what it leaves in
memory. -/
structure Callback where
  ret : Nat → Int
  mem : Nat → Memory → Memory

/-- A block from `malloc`. -/
structure Block where
  addr : Nat
  size : Nat
  deriving DecidableEq, Repr

/-- The calls that the functions make.  `room` is the number of bytes from `p` to the end of
the block that `out` points to; `chunk` is what the callback finds in `out`. -/
inductive Event where
  | malloc (block : Block)
  | free (addr : Nat)
  | opened (fd : Int)
  | closed (fd : Int)
  | read (fd : Int) (p length room : Nat)
  | call (chunk : List UInt8)
  deriving DecidableEq, Repr

structure State where
  erw : FioEasyrw
  mem : Memory
  heap : List Block
  trace : List Event

namespace State

def log (state : State) (event : Event) : State :=
  { state with trace := state.trace ++ [event] }

/-- The number of bytes from `p` to the end of the block that `out` points to. -/
def room (state : State) (p : Nat) : Nat :=
  match state.heap.find? fun block => block.addr = state.erw.out with
  | none => 0
  | some block => block.addr + block.size - p

/-- The bytes `out[0..out_len)`. -/
def output (state : State) : List UInt8 :=
  state.mem.loadBytes state.erw.out state.erw.outLen.toNat

end State

/-! ## The buffer -/

def fioEasyrwInit (path : Option (List UInt8)) (limit : UInt64) : FioEasyrw :=
  { path, limit, fd := -1, out := 0, outLen := 0, outMax := 0 }

def fioEasyrwAllocOut (buf : Nat) (len : UInt32) (state : State) : Except Fault Int × State :=
  if state.erw.out ≠ 0 then
    (.error .assert, state)
  else if buf = 0 then
    (.ok (-1), state)
  else
    let block : Block := { addr := buf, size := (len + myPageSz).toNat }
    (.ok 0, State.log
      { state with
        erw := { state.erw with out := buf, outLen := 0, outMax := len }
        heap := block :: state.heap } (.malloc block))

def fioEasyrwFreeOut (state : State) : State :=
  if state.erw.out ≠ 0 then
    State.log
      { state with
        erw := { state.erw with out := 0, outLen := 0, outMax := 0 }
        heap := state.heap.eraseP fun block => block.addr = state.erw.out } (.free state.erw.out)
  else
    state

def fioEasyrwExit (state : State) : State := fioEasyrwFreeOut state

/-! ## Reading into one block -/

theorem length_drop_lt {call : ReadCall} {rest bytes : List UInt8} {length : Nat} {byte : UInt8}
    (isRead : call.bytes rest length = some (byte :: bytes)) :
    (rest.drop (byte :: bytes).length).length < rest.length := by
  have whole := congrArg List.length (ReadCall.append_drop isRead)
  have positive : 0 < (byte :: bytes).length := Nat.succ_pos _
  rw [List.length_append] at whole
  omega

/-- The loop of `__fio_easyrw_read_simple` before its `call`-th `read()`. -/
def readSimpleLoop (env : Environment) (fd : Int) (expectLen accl pUnused : UInt32)
    (p call : Nat) (rest : List UInt8) (state : State) : Except Fault FioEasyrwRes × State :=
  let state := state.log (.read fd p pUnused.toNat (state.room p))
  match isRead : (env.read call).bytes rest pUnused.toNat with
  | none => (.ok .resIo, state)
  | some [] =>
      if accl ≠ expectLen then
        (.ok .resIo, state)
      else
        (.ok .resOk, { state with erw := { state.erw with outLen := expectLen } })
  | some (byte :: bytes) =>
      let chunk := byte :: bytes
      if state.room p < chunk.length then
        (.error .overflow, state)
      else
        let state := { state with mem := state.mem.storeBytes p chunk }
        let accl := accl + UInt32.ofNat chunk.length
        if expectLen < accl then
          (.ok .resIo, state)
        else
          readSimpleLoop env fd expectLen accl (pUnused - UInt32.ofNat chunk.length)
            (p + chunk.length) (call + 1) (rest.drop chunk.length) state
termination_by rest.length
decreasing_by exact length_drop_lt isRead

set_option linter.style.nameCheck false in
def __fioEasyrwReadSimple (env : Environment) (fd : Int) (expectLen : UInt32) (state : State) :
    Except Fault FioEasyrwRes × State :=
  let erw := state.erw
  if ¬ (0 < erw.outMax ∧ erw.out ≠ 0) ∨ erw.outLen ≠ 0 then
    (.error .assert, state)
  else
    readSimpleLoop env fd expectLen 0 erw.outMax erw.out 0 env.content state

def fioEasyrwReadSimple (env : Environment) (state : State) : Except Fault FioEasyrwRes × State :=
  let state := fioEasyrwFreeOut state
  if state.erw.path = none then
    (.ok .resInval, state)
  else
    match env.stat with
    | none => (.ok .resOpen, state)
    | some st =>
        if ¬ st.regular then
          (.ok .resOpen, state)
        else if state.erw.limit ≠ 0 ∧ state.erw.limit < st.size then
          (.ok .rrrnumOversz, state)
        else
          match fioEasyrwAllocOut env.malloc st.size.toUInt32 state with
          | (.error fault, state) => (.error fault, state)
          | (.ok ret, state) =>
              if ret ≠ 0 then
                (.ok .resNomem, state)
              else if env.openFd < 0 then
                (.ok .resOpen, fioEasyrwFreeOut state)
              else
                let state := state.log (.opened env.openFd)
                match __fioEasyrwReadSimple env env.openFd st.size.toUInt32 state with
                | (.error fault, state) => (.error fault, state)
                | (.ok res, state) =>
                    if res ≠ .resOk then
                      (.ok res, (fioEasyrwFreeOut state).log (.closed env.openFd))
                    else
                      (.ok .resOk, state.log (.closed env.openFd))

/-! ## Reading block by block -/

/-- The loop of `__fio_easyrw_read` before its `call`-th `read()`. -/
def readLoop (env : Environment) (func : Callback) (fd : Int) (accl : UInt64) (call : Nat)
    (rest : List UInt8) (state : State) : Except Fault FioEasyrwRes × State :=
  let erw := state.erw
  let state := state.log (.read fd erw.out erw.outMax.toNat (state.room erw.out))
  match isRead : (env.read call).bytes rest erw.outMax.toNat with
  | none => (.ok .resIo, state)
  | some [] => (.ok .resOk, state)
  | some (byte :: bytes) =>
      let chunk := byte :: bytes
      if state.room erw.out < chunk.length then
        (.error .overflow, state)
      else
        let state := { state with mem := state.mem.storeBytes erw.out chunk }
        let accl := accl + UInt64.ofNat chunk.length
        if erw.limit ≠ 0 ∧ erw.limit < accl then
          (.ok .rrrnumOversz, state)
        else
          let state := { state with erw := { erw with outLen := UInt32.ofNat chunk.length } }
          let state := state.log (.call state.output)
          let state := { state with mem := func.mem call state.mem }
          if func.ret call ≠ 0 then
            (.ok .resMisc, state)
          else
            readLoop env func fd accl (call + 1) (rest.drop chunk.length) state
termination_by rest.length
decreasing_by exact length_drop_lt isRead

set_option linter.style.nameCheck false in
def __fioEasyrwRead (env : Environment) (func : Option Callback) (fd : Int) (state : State) :
    Except Fault FioEasyrwRes × State :=
  let erw := state.erw
  if ¬ (0 < erw.outMax ∧ erw.out ≠ 0) then
    (.error .assert, state)
  else
    match func with
    | none => (.error .assert, state)
    | some func => readLoop env func fd 0 0 env.content state

/-- `fio_easyrw_read`; the callback is `none` for `NULL`. -/
def fioEasyrwRead (env : Environment) (func : Option Callback) (state : State) :
    Except Fault FioEasyrwRes × State :=
  let state := fioEasyrwFreeOut state
  if state.erw.path = none then
    (.ok .resInval, state)
  else
    match env.stat with
    | none => (.ok .resOpen, state)
    | some st =>
        if ¬ st.regular then
          (.ok .resOpen, state)
        else
          match fioEasyrwAllocOut env.malloc 8192 state with
          | (.error fault, state) => (.error fault, state)
          | (.ok ret, state) =>
              if ret ≠ 0 then
                (.ok .resNomem, state)
              else if env.openFd < 0 then
                (.ok .resOpen, fioEasyrwFreeOut state)
              else
                let state := state.log (.opened env.openFd)
                match __fioEasyrwRead env func env.openFd state with
                | (.error fault, state) => (.error fault, state)
                | (.ok res, state) =>
                    if res ≠ .resOk then
                      (.ok res, (fioEasyrwFreeOut state).log (.closed env.openFd))
                    else
                      (.ok .resOk, fioEasyrwFreeOut (state.log (.closed env.openFd)))

end LinuxCTemplate.Fio
