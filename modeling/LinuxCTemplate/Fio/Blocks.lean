import LinuxCTemplate.Fio.Opening

/-!
# The loop that reads block by block

`__fio_easyrw_read` gives every block that it reads to the callback, until the file ends, a
`read()` fails, the callback stops it, or more has been read than the limit allows.
-/

namespace LinuxCTemplate.Fio

open Foundation

variable {env : Environment} {func : Callback} {fd : Int} {accl : UInt64} {call : Nat}
  {rest content done : List UInt8} {state : State}

/-- The blocks that the callback has been given. -/
def State.chunks (state : State) : List (List UInt8) :=
  state.trace.filterMap fun
    | .call chunk => some chunk
    | _ => none

/-- The total is within the limit. -/
def Within (limit : UInt64) (total : Nat) : Prop := limit ≠ 0 → total ≤ limit.toNat

/-- The loop has read `done` and there is `rest` to read.  The running total is right for every
file that is not longer than a 64-bit size can tell. -/
structure Streaming (state : State) (accl : UInt64) (content done rest : List UInt8) : Prop where
  hasBlock : state.HasBlock (8192 + myPageSz).toNat
  outMax : state.erw.outMax = 8192
  whole : content = done ++ rest
  total : content.length < 2 ^ 64 →
    accl.toNat = done.length ∧ Within state.erw.limit done.length

/-- The ways the loop ends, with the blocks it has given to the callback from now on. -/
inductive StreamOutcome (env : Environment) (func : Callback) (limit : UInt64)
    (content rest : List UInt8) (chunks : List (List UInt8)) :
    Except Fault FioEasyrwRes → Prop where
  | io {call : Nat} : env.read call = .fail →
      StreamOutcome env func limit content rest chunks (.ok .resIo)
  | ok : chunks.flatten = rest → StreamOutcome env func limit content rest chunks (.ok .resOk)
  | oversz : limit ≠ 0 → limit.toNat < content.length →
      StreamOutcome env func limit content rest chunks (.ok .rrrnumOversz)
  | misc {call : Nat} : func.ret call ≠ 0 →
      StreamOutcome env func limit content rest chunks (.ok .resMisc)

/-- The end of the loop. -/
structure StreamEnds (env : Environment) (func : Callback) (content done rest : List UInt8)
    (start : State) (result : Except Fault FioEasyrwRes × State) : Prop where
  erw : ∃ outLen, result.2.erw = { start.erw with outLen }
  heap : result.2.heap = start.heap
  fit : start.ReadsFit → result.2.ReadsFit
  given : content.length < 2 ^ 64 → ∃ chunks, result.2.chunks = start.chunks ++ chunks ∧
    chunks.flatten <+: rest ∧ Within start.erw.limit (done.length + chunks.flatten.length) ∧
    StreamOutcome env func start.erw.limit content rest chunks result.1

/-- The state after a `read()`. -/
def State.afterRead (state : State) (fd : Int) : State :=
  state.log (.read fd state.erw.out state.erw.outMax.toNat (state.room state.erw.out))

/-- The state after the callback has been given a block. -/
def State.afterBlock (state : State) (fd : Int) (func : Callback) (call : Nat)
    (chunk : List UInt8) : State :=
  let state := state.afterRead fd
  let state := { state with
    erw := { state.erw with outLen := UInt32.ofNat chunk.length }
    mem := state.mem.storeBytes state.erw.out chunk }
  let state := state.log (.call state.output)
  { state with mem := func.mem call state.mem }

theorem Streaming.room (streaming : Streaming state accl content done rest) :
    state.room state.erw.out = 12288 := by
  rw [streaming.hasBlock.room, Nat.add_sub_cancel_left]
  rfl

theorem Streaming.fit (streaming : Streaming state accl content done rest) (fd : Int)
    (fit : state.ReadsFit) : (state.afterRead fd).ReadsFit := by
  refine fit.log fun fd p length room isRead => ?_
  obtain ⟨-, -, rfl, rfl⟩ := Event.read.inj isRead
  rw [streaming.room, streaming.outMax]
  decide

/-- A `read()` asks for one block. -/
theorem Streaming.asks (streaming : Streaming state accl content done rest)
    {given : Option (List UInt8)}
    (isRead : (env.read call).bytes rest state.erw.outMax.toNat = given) :
    (env.read call).bytes rest 8192 = given := by
  rw [streaming.outMax] at isRead
  exact isRead

theorem Streaming.chunk_le (streaming : Streaming state accl content done rest)
    {chunk : List UInt8}
    (isRead : (env.read call).bytes rest state.erw.outMax.toNat = some chunk) :
    chunk.length ≤ 8192 :=
  ReadCall.length_le (streaming.asks isRead)

/-- A block fits into `out`. -/
theorem Streaming.chunk_le_room (streaming : Streaming state accl content done rest)
    {chunk : List UInt8}
    (isRead : (env.read call).bytes rest state.erw.outMax.toNat = some chunk) :
    chunk.length ≤ state.room state.erw.out := by
  rw [streaming.room]
  exact Nat.le_trans (streaming.chunk_le isRead) (by decide)

theorem chunks_afterRead (state : State) (fd : Int) :
    (state.afterRead fd).chunks = state.chunks := by
  simp [State.chunks, State.afterRead, State.log]

/-- The callback finds the block in `out`. -/
theorem chunks_afterBlock {chunk : List UInt8} (small : chunk.length ≤ 8192) :
    (state.afterBlock fd func call chunk).chunks = state.chunks ++ [chunk] := by
  have length : (UInt32.ofNat chunk.length).toNat = chunk.length :=
    UInt32.toNat_ofNat_of_lt' (show chunk.length < 2 ^ 32 by omega)
  simp [State.chunks, State.afterBlock, State.afterRead, State.log, State.output, length,
    Memory.loadBytes_storeBytes_self]

/-- The running total after a block. -/
theorem Streaming.total_next (streaming : Streaming state accl content done rest)
    {chunk : List UInt8}
    (isRead : (env.read call).bytes rest state.erw.outMax.toNat = some chunk)
    (small : content.length < 2 ^ 64) :
    (accl + UInt64.ofNat chunk.length).toNat = done.length + chunk.length ∧
      done.length + chunk.length ≤ content.length := by
  have whole := congrArg List.length streaming.whole
  have given := congrArg List.length (ReadCall.append_drop isRead)
  rw [List.length_append] at whole given
  have length : (UInt64.ofNat chunk.length).toNat = chunk.length :=
    UInt64.toNat_ofNat_of_lt' (show chunk.length < 2 ^ 64 by omega)
  refine ⟨?_, by omega⟩
  rw [UInt64.toNat_add, length, (streaming.total small).1, Nat.mod_eq_of_lt (by omega)]

/-- The loop after a block. -/
theorem Streaming.next (streaming : Streaming state accl content done rest)
    {chunk : List UInt8}
    (isRead : (env.read call).bytes rest state.erw.outMax.toNat = some chunk)
    (within : ¬ (state.erw.limit ≠ 0 ∧ state.erw.limit < accl + UInt64.ofNat chunk.length)) :
    Streaming (state.afterBlock fd func call chunk) (accl + UInt64.ofNat chunk.length) content
      (done ++ chunk) (rest.drop chunk.length) := by
  constructor
  case hasBlock => exact streaming.hasBlock
  case outMax => exact streaming.outMax
  case whole => rw [streaming.whole, List.append_assoc, ReadCall.append_drop isRead]
  case total =>
    intro small
    obtain ⟨total, _⟩ := streaming.total_next isRead small
    rw [List.length_append]
    refine ⟨total, fun limited => ?_⟩
    have below := UInt64.not_lt.mp fun exceeds => within ⟨limited, exceeds⟩
    rw [UInt64.le_iff_toNat_le, total] at below
    exact below

/-- A `read()` after which the callback is not called. -/
theorem Streaming.ends (streaming : Streaming state accl content done rest)
    {result : Except Fault FioEasyrwRes × State} (erw : result.2.erw = state.erw)
    (heap : result.2.heap = state.heap) (trace : result.2.trace = (state.afterRead fd).trace)
    (outcome : content.length < 2 ^ 64 →
      StreamOutcome env func state.erw.limit content rest [] result.1) :
    StreamEnds env func content done rest state result where
  erw := ⟨_, erw⟩
  heap := heap
  fit fit := by
    have after := streaming.fit fd fit
    unfold State.ReadsFit at after ⊢
    rw [trace]
    exact after
  given small := by
    refine ⟨[], ?_, List.nil_prefix, ?_, outcome small⟩
    · unfold State.chunks
      rw [trace, List.append_nil]
      exact chunks_afterRead state fd
    · exact (streaming.total small).2

theorem Streaming.fit_afterBlock (streaming : Streaming state accl content done rest)
    {chunk : List UInt8} (fit : state.ReadsFit) : (state.afterBlock fd func call chunk).ReadsFit :=
  (streaming.fit fd fit).log fun _ _ _ _ isRead => nomatch isRead

/-- The callback stops the loop. -/
theorem Streaming.stops (streaming : Streaming state accl content done rest)
    {chunk : List UInt8}
    (isRead : (env.read call).bytes rest state.erw.outMax.toNat = some chunk)
    (within : ¬ (state.erw.limit ≠ 0 ∧ state.erw.limit < accl + UInt64.ofNat chunk.length))
    (stops : func.ret call ≠ 0) :
    StreamEnds env func content done rest state
      (.ok .resMisc, state.afterBlock fd func call chunk) where
  erw := ⟨_, rfl⟩
  heap := rfl
  fit := streaming.fit_afterBlock
  given small := by
    have after : Streaming (state.afterBlock fd func call chunk) _ content _ _ :=
      streaming.next isRead within
    have next := after.total small
    rw [List.length_append] at next
    refine ⟨[chunk], chunks_afterBlock (streaming.chunk_le isRead), ?_, ?_, .misc stops⟩
    · rw [List.flatten_singleton]
      exact ⟨_, ReadCall.append_drop isRead⟩
    · rw [List.flatten_singleton]
      exact next.2

/-- The loop goes on after a block. -/
theorem Streaming.goes_on (streaming : Streaming state accl content done rest)
    {chunk : List UInt8}
    (isRead : (env.read call).bytes rest state.erw.outMax.toNat = some chunk)
    {result : Except Fault FioEasyrwRes × State}
    (later : StreamEnds env func content (done ++ chunk) (rest.drop chunk.length)
      (state.afterBlock fd func call chunk) result) :
    StreamEnds env func content done rest state result where
  erw := later.erw
  heap := later.heap
  fit fit := later.fit (streaming.fit_afterBlock fit)
  given small := by
    obtain ⟨chunks, given, isPrefix, within, outcome⟩ := later.given small
    have whole := ReadCall.append_drop isRead
    refine ⟨chunk :: chunks, ?_, ?_, ?_, ?_⟩
    · rw [given, chunks_afterBlock (streaming.chunk_le isRead), List.append_assoc]
      rfl
    · rw [← whole, List.flatten_cons]
      exact (List.prefix_append_right_inj chunk).mpr isPrefix
    · rw [List.flatten_cons, List.length_append, ← Nat.add_assoc, ← List.length_append]
      exact within
    · generalize result.1 = code at outcome ⊢
      cases outcome with
      | io failed => exact .io failed
      | ok all => exact .ok (by rw [List.flatten_cons, all, whole])
      | oversz limited exceeds => exact .oversz limited exceeds
      | misc stops => exact .misc stops

theorem readLoop_ends (streaming : Streaming state accl content done rest) :
    StreamEnds env func content done rest state (readLoop env func fd accl call rest state) := by
  fun_induction readLoop generalizing done with
  | case1 accl call rest state erw logged =>
      rename_i isRead
      refine streaming.ends rfl rfl rfl fun _ => ?_
      exact .io (ReadCall.eq_fail_of_bytes isRead)
  | case2 accl call rest state erw logged =>
      rename_i isRead
      refine streaming.ends rfl rfl rfl fun _ => .ok ?_
      rcases (ReadCall.eq_nil_iff (streaming.asks isRead)).mp rfl with atEnd | noneAsked
      · exact atEnd.symm
      · cases noneAsked
  | case3 accl call rest state erw logged byte bytes isRead chunk =>
      rename_i tooMuch
      exact absurd tooMuch (Nat.not_lt.mpr (streaming.chunk_le_room isRead))
  | case4 accl call rest state erw logged byte bytes isRead chunk fits stored total =>
      rename_i exceeds
      refine streaming.ends rfl rfl rfl fun small => .oversz exceeds.1 ?_
      have above := exceeds.2
      obtain ⟨total, bound⟩ := streaming.total_next isRead small
      rw [UInt64.lt_iff_toNat_lt] at above
      exact Nat.lt_of_lt_of_le above (total ▸ bound)
  | case5 accl call rest state erw logged byte bytes isRead chunk fits stored total within given
      called after =>
      rename_i stops
      exact streaming.stops isRead within stops
  | case6 accl call rest state erw logged byte bytes isRead chunk fits stored total within given
      called after _ =>
      rename_i ih
      exact streaming.goes_on isRead (ih (streaming.next isRead within))

/-! ## The whole function -/

theorem streaming_opened (state : State) (env : Environment) :
    Streaming (state.opened env 8192) 0 env.content [] env.content where
  hasBlock := State.hasBlock_allocated _ env _
  outMax := rfl
  whole := rfl
  total _ := ⟨rfl, fun _ => Nat.zero_le _⟩

/-- Once the file is open, the function runs the loop. -/
theorem read_opens_loop {st : Stat} (opens : Opens env (fun _ _ => false) state st)
    (func : Callback) :
    fioEasyrwRead env (some func) state = closeRead env.openFd
      (readLoop env func env.openFd 0 0 env.content (state.opened env 8192)) := by
  rw [fioEasyrwRead_eq, withFile_opens opens, __fioEasyrwRead, if_neg]
  exact not_not.mpr ⟨show (0 : UInt32) < 8192 by decide, opens.malloc⟩

/-- Without a callback, the function dies with the file open. -/
theorem read_opens_null {st : Stat} (opens : Opens env (fun _ _ => false) state st) :
    fioEasyrwRead env none state = (.error .assert, state.opened env 8192) := by
  rw [fioEasyrwRead_eq, withFile_opens opens, __fioEasyrwRead, if_neg]
  · rfl
  · exact not_not.mpr ⟨show (0 : UInt32) < 8192 by decide, opens.malloc⟩

/-- Once the file is open, the function ends with the loop. -/
theorem read_opens {st : Stat} (opens : Opens env (fun _ _ => false) state st)
    (func : Callback) :
    ∃ result, StreamEnds env func env.content [] env.content (state.opened env 8192) result ∧
      fioEasyrwRead env (some func) state = closeRead env.openFd result :=
  ⟨_, readLoop_ends (streaming_opened state env), read_opens_loop opens func⟩

end LinuxCTemplate.Fio
