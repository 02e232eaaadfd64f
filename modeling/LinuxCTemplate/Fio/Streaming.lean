import LinuxCTemplate.Fio.Agreement
import LinuxCTemplate.Foundation.Consumer

/-!
# What the callback is given

The block-wise reader is a consumer of the blocks that `read()` gives, with the limit for
its budget.  The running total has 64 bits: it cannot wrap around before it is over the limit
if the limit leaves room for one more block, or if the file is not longer than 64 bits can
tell.
-/

namespace LinuxCTemplate.Fio

open Foundation Consumer

variable {env : Environment} {func : Callback} {fd : Int} {accl : UInt64} {call : Nat}
  {rest content done : List UInt8} {state : State} {limit : UInt64}

/-! ## The blocks of a file -/

/-- The blocks that are read from the `call`-th `read()` on, and whether a `read()` fails in
the end. -/
def reads (env : Environment) (call : Nat) (rest : List UInt8) : List (List UInt8) × Bool :=
  match isRead : (env.read call).bytes rest 8192 with
  | none => ([], true)
  | some [] => ([], false)
  | some (byte :: bytes) =>
      let chunk := byte :: bytes
      let later := reads env (call + 1) (rest.drop chunk.length)
      (chunk :: later.1, later.2)
termination_by rest.length
decreasing_by exact length_drop_lt isRead

theorem reads_of_none (isRead : (env.read call).bytes rest 8192 = none) :
    reads env call rest = ([], true) := by
  rw [reads]
  split <;> simp_all

theorem reads_of_nil (isRead : (env.read call).bytes rest 8192 = some []) :
    reads env call rest = ([], false) := by
  rw [reads]
  split <;> simp_all

theorem reads_of_cons {byte : UInt8} {bytes : List UInt8}
    (isRead : (env.read call).bytes rest 8192 = some (byte :: bytes)) :
    reads env call rest =
      ((byte :: bytes) :: (reads env (call + 1) (rest.drop (byte :: bytes).length)).1,
        (reads env (call + 1) (rest.drop (byte :: bytes).length)).2) := by
  rw [reads]
  split <;> simp_all

/-- The blocks are the beginning of what is left, and all of it if no `read()` fails. -/
theorem reads_flatten (env : Environment) (call : Nat) (rest : List UInt8) :
    (reads env call rest).1.flatten <+: rest ∧
      ((reads env call rest).2 = false → (reads env call rest).1.flatten = rest) ∧
      ∀ chunk ∈ (reads env call rest).1, chunk.length ≤ 8192 := by
  fun_induction reads with
  | case1 call rest isRead => exact ⟨List.nil_prefix, fun works => (nomatch works), by simp⟩
  | case2 call rest isRead =>
      refine ⟨List.nil_prefix, fun _ => ?_, by simp⟩
      rcases (ReadCall.eq_nil_iff isRead).mp rfl with atEnd | noneAsked
      · exact atEnd.symm
      · cases noneAsked
  | case3 call rest byte bytes isRead chunk later ih =>
      obtain ⟨isPrefix, whole, small⟩ := ih
      have split : chunk ++ rest.drop chunk.length = rest := ReadCall.append_drop isRead
      refine ⟨?_, fun works => ?_, ?_⟩
      · rw [List.flatten_cons, ← split]
        exact (List.prefix_append_right_inj chunk).mpr isPrefix
      · rw [List.flatten_cons, whole works, split]
      · intro block member
        rcases List.mem_cons.mp member with rfl | inLater
        · exact ReadCall.length_le isRead
        · exact small block inLater

/-- The blocks that `read()` gives of the file. -/
def Environment.blocks (env : Environment) : List (List UInt8) := (reads env 0 env.content).1

theorem reads_works (works : env.ReadsWork) : (reads env call rest).2 = false := by
  fun_induction reads with
  | case1 call rest isRead => exact (bytes_of_works works isRead).elim
  | case2 => rfl
  | case3 call rest byte bytes isRead chunk later ih => exact ih

/-! ## The loop is a consumer -/

/-- The check of the running total, after `total` more bytes. -/
def overTotal (limit accl : UInt64) (total : Nat) : Bool :=
  limit ≠ 0 ∧ limit < accl + UInt64.ofNat total

/-- The callback stops the loop at the block. -/
def stopsAt (func : Callback) (call number : Nat) : Bool := func.ret (call + number) ≠ 0

/-- The code that the loop returns. -/
def resultOf (fails : Bool) : Ending → FioEasyrwRes
  | .drained => if fails then .resIo else .resOk
  | .stopped => .resMisc
  | .exceeded => .rrrnumOversz

/-- The loop, from its `call`-th `read()` on, as a consumer of the blocks. -/
def consumeBlocks (env : Environment) (func : Callback) (limit accl : UInt64) (call : Nat)
    (rest : List UInt8) : List (List UInt8) × Ending :=
  consume List.length (overTotal limit accl) (stopsAt func call) (reads env call rest).1

section Block

variable {byte : UInt8} {bytes : List UInt8}
  (isRead : (env.read call).bytes rest 8192 = some (byte :: bytes))
include isRead

theorem consumeBlocks_over
    (exceeds : limit ≠ 0 ∧ limit < accl + UInt64.ofNat (byte :: bytes).length) :
    consumeBlocks env func limit accl call rest = ([], .exceeded) := by
  rw [consumeBlocks, reads_of_cons isRead, consume, if_pos]
  exact decide_eq_true exceeds

theorem consumeBlocks_stops
    (within : ¬ (limit ≠ 0 ∧ limit < accl + UInt64.ofNat (byte :: bytes).length))
    (stops : func.ret call ≠ 0) :
    consumeBlocks env func limit accl call rest = ([byte :: bytes], .stopped) := by
  rw [consumeBlocks, reads_of_cons isRead, consume, if_neg, if_pos]
  · exact decide_eq_true stops
  · exact (decide_eq_true_iff).not.mpr within

theorem consumeBlocks_goes_on
    (within : ¬ (limit ≠ 0 ∧ limit < accl + UInt64.ofNat (byte :: bytes).length))
    (goes_on : ¬ func.ret call ≠ 0) :
    consumeBlocks env func limit accl call rest =
      let later := consumeBlocks env func limit (accl + UInt64.ofNat (byte :: bytes).length)
        (call + 1) (rest.drop (byte :: bytes).length)
      ((byte :: bytes) :: later.1, later.2) := by
  have total : (fun total => overTotal limit accl ((byte :: bytes).length + total)) =
      overTotal limit (accl + UInt64.ofNat (byte :: bytes).length) := by
    funext total
    rw [overTotal, overTotal, UInt64.ofNat_add, ← UInt64.add_assoc]
  have stops : (fun number => stopsAt func call (number + 1)) = stopsAt func (call + 1) := by
    funext number
    rw [stopsAt, stopsAt, Nat.add_right_comm, Nat.add_assoc]
  rw [consumeBlocks, reads_of_cons isRead, consume, if_neg, if_neg, total, stops]
  · rfl
  · exact (decide_eq_true_iff).not.mpr goes_on
  · exact (decide_eq_true_iff).not.mpr within

end Block

theorem consumeBlocks_of_end {fails : Bool} (isEnd : reads env call rest = ([], fails)) :
    consumeBlocks env func limit accl call rest = ([], .drained) := by
  rw [consumeBlocks, isEnd]
  rfl

/-- The loop returns a code for the way the consumer ends, and has given its blocks to the
callback. -/
structure Consumes (env : Environment) (func : Callback) (accl : UInt64) (call : Nat)
    (rest : List UInt8) (start : State) (result : Except Fault FioEasyrwRes × State) : Prop where
  code : result.1 = .ok (resultOf (reads env call rest).2
    (consumeBlocks env func start.erw.limit accl call rest).2)
  chunks : result.2.chunks =
    start.chunks ++ (consumeBlocks env func start.erw.limit accl call rest).1

/-- No more blocks are read. -/
theorem Consumes.of_end {fails : Bool} (isEnd : reads env call rest = ([], fails)) {last : State}
    (chunks : last.chunks = state.chunks) :
    Consumes env func accl call rest state (.ok (resultOf fails .drained), last) where
  code := by rw [consumeBlocks_of_end isEnd, isEnd]
  chunks := by rw [consumeBlocks_of_end isEnd, chunks, List.append_nil]

theorem readLoop_consumes (streaming : Streaming state accl content done rest) :
    Consumes env func accl call rest state (readLoop env func fd accl call rest state) := by
  fun_induction readLoop generalizing done with
  | case1 accl call rest state erw logged =>
      rename_i isRead
      exact .of_end (reads_of_none (streaming.asks isRead)) (chunks_afterRead state fd)
  | case2 accl call rest state erw logged =>
      rename_i isRead
      exact .of_end (reads_of_nil (streaming.asks isRead)) (chunks_afterRead state fd)
  | case3 accl call rest state erw logged byte bytes isRead chunk =>
      rename_i tooMuch
      exact absurd tooMuch (Nat.not_lt.mpr (streaming.chunk_le_room isRead))
  | case4 accl call rest state erw logged byte bytes isRead chunk fits stored total =>
      rename_i exceeds
      have isOver : consumeBlocks env func state.erw.limit accl call rest = _ :=
        consumeBlocks_over (streaming.asks isRead) exceeds
      constructor
      · rw [isOver]
        rfl
      · rw [isOver, List.append_nil]
        exact chunks_afterRead state fd
  | case5 accl call rest state erw logged byte bytes isRead chunk fits stored total within given
      called after =>
      rename_i stops
      have small := streaming.chunk_le isRead
      have isStopped : consumeBlocks env func state.erw.limit accl call rest = _ :=
        consumeBlocks_stops (streaming.asks isRead) within stops
      constructor
      · rw [isStopped]
        rfl
      · rw [isStopped]
        exact chunks_afterBlock small
  | case6 accl call rest state erw logged byte bytes isRead chunk fits stored total within given
      called after goes_on =>
      rename_i ih
      have small := streaming.chunk_le isRead
      have later := ih (streaming.next isRead within)
      have goesOn : consumeBlocks env func state.erw.limit accl call rest = _ :=
        consumeBlocks_goes_on (streaming.asks isRead) within goes_on
      constructor
      · rw [goesOn, reads_of_cons (streaming.asks isRead)]
        exact later.code
      · rw [goesOn]
        refine later.chunks.trans ?_
        refine (congrArg (· ++ _) (chunks_afterBlock small)).trans ?_
        exact List.append_assoc ..

/-! ## The running total -/

/-- The limit leaves room for one more block, or 64 bits can tell the length of the file. -/
def TotalFits (limit : UInt64) (content : List UInt8) : Prop :=
  limit = 0 ∨ limit.toNat + 8192 < 2 ^ 64 ∨ content.length < 2 ^ 64

/-- The total is over the limit. -/
def overLength (limit : UInt64) (total : Nat) : Bool := limit ≠ 0 ∧ limit.toNat < total

theorem load_length (blocks : List (List UInt8)) (count : Nat) :
    load List.length blocks count = (blocks.take count).flatten.length := by
  rw [load, List.length_flatten]

theorem overTotal_eq {total : Nat} (small : limit ≠ 0 → total < 2 ^ 64) :
    overTotal limit 0 total = overLength limit total := by
  apply decide_eq_decide.mpr
  apply and_congr_right
  intro limited
  rw [UInt64.lt_iff_toNat_lt, UInt64.zero_add, UInt64.toNat_ofNat_of_lt' (small limited)]

/-- The 64 bits of the running total make no difference. -/
theorem consumeBlocks_eq (fits : TotalFits limit env.content) :
    consumeBlocks env func limit 0 0 env.content =
      consume List.length (overLength limit) (stopsAt func 0) env.blocks := by
  obtain ⟨isPrefix, _, small⟩ := reads_flatten env 0 env.content
  rw [← Environment.blocks] at isPrefix small
  rw [consumeBlocks, ← Environment.blocks]
  apply consume_congr
  · intro k below within
    apply overTotal_eq
    intro limited
    rcases fits with noLimit | room | short
    · exact (limited noLimit).elim
    · have before : load List.length env.blocks k ≤ limit.toNat :=
        Nat.not_lt.mp fun isOver => of_decide_eq_false within ⟨limited, isOver⟩
      have next := load_succ List.length below
      have block := small _ (List.getElem_mem below)
      omega
    · have part := load_le List.length env.blocks (k + 1)
      rw [← List.length_flatten] at part
      exact Nat.lt_of_le_of_lt (Nat.le_trans part isPrefix.length_le) short
  · exact decide_eq_false fun isOver => Nat.not_lt_zero _ isOver.2

/-! ## The whole function -/

/-- The running total is first over a limit at some block, and no callback has stopped the
reading before. -/
def ExceedsFirst (env : Environment) (func : Callback) (limit : UInt64) : Prop :=
  limit ≠ 0 ∧ ∃ k < env.blocks.length, limit.toNat < (env.blocks.take (k + 1)).flatten.length ∧
    ∀ j < k, (env.blocks.take (j + 1)).flatten.length ≤ limit.toNat ∧ func.ret j = 0

/-- The function returns, and the callback has been given a beginning of the file within the
limit. -/
structure Streamed (env : Environment) (func : Callback) (state : State) (res : FioEasyrwRes)
    (given : List (List UInt8)) : Prop where
  returns : (fioEasyrwRead env (some func) state).1 = .ok res
  chunks : (fioEasyrwRead env (some func) state).2.chunks = state.chunks ++ given
  blocks : given <+: env.blocks
  bytes : given.flatten <+: env.content
  within : Within state.erw.limit given.flatten.length
  whole : res = .resOk → given.flatten = env.content
  stop : ∀ k < given.length, func.ret k ≠ 0 → k + 1 = given.length ∧ res = .resMisc
  oversz : res = .rrrnumOversz ↔
    (∃ st, Opens env (fun _ _ => false) state st) ∧ ExceedsFirst env func state.erw.limit

def DeliversPrefix (env : Environment) (func : Callback) (state : State) : Prop :=
  ∃ res given, Streamed env func state res given

/-- Once the file is open, the function returns the code of the consumer. -/
theorem read_consumes {st : Stat} (opens : Opens env (fun _ _ => false) state st)
    (func : Callback) :
    (fioEasyrwRead env (some func) state).1 = .ok (resultOf (reads env 0 env.content).2
        (consumeBlocks env func state.erw.limit 0 0 env.content).2) ∧
      (fioEasyrwRead env (some func) state).2.chunks =
        state.chunks ++ (consumeBlocks env func state.erw.limit 0 0 env.content).1 := by
  have consumes : Consumes env func 0 0 env.content (state.opened env 8192)
      (readLoop env func env.openFd 0 0 env.content (state.opened env 8192)) :=
    readLoop_consumes (streaming_opened state env)
  have sameLimit : (state.opened env 8192).erw.limit = state.erw.limit := freeOut_limit state
  obtain ⟨code, chunks⟩ := consumes
  rw [sameLimit] at code chunks
  rw [read_opens_loop opens, closeRead_fst, chunks_closeRead, chunks_opened] at *
  exact ⟨code, chunks⟩

theorem exceedsFirst_iff (env : Environment) (func : Callback) (limit : UInt64) :
    ExceedsFirst env func limit ↔
      ∃ k < env.blocks.length, overLength limit (load List.length env.blocks (k + 1)) = true ∧
        ∀ j < k, Passes List.length (overLength limit) (stopsAt func 0) env.blocks j := by
  constructor
  · rintro ⟨limited, k, below, isOver, before⟩
    refine ⟨k, below, decide_eq_true ⟨limited, by rwa [load_length]⟩, fun j earlier => ?_⟩
    obtain ⟨within, goes_on⟩ := before j earlier
    constructor
    · refine decide_eq_false fun isOver => ?_
      rw [load_length] at isOver
      exact Nat.not_lt.mpr within isOver.2
    · rw [stopsAt, Nat.zero_add]
      exact decide_eq_false (not_not.mpr goes_on)
  · rintro ⟨k, below, isOver, before⟩
    obtain ⟨limited, isOver⟩ := of_decide_eq_true isOver
    refine ⟨limited, k, below, by rwa [← load_length], fun j earlier => ?_⟩
    obtain ⟨within, goes_on⟩ := before j earlier
    rw [stopsAt, Nat.zero_add] at goes_on
    constructor
    · rw [← load_length]
      exact Nat.not_lt.mp fun isOver => of_decide_eq_false within ⟨limited, isOver⟩
    · exact not_not.mp (of_decide_eq_false goes_on)

theorem resultOf_eq_ok {fails : Bool} {ending : Ending} (isOk : resultOf fails ending = .resOk) :
    ending = .drained ∧ fails = false := by
  cases ending with
  | drained =>
      cases fails with
      | true => cases isOk
      | false => exact ⟨rfl, rfl⟩
  | stopped => cases isOk
  | exceeded => cases isOk

theorem resultOf_eq_oversz_iff {fails : Bool} {ending : Ending} :
    resultOf fails ending = .rrrnumOversz ↔ ending = .exceeded := by
  cases ending <;> cases fails <;> simp [resultOf]

/-- Once the file is open, the function does what the consumer does. -/
theorem streamed_of_ended {st : Stat} (opens : Opens env (fun _ _ => false) state st)
    {given : List (List UInt8)} {ending : Ending}
    (ended : Ended List.length (overLength state.erw.limit) (stopsAt func 0) env.blocks
      (given, ending))
    (code : (fioEasyrwRead env (some func) state).1 =
      .ok (resultOf (reads env 0 env.content).2 ending))
    (chunks : (fioEasyrwRead env (some func) state).2.chunks = state.chunks ++ given) :
    Streamed env func state (resultOf (reads env 0 env.content).2 ending) given where
  returns := code
  chunks := chunks
  blocks := ended.isPrefix
  bytes := by
    obtain ⟨later, isBlocks⟩ := ended.isPrefix
    have isPrefix := (reads_flatten env 0 env.content).1
    rw [← Environment.blocks, ← isBlocks, List.flatten_append] at isPrefix
    exact (List.prefix_append _ _).trans isPrefix
  within limited := by
    have within := ended.within (decide_eq_false fun isOver => Nat.not_lt_zero _ isOver.2)
    rw [← List.length_flatten] at within
    exact Nat.not_lt.mp fun isOver => of_decide_eq_false within ⟨limited, isOver⟩
  whole isOk := by
    obtain ⟨isDrained, works⟩ := resultOf_eq_ok isOk
    rw [ended.eq_of_drained isDrained]
    exact (reads_flatten env 0 env.content).2.1 works
  stop k inGiven stops := by
    have isStop : stopsAt func 0 k = true := by
      rw [stopsAt, Nat.zero_add]
      exact decide_eq_true stops
    obtain ⟨isLast, isStopped⟩ := ended.stop_last inGiven isStop
    exact ⟨isLast, by rw [isStopped, resultOf]⟩
  oversz := by
    rw [resultOf_eq_oversz_iff, ended.exceeded_iff, exceedsFirst_iff]
    exact (and_iff_right ⟨st, opens⟩).symm

theorem chunks_allocated (len : UInt32) : (state.allocated env len).chunks = state.chunks :=
  chunks_log fun _ => Event.noConfusion

/-- A file that is not opened gives nothing to the callback. -/
theorem streamed_of_refused (never : ∀ st, ¬ Opens env (fun _ _ => false) state st)
    {result : Except Fault FioEasyrwRes × State}
    (isResult : fioEasyrwRead env (some func) state = result)
    (refused : Refused env (fun _ _ => false) (fun _ => 8192) state result) :
    DeliversPrefix env func state := by
  have nothing : ∀ res, result.1 = .ok res → res ≠ .resOk → res ≠ .rrrnumOversz →
      result.2.chunks = state.chunks → DeliversPrefix env func state := by
    intro res code notOk notOversz chunks
    refine ⟨res, [], isResult ▸ code, ?_, List.nil_prefix, List.nil_prefix,
      fun _ => Nat.zero_le _, fun isOk => (notOk isOk).elim,
      fun k below => (Nat.not_lt_zero k below).elim, fun isOversz => (notOversz isOversz).elim,
      fun opened => ?_⟩
    · rw [isResult, chunks, List.append_nil]
    · obtain ⟨⟨st, opens⟩, _⟩ := opened
      exact (never st opens).elim
  cases refused with
  | @early res notOk oversz =>
      refine nothing res rfl notOk ?_ (chunks_freeOut state)
      intro isOversz
      obtain ⟨_, tooLarge⟩ := oversz isOversz
      cases tooLarge
  | late st malloc =>
      refine nothing _ rfl (by decide) (by decide) ?_
      exact (chunks_freeOut _).trans ((chunks_allocated 8192).trans (chunks_freeOut state))

/-- The callback is given a beginning of the file, block by block and within the limit,
if the running total does not wrap around. -/
theorem delivers_in_order (func : Callback) (fits : TotalFits state.erw.limit env.content) :
    DeliversPrefix env func state := by
  by_cases opened : ∃ st, Opens env (fun _ _ => false) state st
  · obtain ⟨st, opens⟩ := opened
    obtain ⟨code, chunks⟩ := read_consumes opens func
    rw [consumeBlocks_eq fits] at code chunks
    exact ⟨_, _, streamed_of_ended opens (consume_ended ..) code chunks⟩
  · have never : ∀ st, ¬ Opens env (fun _ _ => false) state st := fun st opens => opened ⟨st, opens⟩
    refine streamed_of_refused never (fioEasyrwRead_eq env (some func) state) ?_
    exact withFile_refused never

/-- Ten bytes that are read four at a time. -/
def inFours : Environment :=
  { bytewise 10 [1, 2, 3, 4, 5, 6, 7, 8, 9, 10] with read := fun _ => .upTo 3 }

/-- A limit of nine bytes is exceeded by the third block. -/
theorem delivers_in_order_limited :
    (fioEasyrwRead inFours (some appender) (fresh 9)).1 = .ok .rrrnumOversz ∧
      (fioEasyrwRead inFours (some appender) (fresh 9)).2.chunks = [[1, 2, 3, 4], [5, 6, 7, 8]] ∧
      DeliversPrefix inFours appender (fresh 9) :=
  ⟨by decide +kernel, by decide +kernel,
    @delivers_in_order inFours (fresh 9) appender (.inr (.inl (by decide)))⟩

/-! ## The running total wraps around -/

theorem not_overTotal_of_max (isMax : limit.toNat + 1 = 2 ^ 64) (total : Nat) :
    overTotal limit accl total = false := by
  apply decide_eq_false
  rintro ⟨_, isOver⟩
  rw [UInt64.lt_iff_toNat_lt] at isOver
  have bound := (accl + UInt64.ofNat total).toNat_lt
  omega

/-- A consumer that neither has a budget nor stops takes everything. -/
theorem consumeBlocks_of_max (isMax : limit.toNat + 1 = 2 ^ 64) :
    consumeBlocks env appender limit accl call rest = ((reads env call rest).1, .drained) := by
  have ended := consume_ended List.length (overTotal limit accl) (stopsAt appender call)
    (reads env call rest).1
  rw [← consumeBlocks] at ended
  generalize consumeBlocks env appender limit accl call rest = result at ended ⊢
  cases ended with
  | drained => rfl
  | stopped k _ _ _ stop => exact absurd rfl (of_decide_eq_true stop)
  | exceeded k _ _ isOver =>
      rw [not_overTotal_of_max isMax] at isOver
      cases isOver

/-- With the greatest limit there is none. -/
theorem not_deliversPrefix_of_max {st : Stat} (opens : Opens env (fun _ _ => false) state st)
    (works : env.ReadsWork) (isMax : state.erw.limit.toNat + 1 = 2 ^ 64)
    (long : 2 ^ 64 ≤ env.content.length) : ¬ DeliversPrefix env appender state := by
  rintro ⟨res, given, streamed⟩
  obtain ⟨_, chunks⟩ := read_consumes opens appender
  rw [consumeBlocks_of_max isMax, streamed.chunks] at chunks
  have whole := (reads_flatten env 0 env.content).2.1 (reads_works works)
  rw [← List.append_cancel_left chunks] at whole
  have limited : state.erw.limit ≠ 0 := by
    intro isZero
    rw [isZero] at isMax
    exact absurd isMax (by decide)
  have within := streamed.within limited
  rw [whole] at within
  omega

theorem opens_max (content : List UInt8) :
    Opens (bytewise 0 content) (fun _ _ => false) (fresh 0xFFFFFFFFFFFFFFFF)
      { regular := true, size := 0 } := by
  constructor
  all_goals simp [bytewise, fresh, fioEasyrwInit]

/-- A file of 2^64 bytes with the limit 2^64 - 1 is delivered as a whole. -/
theorem delivers_past_limit : ¬ ∀ env func state, DeliversPrefix env func state := by
  obtain ⟨content, long⟩ : ∃ content : List UInt8, content.length = 2 ^ 64 :=
    ⟨List.replicate (2 ^ 64) 7, List.length_replicate⟩
  intro all
  exact not_deliversPrefix_of_max (opens_max content) (fun _ => ReadCall.noConfusion) (by decide)
    (Nat.le_of_eq long.symm) (all _ _ _)

end LinuxCTemplate.Fio
