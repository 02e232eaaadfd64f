import LinuxCTemplate.Fio.Opening

/-!
# The loop that fills one block

`__fio_easyrw_read_simple` asks for the rest of the length that `stat()` has predicted
until a `read()` gives nothing.  That happens at the end of the file, and also when the
predicted length has been read: then nothing is asked for.
-/

namespace LinuxCTemplate.Fio

open Foundation

variable {env : Environment} {fd : Int} {expectLen accl pUnused : UInt32} {p call : Nat}
  {rest content done : List UInt8} {state last : State} {size : Nat}

/-- No `read()` fails. -/
def Environment.ReadsWork (env : Environment) : Prop := ∀ call, env.read call ≠ .fail

theorem bytes_of_works (works : env.ReadsWork) {length : Nat} :
    (env.read call).bytes rest length ≠ none := by
  obtain ⟨chunk, isRead⟩ := ReadCall.exists_bytes (works call) rest length
  simp [isRead]

/-- The loop has read `done` into the block, and there is `rest` to read. -/
structure Reading (state : State) (size : Nat) (expectLen accl pUnused : UInt32) (p : Nat)
    (content done rest : List UInt8) : Prop where
  hasBlock : state.HasBlock size
  content : content = done ++ rest
  accl : accl.toNat = done.length
  pUnused : pUnused.toNat + done.length = expectLen.toNat
  p : p = state.erw.out + done.length
  fits : done.length ≤ size
  stored : state.mem.loadBytes state.erw.out done.length = done

/-- A `read()` for what is left of the predicted length. -/
def IsSimpleRead (fd : Int) (out size : Nat) (expectLen : UInt32) (event : Event) : Prop :=
  ∃ already ≤ size, already ≤ expectLen.toNat ∧
    event = .read fd (out + already) (expectLen.toNat - already) (size - already)

/-- The ways the loop ends: with an error, at the end of a shorter file unless a `read()`
has failed; with the predicted length of the content in the block; or by a `read()` past
the block. -/
inductive SimpleOutcome (env : Environment) (size : Nat) (expectLen : UInt32)
    (content : List UInt8) : Except Fault FioEasyrwRes × State → Prop where
  | io {last : State} :
      (env.ReadsWork → content.length < expectLen.toNat ∧ content.length ≤ size) →
      SimpleOutcome env size expectLen content (.ok .resIo, last)
  | ok {last : State} : expectLen.toNat ≤ content.length → expectLen.toNat ≤ size →
      last.erw.outLen = expectLen → last.output = content.take expectLen.toNat →
      SimpleOutcome env size expectLen content (.ok .resOk, last)
  | overflow {last : State} : size < min content.length expectLen.toNat →
      SimpleOutcome env size expectLen content (.error .overflow, last)

structure SimpleEnds (env : Environment) (fd : Int) (size : Nat) (expectLen : UInt32)
    (content : List UInt8) (start : State) (result : Except Fault FioEasyrwRes × State) : Prop where
  erw : ∃ outLen, result.2.erw = { start.erw with outLen }
  heap : result.2.heap = start.heap
  trace : ∃ more, result.2.trace = start.trace ++ more ∧ more ≠ [] ∧
    ∀ event ∈ more, IsSimpleRead fd start.erw.out size expectLen event
  outcome : SimpleOutcome env size expectLen content result

theorem Reading.room (reading : Reading state size expectLen accl pUnused p content done rest) :
    state.room p = size - done.length := by
  rw [reading.hasBlock.room, reading.p]
  omega

/-- The `read()` of a round. -/
theorem Reading.isSimpleRead
    (reading : Reading state size expectLen accl pUnused p content done rest) (fd : Int) :
    IsSimpleRead fd state.erw.out size expectLen (.read fd p pUnused.toNat (state.room p)) := by
  have total := reading.pUnused
  refine ⟨done.length, reading.fits, by omega, ?_⟩
  rw [reading.room, reading.p]
  congr 1
  omega

/-- A round that ends the loop. -/
theorem Reading.ends (reading : Reading state size expectLen accl pUnused p content done rest)
    {result : Except Fault FioEasyrwRes × State}
    (erw : ∃ outLen, result.2.erw = { state.erw with outLen })
    (heap : result.2.heap = state.heap)
    (trace : result.2.trace = state.trace ++ [.read fd p pUnused.toNat (state.room p)])
    (outcome : SimpleOutcome env size expectLen content result) :
    SimpleEnds env fd size expectLen content state result where
  erw := erw
  heap := heap
  trace := by
    refine ⟨_, trace, List.cons_ne_nil _ _, ?_⟩
    intro event member
    rw [List.mem_singleton.mp member]
    exact reading.isSimpleRead fd
  outcome := outcome

/-- A round that goes on. -/
theorem Reading.ends_later
    (reading : Reading state size expectLen accl pUnused p content done rest)
    {chunk : List UInt8} {result : Except Fault FioEasyrwRes × State}
    (later : SimpleEnds env fd size expectLen content
      { state.log (.read fd p pUnused.toNat (state.room p)) with
        mem := state.mem.storeBytes p chunk } result) :
    SimpleEnds env fd size expectLen content state result where
  erw := later.erw
  heap := later.heap
  trace := by
    obtain ⟨more, isTrace, _, all⟩ := later.trace
    refine ⟨.read fd p pUnused.toNat (state.room p) :: more, ?_, List.cons_ne_nil _ _, ?_⟩
    · rw [isTrace]
      exact List.append_assoc ..
    · intro event member
      rcases List.mem_cons.mp member with rfl | inMore
      · exact reading.isSimpleRead fd
      · exact all event inMore
  outcome := later.outcome

/-- The loop at the end of the file or of the predicted length. -/
theorem Reading.length_of_nothing
    (reading : Reading state size expectLen accl pUnused p content done rest)
    (nothing : rest = [] ∨ pUnused.toNat = 0) :
    content.length = done.length ∨ done.length = expectLen.toNat := by
  rcases nothing with atEnd | noneAsked
  · left
    rw [reading.content, atEnd, List.append_nil]
  · right
    have total := reading.pUnused
    omega

/-- The loop after a chunk. -/
theorem Reading.next (reading : Reading state size expectLen accl pUnused p content done rest)
    {chunk : List UInt8} (isRead : (env.read call).bytes rest pUnused.toNat = some chunk)
    (fits : chunk.length ≤ state.room p) (event : Event) :
    (accl + UInt32.ofNat chunk.length).toNat = done.length + chunk.length ∧
      Reading { state.log event with mem := state.mem.storeBytes p chunk } size expectLen
        (accl + UInt32.ofNat chunk.length) (pUnused - UInt32.ofNat chunk.length)
        (p + chunk.length) content (done ++ chunk) (rest.drop chunk.length) := by
  have asked := ReadCall.length_le isRead
  have total := reading.pUnused
  have bound := expectLen.toNat_lt
  rw [reading.room] at fits
  have small : (UInt32.ofNat chunk.length).toNat = chunk.length :=
    UInt32.toNat_ofNat_of_lt' (show chunk.length < 2 ^ 32 by omega)
  have accl' : (accl + UInt32.ofNat chunk.length).toNat = done.length + chunk.length := by
    rw [UInt32.toNat_add, small, reading.accl, Nat.mod_eq_of_lt (by omega)]
  refine ⟨accl', ?_⟩
  constructor
  case hasBlock => exact reading.hasBlock
  case content => rw [reading.content, List.append_assoc, ReadCall.append_drop isRead]
  case accl => rw [accl', List.length_append]
  case pUnused =>
    have atMost : UInt32.ofNat chunk.length ≤ pUnused := by
      rw [UInt32.le_iff_toNat_le, small]
      exact asked
    rw [UInt32.toNat_sub_of_le _ _ atMost, small, List.length_append]
    omega
  case p =>
    rw [reading.p, List.length_append]
    exact Nat.add_assoc ..
  case fits =>
    have before := reading.fits
    rw [List.length_append]
    omega
  case stored =>
    rw [reading.p, List.length_append]
    exact (Memory.loadBytes_storeBytes_append ..).trans (congrArg (· ++ chunk) reading.stored)

/-- The loop ends in one of three ways, and asks only for what is left. -/
theorem readSimpleLoop_ends
    (reading : Reading state size expectLen accl pUnused p content done rest) :
    SimpleEnds env fd size expectLen content state
      (readSimpleLoop env fd expectLen accl pUnused p call rest state) := by
  fun_induction readSimpleLoop generalizing done with
  | case1 accl pUnused p call rest state logged =>
      rename_i isRead
      refine reading.ends ⟨_, rfl⟩ rfl rfl (.io fun works => ?_)
      exact (bytes_of_works works isRead).elim
  | case2 accl pUnused p call rest state logged isRead =>
      rename_i short
      refine reading.ends ⟨_, rfl⟩ rfl rfl (.io fun works => ?_)
      have isShort : done.length ≠ expectLen.toNat := by
        rw [← reading.accl]
        exact fun same => short (UInt32.toNat_inj.mp same)
      have atEnd := (reading.length_of_nothing ((ReadCall.eq_nil_iff isRead).mp rfl)).resolve_right
        isShort
      have total := reading.pUnused
      have fits := reading.fits
      omega
  | case3 accl pUnused p call rest state logged isRead =>
      rename_i whole
      have isWhole : done.length = expectLen.toNat := by
        rw [← reading.accl, not_not.mp whole]
      have fits := reading.fits
      have isTaken : content.take expectLen.toNat = done := by
        rw [reading.content, ← isWhole, List.take_left]
      refine reading.ends ⟨_, rfl⟩ rfl rfl (.ok ?_ ?_ rfl ?_)
      · rw [reading.content, List.length_append]
        omega
      · omega
      · rw [isTaken, ← reading.stored, isWhole]
        rfl
  | case4 accl pUnused p call rest state logged byte bytes isRead chunk =>
      rename_i tooMuch
      refine reading.ends ⟨_, rfl⟩ rfl rfl (.overflow ?_)
      have asked := ReadCall.length_le isRead
      have given := congrArg List.length (ReadCall.append_drop isRead)
      have whole := congrArg List.length reading.content
      have total := reading.pUnused
      have fits := reading.fits
      have room : state.room p < (byte :: bytes).length := tooMuch
      rw [reading.room] at room
      rw [List.length_append] at given whole
      omega
  | case5 accl pUnused p call rest state logged byte bytes isRead chunk fits stored total =>
      rename_i exceeds
      -- No more than the predicted length is asked for.
      obtain ⟨accl', _⟩ := reading.next isRead (not_lt.mp fits)
        (.read fd p pUnused.toNat (state.room p))
      have asked := ReadCall.length_le isRead
      have expected := reading.pUnused
      have exceeds : expectLen < accl + UInt32.ofNat (byte :: bytes).length := exceeds
      rw [UInt32.lt_iff_toNat_lt] at exceeds
      omega
  | case6 accl pUnused p call rest state logged byte bytes isRead chunk fits stored total _ =>
      rename_i ih
      obtain ⟨_, next⟩ := reading.next isRead (not_lt.mp fits)
        (.read fd p pUnused.toNat (state.room p))
      exact reading.ends_later (ih next)

/-! ## The whole function -/

variable {st : Stat}

/-- If nothing is expected, the function dies with the file open. -/
theorem readSimple_opens_nothing (opens : Opens env overLimit state st)
    (nothing : st.size.toUInt32 = 0) :
    fioEasyrwReadSimple env state = (.error .assert, state.opened env st.size.toUInt32) := by
  rw [fioEasyrwReadSimple_eq, withFile_opens opens, __fioEasyrwReadSimple, if_pos]
  · rfl
  · left
    rintro ⟨positive, _⟩
    rw [nothing] at positive
    exact absurd (show (0 : UInt32) < 0 from positive) (by decide)

/-- Once the file is open, the function dies if nothing is expected, and otherwise ends with
the loop. -/
theorem readSimple_opens (opens : Opens env overLimit state st) :
    (st.size.toUInt32 = 0 →
      ∃ last, fioEasyrwReadSimple env state = (.error .assert, last) ∧
        (last.ReadsFit ↔ state.ReadsFit)) ∧
    (st.size.toUInt32 ≠ 0 →
      ∃ result, SimpleEnds env env.openFd (st.size.toUInt32 + myPageSz).toNat st.size.toUInt32
          env.content (state.opened env st.size.toUInt32) result ∧
        fioEasyrwReadSimple env state = closeSimple env.openFd result) := by
  constructor
  · intro nothing
    exact ⟨_, readSimple_opens_nothing opens nothing, State.readsFit_opened_iff⟩
  · intro some
    rw [fioEasyrwReadSimple_eq, withFile_opens opens]
    refine ⟨_, ?_, rfl⟩
    rw [__fioEasyrwReadSimple, if_neg]
    · refine @readSimpleLoop_ends env env.openFd st.size.toUInt32 0 st.size.toUInt32 env.malloc 0
        env.content env.content [] (state.opened env st.size.toUInt32) _ ?_
      constructor
      case hasBlock => exact State.hasBlock_allocated _ env _
      case content => rfl
      case accl => rfl
      case pUnused => rfl
      case p => rfl
      case fits => exact Nat.zero_le _
      case stored => rfl
    · rintro (unprepared | used)
      · exact unprepared ⟨UInt32.pos_iff_ne_zero.mpr some, opens.malloc⟩
      · exact used rfl

/-! ## The whole file or nothing -/

/-- OK with the whole content, or an error code and no buffer. -/
inductive WholeOrNothing (content : List UInt8) : Except Fault FioEasyrwRes × State → Prop where
  | whole {last : State} : last.erw.outLen.toNat = content.length → last.output = content →
      WholeOrNothing content (.ok .resOk, last)
  | nothing {res : FioEasyrwRes} {last : State} : res ≠ .resOk → last.erw.out = 0 →
      WholeOrNothing content (.ok res, last)

/-- For a regular file of which `stat()` has reported the size and which has the content while
it is read, `fio_easyrw_read_simple` gives the whole content or nothing, whatever `malloc`,
`open()` and `read()` do. -/
def NeverPartial (size limit : UInt64) (content : List UInt8) : Prop :=
  ∀ env state, env.stat = some { regular := true, size } → env.content = content →
    state.erw.limit = limit → WholeOrNothing content (fioEasyrwReadSimple env state)

/-- The file is refused for its size, or the length that is left of the size in 32 bits is not
0, the content is no longer than that, and it fits the block. -/
def SizeHolds (size limit : UInt64) (content : List UInt8) : Prop :=
  (limit ≠ 0 ∧ limit < size) ∨
    (size.toUInt32 ≠ 0 ∧ content.length ≤ size.toUInt32.toNat ∧
      content.length ≤ (size.toUInt32 + myPageSz).toNat)

theorem WholeOrNothing.of_fails {content : List UInt8} {start : State}
    {result : Except Fault FioEasyrwRes × State} (fails : Fails start result) :
    WholeOrNothing content result := by
  obtain ⟨code, last⟩ := result
  obtain ⟨res, rfl, notOk⟩ := fails.error
  exact .nothing notOk fails.out

variable {limit bits : UInt64}

theorem neverPartial_of_sizeHolds (holds : SizeHolds bits limit content) :
    NeverPartial bits limit content := by
  intro env state isStat isContent isLimit
  by_cases opened : ∃ st, Opens env overLimit state st
  · obtain ⟨st, opens⟩ := opened
    obtain rfl : { regular := true, size := bits } = st :=
      Option.some.inj (isStat.symm.trans opens.stat)
    have within := opens.size
    rw [isLimit, overLimit, decide_eq_false_iff_not] at within
    obtain ⟨some, short, fits⟩ := holds.resolve_left within
    obtain ⟨⟨code, last⟩, ends, isResult⟩ := (readSimple_opens opens).2 some
    rw [isResult]
    have outcome := ends.outcome
    rw [isContent] at outcome
    cases outcome with
    | io => exact .nothing (by decide) (freeOut_out _)
    | ok enough _ outLen output =>
        have whole : content.length = bits.toUInt32.toNat := Nat.le_antisymm short enough
        refine .whole ?_ ?_
        · exact (congrArg UInt32.toNat outLen).trans whole.symm
        · refine output.trans ?_
          rw [← whole]
          exact List.take_length
    | overflow past =>
        dsimp only at past
        omega
  · rw [fioEasyrwReadSimple_eq]
    exact .of_fails (withFile_fails fun st opens => opened ⟨st, opens⟩)

/-- A file that can be read, by a `read()` that gives a byte at a time. -/
def bytewise (size : UInt64) (content : List UInt8) : Environment where
  stat := some { regular := true, size }
  malloc := 4096
  openFd := 3
  content := content
  read _ := .upTo 0

/-- An object for the path `f`. -/
def fresh (limit : UInt64) : State where
  erw := fioEasyrwInit (some [102]) limit
  mem _ := 0
  heap := []
  trace := []

theorem opens_bytewise (content : List UInt8) (within : ¬ (limit ≠ 0 ∧ limit < bits)) :
    Opens (bytewise bits content) overLimit (fresh limit) { regular := true, size := bits } := by
  constructor
  case size => exact decide_eq_false within
  all_goals simp [bytewise, fresh, fioEasyrwInit]

theorem NeverPartial.sizeHolds (never : NeverPartial bits limit content) :
    SizeHolds bits limit content := by
  by_cases exceeds : limit ≠ 0 ∧ limit < bits
  · exact Or.inl exceeds
  · right
    have opens := opens_bytewise content exceeds
    have works : (bytewise bits content).ReadsWork := fun _ => ReadCall.noConfusion
    have result := never (bytewise bits content) (fresh limit) rfl rfl rfl
    by_cases none : bits.toUInt32 = 0
    · obtain ⟨last, died, _⟩ := (readSimple_opens opens).1 none
      rw [died] at result
      cases result
    · refine ⟨none, ?_⟩
      obtain ⟨⟨code, last⟩, ends, isResult⟩ := (readSimple_opens opens).2 none
      rw [isResult] at result
      have outcome : SimpleOutcome _ _ _ content _ := ends.outcome
      cases outcome with
      | io early =>
          have short := early works
          exact ⟨Nat.le_of_lt short.1, short.2⟩
      | ok enough fits outLen output =>
          cases result with
          | whole length _ =>
              have isLength : bits.toUInt32.toNat = content.length :=
                (congrArg UInt32.toNat outLen).symm.trans length
              dsimp only at fits
              omega
          | nothing notOk => exact (notOk rfl).elim
      | overflow => cases result

/-- `fio_easyrw_read_simple` never takes a part of the content for the whole if and only if the
size that `stat()` has reported holds. -/
theorem read_simple_never_partial_iff (size limit : UInt64) (content : List UInt8) :
    NeverPartial size limit content ↔ SizeHolds size limit content :=
  ⟨NeverPartial.sizeHolds, neverPartial_of_sizeHolds⟩

/-- A file of 5 bytes that has grown to 10 is read in part. -/
theorem read_simple_partial :
    ¬ ∀ size limit content, NeverPartial size limit content := by
  intro never
  have holds := (never 5 0 (List.replicate 10 7)).sizeHolds
  rcases holds with refused | ⟨_, short, _⟩
  · exact refused.1 rfl
  · exact absurd short (by decide)

end LinuxCTemplate.Fio
