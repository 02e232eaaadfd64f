import LinuxCTemplate.Fio.Bounds

/-!
# The two readers agree

On a file that does not change and without errors both readers give its content, or both
refuse it for its size.  The streaming reader does so for every file; the other one dies on
an empty file, and its 32-bit length is not that of a file of nearly 4 GiB or more.
-/

namespace LinuxCTemplate.Fio

open Foundation

/-- A regular file with the content, and no error. -/
structure Unchanged (content : List UInt8) (env : Environment) : Prop where
  stat : ∃ size, env.stat = some { regular := true, size } ∧ size.toNat = content.length
  content : env.content = content
  malloc : env.malloc ≠ 0
  fd : ¬ env.openFd < 0
  works : env.ReadsWork

/-- A callback that appends the blocks that it is given and returns 0. -/
def appender : Callback where
  ret _ := 0
  mem _ mem := mem

/-- The content is within the limit. -/
def WithinLimit (limit : UInt64) (content : List UInt8) : Prop :=
  limit = 0 ∨ content.length ≤ limit.toNat

/-- Both results are the content, or both that the file is too large. -/
structure Agree (limit : UInt64) (content : List UInt8) (start : State)
    (simple read : Except Fault FioEasyrwRes × State) : Prop where
  ok : WithinLimit limit content →
    simple.1 = .ok .resOk ∧ simple.2.output = content ∧
      read.1 = .ok .resOk ∧
        ∃ chunks, read.2.chunks = start.chunks ++ chunks ∧ chunks.flatten = content
  oversz : ¬ WithinLimit limit content →
    simple.1 = .ok .rrrnumOversz ∧ read.1 = .ok .rrrnumOversz

/-- However the file is split by `read()`, the two readers agree. -/
def ReadersAgree (limit : UInt64) (content : List UInt8) : Prop :=
  ∀ (env env' : Environment) (state state' : State), Unchanged content env →
    Unchanged content env' → state.erw.path ≠ none → state'.erw.path ≠ none →
    state.erw.limit = limit → state'.erw.limit = limit →
    Agree limit content state' (fioEasyrwReadSimple env state)
      (fioEasyrwRead env' (some appender) state')

variable {env : Environment} {state : State} {limit : UInt64} {content : List UInt8}

/-- The size check of `fio_easyrw_read_simple` is that of the limit. -/
theorem overLimit_iff {size : UInt64} (isSize : size.toNat = content.length) :
    (limit ≠ 0 ∧ limit < size) ↔ ¬ WithinLimit limit content := by
  unfold WithinLimit
  rw [UInt64.lt_iff_toNat_lt, isSize, not_or, not_le]

theorem Unchanged.opens (unchanged : Unchanged content env) (path : state.erw.path ≠ none)
    {tooLarge : UInt64 → Stat → Bool}
    (size : ∀ st, env.stat = some st → tooLarge state.erw.limit st = false) :
    ∃ st, st.size.toNat = content.length ∧ Opens env tooLarge state st := by
  obtain ⟨bits, isStat, isSize⟩ := unchanged.stat
  exact ⟨_, isSize, path, isStat, rfl, size _ isStat, unchanged.malloc, unchanged.fd⟩

/-! ## The streaming reader -/

theorem closeRead_fst (fd : Int) (result : Except Fault FioEasyrwRes × State) :
    (closeRead fd result).1 = result.1 := by
  obtain ⟨code, last⟩ := result
  cases code with
  | error fault => rfl
  | ok res => cases res <;> rfl

theorem chunks_log {event : Event} (other : ∀ chunk, event ≠ .call chunk) :
    (state.log event).chunks = state.chunks := by
  cases event with
  | call chunk => exact (other chunk rfl).elim
  | _ => simp [State.chunks, State.log]

theorem chunks_freeOut (state : State) : (fioEasyrwFreeOut state).chunks = state.chunks := by
  unfold fioEasyrwFreeOut
  split
  · exact chunks_log fun _ => Event.noConfusion
  · rfl

theorem chunks_opened (len : UInt32) : (state.opened env len).chunks = state.chunks := by
  refine (chunks_log fun _ => Event.noConfusion).trans ?_
  refine (chunks_log fun _ => Event.noConfusion).trans ?_
  exact chunks_freeOut state

theorem chunks_closeRead (fd : Int) (result : Except Fault FioEasyrwRes × State) :
    (closeRead fd result).2.chunks = result.2.chunks := by
  obtain ⟨code, last⟩ := result
  cases code with
  | error fault => rfl
  | ok res =>
      simp only [closeRead]
      split
      · exact (chunks_log fun _ => Event.noConfusion).trans (chunks_freeOut last)
      · exact (chunks_freeOut _).trans (chunks_log fun _ => Event.noConfusion)

/-- The streaming reader without errors. -/
theorem read_unchanged (unchanged : Unchanged content env) (path : state.erw.path ≠ none) :
    (WithinLimit state.erw.limit content →
      (fioEasyrwRead env (some appender) state).1 = .ok .resOk ∧
        ∃ chunks, (fioEasyrwRead env (some appender) state).2.chunks = state.chunks ++ chunks ∧
          chunks.flatten = content) ∧
    (¬ WithinLimit state.erw.limit content →
      (fioEasyrwRead env (some appender) state).1 = .ok .rrrnumOversz) := by
  obtain ⟨st, isSize, opens⟩ :=
    @Unchanged.opens _ _ _ unchanged path (fun _ _ => false) fun _ _ => rfl
  obtain ⟨result, ends, isResult⟩ := read_opens opens appender
  rw [isResult, closeRead_fst, chunks_closeRead]
  have small : env.content.length < 2 ^ 64 := by
    rw [unchanged.content, ← isSize]
    exact st.size.toNat_lt
  obtain ⟨chunks, given, _, within, outcome⟩ := ends.given small
  have sameLimit : (state.opened env 8192).erw.limit = state.erw.limit := freeOut_limit state
  rw [unchanged.content] at outcome
  rw [sameLimit] at outcome within
  rw [chunks_opened] at given
  generalize result.1 = code at outcome ⊢
  cases outcome with
  | @io call failed => exact (unchanged.works call failed).elim
  | ok all =>
      rw [all, List.length_nil, Nat.zero_add] at within
      refine ⟨fun _ => ⟨rfl, chunks, given, all⟩, fun exceeds => ?_⟩
      rw [WithinLimit, not_or] at exceeds
      exact (exceeds.2 (within exceeds.1)).elim
  | oversz limited exceeds =>
      refine ⟨fun fits => ?_, fun _ => rfl⟩
      rcases fits with noLimit | fits
      · exact (limited noLimit).elim
      · omega
  | misc stops => exact (stops rfl).elim

/-! ## The simple reader -/

theorem readSimple_oversz (unchanged : Unchanged content env) (path : state.erw.path ≠ none)
    (exceeds : ¬ WithinLimit state.erw.limit content) :
    (fioEasyrwReadSimple env state).1 = .ok .rrrnumOversz := by
  obtain ⟨size, isStat, isSize⟩ := unchanged.stat
  have tooLarge : overLimit state.erw.limit { regular := true, size } = true :=
    decide_eq_true ((overLimit_iff isSize).mpr exceeds)
  rw [fioEasyrwReadSimple_eq]
  simp [withFile, path, isStat, tooLarge]

/-- Without errors, the simple reader of a file within the limit dies if its 32-bit length is
0 or leaves no room for a page, and otherwise gives what it takes for the content. -/
theorem readSimple_unchanged (unchanged : Unchanged content env) (path : state.erw.path ≠ none)
    (within : WithinLimit state.erw.limit content) :
    ∃ size : UInt64, size.toNat = content.length ∧
      ((fioEasyrwReadSimple env state).1 = .ok .resOk ↔
        size.toUInt32 ≠ 0 ∧ size.toUInt32.toNat < 2 ^ 32 - 4096) ∧
      ((fioEasyrwReadSimple env state).1 = .ok .resOk →
        (fioEasyrwReadSimple env state).2.output = content.take size.toUInt32.toNat) := by
  obtain ⟨size, isStat, isSize⟩ := unchanged.stat
  have notTooLarge : overLimit state.erw.limit { regular := true, size } = false :=
    decide_eq_false ((overLimit_iff isSize).not.mpr (not_not.mpr within))
  have opens : Opens env overLimit state { regular := true, size } :=
    ⟨path, isStat, rfl, notTooLarge, unchanged.malloc, unchanged.fd⟩
  have truncated : size.toUInt32.toNat ≤ content.length := by
    rw [← isSize, UInt64.toNat_toUInt32]
    exact Nat.mod_le _ _
  refine ⟨size, isSize, ?_⟩
  by_cases none : size.toUInt32 = 0
  · obtain ⟨last, died, _⟩ := (readSimple_opens opens).1 none
    rw [died]
    simp [none]
  · obtain ⟨⟨code, last⟩, ends, isResult⟩ := (readSimple_opens opens).2 none
    have outcome := ends.outcome
    rw [unchanged.content] at outcome
    rw [isResult, ← le_block_iff]
    dsimp only at outcome none ⊢
    cases outcome with
    | io early =>
        have short := (early unchanged.works).1
        omega
    | ok _ fits _ output => exact ⟨⟨fun _ => ⟨none, fits⟩, fun _ => rfl⟩, fun _ => output⟩
    | overflow past =>
        refine ⟨⟨fun isOk => (nomatch isOk), fun fits => ?_⟩, fun isOk => nomatch isOk⟩
        omega

theorem take_eq_self_iff {length : Nat} :
    content.take length = content ↔ content.length ≤ length := by
  constructor
  · intro same
    rw [← same]
    exact List.length_take_le length content
  · exact List.take_of_length_le

/-- The size in 32 bits is that of the file, and leaves room for a page. -/
theorem size_holds_iff {size : UInt64} (isSize : size.toNat = content.length) :
    (size.toUInt32 ≠ 0 ∧ size.toUInt32.toNat < 2 ^ 32 - 4096) ∧
        content.take size.toUInt32.toNat = content ↔
      0 < content.length ∧ content.length < 2 ^ 32 - 4096 := by
  have bits : size.toUInt32.toNat = content.length % 2 ^ 32 := by
    rw [UInt64.toNat_toUInt32, isSize]
  have isZero : size.toUInt32 = 0 ↔ size.toUInt32.toNat = 0 := (@UInt32.toNat_inj _ 0).symm
  rw [ne_eq, isZero, take_eq_self_iff, bits]
  omega

/-! ## Agreement -/

theorem readersAgree_of_small
    (condition : ¬ WithinLimit limit content ∨
      (0 < content.length ∧ content.length < 2 ^ 32 - 4096)) : ReadersAgree limit content := by
  intro env env' state state' unchanged unchanged' path path' isLimit isLimit'
  have read := read_unchanged unchanged' path'
  rw [isLimit'] at read
  constructor
  case ok =>
    intro within
    have small := condition.resolve_left (not_not.mpr within)
    rw [← isLimit] at within
    obtain ⟨size, isSize, isOk, output⟩ := readSimple_unchanged unchanged path within
    obtain ⟨holds, whole⟩ := (size_holds_iff isSize).mpr small
    have ok := isOk.mpr holds
    rw [isLimit] at within
    exact ⟨ok, (output ok).trans whole, read.1 within⟩
  case oversz =>
    intro exceeds
    rw [← isLimit] at exceeds
    have refused := readSimple_oversz unchanged path exceeds
    rw [isLimit] at exceeds
    exact ⟨refused, read.2 exceeds⟩

theorem unchanged_bytewise (fits : content.length < 2 ^ 64) :
    Unchanged content (bytewise (UInt64.ofNat content.length) content) where
  stat := ⟨_, rfl, UInt64.toNat_ofNat_of_lt' fits⟩
  content := rfl
  malloc := by simp [bytewise]
  fd := by simp [bytewise]
  works _ := ReadCall.noConfusion

theorem ReadersAgree.small (agree : ReadersAgree limit content) (fits : content.length < 2 ^ 64)
    (within : WithinLimit limit content) :
    0 < content.length ∧ content.length < 2 ^ 32 - 4096 := by
  have unchanged := unchanged_bytewise fits
  have path : (fresh limit).erw.path ≠ none := by simp [fresh, fioEasyrwInit]
  obtain ⟨ok, output, _⟩ := (agree _ _ (fresh limit) (fresh limit) unchanged unchanged path path
    rfl rfl).ok within
  obtain ⟨size, isSize, isOk, isTaken⟩ :=
    @readSimple_unchanged _ (fresh limit) _ unchanged path within
  exact (size_holds_iff isSize).mp ⟨isOk.mp ok, (isTaken ok).symm.trans output⟩

/-- The two readers agree if and only if the file is over the limit, or it is not empty and
shorter than 2^32 - 4096. -/
theorem readers_agree_iff (limit : UInt64) {content : List UInt8} (fits : content.length < 2 ^ 64) :
    ReadersAgree limit content ↔
      (limit ≠ 0 ∧ limit.toNat < content.length) ∨
        (0 < content.length ∧ content.length < 2 ^ 32 - 4096) := by
  have exceeds : limit ≠ 0 ∧ limit.toNat < content.length ↔ ¬ WithinLimit limit content := by
    rw [WithinLimit, not_or, not_le]
  rw [exceeds]
  constructor
  · intro agree
    by_cases within : WithinLimit limit content
    · exact Or.inr (agree.small fits within)
    · exact Or.inl within
  · exact readersAgree_of_small

/-- A file of more than one block: both readers give it, and both refuse it with a limit of one
byte less.  On an empty file they do not agree. -/
theorem readers_agree_iff_blocks :
    ReadersAgree 0 (List.replicate 20000 7) ∧ ReadersAgree 19999 (List.replicate 20000 7) ∧
      ¬ ReadersAgree 19999 [] := by
  have length : (List.replicate 20000 (7 : UInt8)).length = 20000 := List.length_replicate
  have fits : (List.replicate 20000 (7 : UInt8)).length < 2 ^ 64 := by
    rw [length]
    decide
  refine ⟨(readers_agree_iff 0 fits).mpr (Or.inr ?_),
    (readers_agree_iff 19999 fits).mpr (Or.inl ?_),
    (readers_agree_iff 19999 (by decide)).not.mpr (by decide)⟩
  · rw [length]
    decide
  · rw [length]
    decide

/-- On an empty file the simple reader dies. -/
theorem readers_disagree :
    ¬ ∀ limit content, content.length < 2 ^ 64 → ReadersAgree limit content := by
  intro agree
  have fits : ([] : List UInt8).length < 2 ^ 64 := by decide
  have small := (agree 0 [] fits).small fits (Or.inl rfl)
  exact absurd small.1 (by decide)

end LinuxCTemplate.Fio
