import LinuxCTemplate.Fio.Core

/-!
# Before and after the loop

Both reading functions free the old buffer, look at the file, allocate a buffer and open
the file.  What fails before the file is open leaves no buffer behind.
-/

namespace LinuxCTemplate.Fio

open Foundation

/-! ## The buffer -/

section Buffer

variable {state : State} {buf size : Nat} {len : UInt32}

@[simp] theorem freeOut_out (state : State) : (fioEasyrwFreeOut state).erw.out = 0 := by
  unfold fioEasyrwFreeOut
  split
  next => rfl
  next isNull => exact not_not.mp isNull

@[simp] theorem freeOut_path (state : State) :
    (fioEasyrwFreeOut state).erw.path = state.erw.path := by
  unfold fioEasyrwFreeOut
  split <;> rfl

@[simp] theorem freeOut_limit (state : State) :
    (fioEasyrwFreeOut state).erw.limit = state.erw.limit := by
  unfold fioEasyrwFreeOut
  split <;> rfl

/-- `out` points to a block of the size. -/
def State.HasBlock (state : State) (size : Nat) : Prop :=
  state.heap.find? (fun block => block.addr = state.erw.out) = some ⟨state.erw.out, size⟩

theorem State.HasBlock.room (hasBlock : state.HasBlock size) (p : Nat) :
    state.room p = state.erw.out + size - p := by
  unfold State.room
  rw [hasBlock]

/-- The state with a new buffer. -/
def State.allocated (state : State) (env : Environment) (len : UInt32) : State :=
  let block : Block := { addr := env.malloc, size := (len + myPageSz).toNat }
  State.log
    { state with
      erw := { state.erw with out := env.malloc, outLen := 0, outMax := len }
      heap := block :: state.heap } (.malloc block)

theorem State.hasBlock_allocated (state : State) (env : Environment) (len : UInt32) :
    (state.allocated env len).HasBlock (len + myPageSz).toNat := by
  simp [HasBlock, allocated, log]

/-- Every `read()` has been for no more bytes than there was room for. -/
def State.ReadsFit (state : State) : Prop :=
  ∀ fd p length room, .read fd p length room ∈ state.trace → length ≤ room

theorem State.ReadsFit.log (fit : state.ReadsFit) {event : Event}
    (fits : ∀ fd p length room, event = .read fd p length room → length ≤ room) :
    (state.log event).ReadsFit := by
  intro fd p length room member
  rcases List.mem_append.mp member with before | last
  · exact fit fd p length room before
  · exact fits fd p length room (List.mem_singleton.mp last).symm

/-- Other calls do not matter. -/
theorem State.readsFit_log_iff {event : Event}
    (other : ∀ fd p length room, event ≠ .read fd p length room) :
    (state.log event).ReadsFit ↔ state.ReadsFit := by
  constructor
  · intro fit fd p length room member
    exact fit fd p length room (List.mem_append_left _ member)
  · intro fit
    exact fit.log fun fd p length room isRead => (other fd p length room isRead).elim

theorem State.readsFit_freeOut_iff : (fioEasyrwFreeOut state).ReadsFit ↔ state.ReadsFit := by
  unfold fioEasyrwFreeOut
  split
  · exact State.readsFit_log_iff fun _ _ _ _ => Event.noConfusion
  · exact Iff.rfl

theorem State.readsFit_allocated_iff {env : Environment} :
    (state.allocated env len).ReadsFit ↔ state.ReadsFit :=
  State.readsFit_log_iff fun _ _ _ _ => Event.noConfusion

end Buffer

/-! ## What the two functions have in common -/

/-- The course of both functions: `tooLarge` is the size check, `len` the length to allocate,
and `use` what is done with the open file. -/
def withFile (env : Environment) (tooLarge : UInt64 → Stat → Bool) (len : Stat → UInt32)
    (use : Stat → State → Except Fault FioEasyrwRes × State) (state : State) :
    Except Fault FioEasyrwRes × State :=
  let state := fioEasyrwFreeOut state
  if state.erw.path = none then
    (.ok .resInval, state)
  else
    match env.stat with
    | none => (.ok .resOpen, state)
    | some st =>
        if ¬ st.regular then
          (.ok .resOpen, state)
        else if tooLarge state.erw.limit st then
          (.ok .rrrnumOversz, state)
        else if env.malloc = 0 then
          (.ok .resNomem, state)
        else if env.openFd < 0 then
          (.ok .resOpen, fioEasyrwFreeOut (state.allocated env (len st)))
        else
          use st ((state.allocated env (len st)).log (.opened env.openFd))

/-- The size check of `fio_easyrw_read_simple`. -/
def overLimit (limit : UInt64) (st : Stat) : Bool := limit ≠ 0 ∧ limit < st.size

/-- The end of `fio_easyrw_read_simple`. -/
def closeSimple (fd : Int) :
    Except Fault FioEasyrwRes × State → Except Fault FioEasyrwRes × State
  | (.error fault, state) => (.error fault, state)
  | (.ok res, state) =>
      if res ≠ .resOk then (.ok res, (fioEasyrwFreeOut state).log (.closed fd))
      else (.ok .resOk, state.log (.closed fd))

/-- The end of `fio_easyrw_read`. -/
def closeRead (fd : Int) :
    Except Fault FioEasyrwRes × State → Except Fault FioEasyrwRes × State
  | (.error fault, state) => (.error fault, state)
  | (.ok res, state) =>
      if res ≠ .resOk then (.ok res, (fioEasyrwFreeOut state).log (.closed fd))
      else (.ok .resOk, fioEasyrwFreeOut (state.log (.closed fd)))

theorem readsFit_closeSimple_iff (fd : Int) (result : Except Fault FioEasyrwRes × State) :
    (closeSimple fd result).2.ReadsFit ↔ result.2.ReadsFit := by
  obtain ⟨code, last⟩ := result
  cases code with
  | error fault => exact Iff.rfl
  | ok res =>
      simp only [closeSimple]
      by_cases failed : res ≠ .resOk
      · rw [if_pos failed]
        exact (State.readsFit_log_iff fun _ _ _ _ => Event.noConfusion).trans
          State.readsFit_freeOut_iff
      · rw [if_neg failed]
        exact State.readsFit_log_iff fun _ _ _ _ => Event.noConfusion

theorem readsFit_closeRead_iff (fd : Int) (result : Except Fault FioEasyrwRes × State) :
    (closeRead fd result).2.ReadsFit ↔ result.2.ReadsFit := by
  obtain ⟨code, last⟩ := result
  cases code with
  | error fault => exact Iff.rfl
  | ok res =>
      simp only [closeRead]
      by_cases failed : res ≠ .resOk
      · rw [if_pos failed]
        exact (State.readsFit_log_iff fun _ _ _ _ => Event.noConfusion).trans
          State.readsFit_freeOut_iff
      · rw [if_neg failed]
        exact State.readsFit_freeOut_iff.trans
          (State.readsFit_log_iff fun _ _ _ _ => Event.noConfusion)

variable {env : Environment} {state : State} {st : Stat}

theorem allocOut_of_null (isNull : state.erw.out = 0) (env : Environment) (len : UInt32) :
    fioEasyrwAllocOut env.malloc len state =
      if env.malloc = 0 then (.ok (-1), state) else (.ok 0, state.allocated env len) := by
  unfold fioEasyrwAllocOut
  rw [if_neg (not_not.mpr isNull)]
  rfl

theorem fioEasyrwReadSimple_eq (env : Environment) (state : State) :
    fioEasyrwReadSimple env state = withFile env overLimit (fun st => st.size.toUInt32)
      (fun st state => closeSimple env.openFd
        (__fioEasyrwReadSimple env env.openFd st.size.toUInt32 state)) state := by
  unfold fioEasyrwReadSimple withFile
  simp only [allocOut_of_null (freeOut_out state), overLimit, decide_eq_true_eq]
  by_cases noMemory : env.malloc = 0
  · simp only [noMemory, if_true, ne_eq]
    rfl
  · simp only [noMemory, if_false, ne_eq, not_true_eq_false]
    rfl

theorem fioEasyrwRead_eq (env : Environment) (func : Option Callback) (state : State) :
    fioEasyrwRead env func state = withFile env (fun _ _ => false) (fun _ => 8192)
      (fun _ state => closeRead env.openFd (__fioEasyrwRead env func env.openFd state)) state := by
  unfold fioEasyrwRead withFile
  simp only [allocOut_of_null (freeOut_out state), Bool.false_eq_true, if_false]
  by_cases noMemory : env.malloc = 0
  · simp only [noMemory, if_true, ne_eq]
    rfl
  · simp only [noMemory, if_false, ne_eq, not_true_eq_false]
    rfl

/-! ## The file is opened, or not -/

/-- Nothing fails before the file is open. -/
structure Opens (env : Environment) (tooLarge : UInt64 → Stat → Bool) (state : State)
    (st : Stat) : Prop where
  path : state.erw.path ≠ none
  stat : env.stat = some st
  regular : st.regular = true
  size : tooLarge state.erw.limit st = false
  malloc : env.malloc ≠ 0
  fd : ¬ env.openFd < 0

/-- An error code, and no buffer. -/
structure Fails (start : State) (result : Except Fault FioEasyrwRes × State) : Prop where
  error : ∃ res, result.1 = .ok res ∧ res ≠ .resOk
  out : result.2.erw.out = 0
  fit : start.ReadsFit → result.2.ReadsFit

theorem Fails.freed (start : State) {res : FioEasyrwRes} (notOk : res ≠ .resOk) :
    Fails start (.ok res, fioEasyrwFreeOut start) where
  error := ⟨res, rfl, notOk⟩
  out := freeOut_out start
  fit := State.readsFit_freeOut_iff.mpr

variable {tooLarge : UInt64 → Stat → Bool} {len : Stat → UInt32}
  {use : Stat → State → Except Fault FioEasyrwRes × State}

/-- The state in which the file has been opened. -/
def State.opened (state : State) (env : Environment) (len : UInt32) : State :=
  ((fioEasyrwFreeOut state).allocated env len).log (.opened env.openFd)

theorem State.readsFit_opened_iff {len : UInt32} :
    (state.opened env len).ReadsFit ↔ state.ReadsFit := by
  unfold State.opened
  rw [State.readsFit_log_iff fun _ _ _ _ => Event.noConfusion, State.readsFit_allocated_iff,
    State.readsFit_freeOut_iff]

theorem withFile_opens (opens : Opens env tooLarge state st) :
    withFile env tooLarge len use state = use st (state.opened env (len st)) := by
  simp [withFile, opens.path, opens.stat, opens.regular, opens.size, opens.malloc, opens.fd,
    State.opened]

/-- The results when the file is not opened: nothing is done but for the old buffer, or the
new one is freed again. -/
inductive Refused (env : Environment) (tooLarge : UInt64 → Stat → Bool) (len : Stat → UInt32)
    (state : State) : Except Fault FioEasyrwRes × State → Prop where
  | early {res : FioEasyrwRes} : res ≠ .resOk →
      (res = .rrrnumOversz → ∃ st, tooLarge state.erw.limit st = true) →
      Refused env tooLarge len state (.ok res, fioEasyrwFreeOut state)
  | late (st : Stat) : env.malloc ≠ 0 →
      Refused env tooLarge len state
        (.ok .resOpen, fioEasyrwFreeOut ((fioEasyrwFreeOut state).allocated env (len st)))

theorem withFile_refused (never : ∀ st, ¬ Opens env tooLarge state st) :
    Refused env tooLarge len state (withFile env tooLarge len use state) := by
  unfold withFile
  simp only [freeOut_path, freeOut_limit]
  by_cases path : state.erw.path = none
  · rw [if_pos path]
    exact .early (by decide) fun isOversz => nomatch isOversz
  · rw [if_neg path]
    cases stat : env.stat with
    | none => exact .early (by decide) fun isOversz => nomatch isOversz
    | some st =>
        by_cases regular : st.regular = true
        · by_cases size : tooLarge state.erw.limit st = true
          · simp only [regular, not_true_eq_false, if_false, size, if_true]
            exact .early (by decide) fun _ => ⟨st, size⟩
          · by_cases malloc : env.malloc = 0
            · simp only [regular, not_true_eq_false, if_false, size, malloc, if_true]
              exact .early (by decide) fun isOversz => nomatch isOversz
            · by_cases fd : env.openFd < 0
              · simp only [regular, not_true_eq_false, if_false, size, malloc, fd, if_true]
                exact .late st malloc
              · exact (never st ⟨path, stat, regular, Bool.not_eq_true _ ▸ size, malloc, fd⟩).elim
        · simp only [regular]
          exact .early (by decide) fun isOversz => nomatch isOversz

/-- What keeps the file from being opened leaves an error code and no buffer. -/
theorem withFile_fails (never : ∀ st, ¬ Opens env tooLarge state st) :
    Fails state (withFile env tooLarge len use state) := by
  have refused : Refused env tooLarge len state (withFile env tooLarge len use state) :=
    withFile_refused never
  generalize withFile env tooLarge len use state = result at refused ⊢
  cases refused with
  | early notOk => exact .freed state notOk
  | late st =>
      constructor
      case error => exact ⟨_, rfl, by decide⟩
      case out => exact freeOut_out _
      case fit =>
        intro fit
        have freed := State.readsFit_freeOut_iff.mpr fit
        exact State.readsFit_freeOut_iff.mpr (State.readsFit_allocated_iff.mpr freed)

end LinuxCTemplate.Fio
