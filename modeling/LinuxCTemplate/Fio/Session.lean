import LinuxCTemplate.Fio.Agreement
import LinuxCTemplate.Foundation.Pairing
import LinuxCTemplate.Foundation.Transition

/-!
# An object from `fio_easyrw_init` to `fio_easyrw_exit`

Between the two, the reading functions are called in any order.  A call that returns has
closed the file that it has opened, and the buffer is kept only by a `fio_easyrw_read_simple`
that has been successful, until the next call.
-/

namespace LinuxCTemplate.Fio

open Foundation

/-! ## The machine -/

/-- A call of a reading function. -/
inductive ReadingCall where
  | readSimple (env : Environment)
  | read (env : Environment) (func : Option Callback)

namespace ReadingCall

def env : ReadingCall → Environment
  | readSimple env => env
  | read env _ => env

def run : ReadingCall → State → Except Fault FioEasyrwRes × State
  | readSimple env => fioEasyrwReadSimple env
  | read env func => fioEasyrwRead env func

end ReadingCall

/-- The calls that return, from `fio_easyrw_init` on. -/
def session : Machine State (ReadingCall × FioEasyrwRes) where
  Start state := ∃ path limit mem,
    state = { erw := fioEasyrwInit path limit, mem, heap := [], trace := [] }
  Step state action next := action.1.run state = (.ok action.2, next)

/-! ## The events of a kind -/

def Event.onHeap : Event → Bool
  | .malloc _ => true
  | .free _ => true
  | _ => false

def Event.onDescriptor : Event → Bool
  | .opened _ => true
  | .closed _ => true
  | _ => false

/-- The second event gives back what the first one has got. -/
inductive Event.Closes : Event → Event → Prop where
  | block (block : Block) : Closes (.malloc block) (.free block.addr)
  | descriptor (fd : Int) : Closes (.opened fd) (.closed fd)

/-- The events of a kind that there have been. -/
def State.events (state : State) (kind : Event → Bool) : List Event := state.trace.filter kind

variable {env : Environment} {state start last : State} {kind : Event → Bool} {event : Event}
  {fd : Int} {len : UInt32} {block : Block} {st : Stat}

theorem State.events_log (state : State) (event : Event) (kind : Event → Bool) :
    (state.log event).events kind = state.events kind ++ [event].filter kind :=
  List.filter_append _ _

theorem State.events_log_of_kind (isKind : kind event = true) :
    (state.log event).events kind = state.events kind ++ [event] := by
  rw [State.events_log, List.filter_cons_of_pos isKind, List.filter_nil]

theorem State.events_log_of_other (isOther : kind event = false) :
    (state.log event).events kind = state.events kind := by
  rw [State.events_log, List.filter_cons_of_neg (Bool.not_eq_true _ ▸ isOther), List.filter_nil,
    List.append_nil]

/-! ## The buffer and the descriptor -/

/-- There is no buffer, and every block has been freed. -/
structure Empty (state : State) : Prop where
  out : state.erw.out = 0
  outLen : state.erw.outLen = 0
  outMax : state.erw.outMax = 0
  heap : state.heap = []
  paired : Paired Event.Closes (state.events Event.onHeap)

/-- The buffer is the only block that has not been freed. -/
structure Held (state : State) (block : Block) : Prop where
  out : state.erw.out = block.addr
  notNull : block.addr ≠ 0
  heap : state.heap = [block]
  pending : Pending Event.Closes (.malloc block) (state.events Event.onHeap)

/-- Every descriptor has been closed. -/
def AllClosed (state : State) : Prop := Paired Event.Closes (state.events Event.onDescriptor)

/-- Every other descriptor has been closed. -/
def OneOpen (fd : Int) (state : State) : Prop :=
  Pending Event.Closes (.opened fd) (state.events Event.onDescriptor)

/-- There is a buffer, or not. -/
def Owned (state : State) : Prop := Empty state ∨ ∃ block, Held state block

theorem Owned.empty_freeOut (owned : Owned state) : Empty (fioEasyrwFreeOut state) := by
  unfold fioEasyrwFreeOut
  rcases owned with empty | ⟨block, held⟩
  · rw [if_neg (not_not.mpr empty.out)]
    exact empty
  · rw [if_pos (held.out ▸ held.notNull)]
    constructor
    case out => rfl
    case outLen => rfl
    case outMax => rfl
    case heap =>
      simp [State.log, held.heap, held.out]
    case paired =>
      rw [State.events_log_of_kind rfl, held.out]
      exact held.pending.closed (.block block)

theorem events_freeOut (isOther : ∀ addr, kind (.free addr) = false) :
    (fioEasyrwFreeOut state).events kind = state.events kind := by
  unfold fioEasyrwFreeOut
  split
  · exact State.events_log_of_other (isOther _)
  · rfl

theorem Empty.held_allocated (empty : Empty state) (notNull : env.malloc ≠ 0) :
    Held (state.allocated env len) ⟨env.malloc, (len + myPageSz).toNat⟩ where
  out := rfl
  notNull := notNull
  heap := by
    rw [← empty.heap]
    rfl
  pending := by
    unfold State.allocated
    rw [State.events_log_of_kind rfl]
    exact empty.paired.opened _

theorem Held.log (held : Held state block) (isOther : event.onHeap = false) :
    Held (state.log event) block where
  out := held.out
  notNull := held.notNull
  heap := held.heap
  pending := by
    rw [State.events_log_of_other isOther]
    exact held.pending

theorem Empty.log (empty : Empty state) (isOther : event.onHeap = false) :
    Empty (state.log event) where
  out := empty.out
  outLen := empty.outLen
  outMax := empty.outMax
  heap := empty.heap
  paired := by
    rw [State.events_log_of_other isOther]
    exact empty.paired

theorem allClosed_freeOut_iff : AllClosed (fioEasyrwFreeOut state) ↔ AllClosed state := by
  rw [AllClosed, AllClosed, events_freeOut fun _ => rfl]

theorem OneOpen.freeOut (opened : OneOpen fd state) : OneOpen fd (fioEasyrwFreeOut state) := by
  rw [OneOpen, events_freeOut fun _ => rfl]
  exact opened

theorem OneOpen.close (opened : OneOpen fd state) : AllClosed (state.log (.closed fd)) := by
  rw [AllClosed, State.events_log_of_kind rfl]
  exact Pending.closed opened (.descriptor fd)

theorem opened_owned (owned : Owned state) (closed : AllClosed state) (notNull : env.malloc ≠ 0) :
    (∃ block, Held (state.opened env len) block) ∧ OneOpen env.openFd (state.opened env len) := by
  constructor
  · exact ⟨_, (owned.empty_freeOut.held_allocated notNull).log rfl⟩
  · rw [OneOpen, State.opened, State.events_log_of_kind rfl]
    apply Paired.opened
    rw [State.allocated, State.events_log_of_other rfl]
    exact allClosed_freeOut_iff.mpr closed

/-! ## While a file is read -/

/-- Nothing is allocated, freed, opened or closed, and the buffer stays. -/
structure Uses (start last : State) : Prop where
  out : last.erw.out = start.erw.out
  outMax : last.erw.outMax = start.erw.outMax
  heap : last.heap = start.heap
  trace : ∃ more, last.trace = start.trace ++ more ∧
    ∀ event ∈ more, event.onHeap = false ∧ event.onDescriptor = false

theorem Uses.refl (state : State) : Uses state state :=
  ⟨rfl, rfl, rfl, [], (List.append_nil _).symm, by simp⟩

theorem Uses.trans {middle : State} (uses : Uses start middle) (later : Uses middle last) :
    Uses start last where
  out := later.out.trans uses.out
  outMax := later.outMax.trans uses.outMax
  heap := later.heap.trans uses.heap
  trace := by
    obtain ⟨more, isMore, quiet⟩ := uses.trace
    obtain ⟨more', isMore', quiet'⟩ := later.trace
    refine ⟨more ++ more', ?_, ?_⟩
    · rw [isMore', isMore, List.append_assoc]
    · intro event member
      rcases List.mem_append.mp member with before | after
      · exact quiet event before
      · exact quiet' event after

theorem Uses.isPrefix (uses : Uses start last) : start.trace <+: last.trace := by
  obtain ⟨more, isMore, _⟩ := uses.trace
  exact ⟨more, isMore.symm⟩

theorem Uses.events (uses : Uses start last)
    (isOther : ∀ event : Event, event.onHeap = false ∧ event.onDescriptor = false →
      kind event = false) : last.events kind = start.events kind := by
  obtain ⟨more, isMore, quiet⟩ := uses.trace
  have none : more.filter kind = [] := by
    rw [List.filter_eq_nil_iff]
    intro event member isKind
    rw [isOther event (quiet event member)] at isKind
    cases isKind
  rw [State.events, isMore, List.filter_append, none, List.append_nil]
  rfl

theorem Uses.held (uses : Uses start last) (held : Held start block) : Held last block where
  out := uses.out.trans held.out
  notNull := held.notNull
  heap := uses.heap.trans held.heap
  pending := by
    rw [uses.events fun _ quiet => quiet.1]
    exact held.pending

theorem Uses.oneOpen (uses : Uses start last) (opened : OneOpen fd start) : OneOpen fd last := by
  rw [OneOpen, uses.events fun _ quiet => quiet.2]
  exact opened

/-- The one-read loop. -/
theorem SimpleEnds.uses {size : Nat} {expectLen : UInt32} {content : List UInt8}
    {result : Except Fault FioEasyrwRes × State}
    (ends : SimpleEnds env fd size expectLen content start result) : Uses start result.2 := by
  obtain ⟨outLen, erw⟩ := ends.erw
  obtain ⟨more, isMore, _, all⟩ := ends.trace
  refine ⟨by rw [erw], by rw [erw], ends.heap, more, isMore, ?_⟩
  intro event member
  obtain ⟨already, _, _, rfl⟩ := all event member
  exact ⟨rfl, rfl⟩

theorem uses_afterRead (state : State) (fd : Int) : Uses state (state.afterRead fd) :=
  ⟨rfl, rfl, rfl, _, rfl, by simp [Event.onHeap, Event.onDescriptor]⟩

theorem uses_afterBlock (state : State) (fd : Int) (func : Callback) (call : Nat)
    (chunk : List UInt8) : Uses state (state.afterBlock fd func call chunk) := by
  refine (uses_afterRead state fd).trans ⟨rfl, rfl, rfl, _, rfl, ?_⟩
  simp [Event.onHeap, Event.onDescriptor]

/-- The block-wise loop. -/
theorem readLoop_uses (env : Environment) (func : Callback) (fd : Int) (accl : UInt64) (call : Nat)
    (rest : List UInt8) (state : State) :
    Uses state (readLoop env func fd accl call rest state).2 := by
  fun_induction readLoop with
  | case1 accl call rest state => exact uses_afterRead state fd
  | case2 accl call rest state => exact uses_afterRead state fd
  | case3 accl call rest state => exact uses_afterRead state fd
  | case4 accl call rest state =>
      obtain ⟨out, outMax, heap, trace⟩ := uses_afterRead state fd
      exact ⟨out, outMax, heap, trace⟩
  | case5 accl call rest state erw logged byte bytes =>
      exact uses_afterBlock state fd func call (byte :: bytes)
  | case6 accl call rest state erw logged byte bytes isRead chunk fits stored total within given
      called after goes_on ih =>
      exact (uses_afterBlock state fd func call (byte :: bytes)).trans ih

/-! ## One call -/

/-- How a call ends: with the buffer if it is a successful `fio_easyrw_read_simple`, without
one, or by a fault that comes after the file has been opened. -/
inductive CallEnds (call : ReadingCall) (start : State) :
    Except Fault FioEasyrwRes × State → Prop where
  | kept {env : Environment} {block : Block} {last : State} : call = .readSimple env →
      AllClosed last → Held last block → last.erw.outLen ≤ last.erw.outMax →
      CallEnds call start (.ok .resOk, last)
  | released {res : FioEasyrwRes} {last : State} :
      (∀ env, call = .readSimple env → res ≠ .resOk) → AllClosed last → Empty last →
      CallEnds call start (.ok res, last)
  | died {fault : Fault} {len : UInt32} {last : State} :
      (start.opened call.env len).trace <+: last.trace → CallEnds call start (.error fault, last)

variable {call : ReadingCall}

theorem Refused.ends {tooLarge : UInt64 → Stat → Bool} {len : Stat → UInt32}
    {result : Except Fault FioEasyrwRes × State} (refused : Refused env tooLarge len state result)
    (owned : Owned state) (closed : AllClosed state) : CallEnds call state result := by
  have freed := allClosed_freeOut_iff.mpr closed
  cases refused with
  | early notOk => exact .released (fun _ _ => notOk) freed owned.empty_freeOut
  | late st notNull =>
      refine .released (fun _ _ => by decide) ?_ ?_
      · rw [allClosed_freeOut_iff, AllClosed, State.allocated, State.events_log_of_other rfl]
        exact freed
      · apply Owned.empty_freeOut
        exact .inr ⟨_, owned.empty_freeOut.held_allocated notNull⟩

/-- The end of both functions after an error. -/
theorem closed_of_freed (held : Held last block) (opened : OneOpen fd last) :
    AllClosed ((fioEasyrwFreeOut last).log (.closed fd)) ∧
      Empty ((fioEasyrwFreeOut last).log (.closed fd)) :=
  ⟨opened.freeOut.close, (Owned.empty_freeOut (.inr ⟨block, held⟩)).log rfl⟩

theorem readSimple_ends (env : Environment) (owned : Owned state) (closed : AllClosed state) :
    CallEnds (.readSimple env) state (fioEasyrwReadSimple env state) := by
  by_cases opened : ∃ st, Opens env overLimit state st
  · obtain ⟨st, opens⟩ := opened
    by_cases nothing : st.size.toUInt32 = 0
    · rw [readSimple_opens_nothing opens nothing]
      exact .died List.prefix_rfl
    · obtain ⟨⟨code, last⟩, ends, isResult⟩ := (readSimple_opens opens).2 nothing
      rw [isResult]
      have uses : Uses (state.opened env st.size.toUInt32) last := ends.uses
      obtain ⟨⟨block, held⟩, oneOpen⟩ :=
        @opened_owned env state st.size.toUInt32 owned closed opens.malloc
      have held := uses.held held
      have oneOpen := uses.oneOpen oneOpen
      have outcome := ends.outcome
      cases outcome with
      | io =>
          obtain ⟨closed, empty⟩ := closed_of_freed held oneOpen
          exact .released (fun _ _ => by decide) closed empty
      | ok _ _ outLen =>
          refine .kept rfl oneOpen.close (held.log rfl) ?_
          have whole : last.erw.outMax = last.erw.outLen := uses.outMax.trans outLen.symm
          exact UInt32.le_of_eq whole.symm
      | overflow => exact .died uses.isPrefix
  · rw [fioEasyrwReadSimple_eq]
    exact (withFile_refused fun st opens => opened ⟨st, opens⟩).ends owned closed

theorem read_ends (env : Environment) (func : Option Callback) (owned : Owned state)
    (closed : AllClosed state) :
    CallEnds (.read env func) state (fioEasyrwRead env func state) := by
  by_cases opened : ∃ st, Opens env (fun _ _ => false) state st
  · obtain ⟨st, opens⟩ := opened
    obtain ⟨⟨block, held⟩, oneOpen⟩ := @opened_owned env state 8192 owned closed opens.malloc
    cases func with
    | none =>
        rw [read_opens_null opens]
        exact .died List.prefix_rfl
    | some func =>
        rw [read_opens_loop opens]
        have uses := readLoop_uses env func env.openFd 0 0 env.content (state.opened env 8192)
        generalize readLoop env func env.openFd 0 0 env.content (state.opened env 8192) = result
          at uses ⊢
        obtain ⟨code, last⟩ := result
        have held := uses.held held
        have oneOpen := uses.oneOpen oneOpen
        cases code with
        | error fault => exact .died uses.isPrefix
        | ok res =>
            rw [closeRead]
            split
            · obtain ⟨closed, empty⟩ := closed_of_freed held oneOpen
              exact .released (fun _ isSimple => by cases isSimple) closed empty
            · refine .released (fun _ isSimple => by cases isSimple) ?_ ?_
              · exact allClosed_freeOut_iff.mpr oneOpen.close
              · exact Owned.empty_freeOut (.inr ⟨block, held.log rfl⟩)
  · rw [fioEasyrwRead_eq]
    exact (withFile_refused fun st opens => opened ⟨st, opens⟩).ends owned closed

theorem run_ends (call : ReadingCall) (owned : Owned state) (closed : AllClosed state) :
    CallEnds call state (call.run state) := by
  cases call with
  | readSimple env => exact readSimple_ends env owned closed
  | read env func => exact read_ends env func owned closed

/-! ## The whole session -/

/-- The last reading call was a `fio_easyrw_read_simple` that returned OK. -/
def LastIsSimpleOk (history : List (State × (ReadingCall × FioEasyrwRes))) : Prop :=
  ∃ env, history.getLast?.map Prod.snd = some (.readSimple env, .resOk)

/-- What holds whenever a call before `fio_easyrw_exit` returns. -/
structure OwnsResources (history : List (State × (ReadingCall × FioEasyrwRes))) (state : State) :
    Prop where
  descriptors : Paired Event.Closes (state.events Event.onDescriptor)
  out : state.erw.out ≠ 0 ↔ LastIsSimpleOk history
  empty : state.erw.out = 0 → state.erw.outLen = 0 ∧ state.erw.outMax = 0
  within : state.erw.outLen ≤ state.erw.outMax
  alloc : ∀ buf len, (fioEasyrwAllocOut buf len (fioEasyrwFreeOut state)).1 ≠ .error .assert
  dies : ∀ (call : ReadingCall) fault last, call.run state = (.error fault, last) →
    ∃ len, (state.opened call.env len).trace <+: last.trace

/-- What holds when `fio_easyrw_exit` returns. -/
structure Exited (state : State) : Prop where
  descriptors : Paired Event.Closes (state.events Event.onDescriptor)
  out : state.erw.out = 0
  empty : state.erw.outLen = 0 ∧ state.erw.outMax = 0
  blocks : Paired Event.Closes (state.events Event.onHeap)
  heap : state.heap = []

/-- The invariant of a session. -/
inductive SessionInv (history : List (State × (ReadingCall × FioEasyrwRes))) (state : State) :
    Prop where
  | kept {block : Block} : LastIsSimpleOk history → AllClosed state → Held state block →
      state.erw.outLen ≤ state.erw.outMax → SessionInv history state
  | released : ¬ LastIsSimpleOk history → AllClosed state → Empty state → SessionInv history state

variable {history : List (State × (ReadingCall × FioEasyrwRes))}

theorem SessionInv.owned (inv : SessionInv history state) : Owned state ∧ AllClosed state := by
  cases inv with
  | kept _ closed held => exact ⟨.inr ⟨_, held⟩, closed⟩
  | released _ closed empty => exact ⟨.inl empty, closed⟩

theorem lastIsSimpleOk_append {call : ReadingCall} {res : FioEasyrwRes} :
    LastIsSimpleOk (history ++ [(state, (call, res))]) ↔
      (∃ env, call = .readSimple env) ∧ res = .resOk := by
  simp [LastIsSimpleOk, Prod.ext_iff]

theorem session_inv (run : session.Run history state) : SessionInv history state := by
  induction run with
  | start atStart =>
      obtain ⟨path, limit, mem, rfl⟩ := atStart
      refine .released ?_ .nil ⟨rfl, rfl, rfl, rfl, .nil⟩
      rintro ⟨env, isLast⟩
      cases isLast
  | @step history state next action run taken ih =>
      obtain ⟨call, res⟩ := action
      obtain ⟨owned, closed⟩ := ih.owned
      have ends := run_ends call owned closed
      have taken : call.run state = (.ok res, next) := taken
      rw [taken] at ends
      cases ends with
      | kept isSimple closed held within =>
          exact .kept (lastIsSimpleOk_append.mpr ⟨⟨_, isSimple⟩, rfl⟩) closed held within
      | released failed closed empty =>
          refine .released (fun isLast => ?_) closed empty
          obtain ⟨⟨env, isSimple⟩, isOk⟩ := lastIsSimpleOk_append.mp isLast
          exact failed env isSimple isOk

theorem allocOut_of_freed (buf : Nat) (len : UInt32) (state : State) :
    (fioEasyrwAllocOut buf len (fioEasyrwFreeOut state)).1 ≠ .error .assert := by
  rw [fioEasyrwAllocOut, if_neg (not_not.mpr (freeOut_out state))]
  split
  · exact fun failed => nomatch failed
  · exact fun failed => nomatch failed

theorem SessionInv.ownsResources (inv : SessionInv history state) :
    OwnsResources history state where
  descriptors := inv.owned.2
  out := by
    cases inv with
    | kept isLast _ held => exact iff_of_true (held.out ▸ held.notNull) isLast
    | released notLast _ empty => exact iff_of_false (not_not.mpr empty.out) notLast
  empty := by
    cases inv with
    | kept _ _ held => exact fun isNull => (held.notNull (held.out ▸ isNull)).elim
    | released _ _ empty => exact fun _ => ⟨empty.outLen, empty.outMax⟩
  within := by
    cases inv with
    | kept _ _ _ within => exact within
    | released _ _ empty => rw [empty.outLen, empty.outMax]; exact UInt32.le_refl 0
  alloc buf len := allocOut_of_freed buf len state
  dies call fault last died := by
    have ends := run_ends call inv.owned.1 inv.owned.2
    rw [died] at ends
    cases ends with
    | died before => exact ⟨_, before⟩

theorem SessionInv.exited (inv : SessionInv history state) : Exited (fioEasyrwExit state) := by
  obtain ⟨owned, closed⟩ := inv.owned
  have empty : Empty (fioEasyrwExit state) := owned.empty_freeOut
  exact ⟨allClosed_freeOut_iff.mpr closed, empty.out, ⟨empty.outLen, empty.outMax⟩, empty.paired,
    empty.heap⟩

/-- The object owns its buffer and its descriptor on every path. -/
theorem resources_owned (run : session.Run history state) :
    OwnsResources history state ∧ Exited (fioEasyrwExit state) :=
  ⟨(session_inv run).ownsResources, (session_inv run).exited⟩

/-- One call that reads a file of one byte. -/
def oneByte : ReadingCall := .readSimple (bytewise 1 [7])

theorem oneByte_run :
    session.Run [(fresh 0, (oneByte, .resOk))] (oneByte.run (fresh 0)).2 := by
  have unchanged : Unchanged [7] (bytewise 1 [7]) := unchanged_bytewise (by decide)
  have path : (fresh 0).erw.path ≠ none := by simp [fresh, fioEasyrwInit]
  obtain ⟨size, isSize, isOk, _⟩ :=
    @readSimple_unchanged _ (fresh 0) _ unchanged path (Or.inl rfl)
  obtain rfl : size = 1 := UInt64.toNat_inj.mp isSize
  have ok : (oneByte.run (fresh 0)).1 = .ok .resOk := isOk.mpr ⟨by decide, by decide⟩
  have initial : session.Start (fresh 0) := ⟨_, _, _, rfl⟩
  exact Machine.Run.step (.start initial) (Prod.ext ok rfl)

/-- A call that is to return the code it is given with. -/
def callStep (state : State) (action : ReadingCall × FioEasyrwRes) : Option State :=
  match action.1.run state with
  | (.ok res, next) => if res = action.2 then some next else none
  | (.error _, _) => none

theorem step_of_callStep (state : State) (action : ReadingCall × FioEasyrwRes) (next : State)
    (taken : callStep state action = some next) : session.Step state action next := by
  unfold callStep at taken
  split at taken
  next res last ran =>
    split at taken
    next same =>
      cases taken
      exact ran.trans (by rw [same])
    next => cases taken
  next => cases taken

/-- Calls with a limit of two bytes: some succeed, and the others fail at different points. -/
def mixedCalls : List (ReadingCall × FioEasyrwRes) :=
  let short : Environment := bytewise 2 [4, 5]
  let long : Environment := bytewise 3 [1, 2, 3]
  let stop : Callback := { appender with ret := fun call => call + 1 }
  [(.readSimple short, .resOk), (.readSimple { short with stat := none }, .resOpen),
    (.read short (some appender), .resOk), (.readSimple { short with content := [4] }, .resIo),
    (.readSimple long, .rrrnumOversz), (.read long (some appender), .rrrnumOversz),
    (.read { short with malloc := 0 } (some appender), .resNomem),
    (.read { short with openFd := -1 } (some appender), .resOpen),
    (.read { short with read := fun _ => .fail } (some appender), .resIo),
    (.read short (some stop), .resMisc), (.readSimple short, .resOk)]

theorem resources_owned_mixedCalls :
    ∃ history state, session.Run history state ∧ history.map Prod.snd = mixedCalls ∧
      state.output = [4, 5] ∧ OwnsResources history state ∧ Exited (fioEasyrwExit state) := by
  obtain ⟨state, ran, output⟩ := Machine.exists_runWhile callStep (fun _ _ => true) (fresh 2)
    mixedCalls (fun state => state.output = [4, 5]) (by decide +kernel)
  have initial : session.Start (fresh 2) := ⟨_, _, _, rfl⟩
  obtain ⟨history, run, calls, _⟩ :=
    Machine.Run.continue_evaluated step_of_callStep (.start initial) ran
  exact ⟨history, state, run, calls, output, resources_owned run⟩

/-- After `fio_easyrw_exit` there is no buffer, although the last reading call was
successful. -/
theorem out_null_after_exit :
    ¬ ∀ history state, session.Run history state →
      OwnsResources history state ∧ OwnsResources history (fioEasyrwExit state) := by
  intro all
  have exited := (all _ _ oneByte_run).2
  exact exited.out.mpr ⟨_, rfl⟩ (freeOut_out _)

end LinuxCTemplate.Fio
