import LinuxCTemplate.Fio.Blocks
import LinuxCTemplate.Fio.Simple

/-!
# Reads within the buffer

The buffer of `fio_easyrw_read_simple` has a page more than the expected length, but the sum
is one of 32 bits: for the last 4096 lengths it wraps, and the buffer is shorter than what
`read()` is asked for.  The buffer of `fio_easyrw_read` has a fixed size.
-/

namespace LinuxCTemplate.Fio

open Foundation

/-- The functions ask no `read()` for more bytes than there is room for, whatever `malloc`,
`open()`, `read()` and the callback do. -/
structure AlwaysFits (size limit : UInt64) : Prop where
  simple : ∀ env state, env.stat = some { regular := true, size } → state.erw.limit = limit →
    state.ReadsFit → (fioEasyrwReadSimple env state).2.ReadsFit
  read : ∀ env func state, state.ReadsFit → (fioEasyrwRead env func state).2.ReadsFit

variable {env : Environment} {state start : State} {fd : Int} {size : Nat} {expectLen : UInt32}
  {content : List UInt8} {result : Except Fault FioEasyrwRes × State}

theorem SimpleEnds.fits (ends : SimpleEnds env fd size expectLen content start result)
    (large : expectLen.toNat ≤ size) (fit : start.ReadsFit) : result.2.ReadsFit := by
  obtain ⟨more, isTrace, _, all⟩ := ends.trace
  intro fd p length room member
  rw [isTrace] at member
  rcases List.mem_append.mp member with before | inMore
  · exact fit fd p length room before
  · obtain ⟨already, _, _, isRead⟩ := all _ inMore
    obtain ⟨-, -, rfl, rfl⟩ := Event.read.inj isRead
    omega

/-- In a block that is too small every `read()` asks for too much. -/
theorem SimpleEnds.not_fits (ends : SimpleEnds env fd size expectLen content start result)
    (small : size < expectLen.toNat) : ¬ result.2.ReadsFit := by
  obtain ⟨more, isTrace, nonempty, all⟩ := ends.trace
  obtain ⟨event, member⟩ := List.exists_mem_of_ne_nil more nonempty
  obtain ⟨already, _, _, isRead⟩ := all event member
  subst isRead
  intro fit
  have fits := fit _ _ _ _ (isTrace ▸ List.mem_append_right _ member)
  omega

/-- The size of the block in 32 bits. -/
theorem le_block_iff (len : UInt32) :
    len.toNat ≤ (len + myPageSz).toNat ↔ len.toNat < 2 ^ 32 - 4096 := by
  have bound := len.toNat_lt
  have page : myPageSz.toNat = 4096 := rfl
  rw [UInt32.toNat_add, page]
  omega

theorem read_fits (env : Environment) (func : Option Callback) (fit : state.ReadsFit) :
    (fioEasyrwRead env func state).2.ReadsFit := by
  by_cases opened : ∃ st, Opens env (fun _ _ => false) state st
  · obtain ⟨st, opens⟩ := opened
    cases func with
    | none =>
        rw [fioEasyrwRead_eq, withFile_opens opens, readsFit_closeRead_iff, __fioEasyrwRead]
        split
        · exact State.readsFit_opened_iff.mpr fit
        · exact State.readsFit_opened_iff.mpr fit
    | some func =>
        obtain ⟨result, ends, isResult⟩ := read_opens opens func
        rw [isResult, readsFit_closeRead_iff]
        exact ends.fit (State.readsFit_opened_iff.mpr fit)
  · rw [fioEasyrwRead_eq]
    exact (withFile_fails fun st opens => opened ⟨st, opens⟩).fit fit

theorem readSimple_fits {bits : UInt64} (isStat : env.stat = some { regular := true, size := bits })
    (short : bits.toUInt32.toNat < 2 ^ 32 - 4096) (fit : state.ReadsFit) :
    (fioEasyrwReadSimple env state).2.ReadsFit := by
  by_cases opened : ∃ st, Opens env overLimit state st
  · obtain ⟨st, opens⟩ := opened
    obtain rfl : { regular := true, size := bits } = st :=
      Option.some.inj (isStat.symm.trans opens.stat)
    by_cases none : bits.toUInt32 = 0
    · obtain ⟨last, died, isFit⟩ := (readSimple_opens opens).1 none
      rw [died]
      exact isFit.mpr fit
    · obtain ⟨result, ends, isResult⟩ := (readSimple_opens opens).2 none
      rw [isResult, readsFit_closeSimple_iff]
      exact ends.fits ((le_block_iff _).mpr short) (State.readsFit_opened_iff.mpr fit)
  · rw [fioEasyrwReadSimple_eq]
    exact (withFile_fails fun st opens => opened ⟨st, opens⟩).fit fit

/-- The first `read()` of a length for which the block is too small. -/
theorem not_readSimple_fits {bits limit : UInt64} (within : ¬ (limit ≠ 0 ∧ limit < bits))
    (long : 2 ^ 32 - 4096 ≤ bits.toUInt32.toNat) :
    ¬ (fioEasyrwReadSimple (bytewise bits []) (fresh limit)).2.ReadsFit := by
  have opens := opens_bytewise [] within
  have some : bits.toUInt32 ≠ 0 := by
    intro none
    rw [none] at long
    exact absurd long (by decide)
  obtain ⟨result, ends, isResult⟩ := (readSimple_opens opens).2 some
  rw [isResult, readsFit_closeSimple_iff]
  apply ends.not_fits
  have tooSmall := (le_block_iff bits.toUInt32).not.mpr (Nat.not_lt.mpr long)
  exact Nat.lt_of_not_le tooSmall

/-- For a size that passes the check, every `read()` stays within the buffer if and only if
the size in 32 bits leaves room for a page. -/
theorem reads_fit_iff {size limit : UInt64} (within : ¬ (limit ≠ 0 ∧ limit < size)) :
    AlwaysFits size limit ↔ size.toUInt32.toNat < 2 ^ 32 - 4096 := by
  constructor
  · intro fits
    by_contra long
    have empty : (fresh limit).ReadsFit := fun _ _ _ _ member => nomatch member
    exact not_readSimple_fits within (Nat.not_lt.mp long)
      (fits.simple (bytewise size []) (fresh limit) rfl rfl empty)
  · intro short
    constructor
    case simple => exact fun env state isStat _ fit => readSimple_fits isStat short fit
    case read => exact fun env func state fit => read_fits env func fit

theorem reads_fit_iff_small : AlwaysFits 5 0 ↔ (5 : UInt64).toUInt32.toNat < 2 ^ 32 - 4096 :=
  reads_fit_iff (by decide)

/-- A file of 2^32 - 1 bytes gets a block of 4095. -/
theorem reads_past_buffer :
    ¬ ∀ size limit : UInt64, ¬ (limit ≠ 0 ∧ limit < size) → AlwaysFits size limit := by
  intro fits
  have within : ¬ ((0 : UInt64) ≠ 0 ∧ (0 : UInt64) < 4294967295) := by decide
  have empty : (fresh 0).ReadsFit := fun _ _ _ _ member => nomatch member
  exact not_readSimple_fits within (by decide)
    ((fits 4294967295 0 within).simple (bytewise 4294967295 []) (fresh 0) rfl rfl empty)

end LinuxCTemplate.Fio
