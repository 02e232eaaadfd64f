import Mathlib.Data.List.Basic

/-!
# `read()` on a regular file

A call fails, or it gives the next bytes of the file: no more than are asked for, and at
least one unless none is left or asked for.  How many it gives is up to the system.
-/

namespace LinuxCTemplate.Foundation

/-- What the system does at a `read()`: it fails, or it gives at most `count + 1` bytes. -/
inductive ReadCall where
  | fail
  | upTo (count : Nat)
  deriving DecidableEq, Repr

namespace ReadCall

/-- The bytes that a request for `length` bytes gets when `rest` is left of the file. -/
def bytes (call : ReadCall) (rest : List UInt8) (length : Nat) : Option (List UInt8) :=
  match call with
  | .fail => none
  | .upTo count => some (rest.take (min (count + 1) length))

variable {call : ReadCall} {rest chunk : List UInt8} {length : Nat}

/-- What is read is the beginning of what is left. -/
theorem append_drop (isRead : call.bytes rest length = some chunk) :
    chunk ++ rest.drop chunk.length = rest := by
  cases call with
  | fail => cases isRead
  | upTo count =>
      obtain rfl := Option.some.inj isRead
      exact List.prefix_iff_eq_append.mp (List.take_prefix _ _)

theorem length_le (isRead : call.bytes rest length = some chunk) : chunk.length ≤ length := by
  cases call with
  | fail => cases isRead
  | upTo count =>
      obtain rfl := Option.some.inj isRead
      rw [List.length_take]
      omega

/-- Nothing is read at the end of the file and when nothing is asked for. -/
theorem eq_nil_iff (isRead : call.bytes rest length = some chunk) :
    chunk = [] ↔ rest = [] ∨ length = 0 := by
  cases call with
  | fail => cases isRead
  | upTo count =>
      obtain rfl := Option.some.inj isRead
      have none : min (count + 1) length = 0 ↔ length = 0 := by omega
      rw [List.take_eq_nil_iff, none, or_comm]

theorem eq_fail_of_bytes (isRead : call.bytes rest length = none) : call = .fail := by
  cases call with
  | fail => rfl
  | upTo count => cases isRead

theorem exists_bytes (works : call ≠ .fail) (rest : List UInt8) (length : Nat) :
    ∃ chunk, call.bytes rest length = some chunk := by
  cases call with
  | fail => exact (works rfl).elim
  | upTo count => exact ⟨_, rfl⟩

end ReadCall

end LinuxCTemplate.Foundation
