import Mathlib.Algebra.Ring.Nat
import Mathlib.Data.List.TakeWhile

/-!
# C strings in arrays

A `char` array of a fixed size that holds a string, the terminating `NUL` included.
`strcat` fails when the result does not fit, where a C program would write past the array;
`snprintf` cuts what does not fit.
-/

namespace LinuxCTemplate.Foundation

/-- The C string that begins a sequence of characters. -/
def cString (chars : List Char) : List Char := chars.takeWhile (· ≠ '\x00')

theorem not_mem_cString (chars : List Char) : '\x00' ∉ cString chars := by
  intro member
  have notNul := List.mem_takeWhile_imp (p := fun ch => decide (ch ≠ '\x00')) member
  exact of_decide_eq_true notNul rfl

theorem cString_of_not_mem {chars : List Char} (noNul : '\x00' ∉ chars) :
    cString chars = chars := by
  apply List.takeWhile_eq_self_iff.mpr
  intro ch member
  exact decide_eq_true fun isNul => noNul (isNul ▸ member)

theorem length_cString_le (chars : List Char) : (cString chars).length ≤ chars.length :=
  (List.takeWhile_prefix _).length_le

/-- An array of `capacity` characters that holds the string `text`. -/
@[ext] structure Buffer (capacity : Nat) where
  text : List Char
  noNul : '\x00' ∉ text
  fits : text.length < capacity
  deriving DecidableEq, Repr

namespace Buffer

variable {capacity : Nat} {buffer : Buffer capacity} {source : List Char}

/-- `{ 0 }`, or the array after `buffer[0] = '\0'`. -/
def empty [NeZero capacity] : Buffer capacity := ⟨[], List.not_mem_nil, Nat.pos_of_neZero capacity⟩

def strlen (buffer : Buffer capacity) : Nat := buffer.text.length

/-- `strcat`, or `none` if the array is too short. -/
def strcat (buffer : Buffer capacity) (source : List Char) : Option (Buffer capacity) :=
  if fits : (buffer.text ++ cString source).length < capacity then
    some
      { text := buffer.text ++ cString source
        noNul := by
          rw [List.mem_append]
          exact not_or.mpr ⟨buffer.noNul, not_mem_cString source⟩
        fits }
  else
    none

/-- `snprintf` of the characters, with the size of the array. -/
def snprintf [NeZero capacity] (chars : List Char) : Buffer capacity where
  text := cString (chars.take (capacity - 1))
  noNul := not_mem_cString _
  fits := by
    have positive := Nat.pos_of_neZero capacity
    have cut := length_cString_le (chars.take (capacity - 1))
    rw [List.length_take] at cut
    omega

/-- A string that fits is appended. -/
theorem exists_strcat (noNul : '\x00' ∉ source)
    (fits : buffer.text.length + source.length < capacity) :
    ∃ appended, buffer.strcat source = some appended ∧ appended.text = buffer.text ++ source := by
  have isString := cString_of_not_mem noNul
  have room : (buffer.text ++ cString source).length < capacity := by
    rw [isString, List.length_append]
    exact fits
  exact ⟨_, dif_pos room, congrArg (buffer.text ++ ·) isString⟩

theorem snprintf_text [NeZero capacity] {chars : List Char} (noNul : '\x00' ∉ chars)
    (fits : chars.length < capacity) : (snprintf chars : Buffer capacity).text = chars := by
  have whole : chars.take (capacity - 1) = chars := List.take_of_length_le (by omega)
  exact (congrArg cString whole).trans (cString_of_not_mem noNul)

end Buffer

end LinuxCTemplate.Foundation
