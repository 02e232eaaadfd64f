import Mathlib.Algebra.Ring.Nat
import Mathlib.Data.List.Basic

/-!
# What `printf` makes of a number

The conversions `%x` and `%X`, also with a width and leading zeros (`List.leftpad`), and a
reader of hexadecimal numbers that undoes them; `%c` of a byte.  `%u` and `%d` of a number
that is not negative are `Nat.toDigits 10`, and the width of `%-*s` is `List.rightpad`.
-/

namespace LinuxCTemplate.Foundation.Printf

/-- `%x` -/
def lowerHex (number : Nat) : List Char := Nat.toDigits 16 number

/-- `%X` -/
def upperHex (number : Nat) : List Char := (Nat.toDigits 16 number).map Char.toUpper

/-- `%c` -/
def character (byte : UInt8) : Char := Char.ofNat byte.toNat

/-- The value of a hexadecimal digit. -/
def hexValue (digit : Char) : Option Nat :=
  if '0' ≤ digit ∧ digit ≤ '9' then
    some (digit.toNat - 48)
  else if 'A' ≤ digit ∧ digit ≤ 'F' then
    some (digit.toNat - 55)
  else if 'a' ≤ digit ∧ digit ≤ 'f' then
    some (digit.toNat - 87)
  else
    none

/-- Read digits after a number. -/
def readHexFrom (number : Nat) : List Char → Option Nat
  | [] => some number
  | digit :: digits =>
      match hexValue digit with
      | none => none
      | some value => readHexFrom (16 * number + value) digits

/-- Read a hexadecimal number. -/
def readHex (digits : List Char) : Option Nat := readHexFrom 0 digits

@[simp] theorem toNat_character (byte : UInt8) : (character byte).toNat = byte.toNat := by
  have valid : byte.toNat.isValidChar := Or.inl (Nat.lt_trans byte.toNat_lt (by decide))
  rw [character, Char.ofNat, dif_pos valid]
  rfl

theorem readHexFrom_append (number : Nat) (left right : List Char) :
    readHexFrom number (left ++ right) =
      (readHexFrom number left).bind fun value => readHexFrom value right := by
  induction left generalizing number with
  | nil => rfl
  | cons digit left ih =>
      simp only [List.cons_append, readHexFrom]
      cases hexValue digit with
      | none => rfl
      | some value => exact ih _

/-- What is read as a number consists of digits. -/
theorem hexValue_of_readHexFrom {number value : Nat} {digits : List Char}
    (read : readHexFrom number digits = some value) {digit : Char} (member : digit ∈ digits) :
    hexValue digit ≠ none := by
  induction digits generalizing number with
  | nil => cases member
  | cons first digits ih =>
      rw [readHexFrom] at read
      rcases List.mem_cons.mp member with rfl | later
      · intro noDigit
        rw [noDigit] at read
        cases read
      · cases isFirst : hexValue first with
        | none =>
            rw [isFirst] at read
            cases read
        | some value =>
            rw [isFirst] at read
            exact ih read later

theorem hexValue_digitChar {digit : Nat} (small : digit < 16) :
    hexValue digit.digitChar = some digit := by
  revert digit
  decide

theorem hexValue_toUpper_digitChar {digit : Nat} (small : digit < 16) :
    hexValue digit.digitChar.toUpper = some digit := by
  revert digit
  decide

/-- Digits in any letters are read back. -/
theorem readHex_map_toDigits {letter : Char → Char}
    (reads : ∀ digit < 16, hexValue (letter (Nat.digitChar digit)) = some digit) (number : Nat) :
    readHex ((Nat.toDigits 16 number).map letter) = some number := by
  induction number using Nat.strongRecOn with
  | ind number ih =>
      rw [Nat.toDigits_eq_if (by decide)]
      split
      next small => simp [readHex, readHexFrom, reads number small]
      next large =>
        have smaller : number / 16 < number := by omega
        have last := reads (number % 16) (Nat.mod_lt _ (by decide))
        have before := ih _ smaller
        rw [readHex] at before
        rw [List.map_append, readHex, readHexFrom_append, before]
        simp only [List.map_cons, List.map_nil, Option.bind_some, readHexFrom, last]
        rw [Nat.div_add_mod]

@[simp] theorem readHex_lowerHex (number : Nat) : readHex (lowerHex number) = some number := by
  have read : readHex ((Nat.toDigits 16 number).map id) = some number :=
    readHex_map_toDigits (fun _ => hexValue_digitChar) number
  rwa [List.map_id] at read

@[simp] theorem readHex_upperHex (number : Nat) : readHex (upperHex number) = some number :=
  readHex_map_toDigits (fun _ => hexValue_toUpper_digitChar) number

/-- Leading zeros do not matter. -/
@[simp] theorem readHex_leftpad (width : Nat) (digits : List Char) :
    readHex (digits.leftpad width '0') = readHex digits := by
  have zeros : ∀ count, readHexFrom 0 (List.replicate count '0') = some 0 := by
    intro count
    induction count with
    | zero => rfl
    | succ count ih => exact ih
  rw [List.leftpad, readHex, readHexFrom_append, zeros]
  rfl

theorem length_leftpad_hex {width number : Nat} (positive : 0 < width)
    (fits : number < 16 ^ width) (letter : Char → Char) :
    (((Nat.toDigits 16 number).map letter).leftpad width '0').length = width := by
  have short := (Nat.length_toDigits_le_iff (b := 16) (by decide) positive).mpr fits
  rw [List.length_leftpad, List.length_map]
  exact Nat.max_eq_left short

theorem length_leftpad_upperHex {width number : Nat} (positive : 0 < width)
    (fits : number < 16 ^ width) : ((upperHex number).leftpad width '0').length = width :=
  length_leftpad_hex positive fits Char.toUpper

theorem length_leftpad_lowerHex {width number : Nat} (positive : 0 < width)
    (fits : number < 16 ^ width) : ((lowerHex number).leftpad width '0').length = width := by
  have length := length_leftpad_hex positive fits id
  rwa [List.map_id] at length

end LinuxCTemplate.Foundation.Printf
