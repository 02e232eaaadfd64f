import Mathlib.Algebra.Ring.Nat
import Mathlib.Data.Nat.Basic
import Mathlib.Data.List.Basic

/-!
# Byte memory

Memory is a function from addresses to bytes.  Words of any size are loaded and
stored little-endian, strings of bytes as they are.  The rules are those of two accesses
to the same place, of two accesses to places apart, and of an access that other bytes do
not see.
-/

namespace LinuxCTemplate.Foundation

abbrev Memory := Nat → UInt8

namespace Memory

/-- The number in `size` bytes from `addr` on. -/
def load (mem : Memory) (addr : Nat) : Nat → Nat
  | 0 => 0
  | size + 1 => (mem addr).toNat + 256 * load mem (addr + 1) size

/-- Memory with a number stored in `size` bytes from `addr` on. -/
def store (mem : Memory) (addr size value : Nat) : Memory :=
  fun byte =>
    if addr ≤ byte ∧ byte < addr + size then UInt8.ofNat (value / 256 ^ (byte - addr))
    else mem byte

/-- The `length` bytes from `addr` on. -/
def loadBytes (mem : Memory) (addr length : Nat) : List UInt8 :=
  (List.range length).map fun i => mem (addr + i)

/-- Memory with the bytes stored from `addr` on. -/
def storeBytes (mem : Memory) (addr : Nat) (bytes : List UInt8) : Memory :=
  fun byte => if addr ≤ byte then bytes[byte - addr]?.getD (mem byte) else mem byte

/-- Memory with other contents, but for the bytes to keep. -/
def overwrite (mem : Memory) (keep : Nat → Bool) (contents : Memory) : Memory :=
  fun byte => if keep byte then mem byte else contents byte

/-- Two ranges of bytes do not overlap. -/
def Apart (left leftSize right rightSize : Nat) : Prop :=
  left + leftSize ≤ right ∨ right + rightSize ≤ left

instance (left leftSize right rightSize : Nat) :
    Decidable (Apart left leftSize right rightSize) :=
  inferInstanceAs (Decidable (_ ∨ _))

variable {mem mem' : Memory} {addr size value : Nat}

theorem load_congr (same : ∀ byte, addr ≤ byte → byte < addr + size → mem' byte = mem byte) :
    mem'.load addr size = mem.load addr size := by
  induction size generalizing addr with
  | zero => rfl
  | succ size ih =>
      have first := same addr (Nat.le_refl _) (by omega)
      have rest := @ih (addr + 1) fun byte low high => same byte (by omega) (by omega)
      rw [load, load, first, rest]

theorem load_of_digits
    (digits : ∀ i < size, mem (addr + i) = UInt8.ofNat (value / 256 ^ i)) :
    mem.load addr size = value % 256 ^ size := by
  induction size generalizing addr value with
  | zero => simp [load, Nat.mod_one]
  | succ size ih =>
      have first : (mem addr).toNat = value % 256 := by
        have digit := digits 0 (Nat.succ_pos _)
        rw [Nat.pow_zero, Nat.div_one, Nat.add_zero] at digit
        rw [digit]
        exact UInt8.toNat_ofNat'
      have rest : mem.load (addr + 1) size = value / 256 % 256 ^ size := by
        apply ih
        intro i below
        have digit := digits (i + 1) (by omega)
        rwa [Nat.pow_succ', ← Nat.div_div_eq_div_mul, Nat.add_comm i 1, ← Nat.add_assoc] at digit
      rw [load, first, rest, Nat.pow_succ', Nat.mod_mul]

/-- What is loaded from `size` bytes fits into them. -/
theorem load_lt (mem : Memory) (addr size : Nat) : mem.load addr size < 256 ^ size := by
  induction size generalizing addr with
  | zero => exact Nat.one_pos
  | succ size ih =>
      have first := (mem addr).toNat_lt
      have rest := ih (addr + 1)
      rw [load, Nat.pow_succ']
      omega

/-- A load of what has just been stored. -/
theorem load_store_self (fits : value < 256 ^ size) :
    (mem.store addr size value).load addr size = value := by
  rw [load_of_digits, Nat.mod_eq_of_lt fits]
  intro i below
  rw [store, if_pos (by omega), Nat.add_sub_cancel_left]

/-- A byte outside the range stored. -/
theorem store_of_outside {byte : Nat} (outside : byte < addr ∨ addr + size ≤ byte) :
    mem.store addr size value byte = mem byte := by
  rw [store, if_neg (by omega)]

theorem load_store_of_apart {other otherSize : Nat} (apart : Apart addr size other otherSize) :
    (mem.store addr size value).load other otherSize = mem.load other otherSize := by
  unfold Apart at apart
  apply load_congr
  intro byte low high
  exact store_of_outside (by omega)

theorem overwrite_of_keep {keep : Nat → Bool} {contents : Memory} {byte : Nat}
    (kept : keep byte = true) : mem.overwrite keep contents byte = mem byte := by
  rw [overwrite, if_pos kept]

@[simp] theorem length_loadBytes (mem : Memory) (addr length : Nat) :
    (mem.loadBytes addr length).length = length := by
  simp [loadBytes]

theorem loadBytes_add (mem : Memory) (addr left right : Nat) :
    mem.loadBytes addr (left + right) =
      mem.loadBytes addr left ++ mem.loadBytes (addr + left) right := by
  unfold loadBytes
  rw [List.range_add, List.map_append, List.map_map]
  congr 1
  apply List.map_congr_left
  intro i _
  simp [Nat.add_assoc]

theorem loadBytes_storeBytes_self (mem : Memory) (addr : Nat) (bytes : List UInt8) :
    (mem.storeBytes addr bytes).loadBytes addr bytes.length = bytes := by
  apply List.ext_getElem
  · simp
  · intro i _ below
    simp [loadBytes, storeBytes, below]

/-- Bytes before those stored. -/
theorem loadBytes_storeBytes_before (mem : Memory) (addr length : Nat) (bytes : List UInt8) :
    (mem.storeBytes (addr + length) bytes).loadBytes addr length = mem.loadBytes addr length := by
  apply List.map_congr_left
  intro i below
  rw [List.mem_range] at below
  rw [storeBytes, if_neg (by omega)]

/-- Bytes stored behind others. -/
theorem loadBytes_storeBytes_append (mem : Memory) (addr length : Nat) (bytes : List UInt8) :
    (mem.storeBytes (addr + length) bytes).loadBytes addr (length + bytes.length) =
      mem.loadBytes addr length ++ bytes := by
  rw [loadBytes_add, loadBytes_storeBytes_before, loadBytes_storeBytes_self]

end Memory

end LinuxCTemplate.Foundation
