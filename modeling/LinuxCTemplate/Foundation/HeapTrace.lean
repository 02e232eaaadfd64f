import Mathlib.Data.Set.Insert

/-!
# What code does to heap blocks

A trace lists the bytes that code reads or writes and the blocks that it gives to `free`,
in order.  It is safe if no byte of a block is used after the block has been given back,
and no block is given back twice.  The rules are those of two traces in sequence and of a
trace that stays within a region.
-/

namespace LinuxCTemplate.Foundation

/-- A read or write of `size` bytes from `addr` on, or a `free`. -/
inductive Access where
  | touch (addr size : Nat)
  | free (block : Nat)
  deriving DecidableEq, Repr

namespace Access

/-- The blocks a trace gives back, in order. -/
def freed : List Access → List Nat
  | [] => []
  | .touch _ _ :: rest => freed rest
  | .free block :: rest => block :: freed rest

/-- The byte belongs to a block of `size` bytes. -/
def InBlock (size block byte : Nat) : Prop :=
  block ≤ byte ∧ byte < block + size

/-- With the blocks `gone` given back before, no block that is gone is used or given back. -/
def Safe (size : Nat) : Set Nat → List Access → Prop
  | _, [] => True
  | gone, .touch addr length :: rest =>
      (∀ block ∈ gone, ∀ byte, InBlock length addr byte → ¬ InBlock size block byte) ∧
        Safe size gone rest
  | gone, .free block :: rest => block ∉ gone ∧ Safe size (insert block gone) rest

/-- Every byte that is read or written is in the region. -/
def Within (region : Nat → Prop) (trace : List Access) : Prop :=
  ∀ addr length, .touch addr length ∈ trace → ∀ byte, InBlock length addr byte → region byte

variable {size : Nat} {gone : Set Nat} {left right trace : List Access} {region : Nat → Prop}

theorem freed_append : freed (left ++ right) = freed left ++ freed right := by
  induction left with
  | nil => rfl
  | cons access rest ih =>
      cases access with
      | touch => exact ih
      | free block => exact congrArg (block :: ·) ih

/-- Before the first `free`, safety is to stay off the blocks that are gone. -/
theorem Safe.append_of_within (noFree : freed left = []) (within : Within region left)
    (off : ∀ block ∈ gone, ∀ byte, InBlock size block byte → ¬ region byte)
    (safe : Safe size gone right) : Safe size gone (left ++ right) := by
  induction left with
  | nil => exact safe
  | cons access rest ih =>
      cases access with
      | free => cases noFree
      | touch addr length =>
          refine ⟨?_, ih noFree fun addr length member =>
            within addr length (List.mem_cons_of_mem _ member)⟩
          intro block isGone byte used inBlock
          exact off block isGone byte inBlock (within addr length List.mem_cons_self byte used)

theorem Within.mono {larger : Nat → Prop} (within : Within region trace)
    (subset : ∀ byte, region byte → larger byte) : Within larger trace :=
  fun addr length member byte used => subset byte (within addr length member byte used)

theorem Within.append (first : Within region left) (second : Within region right) :
    Within region (left ++ right) := by
  intro addr length member
  rcases List.mem_append.mp member with inLeft | inRight
  · exact first addr length inLeft
  · exact second addr length inRight

end Access

end LinuxCTemplate.Foundation
