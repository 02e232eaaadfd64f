import Mathlib.Order.Bounds.Basic
import LinuxCTemplate.Mempool.Preservation

/-!
# The size of a slice

`mempool_calc_slice_size` rounds a size up to a multiple of `sizeof(unsigned long)`, and to
no less than `struct mempool_slice`.  The padding is added in 32 bits: for the last 7 sizes
the sum is 0, and the first `mempool_alloc` that has to call `malloc` fails its `BUG_ON`.
-/

namespace LinuxCTemplate.Mempool

open Foundation

/-- The multiples of `sizeof(unsigned long)` that have room for `size` bytes and for
`struct mempool_slice`. -/
def properSizes (size : UInt32) : Set Nat :=
  {bytes | 8 ∣ bytes ∧ size.toNat ≤ bytes ∧ sliceSize.toNat ≤ bytes}

/-- A pool that was set up by `mempool_init` with the size. -/
def machineOf (size : UInt32) : Machine System Action where
  Start sys := sys.Initial ∧ ∃ addr name max ctor dtor mem,
    mempoolInit addr name size max ctor dtor mem = .ok (sys.pool.mp, sys.pool.mem)
  Step := System.machine.Step

/-- The size is a proper one, every block that the pool has got from `malloc` has at least
the bytes that were asked for, and the `BUG_ON` about the size never fails. -/
structure SizedSoundly (size : UInt32) : Prop where
  least : IsLeast (properSizes size) (mempoolCalcSliceSize size).toNat
  large : ∀ sys, (machineOf size).Reachable sys →
    sys.pool.live ≠ [] → size.toNat ≤ sys.pool.mp.sz.toNat
  noBug : ∀ sys, (machineOf size).Reachable sys → sys.fault ≠ some .bugOnSize

/-! ## The sum -/

variable {size : UInt32}

/-- The padded size before it is cut to 32 bits. -/
theorem toNat_calcSliceSize (size : UInt32) :
    (mempoolCalcSliceSize size).toNat = (size.toNat ⊔ 24 + 7) / 8 * 8 % 2 ^ 32 := by
  have bound := size.toNat_lt
  have real : (if size < sliceSize then sliceSize else size).toNat = size.toNat ⊔ 24 := by
    split
    next small =>
      have below := UInt32.lt_iff_toNat_lt.mp small
      have minimal : sliceSize.toNat = 24 := rfl
      omega
    next large =>
      have above := UInt32.le_iff_toNat_le.mp (UInt32.not_lt.mp large)
      have minimal : sliceSize.toNat = 24 := rfl
      omega
  unfold mempoolCalcSliceSize
  generalize (if size < sliceSize then sliceSize else size) = realSize at real
  have remainder : (realSize.toUInt64 % 8).toNat = realSize.toNat % 8 := by
    rw [UInt64.toNat_mod, UInt32.toNat_toUInt64]
    rfl
  by_cases aligned : realSize.toUInt64 % 8 = 0
  · have divides : realSize.toNat % 8 = 0 := by
      rw [← remainder, aligned]
      rfl
    simp only [aligned, ne_eq, not_true_eq_false, if_false, UInt32.toNat_add, UInt32.toNat_zero]
    omega
  · have short : realSize.toNat % 8 ≠ 0 := by
      rw [← remainder]
      exact fun zero => aligned (UInt64.toNat_inj.mp zero)
    have padding : ((8 : UInt64) - realSize.toUInt64 % 8).toUInt32.toNat =
        8 - realSize.toNat % 8 := by
      have le : realSize.toUInt64 % 8 ≤ 8 := by
        rw [UInt64.le_iff_toNat_le, remainder]
        exact Nat.le_of_lt (Nat.mod_lt _ (by decide))
      have eight : (8 : UInt64).toNat = 8 := rfl
      rw [UInt64.toNat_toUInt32, UInt64.toNat_sub_of_le _ _ le, remainder, eight]
      exact Nat.mod_eq_of_lt (by omega)
    simp only [aligned, ne_eq, not_false_eq_true, if_true, UInt32.toNat_add, padding]
    omega

/-- The sum does not wrap, or it is 0. -/
theorem calcSliceSize_isLeast_iff (size : UInt32) :
    IsLeast (properSizes size) (mempoolCalcSliceSize size).toNat ↔ size.toNat ≤ 2 ^ 32 - 8 := by
  have bound := size.toNat_lt
  have minimal : sliceSize.toNat = 24 := rfl
  rw [toNat_calcSliceSize]
  constructor
  · intro least
    obtain ⟨_, _, room⟩ := least.1
    omega
  · intro small
    have noWrap : (size.toNat ⊔ 24 + 7) / 8 * 8 % 2 ^ 32 = (size.toNat ⊔ 24 + 7) / 8 * 8 :=
      Nat.mod_eq_of_lt (by omega)
    rw [noWrap]
    constructor
    · exact ⟨Nat.dvd_mul_left _ _, by omega, by omega⟩
    · rintro bytes ⟨⟨words, rfl⟩, room, slice⟩
      omega

theorem calcSliceSize_eq_zero (large : 2 ^ 32 - 8 < size.toNat) :
    mempoolCalcSliceSize size = 0 := by
  have bound := size.toNat_lt
  apply UInt32.toNat_inj.mp
  rw [toNat_calcSliceSize, UInt32.toNat_zero]
  omega

/-! ## Pools of the size -/

theorem mempoolInit_sz {addr : Nat} {name : Option (List UInt8)} {max : UInt64} {ctor dtor : Bool}
    {mem : Memory} {mp : Mempool} {mem' : Memory}
    (init : mempoolInit addr name size max ctor dtor mem = .ok (mp, mem')) :
    mp.sz = mempoolCalcSliceSize size := by
  unfold mempoolInit at init
  split at init
  next => cases init
  next =>
    split at init
    next => cases init
    next => cases init
    next =>
      cases init
      rfl

/-- The runs of a pool of one size are runs of a pool. -/
theorem reachable_of_machineOf {sys : System} (reachable : (machineOf size).Reachable sys) :
    System.machine.Reachable sys :=
  reachable.invariant (fun _ start => .start start.1) fun _ _ _ _ before taken => before.step taken

/-- The program dies of the `BUG_ON` about the size only if the slice size is too small. -/
theorem System.Change.small_of_bugOnSize {sys next : System} {action : Action} {stack : List Nat}
    (inv : sys.Inv stack) (change : sys.Change action next) (alive : sys.fault = none)
    (died : next.fault = some .bugOnSize) : sys.pool.mp.sz < sliceSize := by
  cases change with
  | @allocDies thread block fault isIdle result =>
      obtain ⟨rest, allocated⟩ := allocSlice_allocated inv.blocks inv.cached block
      rw [result] at allocated
      cases allocated with
      | tooSmall small => exact small
  | @recycleDies thread reserve junk fault result =>
      obtain ⟨pool, ran, _⟩ := mempoolRecycle_all reserve junk inv.blocks inv.cached
      rw [result] at ran
      cases ran
  | magicNull => cases died
  | allocated | accepted => simp [alive] at died
  | rejected | freed | destroyed | magicSet | linked | recycled | wrote =>
      exact absurd (alive.symm.trans died) (by decide)

/-- The slice size is what `mempool_calc_slice_size` has returned, and a pool of slices that
are large enough does not die of the `BUG_ON`. -/
theorem sz_of_machineOf {sys : System} (reachable : (machineOf size).Reachable sys) :
    sys.pool.mp.sz = mempoolCalcSliceSize size ∧
      (sliceSize ≤ mempoolCalcSliceSize size → sys.fault ≠ some .bugOnSize) := by
  apply reachable.invariant
  · rintro sys ⟨initial, _, _, _, _, _, _, init⟩
    refine ⟨mempoolInit_sz init, fun _ died => ?_⟩
    cases initial.fault.symm.trans died
  · rintro sys action next before ⟨isSize, _⟩ taken
    obtain ⟨stack, inv⟩ := System.exists_inv (reachable_of_machineOf before)
    obtain ⟨alive, change⟩ := System.step_change taken
    obtain ⟨stack', kept⟩ := inv.step change
    refine ⟨?_, fun large died => ?_⟩
    · rw [kept.fields]
      exact isSize
    · have small := change.small_of_bugOnSize inv alive died
      rw [isSize] at small
      exact UInt32.not_lt.mpr large small

/-- The first `mempool_alloc` of a pool whose slice size is 0. -/
theorem step_alloc_bugOnSize {sys : System} (initial : sys.Initial) (zero : sys.pool.mp.sz = 0)
    (thread block : Nat) (malloc : sys.mallocMayReturn block = true) :
    sys.step (.alloc thread block) = some { sys with fault := some .bugOnSize } := by
  have noneCached := (System.inv_initial initial).cached.list.listEmpty_iff.mpr List.map_nil
  have unused : ¬ (sys.pool.mp.max ≠ 0 ∧ sys.pool.mp.max ≤ sys.pool.mp.ref) := by
    have ref := (System.inv_initial initial).blocks.ref
    rw [initial.live, List.length_nil] at ref
    rintro ⟨limited, reached⟩
    rw [UInt64.le_iff_toNat_le, ref] at reached
    exact limited (UInt64.toNat_inj.mp (Nat.le_zero.mp reached))
  have tooSmall : sys.pool.mp.sz < sliceSize := by
    rw [zero]
    decide
  have died : allocSlice block sys.pool = .error .bugOnSize := by
    unfold allocSlice
    simp only [noneCached, if_true, if_neg unused, if_pos tooSmall]
  unfold System.step
  rw [if_neg (not_not.mpr initial.fault)]
  simp only [initial.pc thread, malloc, and_self, if_true, died]
  rfl

/-- With a larger size a pool can die of the `BUG_ON`. -/
theorem exists_bugOnSize (large : 2 ^ 32 - 8 < size.toNat) :
    ∃ sys, (machineOf size).Reachable sys ∧ sys.fault = some .bugOnSize := by
  let mp : Mempool :=
    { addr := 4096, magic := 0x54085408, sz := mempoolCalcSliceSize size, name := [109], ref := 0
      max := 0, fail := 0, ctor := false, dtor := false }
  have init : mempoolInit 4096 (some [109]) size 0 false false (fun _ => 0) =
      .ok (mp, ListHead.initListHead mp.listFree fun _ => 0) := rfl
  have initial := System.boot_initial init (show 4096 + mempoolSize ≤ 2 ^ 64 by decide)
  have start : (machineOf size).Reachable (System.boot mp fun _ => 0) :=
    .start ⟨initial, 4096, some [109], 0, false, false, fun _ => 0, init⟩
  exact ⟨_, start.step (step_alloc_bugOnSize initial (calcSliceSize_eq_zero large) 0 0 rfl), rfl⟩

/-- Slice sizing is sound exactly for the sizes that can be padded within 32 bits. -/
theorem slice_size_sound_iff (size : UInt32) :
    SizedSoundly size ↔ size.toNat ≤ 2 ^ 32 - 8 := by
  rw [← calcSliceSize_isLeast_iff]
  constructor
  · exact fun sound => sound.least
  · intro least
    obtain ⟨_, large, room⟩ := least.1
    constructor
    case least => exact least
    case large =>
      intro sys reachable _
      rw [(sz_of_machineOf reachable).1]
      exact large
    case noBug =>
      intro sys reachable
      exact (sz_of_machineOf reachable).2 (UInt32.le_iff_toNat_le.mpr room)

/-- A pool of slices of 2^32 - 1 bytes dies at its first allocation. -/
theorem slice_size_wraps : ¬ ∀ size, SizedSoundly size := by
  intro sound
  obtain ⟨sys, reachable, died⟩ := @exists_bugOnSize 4294967295 (by decide)
  exact (sound 4294967295).noBug sys reachable died

end LinuxCTemplate.Mempool
