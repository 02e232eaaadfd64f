import LinuxCTemplate.Mempool.Reserve

/-!
# The end of a pool

`mempool_exit` recycles with a reserve of 0 and then takes what is left in `mp->ref` for
leaked slices.  Since `mp->ref` counts the cached slices and those in use, the loop does
not stop before the last cached slice, and what is left is the number of those in use.
-/

namespace LinuxCTemplate.Mempool

open Foundation ListHead Access

/-- What `mempool_exit` prints about. -/
structure LeakReport where
  count : UInt64
  name : List UInt8
  deriving DecidableEq, Repr

/-- The characters of a text of the source. -/
def ascii (text : String) : List UInt8 := text.toList.map fun char => UInt8.ofNat char.toNat

/-- The line on `stderr`. -/
def LeakReport.line (report : LeakReport) : List UInt8 :=
  ascii " * ERROR: Detect " ++ ascii (toString report.count.toNat) ++
    ascii " dirty leakage at " ++ report.name ++ ascii "\n"

/-- `mempool_exit`, without the destruction of the lock. -/
def mempoolExit (junk : Memory) (pool : Pool) : Except Fault (Option LeakReport × Pool) :=
  match __mempoolRecycle 0 junk pool with
  | .error fault => .error fault
  | .ok pool =>
      if pool.mp.ref ≠ 0 then
        .ok (some { count := pool.mp.ref, name := pool.mp.name }, pool)
      else
        .ok (none, pool)

/-- The accesses of `mempool_exit`. -/
def mempoolExitAccesses (junk : Memory) (pool : Pool) : List Access :=
  __mempoolRecycleAccesses 0 junk pool

namespace System

/-- The slices that clients got and have not freed. -/
def clientSlices (sys : System) : Set Nat := {slice | ∃ thread, slice ∈ sys.held thread}

/-- Between the calls of the pool's functions the slices in use are those of clients. -/
theorem inUse_eq_clientSlices {sys : System} (idle : ∀ thread, sys.pc thread = .idle) :
    sys.inUse = sys.clientSlices := by
  ext slice
  unfold inUse clientSlices owned
  simp [idle, Pc.slices]

/-- `mempool_exit` has returned every cached slice to the system, each once, has used none
after that, has left `list_free` empty, and has reported the slices that clients still have,
if there are any, by their number. -/
structure ExitsExactly (sys : System) (stack : List Nat) (accesses : List Access)
    (report : Option LeakReport) (pool : Pool) : Prop where
  freed : freed accesses = stack
  live : sys.pool.live.Perm (stack ++ pool.live)
  safe : Safe sys.pool.mp.sz.toNat ∅ accesses
  empty : listEmpty pool.mp.listFree pool.mem = true
  leaks : report.isSome ↔ sys.clientSlices.Nonempty
  count : ∀ leak ∈ report, leak.count.toNat = sys.clientSlices.ncard ∧
    leak.name = sys.pool.mp.name

variable {sys : System} {stack : List Nat}

/-- With a reserve of 0 a walk keeps nothing. -/
theorem Inv.walked_all (inv : Inv sys stack) {pool : Pool} {kept : List Nat}
    {accesses : List Access} (walked : Walked 0 sys.pool stack accesses pool kept) : kept = [] := by
  have left := inv.ref_walked walked
  obtain ⟨_, _, _, ends⟩ := walked.recycled
  rcases ends with nothingKept | exhausted
  · exact nothingKept
  · have zero : pool.mp.ref.toNat ≤ 0 := UInt64.le_iff_toNat_le.mp exhausted
    apply List.length_eq_zero_iff.mp
    omega

/-- The report after the recycle. -/
theorem mempoolExit_of_recycled {junk : Memory} {pool pool' : Pool}
    (ran : __mempoolRecycle 0 junk pool = .ok pool') :
    ∃ report, mempoolExit junk pool = .ok (report, pool') ∧
      (report.isSome ↔ pool'.mp.ref.toNat ≠ 0) ∧
      ∀ leak ∈ report, leak.count = pool'.mp.ref ∧ leak.name = pool'.mp.name := by
  have isZero : pool'.mp.ref.toNat = 0 ↔ pool'.mp.ref = 0 := @UInt64.toNat_inj _ 0
  unfold mempoolExit
  rw [ran]
  by_cases leaked : pool'.mp.ref = 0
  · refine ⟨none, if_neg (not_not.mpr leaked), ?_, fun leak isNone => nomatch isNone⟩
    simp [leaked]
  · refine ⟨_, if_pos leaked, ?_, fun leak isLeak => ?_⟩
    · simp [isZero, leaked]
    · obtain rfl := Option.some.inj isLeak
      exact ⟨rfl, rfl⟩

/-- With a reserve of 0 every cached slice is returned to the system, each once. -/
theorem Inv.freed_all (inv : Inv sys stack) (junk : Memory) :
    Access.freed (__mempoolRecycleAccesses 0 junk sys.pool) = stack := by
  obtain ⟨pool, kept, accesses, _, isTrace, walked⟩ :=
    mempoolRecycle_walked 0 junk inv.blocks inv.cached
  have all := (walked.trace.start inv.blocks inv.cached).freed
  obtain rfl := inv.walked_all walked
  rw [List.append_nil] at all
  rw [isTrace]
  exact all.symm

/-- `mempool_exit` while no other operation is in progress. -/
theorem Inv.exitsExactly (inv : Inv sys stack) (idle : ∀ thread, sys.pc thread = .idle)
    (junk : Memory) :
    ∃ report pool, mempoolExit junk sys.pool = .ok (report, pool) ∧
      sys.ExitsExactly stack (mempoolExitAccesses junk sys.pool) report pool := by
  obtain ⟨pool, kept, accesses, ran, isTrace, walked⟩ :=
    mempoolRecycle_walked 0 junk inv.blocks inv.cached
  have trace := walked.trace.start inv.blocks inv.cached
  have left := inv.ref_walked walked
  obtain ⟨given, isStack, recycled, _⟩ := walked.recycled
  obtain rfl := inv.walked_all walked
  obtain ⟨report, exited, leaks, count⟩ := mempoolExit_of_recycled ran
  rw [inUse_eq_clientSlices idle, List.length_nil, Nat.zero_add] at left
  have finite := inv.accounted.finite
  rw [inUse_eq_clientSlices idle] at finite
  rw [List.append_nil] at isStack
  subst isStack
  refine ⟨report, pool, exited, ?_⟩
  constructor
  case freed => exact inv.freed_all junk
  case live => exact recycled.live
  case safe =>
    unfold mempoolExitAccesses
    rw [isTrace]
    exact trace.safe ∅ fun block isGone => isGone.elim
  case empty => exact recycled.cached.list.listEmpty_iff.mpr List.map_nil
  case leaks => rw [leaks, left, ne_eq, Set.ncard_eq_zero finite, Set.nonempty_iff_ne_empty]
  case count =>
    intro leak isLeak
    obtain ⟨isCount, isName⟩ := count leak isLeak
    refine ⟨by rw [isCount, left], ?_⟩
    rw [isName, recycled.mp]

end System

/-- `mempool_exit` after any run, with no other operation in progress. -/
theorem leak_report_exact {sys : System} (reachable : System.machine.Reachable sys)
    (idle : ∀ thread, sys.pc thread = .idle) :
    ∃ stack, sys.Accounted stack ∧ ∀ junk, ∃ report pool,
      mempoolExit junk sys.pool = .ok (report, pool) ∧
        sys.ExitsExactly stack (mempoolExitAccesses junk sys.pool) report pool := by
  obtain ⟨stack, inv⟩ := System.exists_inv reachable
  exact ⟨stack, inv.accounted, fun junk => inv.exitsExactly idle junk⟩

/-- Of two slices, one of them cached, one is leaked. -/
theorem leak_report_exact_oneCached :
    ∃ sys : System, sys.pool.mp.ref = 2 ∧ sys.held 1 = [12288] ∧
      ∃ stack, sys.Accounted stack ∧ ∀ junk, ∃ report pool,
        mempoolExit junk sys.pool = .ok (report, pool) ∧
          sys.ExitsExactly stack (mempoolExitAccesses junk sys.pool) report pool := by
  obtain ⟨sys, reachable, idle, held, ref, _⟩ := exists_oneCached
  exact ⟨sys, ref, held, leak_report_exact reachable idle⟩

end LinuxCTemplate.Mempool
