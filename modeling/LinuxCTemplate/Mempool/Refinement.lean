import LinuxCTemplate.Mempool.Preservation

/-!
# The free list is a stack

Whatever clients write to the slices they have, `list_free` is a well-formed list of
slices with their magic in place, and it is step by step the abstract stack of the same
pushes and pops.
-/

namespace LinuxCTemplate.Mempool

open Foundation ListHead

namespace System

/-- `list_free` is a circular doubly linked list of the slices of the stack, first the one
freed last, each with its magic.  The `BUG_ON` of a magic has not been hit, and no step
from here disturbs a slice that somebody else has. -/
structure IsStack (sys : System) (stack : List Nat) : Prop where
  list : IsList sys.pool.mem sys.pool.mp.listFree (stack.map listOf)
  magic : ∀ slice ∈ stack, sliceMagic sys.pool.mem slice = mempoolSliceMagic
  noBug : sys.fault ≠ some .bugOnMagic
  undisturbed : ∀ action next, machine.Step sys action next → Undisturbed sys action next

theorem Inv.isStack {sys : System} {stack : List Nat} (inv : Inv sys stack) :
    IsStack sys stack where
  list := inv.cached.list
  magic := inv.cached.magic
  noBug := inv.noBug
  undisturbed action next taken := by
    obtain ⟨stack', kept⟩ := inv.step (step_change taken).2
    exact kept.undisturbed

end System

/-- The pool refines the stack: a run of the one is, state by state, a run of the other. -/
theorem free_list_refines_stack {history : List (System × Action)} {sys : System}
    (run : System.machine.Run history sys) :
    ∃ history' stack, (stackMachine Nat).Run history' stack ∧ sys.IsStack stack ∧
      List.Forall₂ (fun entry entry' => entry.1.IsStack entry'.1 ∧
        entry'.2 = entry.1.stackOp entry.2) history history' := by
  have initial : ∀ sys, System.machine.Start sys →
      ∃ stack, (stackMachine Nat).Start stack ∧ System.Inv sys stack :=
    fun sys initial => ⟨[], rfl, System.inv_initial initial⟩
  have matched : ∀ sys action next stack, System.machine.Reachable sys → System.Inv sys stack →
      System.machine.Step sys action next → ∃ stack',
        (stackMachine Nat).Step stack (sys.stackOp action) stack' ∧ System.Inv next stack' := by
    intro sys action next stack _ inv taken
    obtain ⟨stack', kept⟩ := inv.step (System.step_change taken).2
    exact ⟨stack', kept.op, kept.inv⟩
  obtain ⟨history', stack, abstractRun, inv, earlier⟩ := run.simulate initial matched
  refine ⟨history', stack, abstractRun, inv.isStack, ?_⟩
  exact earlier.imp fun entry entry' related => ⟨related.1.isStack, related.2⟩

/-! ## Two slices -/

/-- Slices of 32 bytes, without callbacks. -/
def plainPool : Mempool where
  addr := 4096
  magic := 0x54085408
  sz := 32
  name := [109]
  ref := 0
  max := 0
  fail := 0
  ctor := false
  dtor := false

/-- Thread 0 fills its two slices and frees them, the one at 12288 last. -/
def lifoRun : List Action :=
  [.alloc 0 8192, .alloc 0 12288, .client 0 fun _ => 170,
    .free 0 8192, .magic 0, .link 0, .free 0 12288, .magic 0, .link 0, .alloc 1 0]

/-- Thread 1 gets the slice freed last. -/
theorem free_list_refines_stack_lifoRun :
    ∃ history sys, System.machine.Run history sys ∧ sys.held 1 = [12288] ∧
      ∃ history' stack, (stackMachine Nat).Run history' stack ∧ sys.IsStack stack ∧
        List.Forall₂ (fun entry entry' => entry.1.IsStack entry'.1 ∧
          entry'.2 = entry.1.stackOp entry.2) history history' := by
  obtain ⟨sys, ran, given⟩ := Machine.exists_runWhile System.step (fun _ _ => true)
    (System.boot plainPool fun _ => 0) lifoRun (fun sys => sys.held 1 = [12288])
    (by decide)
  have init : mempoolInit 4096 (some [109]) 32 0 false false (fun _ => 0) =
      .ok (plainPool, initListHead plainPool.listFree fun _ => 0) := rfl
  have start : System.machine.Run [] (System.boot plainPool fun _ => 0) :=
    .start (System.boot_initial init (by decide))
  obtain ⟨history, run, _⟩ := start.continue_evaluated (fun _ _ _ taken => taken) ran
  exact ⟨history, sys, run, given, free_list_refines_stack run⟩

end LinuxCTemplate.Mempool
