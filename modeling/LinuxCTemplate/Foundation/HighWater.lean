import LinuxCTemplate.Foundation.Transition
import Mathlib.Order.Bounds.Basic

/-!
# High-water marks

A mark that a reset brings down to what is in use at that moment, and that otherwise rises
only to what is in use, is the most that has been in use since the last reset.
-/

namespace LinuxCTemplate.Foundation.Machine

universe u v

variable {State : Type u} {Action : Type v} {machine : Machine State Action}

/-- The states of a run since the last reset, the latest first. -/
def since (reset : Action → Bool) (history : List (State × Action)) (state : State) :
    List State :=
  state :: (history.reverse.takeWhile fun entry => !reset entry.2).map Prod.fst

theorem since_nil (reset : Action → Bool) (state : State) : since reset [] state = [state] := rfl

theorem since_step (reset : Action → Bool) (history : List (State × Action))
    (state next : State) (action : Action) :
    since reset (history ++ [(state, action)]) next =
      next :: if reset action then [] else since reset history state := by
  unfold since
  rw [List.reverse_append, List.reverse_singleton, List.singleton_append, List.takeWhile_cons]
  cases reset action <;> rfl

/-- The rule for high-water marks. -/
theorem Run.isGreatest_since {reset : Action → Bool} {used mark : State → Nat}
    (initial : ∀ state, machine.Start state → mark state = used state)
    (atReset : ∀ state action next, machine.Reachable state → machine.Step state action next →
      reset action = true → mark next = used next)
    (between : ∀ state action next, machine.Reachable state → machine.Step state action next →
      reset action = false → mark next = mark state ∨ mark next = used next)
    (rises : ∀ state action next, machine.Reachable state → machine.Step state action next →
      reset action = false → mark state ≤ mark next)
    (covers : ∀ state, machine.Reachable state → used state ≤ mark state)
    {history : List (State × Action)} {state : State} (run : machine.Run history state) :
    IsGreatest {count | ∃ visited ∈ since reset history state, used visited = count}
      (mark state) := by
  induction run with
  | @start state atStart =>
      rw [initial state atStart, since_nil]
      constructor
      · exact ⟨state, List.mem_singleton_self state, rfl⟩
      · rintro _ ⟨visited, member, rfl⟩
        rw [List.mem_singleton.mp member]
  | @step history state next action run taken ih =>
      have here : machine.Reachable state := ⟨history, run⟩
      rw [since_step]
      cases isReset : reset action with
      | true =>
          rw [atReset state action next here taken isReset]
          constructor
          · exact ⟨next, List.mem_cons_self, rfl⟩
          · rintro _ ⟨visited, member, rfl⟩
            rw [List.mem_singleton.mp member]
      | false =>
          obtain ⟨⟨visited, member, isMark⟩, most⟩ := ih
          constructor
          · rcases between state action next here taken isReset with same | isUsed
            · exact ⟨visited, List.mem_cons_of_mem next member, isMark.trans same.symm⟩
            · exact ⟨next, List.mem_cons_self, isUsed.symm⟩
          · rintro _ ⟨other, isVisited, rfl⟩
            rcases List.mem_cons.mp isVisited with rfl | earlier
            · exact covers other (here.step taken)
            · exact Nat.le_trans (most ⟨other, earlier, rfl⟩)
                (rises state action next here taken isReset)

end LinuxCTemplate.Foundation.Machine
