import LinuxCTemplate.Lgu.HlistPrograms
import Mathlib.Order.BooleanAlgebra.Set

/-!
# Walks that deal nodes

`hlist_for_each_safe` with a body that takes each node out of its list and adds it to a bucket.
-/

namespace LinuxCTemplate.Hlist

open Foundation

/-- The body of a loop that moves every node to the front of its bucket. -/
def moveToBucket (bucket : Nat → Nat) (node : Nat) (mem : Memory) : Memory :=
  hlistAddHead node (bucket node) (hlistDel node mem)

/-- Nodes have been put in front of their buckets, one after the other. -/
def dealt (bucket : Nat → Nat) (lists : ListTable Nat) (nodes : List Nat) : ListTable Nat :=
  fun target => (lists target).map ((nodes.filter (bucket · = target)).reverse ++ ·)

section Dealt

variable {bucket : Nat → Nat} {lists : ListTable Nat} {nodes others : List Nat} {head entry : Nat}

theorem dealt_nil : dealt bucket lists [] = lists := by
  funext target
  cases target_list : lists target <;> simp [dealt, target_list]

/-- What is left of a list lies behind the nodes it has been given. -/
theorem dealt_update (head : Nat) (rest : List Nat) :
    dealt bucket (Function.update lists head (some rest)) nodes =
      Function.update (dealt bucket lists nodes) head
        (some ((nodes.filter (bucket · = head)).reverse ++ rest)) := by
  funext target
  by_cases same : target = head
  · subst same
    simp [dealt]
  · rw [Function.update_of_ne same, dealt, Function.update_of_ne same, dealt]

theorem dealt_snoc (isBucket : dealt bucket lists nodes (bucket entry) = some others) :
    dealt bucket lists (nodes ++ [entry]) =
      Function.update (dealt bucket lists nodes) (bucket entry) (some (entry :: others)) := by
  funext target
  by_cases same : target = bucket entry
  · subst same
    obtain ⟨before, isBefore, rfl⟩ := Option.map_eq_some_iff.mp isBucket
    simp [dealt, isBefore]
  · rw [Function.update_of_ne same]
    simp [dealt, Ne.symm same]

/-- A bucket stays one while other lists get shorter. -/
theorem exists_dealt (rest : List Nat) {target : Nat} (isList : lists target ≠ none) :
    ∃ others, dealt bucket (Function.update lists head (some rest)) nodes target = some others := by
  obtain ⟨before, isBefore⟩ := Option.ne_none_iff_exists'.mp isList
  by_cases same : target = head
  · exact ⟨_, by rw [dealt, same, Function.update_self, Option.map_some]⟩
  · exact ⟨_, by rw [dealt, Function.update_of_ne same, isBefore, Option.map_some]⟩

end Dealt

section Walk

variable {known : Known} {mem mem' : Memory} {lists : ListTable Nat} {unhashed : Set Nat}
  {head entry : Nat} {front rest : List Nat} {bucket : Nat → Nat}

/-- One round of the loop. -/
theorem Does.moveToBucket (spaced : known.Spaced) (does : Does known mem mem' ⟨lists, unhashed⟩)
    (isHead : lists head = some (front ++ entry :: rest)) {others : List Nat}
    (isBucket : Function.update lists head (some (front ++ rest)) (bucket entry) = some others) :
    Does known mem (Hlist.moveToBucket bucket entry mem') ⟨Function.update
      (Function.update lists head (some (front ++ rest))) (bucket entry)
        (some (entry :: others)), unhashed⟩ := by
  obtain ⟨holds, writes⟩ := does
  have inNodes : entry ∈ front ++ entry :: rest := by simp
  have isNode := (holds.heads head _ isHead).2 inNodes
  -- The chain has the node once.
  have nodup : ((0 :: head :: front) ++ entry :: rest).Nodup :=
    (holds.chains.chain head _ isHead).nodup
  have notIn := (List.nodup_cons.mp (List.nodup_middle.mp nodup)).1
  simp only [List.cons_append, List.mem_cons, List.mem_append, not_or] at notIn
  obtain ⟨_, notHead, notFront, notRest⟩ := notIn
  have taken := holds.does_hlistDel spaced isHead inNodes
  rw [List.erase_append_right _ notFront, List.erase_cons_head] at taken
  have notLeft : entry ∉ head :: (front ++ rest) := by simp [notHead, notFront, notRest]
  have fresh := holds.chains.apart.not_member_update isHead notLeft fun _ =>
    List.mem_cons_of_mem head inNodes
  have notUnhashed : unhashed \ {entry} = unhashed := by
    refine Set.sdiff_singleton_eq_self fun isUnhashed => ?_
    exact (holds.chains.loose entry isUnhashed).2.2
      ⟨head, _, isHead, List.mem_cons_of_mem head inNodes⟩
  have added := taken.1.does_hlistAddHead spaced isBucket isNode fresh
  rw [notUnhashed] at added
  exact ⟨added.1, (writes.trans taken.2).trans added.2⟩

/-- The rest of the loop, with the nodes before in their buckets. -/
theorem Does.forEachSafe (spaced : known.Spaced) {done : List Nat}
    (buckets : ∀ node ∈ rest, lists (bucket node) ≠ none)
    (does : Does known mem mem'
      ⟨dealt bucket (Function.update lists head (some rest)) done, unhashed⟩)
    {fuel : Nat} (enough : rest.length < fuel) :
    ∃ last, hlistForEachSafe (Hlist.moveToBucket bucket) fuel (rest.headD 0) mem' =
        some (rest, last) ∧
      Does known mem last
        ⟨dealt bucket (Function.update lists head (some [])) (done ++ rest), unhashed⟩ := by
  induction rest generalizing mem' done fuel with
  | nil =>
      obtain ⟨fuel, rfl⟩ := Nat.exists_eq_add_of_lt enough
      refine ⟨mem', ?_, by rwa [List.append_nil]⟩
      simp [hlistForEachSafe]
  | cons entry rest ih =>
      cases fuel with
      | zero => cases enough
      | succ fuel =>
          rw [dealt_update] at does
          have isHead := @Function.update_self Nat _ _ head
            (some ((done.filter (bucket · = head)).reverse ++ entry :: rest))
            (dealt bucket lists done)
          have chain := does.1.chain isHead
          have notNull : entry ≠ 0 := chain.ne_null (by simp)
          have isNext : link mem' entry = rest.headD 0 :=
            @Chain.link_eq _ _ _ _ _ (head :: (done.filter (bucket · = head)).reverse) _ chain
          obtain ⟨others, isBucket⟩ := @exists_dealt bucket lists done head rest _
            (buckets entry List.mem_cons_self)
          have after := does.moveToBucket spaced isHead
            (by rwa [Function.update_idem, ← dealt_update])
          rw [Function.update_idem, ← dealt_update, ← dealt_snoc isBucket] at after
          obtain ⟨last, visited, result⟩ := ih (fun node member =>
            buckets node (List.mem_cons_of_mem entry member)) after (Nat.lt_of_succ_lt_succ enough)
          refine ⟨last, ?_, ?_⟩
          · rw [List.headD_cons, hlistForEachSafe, if_neg notNull, isNext]
            simp only [visited, Option.map_some]
          · rwa [List.append_assoc] at result

end Walk

/-- `hlist_for_each_safe` with a body that deletes the node and adds it in front of its bucket
visits every node once, in sequence.  Every bucket, the walked list too, has its nodes in front
then, the last one first, and the lists besides are as before. -/
theorem forEachSafe_deals {known : Known} (spaced : known.Spaced) {mem : Memory} {state : Hlists}
    (holds : Holds known mem state) {head : Nat} {nodes : List Nat}
    (isHead : state.lists head = some nodes) (bucket : Nat → Nat)
    (buckets : ∀ node ∈ nodes, state.lists (bucket node) ≠ none) {fuel : Nat}
    (enough : nodes.length < fuel) :
    ∃ last, hlistForEachSafe (moveToBucket bucket) fuel (link mem head) mem = some (nodes, last) ∧
      Does known mem last
        ⟨dealt bucket (Function.update state.lists head (some [])) nodes, state.unhashed⟩ := by
  have first : link mem head = nodes.headD 0 :=
    @Chain.link_eq _ _ _ _ _ [] _ (holds.chain isHead)
  have same : dealt bucket (Function.update state.lists head (some nodes)) [] = state.lists := by
    rw [dealt_nil, ← isHead, Function.update_eq_self]
  have does : Does known mem mem
      ⟨dealt bucket (Function.update state.lists head (some nodes)) [], state.unhashed⟩ := by
    rw [same]
    exact ⟨holds, fun _ _ => rfl⟩
  rw [first]
  exact does.forEachSafe spaced buckets enough

/-- All three nodes go into the first bucket. -/
def fillBucket : List HlistOp :=
  [.initHlistHead 4096, .initHlistHead 4104, .hlistAddHead 8192 4096, .hlistAddHead 12288 4096,
    .hlistAddHead 16384 4096]

/-- One node goes to the other bucket, and two stay. -/
theorem forEachSafe_deals_fillBucket :
    let mem := runOps fillBucket fun _ => 0
    let bucket := fun node => if node = 12288 then 4104 else 4096
    ∃ last, hlistForEachSafe (moveToBucket bucket) 4 (link mem 4096) mem =
        some ([16384, 12288, 8192], last) ∧
      ReadsAs last 4096 [8192, 16384] ∧ ReadsAs last 4104 [12288] := by
  intro mem bucket
  have start : (hlistMachine twoBuckets).Run [] ⟨fun _ => none, ∅⟩ := .start rfl
  have first := start.step ⟨by decide, .initHead 4096⟩
  have second := first.step ⟨by decide, .initHead 4104⟩
  have third := second.step ⟨by decide, @HlistStep.addHead _ 8192 4096 []
    (fresh_of_run second (by decide)) rfl⟩
  have fourth := third.step ⟨by decide, @HlistStep.addHead _ 12288 4096 [8192]
    (fresh_of_run third (by decide)) rfl⟩
  have fifth := fourth.step ⟨by decide, @HlistStep.addHead _ 16384 4096 [12288, 8192]
    (fresh_of_run fourth (by decide)) rfl⟩
  have does := does_runOps spaced_twoBuckets fifth fun _ => 0
  obtain ⟨last, visited, holds, _⟩ := forEachSafe_deals spaced_twoBuckets does.1
    (rfl : Hlists.lists _ 4096 = some [16384, 12288, 8192]) bucket (by decide)
    (by decide : [16384, 12288, 8192].length < 4)
  exact ⟨last, visited, holds.readsAs spaced_twoBuckets rfl, holds.readsAs spaced_twoBuckets rfl⟩

end LinuxCTemplate.Hlist
