import LinuxCTemplate.Lgu.ListLinks

/-!
# Walks that move entries

`list_for_each_safe` with a body that takes the entry it is at out of the list.
-/

namespace LinuxCTemplate.ListHead

open Foundation

/-! ## Walks that move entries -/

section Partition

variable {known : List Nat} {mem : Memory} {lists : ListTable Nat} {head other : Nat}
  {nodes others : List Nat}

/-- The body of a loop that moves entries to the end of another list. -/
def moveIf (moves : Nat → Bool) (other entry : Nat) (mem : Memory) : Memory :=
  if moves entry then listMoveTail entry other mem else mem

/-- Two lists of a family, and the others as before. -/
def withLists (lists : ListTable Nat) (head other : Nat) (nodes others : List Nat) :
    ListTable Nat :=
  Function.update (Function.update lists head (some nodes)) other (some others)

theorem withLists_head (different : head ≠ other) :
    withLists lists head other nodes others head = some nodes := by
  rw [withLists, Function.update_of_ne different, Function.update_self]

theorem withLists_update (different : head ≠ other) (nodes' others' : List Nat) :
    Function.update (Function.update (withLists lists head other nodes others) head
      (some nodes')) other (some others') = withLists lists head other nodes' others' := by
  unfold withLists
  rw [Function.update_comm different.symm, Function.update_idem, Function.update_idem]

/-- One round of the loop at an entry. -/
theorem Does.moveIf {mem' : Memory} {kept rest : List Nat} {entry : Nat} (moves : Nat → Bool)
    (spaced : Spaced known) (different : head ≠ other)
    (does : Does known mem mem' (withLists lists head other (kept ++ entry :: rest) others)) :
    Does known mem (ListHead.moveIf moves other entry mem') (withLists lists head other
      (if moves entry then kept ++ rest else kept ++ entry :: rest)
      (if moves entry then others ++ [entry] else others)) := by
  unfold ListHead.moveIf
  obtain ⟨holds, writes⟩ := does
  split
  next =>
    have isHead : withLists lists head other (kept ++ entry :: rest) others head =
        some (kept ++ entry :: rest) := withLists_head different
    have notBefore : entry ∉ kept := by
      have ring := holds.rings.ring head _ isHead
      exact fun inKept => (List.nodup_cons.mp ring.nodup).2.disjoint inKept List.mem_cons_self
    have isOther : Function.update (withLists lists head other (kept ++ entry :: rest) others) head
        (some ((kept ++ entry :: rest).erase entry)) other = some others := by
      rw [Function.update_of_ne different.symm, withLists, Function.update_self]
    obtain ⟨moved, writesMore⟩ := holds.does_listMoveTail spaced
      (.inside isHead (List.mem_append_right _ List.mem_cons_self)) isOther List.mem_cons_self
    rw [withLists_update different, putBefore, if_pos rfl, List.erase_append_right _ notBefore,
      List.erase_cons_head] at moved
    exact ⟨moved, writes.trans writesMore⟩
  next => exact ⟨holds, writes⟩

/-- The rest of the loop, with `kept` behind it and `n` the node after `pos`. -/
theorem Does.forEachSafe {mem' : Memory} {kept rest : List Nat} (moves : Nat → Bool)
    (spaced : Spaced known) (different : head ≠ other)
    (does : Does known mem mem' (withLists lists head other (kept ++ rest) others)) {fuel : Nat}
    (enough : rest.length < fuel) :
    ∃ last, listForEachSafe head (ListHead.moveIf moves other) fuel (rest.headD head)
        (next mem' (rest.headD head)) mem' = some (rest, last) ∧
      Does known mem last (withLists lists head other
        (kept ++ rest.filter (fun entry => !moves entry)) (others ++ rest.filter moves)) := by
  induction rest generalizing mem' kept others fuel with
  | nil =>
      obtain ⟨fuel, rfl⟩ := Nat.exists_eq_add_of_lt enough
      refine ⟨mem', ?_, by simpa using does⟩
      simp [listForEachSafe]
  | cons entry rest ih =>
      cases fuel with
      | zero => cases enough
      | succ fuel =>
          have ring := does.1.rings.ring head _ (withLists_head different)
          have notHead : entry ≠ head := by
            rintro rfl
            exact (List.nodup_cons.mp ring.nodup).1 (by simp)
          have isNext : next mem' entry = rest.headD head := by
            rw [ring.rotate.next_head]
            cases rest <;> rfl
          have after := does.moveIf moves spaced different
          have less := Nat.lt_of_succ_lt_succ enough
          rw [List.headD_cons, listForEachSafe, if_neg notHead, isNext]
          cases moved : moves entry with
          | true =>
              simp only [moved, if_true] at after
              obtain ⟨last, visited, result⟩ := ih after less
              refine ⟨last, ?_, ?_⟩
              · simp only [visited, Option.map_some]
              · simpa [moved] using result
          | false =>
              simp only [moved, Bool.false_eq_true, if_false] at after
              rw [← List.singleton_append, ← List.append_assoc] at after
              obtain ⟨last, visited, result⟩ := ih after less
              refine ⟨last, ?_, ?_⟩
              · simp only [visited, Option.map_some]
              · simpa [moved] using result

end Partition

/-- `list_for_each_safe` with a body that moves some of the entries to the end of another list
visits every entry once, in sequence, and divides the list: what is moved follows the other
list, what is not stays, both in sequence, and the lists besides are as before. -/
theorem forEachSafe_partitions {known : List Nat} (spaced : Spaced known) {mem : Memory}
    {lists : ListTable Nat} (holds : Holds known mem lists) {head other : Nat}
    (different : head ≠ other) {nodes others : List Nat} (isHead : lists head = some nodes)
    (isOther : lists other = some others) (moves : Nat → Bool) {fuel : Nat}
    (enough : nodes.length < fuel) :
    ∃ last, listForEachSafe head (moveIf moves other) fuel (next mem head)
        (next mem (next mem head)) mem = some (nodes, last) ∧
      Does known mem last (withLists lists head other
        (nodes.filter fun entry => !moves entry) (others ++ nodes.filter moves)) := by
  have same : withLists lists head other ([] ++ nodes) others = lists := by
    rw [withLists, List.nil_append, ← isHead, Function.update_eq_self, ← isOther,
      Function.update_eq_self]
  have does : Does known mem mem (withLists lists head other ([] ++ nodes) others) := by
    rw [same]
    exact ⟨holds, fun _ _ => rfl⟩
  rw [(holds.rings.ring head nodes isHead).next_head]
  exact does.forEachSafe moves spaced different enough

/-- Both entries go into the first list. -/
def fillFirst : List ListOp :=
  [.initListHead 4096, .initListHead 8192, .listAddTail 12288 4096, .listAddTail 16384 4096]

theorem forEachSafe_partitions_fillFirst :
    let mem := runOps fillFirst fun _ => 0
    ∃ last, listForEachSafe 4096 (moveIf (· == 12288) 8192) 3 (next mem 4096)
        (next mem (next mem 4096)) mem = some ([12288, 16384], last) ∧
      ReadsAs last 4096 [16384] ∧ ReadsAs last 8192 [12288] := by
  have start : (listMachine fourNodes).Run [] fun _ => none := .start rfl
  have first := start.step ⟨by decide, @ListStep.init _ 4096 (fresh_of_run start (by decide))⟩
  have second := first.step ⟨by decide, @ListStep.init _ 8192 (fresh_of_run first (by decide))⟩
  have third := second.step ⟨by decide, @ListStep.addTail _ 12288 4096 4096 []
    (fresh_of_run second (by decide)) rfl List.mem_cons_self⟩
  have fourth := third.step ⟨by decide, @ListStep.addTail _ 16384 4096 4096 [12288]
    (fresh_of_run third (by decide)) rfl List.mem_cons_self⟩
  have does := does_runOps spaced_fourNodes fourth fun _ => 0
  obtain ⟨last, visited, holds, _⟩ := forEachSafe_partitions spaced_fourNodes does.1
    (by decide : 4096 ≠ 8192) (rfl : _ = some [12288, 16384]) (rfl : _ = some []) (· == 12288)
    (by decide : [12288, 16384].length < 3)
  refine ⟨last, visited, holds.readsAs ?_, holds.readsAs ?_⟩
  · exact withLists_head (by decide)
  · exact Function.update_self ..

end LinuxCTemplate.ListHead
