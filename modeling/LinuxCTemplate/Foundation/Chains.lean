import Mathlib.Data.List.Chain
import Mathlib.Data.Set.Insert
import LinuxCTemplate.Foundation.Tables

/-!
# Chains with back links

A chain leads from a head over nodes to null.  The head has one link only; a node has, besides
the link to the next, the place of the link that points at it, so that it can be put in or
taken out where it is, without its head.  The rules are stated over the two link functions.
-/

namespace LinuxCTemplate.Foundation

universe u

variable {Place : Type u} {link back link' back' : Place → Place}
  {null head place new entry node : Place} {places front rest rest' : List Place}

/-- The place is linked to the node, and the node knows. -/
def PointsAt (link back : Place → Place) (place node : Place) : Prop :=
  link place = node ∧ back node = place

/-- A chain, its head first. -/
structure Chain (link back : Place → Place) (null : Place) (places : List Place) : Prop where
  nodup : (null :: places).Nodup
  linked : places.IsChain (PointsAt link back)
  ends : ∀ last, places.getLast? = some last → link last = null

theorem isChain_pointsAt_congr (linked : places.IsChain (PointsAt link back))
    (sameLink : ∀ place ∈ places.dropLast, link' place = link place)
    (sameBack : ∀ node ∈ places.tail, back' node = back node) :
    places.IsChain (PointsAt link' back') := by
  induction places with
  | nil => exact List.isChain_nil
  | cons first rest ih =>
      cases rest with
      | nil => exact List.isChain_singleton first
      | cons second rest =>
          obtain ⟨points, linked⟩ := List.isChain_cons_cons.mp linked
          refine List.isChain_cons_cons.mpr ⟨⟨?_, ?_⟩, ih linked ?_ ?_⟩
          · rw [sameLink first (by simp), points.1]
          · rw [sameBack second (by simp), points.2]
          · exact fun place member => sameLink place (List.mem_cons_of_mem first member)
          · exact fun node member => sameBack node (List.mem_cons_of_mem second member)

namespace Chain

theorem congr (chain : Chain link back null places)
    (sameLink : ∀ place ∈ places, link' place = link place)
    (sameBack : ∀ node ∈ places.tail, back' node = back node) : Chain link' back' null places where
  nodup := chain.nodup
  linked := isChain_pointsAt_congr chain.linked
    (fun place member => sameLink place (List.dropLast_subset _ member)) sameBack
  ends last isLast := by
    rw [sameLink last (List.mem_of_getLast? isLast), chain.ends last isLast]

theorem ne_null (chain : Chain link back null places) (member : place ∈ places) : place ≠ null := by
  rintro rfl
  exact (List.nodup_cons.mp chain.nodup).1 member

/-- The part of a chain from a place on. -/
theorem from_place (chain : Chain link back null (front ++ place :: rest)) :
    Chain link back null (place :: rest) where
  nodup := by
    obtain ⟨notNull, nodup⟩ := List.nodup_cons.mp chain.nodup
    exact List.nodup_cons.mpr ⟨fun member => notNull (List.mem_append_right _ member),
      nodup.of_append_right⟩
  linked := (List.isChain_split.mp chain.linked).2
  ends last isLast := by
    refine chain.ends last ?_
    rwa [List.getLast?_append_of_ne_nil _ (List.cons_ne_nil _ _)]

/-- A chain with another part from a place on. -/
theorem graft (chain : Chain link back null (front ++ place :: rest))
    (part : Chain link' back' null (place :: rest')) (disjoint : List.Disjoint front rest')
    (sameLink : ∀ other ∈ front, link' other = link other)
    (sameBack : ∀ node ∈ (front ++ [place]).tail, back' node = back node) :
    Chain link' back' null (front ++ place :: rest') where
  nodup := by
    obtain ⟨notNull, nodup⟩ := List.nodup_cons.mp chain.nodup
    obtain ⟨partNotNull, partNodup⟩ := List.nodup_cons.mp part.nodup
    refine List.nodup_cons.mpr ⟨?_, nodup.of_append_left.append partNodup ?_⟩
    · intro member
      rcases List.mem_append.mp member with inFront | inPart
      · exact notNull (List.mem_append_left _ inFront)
      · exact partNotNull inPart
    · intro other inFront inPart
      rcases List.mem_cons.mp inPart with rfl | inRest
      · exact nodup.disjoint inFront List.mem_cons_self
      · exact disjoint inFront inRest
  linked := by
    refine List.isChain_split.mpr ⟨?_, part.linked⟩
    refine isChain_pointsAt_congr (List.isChain_split.mp chain.linked).1 ?_ sameBack
    rwa [List.dropLast_concat]
  ends last isLast := by
    refine part.ends last ?_
    rwa [List.getLast?_append_of_ne_nil _ (List.cons_ne_nil _ _)] at isLast

theorem link_eq (chain : Chain link back null (front ++ place :: rest)) :
    link place = rest.headD null := by
  have part := chain.from_place
  cases rest with
  | nil => exact part.ends place rfl
  | cons node rest => exact (List.isChain_cons_cons.mp part.linked).1.1

theorem back_eq (chain : Chain link back null (front ++ place :: node :: rest)) :
    back node = place :=
  (List.isChain_cons_cons.mp chain.from_place.linked).1.2

/-- The nodes of a chain behind another first place. -/
theorem rehead (chain : Chain link back null (place :: rest)) (fresh : new ∉ null :: rest)
    (isLink : link' new = link place) (isBack : ∀ node ∈ rest.head?, back' node = new)
    (sameLink : ∀ node ∈ rest, link' node = link node)
    (sameBack : ∀ node ∈ rest.tail, back' node = back node) :
    Chain link' back' null (new :: rest) := by
  rw [List.mem_cons, not_or] at fresh
  obtain ⟨notNew, notIn⟩ := fresh
  obtain ⟨notNull, nodup⟩ := List.nodup_cons.mp chain.nodup
  have restNodup : (null :: new :: rest).Nodup := by
    simp only [List.nodup_cons, List.mem_cons, not_or] at notNull nodup ⊢
    exact ⟨⟨Ne.symm notNew, notNull.2⟩, notIn, nodup.2⟩
  cases rest with
  | nil =>
      refine ⟨restNodup, List.isChain_singleton new, ?_⟩
      intro last isLast
      cases isLast
      exact isLink.trans (chain.ends place rfl)
  | cons node rest =>
      obtain ⟨points, linked⟩ := List.isChain_cons_cons.mp chain.linked
      refine ⟨restNodup, List.isChain_cons_cons.mpr ⟨⟨?_, ?_⟩, ?_⟩, ?_⟩
      · rw [isLink, points.1]
      · exact isBack node rfl
      · refine isChain_pointsAt_congr linked ?_ sameBack
        exact fun place member => sameLink place (List.dropLast_subset _ member)
      · intro last isLast
        rw [List.getLast?_cons_cons] at isLast
        rw [sameLink last (List.mem_of_getLast? isLast)]
        exact chain.ends last (by rwa [List.getLast?_cons_cons])

theorem cons (chain : Chain link back null (node :: rest)) (points : PointsAt link back place node)
    (fresh : place ∉ null :: node :: rest) : Chain link back null (place :: node :: rest) where
  nodup := by
    have nodup := chain.nodup
    simp only [List.nodup_cons, List.mem_cons, not_or] at fresh nodup ⊢
    exact ⟨⟨Ne.symm fresh.1, nodup.1⟩, fresh.2, nodup.2⟩
  linked := List.isChain_cons_cons.mpr ⟨points, chain.linked⟩
  ends last isLast := chain.ends last (by rwa [List.getLast?_cons_cons] at isLast)

end Chain

/-! ## Operations at a place -/

variable [DecidableEq Place]

/-- The links after a node has been put in at a place. -/
structure Inserts (null place new : Place) (link back link' back' : Place → Place) : Prop where
  isLink : link' = Function.update (Function.update link new (link place)) place new
  isBack : ∀ node, node ≠ null →
    back' node = Function.update (Function.update back (link place) new) new place node

/-- The links after the node at a place has been taken out.  Its own may be anything. -/
structure Removes (null place entry : Place) (link back link' back' : Place → Place) : Prop where
  isLink : ∀ other, other ≠ entry → link' other = Function.update link place (link entry) other
  isBack : ∀ node, node ≠ null → node ≠ entry →
    back' node = Function.update back (link entry) place node

/-! Links away from what is written. -/

section Away

variable {other : Place}

theorem Inserts.same_link (inserts : Inserts null place new link back link' back')
    (notPlace : other ≠ place) (notNew : other ≠ new) : link' other = link other := by
  rw [inserts.isLink, Function.update_of_ne notPlace, Function.update_of_ne notNew]

theorem Inserts.same_back (inserts : Inserts null place new link back link' back')
    (notNull : other ≠ null) (notNew : other ≠ new) (notNext : other ≠ link place) :
    back' other = back other := by
  rw [inserts.isBack other notNull, Function.update_of_ne notNew, Function.update_of_ne notNext]

theorem Removes.same_link (removes : Removes null place entry link back link' back')
    (notPlace : other ≠ place) (notEntry : other ≠ entry) : link' other = link other := by
  rw [removes.isLink other notEntry, Function.update_of_ne notPlace]

theorem Removes.same_back (removes : Removes null place entry link back link' back')
    (notNull : other ≠ null) (notEntry : other ≠ entry) (notNext : other ≠ link entry) :
    back' other = back other := by
  rw [removes.isBack other notNull notEntry, Function.update_of_ne notNext]

end Away

namespace Chain

omit [DecidableEq Place] in
theorem notMem_of_split (chain : Chain link back null (front ++ place :: rest)) :
    place ∉ front ∧ place ∉ rest ∧ List.Disjoint front rest := by
  have nodup := (List.nodup_cons.mp chain.nodup).2
  refine ⟨fun inFront => nodup.disjoint inFront List.mem_cons_self, ?_, ?_⟩
  · exact (List.nodup_cons.mp nodup.of_append_right).1
  · exact fun other inFront inRest => nodup.disjoint inFront (List.mem_cons_of_mem place inRest)

omit [DecidableEq Place] in
theorem ne_null_front (chain : Chain link back null (front ++ place :: rest)) {other : Place}
    (member : other ∈ front ++ [place]) : other ≠ null := by
  refine chain.ne_null ?_
  rw [← List.singleton_append, ← List.append_assoc]
  exact List.mem_append_left _ member

omit [DecidableEq Place] in
theorem link_mem (chain : Chain link back null (front ++ place :: rest)) :
    link place ∈ null :: rest := by
  rw [chain.link_eq]
  cases rest <;> simp

omit [DecidableEq Place] in
/-- A link leads on. -/
theorem ne_link (chain : Chain link back null (front ++ place :: rest)) {other : Place}
    (member : other ∈ front ++ [place]) : other ≠ link place := by
  rw [chain.link_eq]
  cases rest with
  | nil => exact chain.ne_null_front member
  | cons node rest =>
      have nodup := (List.nodup_cons.mp chain.nodup).2
      rw [← List.singleton_append, ← List.append_assoc] at nodup
      rintro rfl
      exact nodup.disjoint member List.mem_cons_self

omit [DecidableEq Place] in
/-- A link leads to the next node only. -/
theorem ne_link_behind (chain : Chain link back null (front ++ place :: rest)) {other : Place}
    (member : other ∈ rest.tail) : other ≠ link place := by
  rw [chain.link_eq]
  cases rest with
  | nil => cases member
  | cons node rest =>
      have nodup := (List.nodup_cons.mp (List.nodup_cons.mp chain.from_place.nodup).2).2
      rintro rfl
      exact (List.nodup_cons.mp nodup).1 member

omit [DecidableEq Place] in
theorem link_of_head? (chain : Chain link back null (front ++ place :: rest))
    (isFirst : node ∈ rest.head?) : link place = node := by
  rw [chain.link_eq, List.headD_eq_head?_getD, isFirst]
  rfl

theorem insert (chain : Chain link back null (front ++ place :: rest))
    (fresh : new ∉ null :: (front ++ place :: rest))
    (inserts : Inserts null place new link back link' back') :
    Chain link' back' null (front ++ place :: new :: rest) := by
  obtain ⟨notFront, notRest, disjoint⟩ := chain.notMem_of_split
  simp only [List.mem_cons, List.mem_append, not_or] at fresh
  obtain ⟨newNotNull, newNotFront, newNotPlace, newNotRest⟩ := fresh
  have restNotNull : ∀ {node}, node ∈ rest → node ≠ null :=
    fun member => chain.ne_null (List.mem_append_right _ (List.mem_cons_of_mem _ member))
  -- What followed the place now follows the node.
  have behind : Chain link' back' null (new :: rest) := by
    refine chain.from_place.rehead ?_ ?_ ?_ ?_ ?_
    · simp only [List.mem_cons, not_or]
      exact ⟨newNotNull, newNotRest⟩
    · rw [inserts.isLink, Function.update_of_ne newNotPlace, Function.update_self]
    · intro node isFirst
      have inRest := List.mem_of_mem_head? isFirst
      rw [inserts.isBack node (restNotNull inRest), chain.link_of_head? isFirst,
        Function.update_of_ne (ne_of_mem_of_not_mem inRest newNotRest), Function.update_self]
    · exact fun node inRest => inserts.same_link (ne_of_mem_of_not_mem inRest notRest)
        (ne_of_mem_of_not_mem inRest newNotRest)
    · intro node inTail
      have inRest := List.mem_of_mem_tail inTail
      exact inserts.same_back (restNotNull inRest) (ne_of_mem_of_not_mem inRest newNotRest)
        (chain.ne_link_behind inTail)
  have points : PointsAt link' back' place new := by
    constructor
    · rw [inserts.isLink, Function.update_self]
    · rw [inserts.isBack new newNotNull, Function.update_self]
  have atPlace : Chain link' back' null (place :: new :: rest) := by
    refine behind.cons points ?_
    simp only [List.mem_cons, not_or]
    exact ⟨chain.ne_null (by simp), Ne.symm newNotPlace, notRest⟩
  refine chain.graft atPlace ?_ ?_ ?_
  · exact (List.disjoint_cons_right.mpr ⟨newNotFront, disjoint⟩)
  · exact fun other inFront => inserts.same_link (ne_of_mem_of_not_mem inFront notFront)
      (ne_of_mem_of_not_mem inFront newNotFront)
  · intro node inTail
    have inFront := List.mem_of_mem_tail inTail
    have notNew : node ≠ new := by
      rintro rfl
      simp only [List.mem_append, List.mem_singleton] at inFront
      exact inFront.elim newNotFront newNotPlace
    exact inserts.same_back (chain.ne_null_front inFront) notNew (chain.ne_link inFront)

theorem remove (chain : Chain link back null (front ++ place :: entry :: rest))
    (removes : Removes null place entry link back link' back') :
    Chain link' back' null (front ++ place :: rest) := by
  obtain ⟨notFront, notBehind, _⟩ := chain.notMem_of_split
  have atEntry : Chain link back null (front ++ [place] ++ entry :: rest) := by
    rwa [List.append_assoc]
  obtain ⟨entryNotFront, entryNotRest, disjoint⟩ := atEntry.notMem_of_split
  have notRest : place ∉ rest := mt (List.mem_cons_of_mem entry) notBehind
  have placeNotEntry : place ≠ entry := fun same => notBehind (same ▸ List.mem_cons_self)
  have restNotNull : ∀ {node}, node ∈ rest → node ≠ null :=
    fun member => atEntry.ne_null (List.mem_append_right _ (List.mem_cons_of_mem _ member))
  -- What followed the node now follows the place.
  have atPlace : Chain link' back' null (place :: rest) := by
    refine atEntry.from_place.rehead ?_ ?_ ?_ ?_ ?_
    · simp only [List.mem_cons, not_or]
      exact ⟨chain.ne_null (by simp), notRest⟩
    · rw [removes.isLink place placeNotEntry, Function.update_self]
    · intro node isFirst
      have inRest := List.mem_of_mem_head? isFirst
      rw [removes.isBack node (restNotNull inRest) (ne_of_mem_of_not_mem inRest entryNotRest),
        atEntry.link_of_head? isFirst, Function.update_self]
    · exact fun node inRest => removes.same_link (ne_of_mem_of_not_mem inRest notRest)
        (ne_of_mem_of_not_mem inRest entryNotRest)
    · intro node inTail
      have inRest := List.mem_of_mem_tail inTail
      exact removes.same_back (restNotNull inRest) (ne_of_mem_of_not_mem inRest entryNotRest)
        (atEntry.ne_link_behind inTail)
  refine chain.graft atPlace (List.disjoint_of_disjoint_append_left_left disjoint) ?_ ?_
  · intro other inFront
    have notEntry := ne_of_mem_of_not_mem (List.mem_append_left [place] inFront) entryNotFront
    exact removes.same_link (ne_of_mem_of_not_mem inFront notFront) notEntry
  · intro node inTail
    have inFront := List.mem_of_mem_tail inTail
    exact removes.same_back (chain.ne_null_front inFront)
      (ne_of_mem_of_not_mem inFront entryNotFront)
      (atEntry.ne_link (List.mem_append_left [entry] inFront))

/-- A walk from the head visits the nodes in sequence. -/
theorem walk_eq (chain : Chain link back null (place :: nodes)) {fuel : Nat}
    (enough : nodes.length < fuel) : walk link null fuel (link place) = some nodes := by
  induction nodes generalizing place fuel with
  | nil =>
      obtain ⟨fuel, rfl⟩ := Nat.exists_eq_add_of_lt enough
      rw [chain.ends place rfl, walk, if_pos rfl]
  | cons node nodes ih =>
      cases fuel with
      | zero => cases enough
      | succ fuel =>
          have atNode : Chain link back null ([place] ++ node :: nodes) := chain
          have isNext := @link_eq _ _ _ _ _ [] _ chain
          rw [isNext, List.headD_cons, walk, if_neg (chain.ne_null (by simp)),
            ih atNode.from_place (Nat.lt_of_succ_lt_succ enough), Option.map_some]

end Chain

/-! ## Families of chains -/

/-- Each list is in a chain of its own, and the loose nodes are in none. -/
structure Chains (link back : Place → Place) (null : Place) (lists : ListTable Place)
    (loose : Set Place) : Prop where
  chain : ∀ head nodes, lists head = some nodes → Chain link back null (head :: nodes)
  apart : lists.Apart
  loose : ∀ node ∈ loose, node ≠ null ∧ back node = null ∧ ¬ lists.Member node

namespace Chains

variable {lists : ListTable Place} {loose loose' : Set Place} {before : List Place}

/-- The chain of one head changes; what it has now it had before, or nobody had. -/
theorem replace (chains : Chains link back null lists loose)
    (had : ∀ node ∈ head :: nodes, lists.Member node →
      ∃ before, lists head = some before ∧ node ∈ head :: before)
    (chain : Chain link' back' null (head :: nodes))
    (same : ∀ other others, other ≠ head → lists other = some others →
      (∀ place ∈ other :: others, link' place = link place) ∧
        ∀ node ∈ others, back' node = back node)
    (free : ∀ node ∈ loose', node ≠ null ∧ back' node = null ∧
      ¬ ListTable.Member (Function.update lists head (some nodes)) node) :
    Chains link' back' null (Function.update lists head (some nodes)) loose' where
  chain other others isOther := by
    rcases ListTable.eq_some_of_update isOther with ⟨rfl, rfl⟩ | ⟨different, isOther⟩
    · exact chain
    · obtain ⟨sameLink, sameBack⟩ := same other others different isOther
      exact (chains.chain other others isOther).congr sameLink sameBack
  apart := chains.apart.update had
  loose := free

/-- A list that is given up. -/
theorem drop (chains : Chains link back null lists loose) (head : Place) :
    Chains link back null (Function.update lists head none) loose where
  chain other others isOther := chains.chain other others (ListTable.eq_some_of_drop isOther).2
  apart := chains.apart.drop head
  loose node isLoose := by
    obtain ⟨notNull, isFree, notMember⟩ := chains.loose node isLoose
    refine ⟨notNull, isFree, ?_⟩
    rintro ⟨other, others, isOther, inOther⟩
    exact notMember ⟨other, others, (ListTable.eq_some_of_drop isOther).2, inOther⟩

/-- A place that is in no chain becomes a head. -/
theorem create (chains : Chains link back null lists loose) (fresh : ¬ lists.Member new)
    (notLoose : new ∉ loose) (notNull : new ≠ null)
    (isLink : link' = Function.update link new null) (isBack : back' = back) :
    Chains link' back' null (Function.update lists new (some [])) loose := by
  subst isLink isBack
  refine chains.replace ?_ ⟨?_, List.isChain_singleton new, ?_⟩ ?_ ?_
  · intro node isNew member
    rw [List.mem_singleton.mp isNew] at member
    exact (fresh member).elim
  · simp [Ne.symm notNull]
  · rintro last ⟨⟩
    exact Function.update_self ..
  · intro other others _ isOther
    refine ⟨fun place inOther => Function.update_of_ne ?_ .., fun _ _ => rfl⟩
    rintro rfl
    exact fresh ⟨other, others, isOther, inOther⟩
  · intro node isLoose
    obtain ⟨notNull, isFree, notMember⟩ := chains.loose node isLoose
    refine ⟨notNull, isFree, fun member => ?_⟩
    rcases member.of_update with isNew | member
    · exact notLoose (List.mem_singleton.mp isNew ▸ isLoose)
    · exact notMember member

/-- A node that is in no chain is initialised. -/
theorem free (chains : Chains link back null lists loose) (fresh : ¬ lists.Member new)
    (notNull : new ≠ null) (isLink : link' = Function.update link new null)
    (isBack : back' = Function.update back new null) :
    Chains link' back' null lists (insert new loose) := by
  subst isLink isBack
  have away : ∀ {head nodes node}, lists head = some nodes → node ∈ head :: nodes → node ≠ new := by
    rintro head nodes _ isHead member rfl
    exact fresh ⟨head, nodes, isHead, member⟩
  constructor
  case chain =>
    intro head nodes isHead
    refine (chains.chain head nodes isHead).congr ?_ ?_
    · exact fun place member => Function.update_of_ne (away isHead member) ..
    · exact fun node member =>
        Function.update_of_ne (away isHead (List.mem_cons_of_mem head member)) ..
  case apart => exact chains.apart
  case loose =>
    rintro node (rfl | isLoose)
    · exact ⟨notNull, Function.update_self .., fresh⟩
    · obtain ⟨notNull, isFree, notMember⟩ := chains.loose node isLoose
      refine ⟨notNull, ?_, notMember⟩
      rw [Function.update_apply, isFree, ite_self]

section Operations

variable (chains : Chains link back null lists loose) (isHead : lists head = some before)

include chains isHead

omit [DecidableEq Place] in
theorem ne_of_other {other : Place} {others : List Place} (different : other ≠ head)
    (isOther : lists other = some others) (inOther : node ∈ other :: others)
    (member : place ∈ null :: head :: before) : node ≠ place := by
  rintro rfl
  rcases List.mem_cons.mp member with isNull | inChain
  · exact (chains.chain other others isOther).ne_null inOther isNull
  · exact chains.apart other head others before different isOther isHead inOther inChain

omit [DecidableEq Place] in
theorem ne_of_loose (isLoose : node ∈ loose) (member : place ∈ null :: head :: before) :
    node ≠ place := by
  obtain ⟨notNull, _, notMember⟩ := chains.loose node isLoose
  rintro rfl
  rcases List.mem_cons.mp member with isNull | inChain
  · exact notNull isNull
  · exact notMember ⟨head, before, isHead, inChain⟩

theorem insert_at (isSplit : head :: before = front ++ place :: rest) (fresh : ¬ lists.Member new)
    (notNull : new ≠ null) (inserts : Inserts null place new link back link' back')
    (isNew : head :: nodes = front ++ place :: new :: rest) :
    Chains link' back' null (Function.update lists head (some nodes)) (loose \ {new}) := by
  have chain := chains.chain head before isHead
  have newNotIn : new ∉ head :: before := fun member => fresh ⟨head, before, isHead, member⟩
  rw [isSplit] at chain newNotIn
  have placeIn : place ∈ null :: head :: before := by simp [isSplit]
  have nextIn : link place ∈ null :: head :: before := by
    have member := chain.link_mem
    rw [isSplit]
    simp only [List.mem_cons, List.mem_append] at member ⊢
    tauto
  have inOld : ∀ node ∈ head :: nodes, node = new ∨ node ∈ head :: before := by
    intro node member
    rw [isNew] at member
    rw [isSplit]
    simp only [List.mem_cons, List.mem_append] at member ⊢
    tauto
  refine chains.replace ?_ ?_ ?_ ?_
  · intro node inNew member
    refine ⟨before, isHead, (inOld node inNew).resolve_left ?_⟩
    rintro rfl
    exact fresh member
  · rw [isNew]
    refine chain.insert ?_ inserts
    rw [List.mem_cons, not_or]
    exact ⟨notNull, newNotIn⟩
  · intro other others different isOther
    have notNew : ∀ node ∈ other :: others, node ≠ new := by
      rintro _ inOther rfl
      exact fresh ⟨other, others, isOther, inOther⟩
    have notIn : ∀ {place}, place ∈ null :: head :: before → ∀ node ∈ other :: others,
        node ≠ place :=
      fun member node inOther => chains.ne_of_other isHead different isOther inOther member
    constructor
    · exact fun node inOther =>
        inserts.same_link (notIn placeIn node inOther) (notNew node inOther)
    · intro node inOthers
      have inOther := List.mem_cons_of_mem other inOthers
      exact inserts.same_back (notIn List.mem_cons_self node inOther) (notNew node inOther)
        (notIn nextIn node inOther)
  · rintro node ⟨isLoose, notNew⟩
    obtain ⟨nodeNotNull, isFree, notMember⟩ := chains.loose node isLoose
    refine ⟨nodeNotNull, ?_, fun member => ?_⟩
    · rw [inserts.same_back nodeNotNull notNew (chains.ne_of_loose isHead isLoose nextIn), isFree]
    · rcases member.of_update with inNew | member
      · rcases inOld node inNew with isNew | inBefore
        · exact notNew isNew
        · exact notMember ⟨head, before, isHead, inBefore⟩
      · exact notMember member

/-- A node is taken out of its chain; it may be loose now. -/
theorem remove_at (isSplit : head :: before = front ++ place :: entry :: rest)
    (removes : Removes null place entry link back link' back')
    (freed : ∀ node ∈ loose', node ∈ loose ∨ node = entry ∧ back' node = null)
    (isNew : head :: nodes = front ++ place :: rest) :
    Chains link' back' null (Function.update lists head (some nodes)) loose' := by
  have chain := chains.chain head before isHead
  rw [isSplit] at chain
  have atEntry : Chain link back null (front ++ [place] ++ entry :: rest) := by
    rwa [List.append_assoc]
  obtain ⟨notFront, notRest, _⟩ := atEntry.notMem_of_split
  have placeIn : place ∈ null :: head :: before := by simp [isSplit]
  have entryIn : entry ∈ head :: before := by simp [isSplit]
  have nextIn : link entry ∈ null :: head :: before := by
    have member := atEntry.link_mem
    rw [isSplit]
    simp only [List.mem_cons, List.mem_append] at member ⊢
    tauto
  have inOld : ∀ node ∈ head :: nodes, node ∈ head :: before := by
    intro node member
    rw [isNew] at member
    rw [isSplit]
    simp only [List.mem_cons, List.mem_append] at member ⊢
    tauto
  refine chains.replace ?_ ?_ ?_ ?_
  · exact fun node inNew _ => ⟨before, isHead, inOld node inNew⟩
  · rw [isNew]
    exact chain.remove removes
  · intro other others different isOther
    have notIn : ∀ {place}, place ∈ null :: head :: before → ∀ node ∈ other :: others,
        node ≠ place :=
      fun member node inOther => chains.ne_of_other isHead different isOther inOther member
    have notEntry := @notIn entry (List.mem_cons_of_mem null entryIn)
    constructor
    · exact fun node inOther =>
        removes.same_link (notIn placeIn node inOther) (notEntry node inOther)
    · intro node inOthers
      have inOther := List.mem_cons_of_mem other inOthers
      exact removes.same_back (notIn List.mem_cons_self node inOther) (notEntry node inOther)
        (notIn nextIn node inOther)
  · intro node isLoose'
    rcases freed node isLoose' with isLoose | ⟨rfl, isFree⟩
    · obtain ⟨notNull, isFree, notMember⟩ := chains.loose node isLoose
      have notIn : ∀ {place}, place ∈ null :: head :: before → node ≠ place :=
        fun member => chains.ne_of_loose isHead isLoose member
      refine ⟨notNull, ?_, ?_⟩
      · rw [removes.same_back notNull (notIn (List.mem_cons_of_mem null entryIn)) (notIn nextIn),
          isFree]
      · refine chains.apart.not_member_update isHead ?_ (fun member => (notMember member).elim)
        exact fun inNew => notMember ⟨head, before, isHead, inOld node inNew⟩
    · refine ⟨atEntry.ne_null (by simp), isFree, ?_⟩
      refine chains.apart.not_member_update isHead ?_ (fun _ => entryIn)
      rw [isNew]
      simp only [List.mem_cons, List.mem_append] at notFront ⊢
      tauto

omit [DecidableEq Place] in
/-- A node is behind the place of its back link. -/
theorem split_at (member : entry ∈ before) : ∃ front xs ys, before = xs ++ entry :: ys ∧
    entry ∉ xs ∧ head :: xs = front ++ [back entry] := by
  obtain ⟨xs, ys, isBefore, notBefore⟩ := List.eq_append_cons_of_mem member
  obtain isNil | ⟨front, place, isFront⟩ := List.eq_nil_or_concat (head :: xs)
  · cases isNil
  · rw [List.concat_eq_append] at isFront
    have chain := chains.chain head before isHead
    rw [isBefore, ← List.cons_append, isFront, List.append_assoc, List.singleton_append] at chain
    rw [← chain.back_eq] at isFront
    exact ⟨front, xs, ys, isBefore, notBefore, isFront⟩

omit [DecidableEq Place] in
/-- The back link leads to the place of the node. -/
theorem link_back (member : entry ∈ before) :
    link (back entry) = entry ∧ back entry ∈ head :: before := by
  obtain ⟨front, xs, ys, isBefore, _, isFront⟩ := chains.split_at isHead member
  have isSplit : head :: before = front ++ back entry :: entry :: ys := by
    rw [isBefore, ← List.cons_append, isFront, List.append_assoc, List.singleton_append]
  have chain := chains.chain head before isHead
  rw [isSplit] at chain ⊢
  exact ⟨chain.link_eq, by simp⟩

omit [DecidableEq Place] in
/-- A link leads to a node of the chain, or to null. -/
theorem link_mem (member : place ∈ head :: before) (notNull : link place ≠ null) :
    link place ∈ before := by
  obtain ⟨front, rest, isSplit⟩ := List.append_of_mem member
  have chain := chains.chain head before isHead
  rw [isSplit] at chain
  have inRest : link place ∈ rest := (List.mem_cons.mp chain.link_mem).resolve_left notNull
  cases front with
  | nil =>
      obtain ⟨rfl, rfl⟩ := List.cons.inj isSplit
      exact inRest
  | cons first front =>
      obtain ⟨_, rfl⟩ := List.cons.inj isSplit
      exact List.mem_append_right _ (List.mem_cons_of_mem _ inRest)

theorem insert_first (fresh : ¬ lists.Member new) (notNull : new ≠ null)
    (inserts : Inserts null head new link back link' back') :
    Chains link' back' null (Function.update lists head (some (new :: before))) (loose \ {new}) :=
  chains.insert_at isHead (List.nil_append _).symm fresh notNull inserts (List.nil_append _).symm

theorem insert_after (member : entry ∈ before) (fresh : ¬ lists.Member new) (notNull : new ≠ null)
    (inserts : Inserts null entry new link back link' back') :
    Chains link' back' null (Function.update lists head (some (insertAfter entry new before)))
      (loose \ {new}) := by
  obtain ⟨xs, ys, isBefore, notBefore⟩ := List.eq_append_cons_of_mem member
  have isSplit : head :: before = head :: xs ++ entry :: ys := by
    rw [isBefore, List.cons_append]
  have isNew : head :: insertAfter entry new before = head :: xs ++ entry :: new :: ys := by
    rw [isBefore, insertAfter_append notBefore, List.cons_append]
  exact chains.insert_at isHead isSplit fresh notNull inserts isNew

theorem insert_before (member : entry ∈ before) (fresh : ¬ lists.Member new) (notNull : new ≠ null)
    (inserts : Inserts null (back entry) new link back link' back') :
    Chains link' back' null (Function.update lists head (some (insertBefore entry new before)))
      (loose \ {new}) := by
  obtain ⟨front, xs, ys, isBefore, notBefore, isFront⟩ := chains.split_at isHead member
  have isSplit : head :: before = front ++ back entry :: entry :: ys := by
    rw [isBefore, ← List.cons_append, isFront, List.append_assoc, List.singleton_append]
  have isNew : head :: insertBefore entry new before =
      front ++ back entry :: new :: entry :: ys := by
    rw [isBefore, insertBefore_append notBefore, ← List.cons_append, isFront, List.append_assoc,
      List.singleton_append]
  exact chains.insert_at isHead isSplit fresh notNull inserts isNew

theorem remove (member : entry ∈ before)
    (removes : Removes null (back entry) entry link back link' back')
    (freed : ∀ node ∈ loose', node ∈ loose ∨ node = entry ∧ back' node = null) :
    Chains link' back' null (Function.update lists head (some (before.erase entry))) loose' := by
  obtain ⟨front, xs, ys, isBefore, notBefore, isFront⟩ := chains.split_at isHead member
  have isSplit : head :: before = front ++ back entry :: entry :: ys := by
    rw [isBefore, ← List.cons_append, isFront, List.append_assoc, List.singleton_append]
  have isNew : head :: before.erase entry = front ++ back entry :: ys := by
    rw [isBefore, List.erase_append_right _ notBefore, List.erase_cons_head, ← List.cons_append,
      isFront, List.append_assoc, List.singleton_append]
  exact chains.remove_at isHead isSplit removes freed isNew

end Operations

end Chains

end LinuxCTemplate.Foundation
