import Compi.BranchCoverage
import Compi.RecordedPath

/-!
# Aligned constraints after a prediction

After a correct prediction the searches go on at the next constraint of the
new execution, as if its constraints up to the flipped one were those of the
old execution.  Recording may have dropped the flipped one.
-/

namespace Compi

namespace SymbolicPath

/-- The outcome of the last symbolic event of a branch. -/
def lastOutcome
    (events : List BranchEvent)
    (bid : BranchId) : Option BranchState :=
  (events.reverse.find? fun event =>
    decide (event.bid = bid) && event.constraint.isSome).map
      BranchEvent.state

/-- Whether recording keeps the constraint of an event after others. -/
def Kept (before : List BranchEvent) (event : BranchEvent) : Prop :=
  event.constraint.isSome = true ∧
    lastOutcome before event.bid ≠ some event.state

instance (before : List BranchEvent) (event : BranchEvent) :
    Decidable (Kept before event) :=
  inferInstanceAs (Decidable (_ ∧ _))

variable {before events : List BranchEvent} {event : BranchEvent}

theorem record_concat (before : List BranchEvent) (event : BranchEvent) :
    record (before ++ [event]) = (record before).pushEvent event := by
  rw [record, List.foldl_append]
  rfl

theorem length_branches_record (events : List BranchEvent) :
    (record events).branches.length = events.length := by
  rw [(records_record events).branches, List.length_map]

theorem lastOutcome_concat (bid : BranchId) :
    lastOutcome (before ++ [event]) bid =
      if event.bid = bid ∧ event.constraint.isSome = true then
        some event.state
      else
        lastOutcome before bid := by
  unfold lastOutcome
  rw [List.reverse_append, List.reverse_singleton, List.singleton_append,
    List.find?_cons]
  by_cases isLast : event.bid = bid ∧ event.constraint.isSome = true
  · simp [isLast]
  · have passed :
        (decide (event.bid = bid) && event.constraint.isSome) = false := by
      rw [Bool.eq_false_iff]
      intro found
      apply isLast
      simpa using found
    rw [passed, if_neg isLast]

/-- The table of a recorded path holds the outcomes reported last. -/
theorem lookup_branchesHash_record
    (events : List BranchEvent)
    (bid : BranchId) :
    (record events).branchesHash.lookup bid = lastOutcome events bid := by
  induction events using List.reverseRecOn with
  | nil =>
      rfl
  | append_singleton before event inductionHypothesis =>
      rw [record_concat, lastOutcome_concat]
      unfold pushEvent push
      cases symbolic : event.constraint with
      | none =>
          simpa using inductionHypothesis
      | some c =>
          by_cases retained :
              (record before).retains event.bid event.state = true
          · simp only [retained, ↓reduceIte, Option.isSome_some, and_true]
            by_cases same : event.bid = bid
            · rw [if_pos same, same, AList.lookup_insert]
            · rw [if_neg same, AList.lookup_insert_ne (Ne.symm same)]
              exact inductionHypothesis
          · simp only [retained, Bool.false_eq_true, ↓reduceIte,
              Option.isSome_some, and_true]
            have known :
                (record before).branchesHash.lookup event.bid =
                  some event.state := by
              simpa [retains] using retained
            split
            · next same =>
                rw [← same]
                exact known
            · exact inductionHypothesis

/-- A constraint is kept if the path retains its branch. -/
theorem kept_iff
    (before : List BranchEvent)
    (event : BranchEvent) :
    Kept before event ↔
      event.constraint.isSome = true ∧
        (record before).retains event.bid event.state = true := by
  unfold Kept retains
  rw [lookup_branchesHash_record, decide_eq_true_iff]

/-- Recording an event adds its position if its constraint is kept. -/
theorem constraintsIdx_record_concat
    (before : List BranchEvent)
    (event : BranchEvent) :
    (record (before ++ [event])).constraintsIdx =
      (record before).constraintsIdx ++
        if Kept before event then [before.length] else [] := by
  have isKept := kept_iff before event
  have position := length_branches_record before
  rw [record_concat]
  unfold pushEvent push
  cases symbolic : event.constraint with
  | none =>
      have notKept : ¬Kept before event := by
        rw [isKept, symbolic]
        intro kept
        cases kept.1
      rw [if_neg notKept, List.append_nil]
  | some c =>
      rw [symbolic] at isKept
      by_cases retained :
          (record before).retains event.bid event.state = true
      · rw [if_pos (isKept.mpr ⟨rfl, retained⟩)]
        simp only [retained, ↓reduceIte, position]
      · have notKept : ¬Kept before event :=
          fun kept => retained (isKept.mp kept).2
        rw [if_neg notKept, List.append_nil]
        simp only [retained, Bool.false_eq_true, ↓reduceIte]

/-- Later events only add later positions. -/
theorem constraintsIdx_record_append (before after : List BranchEvent) :
    ∃ later,
      (record (before ++ after)).constraintsIdx =
          (record before).constraintsIdx ++ later ∧
        ∀ pos ∈ later, before.length ≤ pos := by
  induction after using List.reverseRecOn with
  | nil =>
      refine ⟨[], ?_, ?_⟩
      · rw [List.append_nil, List.append_nil]
      · intro pos impossible
        cases impossible
  | append_singleton after event inductionHypothesis =>
      obtain ⟨later, positions, areLater⟩ := inductionHypothesis
      refine ⟨later ++
        if Kept (before ++ after) event then [(before ++ after).length]
        else [], ?_, ?_⟩
      · rw [← List.append_assoc before, constraintsIdx_record_concat,
          positions, List.append_assoc]
      · intro pos member
        rcases List.mem_append.mp member with earlier | isNew
        · exact areLater pos earlier
        · split at isNew
          · rw [List.mem_singleton.mp isNew, List.length_append]
            exact Nat.le_add_right _ _
          · cases isNew

/-- The positions before an event, the event itself, and later ones. -/
theorem constraintsIdx_record_split
    {p : Nat}
    (present : events[p]? = some event) :
    ∃ later,
      (record events).constraintsIdx =
          (record (events.take p)).constraintsIdx ++
            (if Kept (events.take p) event then [p] else []) ++ later ∧
        ∀ pos ∈ later, p < pos := by
  obtain ⟨inBounds, isEvent⟩ := List.getElem?_eq_some_iff.mp present
  have length : (events.take p).length = p :=
    List.length_take_of_le (Nat.le_of_lt inBounds)
  have split :
      events = (events.take p ++ [event]) ++ events.drop (p + 1) := by
    rw [← isEvent, ← List.concat_eq_append, List.take_concat_get,
      List.take_append_drop]
  obtain ⟨later, positions, areLater⟩ :=
    constraintsIdx_record_append (events.take p ++ [event])
      (events.drop (p + 1))
  rw [← split, constraintsIdx_record_concat, length] at positions
  refine ⟨later, positions, ?_⟩
  intro pos member
  have isLater := areLater pos member
  rw [List.length_append, length] at isLater
  exact isLater

/-- Constraints of the events before a position stand before it. -/
theorem position_lt_of_take
    (events : List BranchEvent)
    (p : Nat) :
    ∀ pos ∈ (record (events.take p)).constraintsIdx, pos < p := by
  intro pos member
  have isBefore := (records_record (events.take p)).position_lt member
  exact Nat.lt_of_lt_of_le isBefore (List.length_take_le p events)

/-- One position between smaller and greater ones is found at one index. -/
theorem getElem?_eq_position_iff
    {common later : List Nat}
    {kept : Prop}
    [Decidable kept]
    {p i : Nat}
    (earlier : ∀ pos ∈ common, pos < p)
    (areLater : ∀ pos ∈ later, p < pos) :
    (common ++ (if kept then [p] else []) ++ later)[i]? = some p ↔
      kept ∧ i = common.length := by
  constructor
  · intro found
    rcases Nat.lt_or_ge i common.length with isBefore | isAfter
    · rw [List.append_assoc, List.getElem?_append_left isBefore] at found
      have isEarlier := earlier p (List.mem_of_getElem? found)
      exact absurd isEarlier (Nat.lt_irrefl p)
    · rw [List.append_assoc, List.getElem?_append_right isAfter] at found
      by_cases isKept : kept
      · rw [if_pos isKept, List.singleton_append] at found
        cases offset : i - common.length with
        | zero =>
            exact ⟨isKept, by omega⟩
        | succ k =>
            rw [offset, List.getElem?_cons_succ] at found
            have isLater := areLater p (List.mem_of_getElem? found)
            exact absurd isLater (Nat.lt_irrefl p)
      · rw [if_neg isKept, List.nil_append] at found
        have isLater := areLater p (List.mem_of_getElem? found)
        exact absurd isLater (Nat.lt_irrefl p)
  · rintro ⟨isKept, rfl⟩
    rw [if_pos isKept, List.append_assoc,
      List.getElem?_append_right (Nat.le_refl _), Nat.sub_self]
    rfl

end SymbolicPath

namespace BranchTables

/--
Two sequences of branch events of which the second takes the paired branch at
a position, for the negated reason.
-/
structure FlipsAt
    (tables : BranchTables)
    (prev cur : List BranchEvent)
    (p : Nat)
    (old new : BranchEvent) : Prop where
  before : cur.take p = prev.take p
  oldAt : prev[p]? = some old
  newAt : cur[p]? = some new
  paired : lookup? tables.pairedBranch old.bid = some new.bid
  negated :
    ∃ c, old.constraint = some c ∧ new.constraint = some c.negate

/-- The constraints up to an index are recorded at the same positions. -/
def Aligned (prev cur : SymbolicPath) (i : Nat) : Prop :=
  ∀ k ≤ i, cur.constraintsIdx[k]? = prev.constraintsIdx[k]?

open SymbolicPath

/--
After a flip at the position of a constraint, the constraints up to it are
aligned exactly if the branch taken now has not been the last one of its id
with the same outcome before.
-/
theorem aligned_iff
    (tables : BranchTables)
    (prev cur : List BranchEvent)
    (p i : Nat)
    (old new : BranchEvent)
    (flips : tables.FlipsAt prev cur p old new)
    (position : (record prev).constraintsIdx[i]? = some p) :
    Aligned (record prev) (record cur) i ↔
      lastOutcome (prev.take p) new.bid ≠ some new.state := by
  obtain ⟨c, _, symbolic⟩ := flips.negated
  have isKept :
      Kept (prev.take p) new ↔
        lastOutcome (prev.take p) new.bid ≠ some new.state := by
    unfold Kept
    rw [symbolic]
    exact and_iff_right rfl
  obtain ⟨later, prevPositions, areLater⟩ :=
    constraintsIdx_record_split flips.oldAt
  obtain ⟨curLater, curPositions, curAreLater⟩ :=
    constraintsIdx_record_split flips.newAt
  rw [flips.before] at curPositions
  have earlier := position_lt_of_take prev p
  rw [prevPositions, getElem?_eq_position_iff earlier areLater] at position
  obtain ⟨oldKept, isLast⟩ := position
  have atIndex :
      (record cur).constraintsIdx[i]? = some p ↔ Kept (prev.take p) new := by
    rw [curPositions, getElem?_eq_position_iff earlier curAreLater]
    exact and_iff_left isLast
  have atOldIndex : (record prev).constraintsIdx[i]? = some p := by
    rw [prevPositions, getElem?_eq_position_iff earlier areLater]
    exact ⟨oldKept, isLast⟩
  rw [← isKept, ← atIndex]
  constructor
  · intro aligned
    rw [aligned i (Nat.le_refl i)]
    exact atOldIndex
  · intro found k upTo
    rcases Nat.lt_or_eq_of_le upTo with isBefore | rfl
    · rw [isLast] at isBefore
      rw [curPositions, prevPositions, List.append_assoc, List.append_assoc,
        List.getElem?_append_left isBefore, List.getElem?_append_left isBefore]
    · rw [found, atOldIndex]

/-- The branch `1` or `2` of a test `x > 0`. -/
def positive (x : Var) (taken : Bool) : BranchEvent :=
  let pred : SymbolicPred := { op := .gt, expr := .ofTerm 1 x }
  if taken then
    { bid := 1, constraint := some pred, state := .true }
  else
    { bid := 2, constraint := some pred.negate, state := .false }

/-- Two branches and their pairing. -/
def onePair : BranchTables where
  branches := [1, 2]
  pairedBranch := [0, 2, 1]
  branchFunction := [0, 0, 0]
  branchCount := [2]

/-- The branch of a test of another variable. -/
def otherPositive : BranchEvent where
  bid := 3
  constraint := some { op := .gt, expr := .ofTerm 1 1 }
  state := .true

/-- The branches of both tests and their pairing. -/
def pairedTests : BranchTables where
  branches := [1, 2, 3, 4]
  pairedBranch := [0, 2, 1, 4, 3]
  branchFunction := [0, 0, 0, 0, 0]
  branchCount := [4]

/-- A branch that is new to the path is aligned after another test. -/
theorem aligned_positive_second :
    Aligned (record [otherPositive, positive 0 true])
      (record [otherPositive, positive 0 false]) 1 := by
  have flips :
      pairedTests.FlipsAt [otherPositive, positive 0 true]
        [otherPositive, positive 0 false] 1 (positive 0 true)
        (positive 0 false) :=
    ⟨rfl, rfl, rfl, by decide, ⟨_, rfl, by decide⟩⟩
  exact (aligned_iff pairedTests [otherPositive, positive 0 true]
    [otherPositive, positive 0 false] 1 1 (positive 0 true)
    (positive 0 false) flips (by decide)).mpr (by decide)

/--
In a loop that takes the branches `2`, `1` the flip at `1` takes `2` again,
whose constraint is dropped: the flipped constraint is missing.
-/
theorem not_aligned_loop :
    onePair.FlipsAt [positive 0 false, positive 1 true]
        [positive 0 false, positive 1 false] 1
        (positive 1 true) (positive 1 false) ∧
      (record [positive 0 false, positive 1 true]).constraintsIdx[1]? =
        some 1 ∧
      ¬Aligned (record [positive 0 false, positive 1 true])
        (record [positive 0 false, positive 1 false]) 1 := by
  refine ⟨⟨rfl, rfl, rfl, by decide, ⟨_, rfl, by decide⟩⟩, by decide, ?_⟩
  intro aligned
  have same := aligned 1 (Nat.le_refl 1)
  exact absurd same (by decide)

end BranchTables

end Compi
