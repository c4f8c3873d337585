import Compi.BinarySearch
import Compi.ConstraintAlignment

/-!
# The representation of a path

A path is filled by calls of both overloads of `Push`.  Its retained
constraints, their positions and the branches are parallel vectors, which the
searches index through each other.
-/

namespace Compi

namespace SymbolicPath

open BinarySearch

/-- A call of `Push`. -/
inductive PushCall where
  | reached (bid : BranchId)
  | branch (event : BranchEvent)

/-- The branch event of a call. -/
def PushCall.event? : PushCall → Option BranchEvent
  | reached _ => none
  | branch event => some event

/-- Run a call. -/
def pushCall (path : SymbolicPath) : PushCall → SymbolicPath
  | .reached bid => path.pushReached bid
  | .branch event => path.pushEvent event

/-- The path that a sequence of calls leaves in a fresh one. -/
def recordCalls (calls : List PushCall) : SymbolicPath :=
  calls.foldl pushCall empty

/-- The branch events of a sequence of calls. -/
def branchEvents (calls : List PushCall) : List BranchEvent :=
  calls.filterMap PushCall.event?

/--
Pushing the event at a position appends its constraint, which gets an index.
-/
structure Supplies
    (events : List BranchEvent)
    (p k : Nat)
    (event : BranchEvent)
    (c : SymbolicPred) : Prop where
  present : events[p]? = some event
  symbolic : event.constraint = some c
  index : (record (events.take p)).constraints.length = k
  appended :
    (record (events.take (p + 1))).constraints =
      (record (events.take p)).constraints ++ [c]

/-- What the searches rely on when they index one vector through another. -/
structure Represents
    (events : List BranchEvent)
    (path : SymbolicPath) : Prop where
  aligned : path.constraints.length = path.constraintsIdx.length
  increasing : path.constraintsIdx.Pairwise (· < ·)
  below : ∀ pos ∈ path.constraintsIdx, pos < path.branches.length
  supplied :
    ∀ k p : Nat,
      path.constraintsIdx[k]? = some p ↔
        ∃ event c, Supplies events p k event c
  values :
    ∀ p k event c,
      Supplies events p k event c →
      path.constraints[k]? = some c ∧ path.branches[p]? = some event.bid
  ordered :
    path.constraints.Sublist (events.filterMap BranchEvent.constraint)
  first :
    ∀ p event c,
      events[p]? = some event →
      event.constraint = some c →
      (∀ earlier ∈ events.take p,
        earlier.bid = event.bid → earlier.constraint = none) →
      ∃ k, Supplies events p k event c
  found :
    ∀ p : Nat,
      path.constraintsIdx[lowerBound path.constraintsIdx p]? = some p ↔
        ∃ k event c, Supplies events p k event c
  located :
    ∀ p k event c,
      Supplies events p k event c →
      lowerBound path.constraintsIdx p = k
  searched :
    ∀ p : Nat,
      lowerBound path.constraintsIdx p =
        (path.constraintsIdx.takeWhile (· < p)).length

variable {before events : List BranchEvent} {event : BranchEvent}

theorem constraints_record_concat
    (before : List BranchEvent)
    (event : BranchEvent) :
    (record (before ++ [event])).constraints =
      (record before).constraints ++
        if Kept before event then event.constraint.toList else [] := by
  have isKept := kept_iff before event
  rw [record_concat]
  unfold pushEvent push
  cases symbolic : event.constraint with
  | none =>
      rw [Option.toList_none, ite_self, List.append_nil]
  | some c =>
      rw [symbolic] at isKept
      by_cases retained :
          (record before).retains event.bid event.state = true
      · rw [if_pos (isKept.mpr ⟨rfl, retained⟩)]
        simp only [retained, ↓reduceIte]
        rfl
      · rw [if_neg fun kept => retained (isKept.mp kept).2, List.append_nil]
        simp only [retained, Bool.false_eq_true, ↓reduceIte]

theorem take_succ_eq
    {p : Nat}
    (present : events[p]? = some event) :
    events.take (p + 1) = events.take p ++ [event] := by
  rw [List.take_add_one, present]
  rfl

/-- Supplying a constraint is being kept. -/
theorem supplies_iff_kept
    {p k : Nat}
    {c : SymbolicPred}
    (present : events[p]? = some event)
    (symbolic : event.constraint = some c) :
    Supplies events p k event c ↔
      Kept (events.take p) event ∧
        k = (record (events.take p)).constraints.length := by
  have pushed := constraints_record_concat (events.take p) event
  rw [← take_succ_eq present, symbolic] at pushed
  constructor
  · intro supplies
    refine ⟨?_, supplies.index.symm⟩
    by_contra notKept
    rw [if_neg notKept, supplies.appended] at pushed
    have impossible := List.append_cancel_left pushed
    cases impossible
  · rintro ⟨isKept, isIndex⟩
    rw [if_pos isKept] at pushed
    exact ⟨present, symbolic, isIndex.symm, pushed⟩

/-- The positions are those of the suppliers. -/
theorem getElem?_constraintsIdx_iff
    (events : List BranchEvent)
    (k p : Nat) :
    (record events).constraintsIdx[k]? = some p ↔
      ∃ event c, Supplies events p k event c := by
  cases present : events[p]? with
  | none =>
      constructor
      · intro found
        have inBounds := (records_record events).position_lt
          (List.mem_of_getElem? found)
        rw [List.getElem?_eq_getElem inBounds] at present
        cases present
      · rintro ⟨event, c, supplies⟩
        rw [supplies.present] at present
        cases present
  | some event =>
      obtain ⟨later, positions, areLater⟩ :=
        constraintsIdx_record_split present
      have earlier := position_lt_of_take events p
      rw [positions, getElem?_eq_position_iff earlier areLater,
        ← (records_record (events.take p)).aligned]
      constructor
      · rintro ⟨isKept, isIndex⟩
        obtain ⟨c, symbolic⟩ := Option.isSome_iff_exists.mp isKept.1
        exact ⟨event, c,
          (supplies_iff_kept present symbolic).mpr ⟨isKept, isIndex⟩⟩
      · rintro ⟨supplier, c, supplies⟩
        have same := supplies.present
        rw [present] at same
        cases same
        exact (supplies_iff_kept present supplies.symbolic).mp supplies

/-- Retained constraints keep the order of their events. -/
theorem constraints_record_sublist (events : List BranchEvent) :
    (record events).constraints.Sublist
      (events.filterMap BranchEvent.constraint) := by
  induction events using List.reverseRecOn with
  | nil =>
      exact List.Sublist.slnil
  | append_singleton before event inductionHypothesis =>
      rw [constraints_record_concat, List.filterMap_append]
      refine List.Sublist.append inductionHypothesis ?_
      have single :
          [event].filterMap BranchEvent.constraint =
            event.constraint.toList := by
        cases symbolic : event.constraint <;> simp [symbolic]
      rw [single]
      split
      · exact List.Sublist.refl _
      · exact List.nil_sublist _

/-- The first symbolic event of a branch id is kept. -/
theorem kept_of_first
    (symbolic : event.constraint.isSome = true)
    (isFirst :
      ∀ earlier ∈ before,
        earlier.bid = event.bid → earlier.constraint = none) :
    Kept before event := by
  refine ⟨symbolic, ?_⟩
  have noOutcome : lastOutcome before event.bid = none := by
    unfold lastOutcome
    rw [Option.map_eq_none_iff, List.find?_eq_none]
    intro earlier member found
    rw [Bool.and_eq_true, decide_eq_true_iff] at found
    have concrete :=
      isFirst earlier (List.mem_reverse.mp member) found.1
    rw [concrete] at found
    exact absurd found.2 (by decide)
  rw [noOutcome]
  exact (Option.some_ne_none _).symm

theorem represents_record (events : List BranchEvent) :
    Represents events (record events) := by
  have records := records_record events
  have positions := getElem?_constraintsIdx_iff events
  have sorted := records.increasing.imp Nat.le_of_lt
  refine
    { aligned := records.aligned
      increasing := records.increasing
      below := ?below
      supplied := positions
      values := ?values
      ordered := constraints_record_sublist events
      first := ?first
      found := ?found
      located := ?located
      searched := fun _ => lowerBound_eq_takeWhile sorted }
  case below =>
    intro pos member
    rw [length_branches_record]
    exact records.position_lt member
  case values =>
    intro p k event c supplies
    obtain ⟨supplier, d, present, symbolic, retained⟩ :=
      records.supplied k p ((positions k p).mpr ⟨event, c, supplies⟩)
    rw [supplies.present] at present
    cases present
    rw [supplies.symbolic] at symbolic
    cases symbolic
    refine ⟨retained, ?_⟩
    rw [records.branches, List.getElem?_map, supplies.present]
    rfl
  case first =>
    intro p event c present symbolic isFirst
    have isKept : Kept (events.take p) event :=
      kept_of_first (by rw [symbolic]; rfl) isFirst
    exact ⟨_, (supplies_iff_kept present symbolic).mpr ⟨isKept, rfl⟩⟩
  case found =>
    intro p
    rw [getElem?_lowerBound_iff records.increasing, List.mem_iff_getElem?]
    exact exists_congr fun k => positions k p
  case located =>
    intro p k event c supplies
    exact lowerBound_eq_of_getElem? records.increasing
      ((positions k p).mpr ⟨event, c, supplies⟩)

section Calls

/-- What is pushed does not depend on the set of reached branches. -/
theorem pushEvent_reached
    (path : SymbolicPath)
    (reached : List BranchId)
    (event : BranchEvent) :
    ({ path with branchesSet := reached } : SymbolicPath).pushEvent event =
      { path.pushEvent event with branchesSet := reached } := by
  unfold pushEvent push retains
  cases event.constraint with
  | none =>
      rfl
  | some c =>
      dsimp only
      split <;> rfl

/-- Calls of the other overload only change the set of reached branches. -/
theorem recordCalls_eq (calls : List PushCall) :
    ∃ reached,
      recordCalls calls =
        { record (branchEvents calls) with branchesSet := reached } := by
  induction calls using List.reverseRecOn with
  | nil =>
      exact ⟨[], rfl⟩
  | append_singleton calls call inductionHypothesis =>
      obtain ⟨reached, same⟩ := inductionHypothesis
      have pushed :
          recordCalls (calls ++ [call]) =
            (recordCalls calls).pushCall call := by
        rw [recordCalls, List.foldl_append]
        rfl
      rw [pushed, same]
      cases call with
      | reached bid =>
          have events :
              branchEvents (calls ++ [.reached bid]) = branchEvents calls := by
            rw [branchEvents, List.filterMap_append]
            exact List.append_nil _
          rw [events]
          exact ⟨reached.insert bid, rfl⟩
      | branch event =>
          have events :
              branchEvents (calls ++ [.branch event]) =
                branchEvents calls ++ [event] := by
            rw [branchEvents, List.filterMap_append]
            rfl
          rw [events, record_concat]
          exact ⟨reached, pushEvent_reached _ _ _⟩

/--
After any calls of `Push` the vectors of the path are parallel, ordered and
complete, and binary search finds a position exactly if it carries a retained
constraint, at the index of this constraint.
-/
theorem represents_recordCalls (calls : List PushCall) :
    Represents (branchEvents calls) (recordCalls calls) := by
  obtain ⟨reached, same⟩ := recordCalls_eq calls
  have represents := represents_record (branchEvents calls)
  rw [same]
  exact
    { aligned := represents.aligned
      increasing := represents.increasing
      below := represents.below
      supplied := represents.supplied
      values := represents.values
      ordered := represents.ordered
      first := represents.first
      found := represents.found
      located := represents.located
      searched := represents.searched }

end Calls

end SymbolicPath

end Compi
