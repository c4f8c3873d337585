import Compi.PathRepresentation
import Compi.SymbolicExecution

/-!
# Recorded programs

A deterministic program decides from the branches it has taken what it tests
next: a linear condition on its inputs, or a concrete condition, of which its
path keeps only the branch.
-/

namespace Compi

/-- What a test evaluates. -/
inductive Condition where
  | symbolic (pred : SymbolicPred)
  | concrete (outcome : (Var → Value) → Bool)

namespace Condition

/-- The outcome on an assignment. -/
def holds (condition : Condition) (assignment : Var → Value) : Bool :=
  match condition with
  | symbolic pred => pred.holds assignment
  | concrete outcome => outcome assignment

/-- The linear condition of a symbolic test. -/
def pred? : Condition → Option SymbolicPred
  | symbolic pred => some pred
  | concrete _ => none

end Condition

/-- A test of the program, with the ids of its two branches. -/
structure ProgramTest where
  thenId : BranchId
  elseId : BranchId
  condition : Condition

namespace ProgramTest

/-- The event of the branch that an assignment takes. -/
def event
    (test : ProgramTest)
    (assignment : Var → Value) : BranchEvent :=
  if test.condition.holds assignment then
    { bid := test.thenId
      constraint := test.condition.pred?
      state := .true }
  else
    { bid := test.elseId
      constraint := test.condition.pred?.map SymbolicPred.negate
      state := .false }

variable {test : ProgramTest} {assignment other : Var → Value}

@[simp] theorem isSome_constraint_event :
    (test.event assignment).constraint.isSome =
      test.condition.pred?.isSome := by
  unfold event
  split
  · rfl
  · exact Option.isSome_map

/-- The branch decides the event. -/
theorem event_eq_of_bid
    (different : test.thenId ≠ test.elseId)
    (same : (test.event assignment).bid = (test.event other).bid) :
    test.event assignment = test.event other := by
  unfold event at same ⊢
  by_cases holds : test.condition.holds assignment = true
  · by_cases otherHolds : test.condition.holds other = true
    · rw [if_pos holds, if_pos otherHolds]
    · rw [if_pos holds, if_neg otherHolds] at same
      exact absurd same different
  · by_cases otherHolds : test.condition.holds other = true
    · rw [if_neg holds, if_pos otherHolds] at same
      exact absurd same different.symm
    · rw [if_neg holds, if_neg otherHolds]

end ProgramTest

/-- What the program tests after some branches, if it goes on. -/
abbrev RecordedProgram : Type :=
  List BranchId → Option ProgramTest

/-- An execution has the path that recording some events leaves. -/
structure SymbolicExecution.Shows
    (ex : SymbolicExecution)
    (events : List BranchEvent) : Prop where
  branches : ex.path.branches = events.map BranchEvent.bid
  positions :
    ex.path.constraintsIdx = (SymbolicPath.record events).constraintsIdx
  constraints :
    ex.path.constraints = (SymbolicPath.record events).constraints

/-- Recording the events is enough. -/
theorem SymbolicExecution.shows_of_path
    {ex : SymbolicExecution}
    {events : List BranchEvent}
    (recorded : ex.path = SymbolicPath.record events) :
    ex.Shows events where
  branches := by
    rw [recorded]
    exact (SymbolicPath.records_record events).branches
  positions := by
    rw [recorded]
  constraints := by
    rw [recorded]

namespace RecordedProgram

open SymbolicPath

/-- The events of a run of a number of steps, after some branches. -/
def events
    (program : RecordedProgram)
    (assignment : Var → Value) : Nat → List BranchId → List BranchEvent
  | 0, _ => []
  | steps + 1, history =>
      match program history with
      | none => []
      | some test =>
          let event := test.event assignment
          event :: events program assignment steps (history ++ [event.bid])

/-- Whether the test after some branches is symbolic. -/
def testsSymbolically
    (program : RecordedProgram)
    (history : List BranchId) : Bool :=
  match program history with
  | none => false
  | some test => test.condition.pred?.isSome

/-- The two branches of a test have different ids. -/
def Distinguishes (program : RecordedProgram) : Prop :=
  ∀ history test,
    program history = some test → test.thenId ≠ test.elseId

/-- The path of an execution is that of a run on some inputs. -/
def Reports
    (program : RecordedProgram)
    (ex : SymbolicExecution) : Prop :=
  ∃ assignment steps, ex.Shows (program.events assignment steps [])

/--
At or after a position a path takes a branch that it has taken on no symbolic
condition before, on a symbolic condition.
-/
def TakesNewBranch
    (program : RecordedProgram)
    (branches : List BranchId)
    (p : Nat) : Prop :=
  ∃ q bid,
    p ≤ q ∧
    branches[q]? = some bid ∧
    program.testsSymbolically (branches.take q) = true ∧
    ∀ earlier < q,
      branches[earlier]? = some bid →
      program.testsSymbolically (branches.take earlier) = false

variable
  {program : RecordedProgram}
  {assignment other : Var → Value}
  {steps otherSteps : Nat}
  {ex newEx : SymbolicExecution}
  {p i : Nat}

theorem Reports.swap
    (reports : program.Reports newEx) :
    program.Reports (ex.swap newEx) := by
  obtain ⟨assignment, steps, shows⟩ := reports
  exact ⟨assignment, steps, shows.branches, shows.positions,
    shows.constraints⟩

/-- The branches before an event decide whether it is symbolic. -/
theorem isSome_constraint_events
    (history : List BranchId)
    {k : Nat}
    {event : BranchEvent}
    (here : (program.events assignment steps history)[k]? = some event) :
    event.constraint.isSome =
      program.testsSymbolically
        (history ++
          ((program.events assignment steps history).take k).map
            BranchEvent.bid) := by
  induction steps generalizing history k with
  | zero =>
      cases here
  | succ steps inductionHypothesis =>
      unfold events at here ⊢
      cases next : program history with
      | none =>
          rw [next] at here
          cases here
      | some test =>
          simp only [next] at here ⊢
          cases k with
          | zero =>
              obtain rfl := Option.some.inj here
              simp [testsSymbolically, next]
          | succ k =>
              have later := inductionHypothesis _ here
              rw [List.append_assoc] at later
              exact later

/-- Runs that take the same branches first have the same events first. -/
theorem take_events_eq
    (distinguishes : program.Distinguishes)
    (history : List BranchId)
    (same :
      ((program.events assignment steps history).take p).map
          BranchEvent.bid =
        ((program.events other otherSteps history).take p).map
          BranchEvent.bid) :
    (program.events assignment steps history).take p =
      (program.events other otherSteps history).take p := by
  induction steps generalizing history p otherSteps with
  | zero =>
      rw [events, List.take_nil, List.map_nil, eq_comm,
        List.map_eq_nil_iff] at same
      rw [events, List.take_nil, same]
  | succ steps inductionHypothesis =>
      cases p with
      | zero =>
          rw [List.take_zero, List.take_zero]
      | succ p =>
          cases otherSteps with
          | zero =>
              rw [events, List.take_nil, List.map_nil,
                List.map_eq_nil_iff] at same
              rw [same, events, List.take_nil]
          | succ otherSteps =>
              unfold events at same ⊢
              cases next : program history with
              | none =>
                  rfl
              | some test =>
                  simp only [next, List.take_succ_cons, List.map_cons,
                    List.cons.injEq] at same ⊢
                  have sameEvent :=
                    ProgramTest.event_eq_of_bid
                      (distinguishes history test next) same.1
                  rw [sameEvent] at same ⊢
                  exact ⟨rfl, inductionHypothesis _ same.2⟩

/-- A new execution whose prediction is right takes the old branches first. -/
theorem take_branches_of_checkPrediction
    {tables : BranchTables}
    (confirmed : tables.checkPrediction ex newEx p = some true) :
    newEx.path.branches.take p = ex.path.branches.take p := by
  unfold BranchTables.checkPrediction at confirmed
  split at confirmed
  · split at confirmed
    · next same =>
        exact same
    · cases confirmed
  · cases confirmed

/-- The number of constraints retained before the position of a constraint. -/
theorem length_constraintsIdx_take
    {events : List BranchEvent}
    (position : (record events).constraintsIdx[i]? = some p) :
    (record (events.take p)).constraintsIdx.length = i := by
  have inBounds :=
    (records_record events).position_lt (List.mem_of_getElem? position)
  obtain ⟨later, positions, areLater⟩ :=
    constraintsIdx_record_split (List.getElem?_eq_getElem inBounds)
  have earlier := position_lt_of_take events p
  rw [positions, getElem?_eq_position_iff earlier areLater] at position
  exact position.2.symm

/-- Constraints before a position are retained whatever comes later. -/
theorem length_constraintsIdx_take_le
    (events : List BranchEvent)
    (p : Nat) :
    (record (events.take p)).constraintsIdx.length ≤
      (record events).constraintsIdx.length := by
  obtain ⟨later, positions, _⟩ :=
    constraintsIdx_record_append (events.take p) (events.drop p)
  rw [List.take_append_drop] at positions
  rw [positions, List.length_append]
  exact Nat.le_add_right _ _

/-- A kept event at or after a position adds a constraint. -/
theorem length_constraintsIdx_take_lt
    {events : List BranchEvent}
    {q : Nat}
    {event : BranchEvent}
    (isAfter : p ≤ q)
    (here : events[q]? = some event)
    (isKept : Kept (events.take q) event) :
    (record (events.take p)).constraintsIdx.length <
      (record events).constraintsIdx.length := by
  obtain ⟨later, positions, _⟩ := constraintsIdx_record_split here
  have upTo := length_constraintsIdx_take_le (events.take q) p
  rw [List.take_take, Nat.min_eq_left isAfter] at upTo
  rw [positions, if_pos isKept, List.length_append, List.length_append,
    List.length_singleton]
  exact Nat.lt_of_lt_of_le (Nat.lt_succ_of_le upTo) (Nat.le_add_right _ _)

/-- Where a path takes a new branch, recording keeps its constraint. -/
theorem kept_of_takesNewBranch
    (takes :
      program.TakesNewBranch
        ((program.events assignment steps []).map BranchEvent.bid) p) :
    ∃ q event,
      p ≤ q ∧
        (program.events assignment steps [])[q]? = some event ∧
        Kept ((program.events assignment steps []).take q) event := by
  obtain ⟨q, bid, isAfter, isBranch, isSymbolic, isFirst⟩ := takes
  rw [List.getElem?_map] at isBranch
  obtain ⟨event, here, rfl⟩ := Option.map_eq_some_iff.mp isBranch
  have symbolicIff :
      ∀ {k : Nat} {event : BranchEvent},
        (program.events assignment steps [])[k]? = some event →
        event.constraint.isSome =
          program.testsSymbolically
            (((program.events assignment steps []).map
              BranchEvent.bid).take k) := by
    intro k event present
    rw [isSome_constraint_events [] present, List.nil_append, List.map_take]
  refine ⟨q, event, isAfter, here, kept_of_first ?_ ?_⟩
  · rw [symbolicIff here]
    exact isSymbolic
  · intro earlier member sameBranch
    obtain ⟨k, present⟩ := List.mem_iff_getElem?.mp member
    rw [List.getElem?_take] at present
    split at present
    · next isBefore =>
        have concrete := isFirst k isBefore (by
          rw [List.getElem?_map, present, Option.map_some, sameBranch])
        rw [← symbolicIff present, Option.isSome_eq_false_iff,
          Option.isNone_iff_eq_none] at concrete
        exact concrete
    · cases present

/--
After a confirmed flip the new execution has the constraints before the
flipped one, and one more if its path takes a new branch from there on.
-/
theorem length_constraints_of_confirmed
    (distinguishes : program.Distinguishes)
    {tables : BranchTables}
    (reports : program.Reports ex)
    (newReports : program.Reports newEx)
    (position : ex.path.constraintsIdx[i]? = some p)
    (confirmed : tables.checkPrediction ex newEx p = some true) :
    i ≤ newEx.path.constraints.length ∧
      (program.TakesNewBranch newEx.path.branches p →
        i < newEx.path.constraints.length) := by
  obtain ⟨assignment, steps, shows⟩ := reports
  obtain ⟨other, otherSteps, newShows⟩ := newReports
  have same := take_branches_of_checkPrediction confirmed
  rw [newShows.branches, shows.branches, ← List.map_take, ← List.map_take]
    at same
  have sameEvents := take_events_eq distinguishes [] same
  rw [shows.positions] at position
  have before := length_constraintsIdx_take position
  rw [← sameEvents] at before
  rw [newShows.constraints, newShows.branches,
    (records_record (program.events other otherSteps [])).aligned, ← before]
  constructor
  · exact length_constraintsIdx_take_le _ p
  · intro takes
    obtain ⟨q, event, isAfter, here, isKept⟩ := kept_of_takesNewBranch takes
    exact length_constraintsIdx_take_lt isAfter here isKept

end RecordedProgram

end Compi
