import Compi.BranchCoverage
import Compi.RecordedPath
import Compi.SolveAtBranch

/-!
# Predictions of the concolic loop

A deterministic program decides from the branches it has taken what condition
it evaluates next.  An input that `SolveAtBranch` returns is predicted to
follow the old path up to the flipped constraint.  Recording may have dropped
constraints before it, and nothing makes the new input satisfy those.
-/

namespace Compi

/-- A condition of the program, with the ids of its two branches. -/
structure Conditional where
  thenId : BranchId
  elseId : BranchId
  condition : SymbolicPred
  deriving DecidableEq

namespace Conditional

/-- The event of the branch that an assignment takes. -/
def event
    (conditional : Conditional)
    (assignment : Var → Value) : BranchEvent :=
  if conditional.condition.holds assignment then
    { bid := conditional.thenId
      constraint := some conditional.condition
      state := .true }
  else
    { bid := conditional.elseId
      constraint := some conditional.condition.negate
      state := .false }

variable {conditional : Conditional} {assignment other : Var → Value}

/-- The constraint of an event is true of the assignment. -/
theorem holds_of_event
    {c : SymbolicPred}
    (supplies : (conditional.event assignment).constraint = some c) :
    c.holds assignment = true := by
  unfold event at supplies
  split at supplies
  · next holds =>
      obtain rfl := Option.some.inj supplies
      exact holds
  · next fails =>
      obtain rfl := Option.some.inj supplies
      simpa using fails

theorem exists_constraint (assignment : Var → Value) :
    ∃ c, (conditional.event assignment).constraint = some c := by
  unfold event
  split
  · exact ⟨_, rfl⟩
  · exact ⟨_, rfl⟩

/-- Another assignment takes the same branch if the constraint is true of it. -/
theorem event_bid_iff
    (different : conditional.thenId ≠ conditional.elseId)
    {c : SymbolicPred}
    (supplies : (conditional.event assignment).constraint = some c) :
    (conditional.event other).bid = (conditional.event assignment).bid ↔
      c.holds other = true := by
  unfold event at supplies ⊢
  by_cases holds : conditional.condition.holds assignment = true
  · rw [if_pos holds] at supplies ⊢
    obtain rfl := Option.some.inj supplies
    by_cases otherHolds : conditional.condition.holds other = true
    · simp [otherHolds]
    · simp [otherHolds, Ne.symm different]
  · rw [if_neg holds] at supplies ⊢
    obtain rfl := Option.some.inj supplies
    by_cases otherHolds : conditional.condition.holds other = true
    · simp [otherHolds, different]
    · simp [otherHolds]

end Conditional

/-- What the program evaluates after some branches, if it goes on. -/
abbrev TestedProgram : Type :=
  List BranchId → Option Conditional

namespace TestedProgram

/-- The events of a run of a number of steps, after some branches. -/
def events
    (program : TestedProgram)
    (assignment : Var → Value) : Nat → List BranchId → List BranchEvent
  | 0, _ => []
  | steps + 1, history =>
      match program history with
      | none => []
      | some conditional =>
          let event := conditional.event assignment
          event :: events program assignment steps (history ++ [event.bid])

variable
  {program : TestedProgram}
  {assignment other : Var → Value}
  {steps otherSteps : Nat}

/-- The branches before a position decide what is evaluated there. -/
theorem getElem?_events
    (program : TestedProgram)
    (assignment : Var → Value)
    (steps : Nat)
    (history : List BranchId)
    (k : Nat) :
    (program.events assignment steps history)[k]? =
      if k < steps then
        (program (history ++
          ((program.events assignment steps history).take k).map
            BranchEvent.bid)).map (Conditional.event · assignment)
      else
        none := by
  induction steps generalizing history k with
  | zero =>
      simp [events]
  | succ steps inductionHypothesis =>
      unfold events
      cases next : program history with
      | none =>
          simp [next]
      | some conditional =>
          cases k with
          | zero =>
              simp [next]
          | succ k =>
              simp only [List.getElem?_cons_succ, List.take_succ_cons,
                List.map_cons, Nat.add_lt_add_iff_right]
              rw [inductionHypothesis]
              simp only [List.append_assoc, List.singleton_append]

/-- The same branches at all positions before a position. -/
def SameBefore (k : Nat) (events others : List BranchEvent) : Prop :=
  ∀ j < k,
    (others[j]?).map BranchEvent.bid = (events[j]?).map BranchEvent.bid

theorem sameBefore_iff
    {k : Nat}
    {events others : List BranchEvent} :
    SameBefore k events others ↔
      (others.take k).map BranchEvent.bid =
        (events.take k).map BranchEvent.bid := by
  constructor
  · intro same
    apply List.ext_getElem?
    intro j
    rw [List.getElem?_map, List.getElem?_map, List.getElem?_take,
      List.getElem?_take]
    split
    · next isBefore =>
        exact same j isBefore
    · rfl
  · intro same j isBefore
    have atPosition := congrArg (·[j]?) same
    simpa [List.getElem?_take, isBefore] using atPosition

/-- All constraints of events before a position are true of an assignment. -/
def HoldsBefore
    (k : Nat)
    (events : List BranchEvent)
    (assignment : Var → Value) : Prop :=
  ∀ j < k, ∀ event ∈ events[j]?, ∀ c ∈ event.constraint,
    c.holds assignment = true

/-- Where two runs agree before a position, they evaluate the same there. -/
theorem exists_conditional
    {k : Nat}
    (inBounds : k < (program.events assignment steps []).length)
    (enough : k < otherSteps)
    (same :
      SameBefore k (program.events assignment steps [])
        (program.events other otherSteps [])) :
    ∃ history conditional,
      program history = some conditional ∧
      (program.events assignment steps [])[k]? =
        some (conditional.event assignment) ∧
      (program.events other otherSteps [])[k]? =
        some (conditional.event other) := by
  have here := List.getElem?_eq_getElem inBounds
  have shape := getElem?_events program assignment steps [] k
  have otherShape := getElem?_events program other otherSteps [] k
  rw [sameBefore_iff.mp same, if_pos enough] at otherShape
  rw [here] at shape
  split at shape
  · obtain ⟨conditional, next, isEvent⟩ :=
      Option.map_eq_some_iff.mp shape.symm
    rw [next] at otherShape
    exact ⟨_, conditional, next, by rw [here, isEvent], otherShape⟩
  · cases shape

variable {tables : BranchTables}

/-- The tables pair the two branches of every condition of the program. -/
def Paired (tables : BranchTables) (program : TestedProgram) : Prop :=
  ∀ history conditional,
    program history = some conditional →
    conditional.thenId ≠ conditional.elseId ∧
      BranchTables.lookup? tables.pairedBranch conditional.thenId =
        some conditional.elseId ∧
      BranchTables.lookup? tables.pairedBranch conditional.elseId =
        some conditional.thenId

/-- A run takes the same branches as long as all constraints are true of it. -/
theorem sameBefore_iff_holdsBefore
    (paired : Paired tables program)
    {k : Nat}
    (inBounds : k ≤ (program.events assignment steps []).length)
    (enough : k ≤ otherSteps) :
    SameBefore k (program.events assignment steps [])
        (program.events other otherSteps []) ↔
      HoldsBefore k (program.events assignment steps []) other := by
  induction k with
  | zero =>
      constructor
      · intro _ j impossible
        exact absurd impossible (Nat.not_lt_zero j)
      · intro _ j impossible
        exact absurd impossible (Nat.not_lt_zero j)
  | succ k inductionHypothesis =>
      have before :=
        inductionHypothesis (Nat.le_of_succ_le inBounds)
          (Nat.le_of_succ_le enough)
      have atPosition :
          SameBefore k (program.events assignment steps [])
              (program.events other otherSteps []) →
          (((program.events other otherSteps [])[k]?).map BranchEvent.bid =
              ((program.events assignment steps [])[k]?).map
                BranchEvent.bid ↔
            ∀ event ∈ (program.events assignment steps [])[k]?,
              ∀ c ∈ event.constraint, c.holds other = true) := by
        intro same
        obtain ⟨history, conditional, next, here, there⟩ :=
          exists_conditional inBounds enough same
        obtain ⟨c, supplies⟩ :=
          conditional.exists_constraint assignment
        have sameBid :
            (conditional.event other).bid =
                (conditional.event assignment).bid ↔
              c.holds other = true :=
          Conditional.event_bid_iff (paired history conditional next).1 supplies
        simp [here, there, supplies, sameBid]
      constructor
      · intro same j isBefore
        have sameEarlier : SameBefore k _ _ := fun i earlier =>
          same i (Nat.lt_succ_of_lt earlier)
        rcases Nat.lt_succ_iff_lt_or_eq.mp isBefore with earlier | rfl
        · exact before.mp sameEarlier j earlier
        · exact (atPosition sameEarlier).mp (same j isBefore)
      · intro holds j isBefore
        have sameEarlier : SameBefore k _ _ := before.mpr fun i earlier =>
          holds i (Nat.lt_succ_of_lt earlier)
        rcases Nat.lt_succ_iff_lt_or_eq.mp isBefore with earlier | rfl
        · exact sameEarlier j earlier
        · exact (atPosition sameEarlier).mpr (holds j isBefore)

/-- The branch that is paired with the one of an event is the other one. -/
theorem lookup_paired
    (paired : Paired tables program)
    (other : Var → Value)
    {history : List BranchId}
    {conditional : Conditional}
    (next : program history = some conditional)
    {c : SymbolicPred}
    (supplies : (conditional.event assignment).constraint = some c) :
    ∃ bid,
      BranchTables.lookup? tables.pairedBranch
          (conditional.event assignment).bid =
        some bid ∧
      ((conditional.event other).bid = bid ↔ c.holds other = false) := by
  obtain ⟨different, thenPaired, elsePaired⟩ :=
    paired history conditional next
  unfold Conditional.event at supplies ⊢
  by_cases holds : conditional.condition.holds assignment = true
  · rw [if_pos holds] at supplies ⊢
    obtain rfl := Option.some.inj supplies
    refine ⟨_, thenPaired, ?_⟩
    by_cases otherHolds : conditional.condition.holds other = true
    · simp [otherHolds, different]
    · simp [otherHolds]
  · rw [if_neg holds] at supplies ⊢
    obtain rfl := Option.some.inj supplies
    refine ⟨_, elsePaired, ?_⟩
    by_cases otherHolds : conditional.condition.holds other = true
    · simp [otherHolds]
    · simp [otherHolds, Ne.symm different]

/--
The prediction at a position is right exactly if all constraints before it are
true of the new assignment, and the one at the position is false.
-/
theorem checkPrediction_iff
    (paired : Paired tables program)
    {oldEx newEx : SymbolicExecution}
    (oldBranches :
      oldEx.path.branches =
        (program.events assignment steps []).map BranchEvent.bid)
    (newBranches :
      newEx.path.branches =
        (program.events other otherSteps []).map BranchEvent.bid)
    {k : Nat}
    {event : BranchEvent}
    {c : SymbolicPred}
    (here : (program.events assignment steps [])[k]? = some event)
    (supplies : event.constraint = some c)
    (enough : k < otherSteps) :
    tables.checkPrediction oldEx newEx k = some true ↔
      HoldsBefore k (program.events assignment steps []) other ∧
        c.holds other = false := by
  have inBounds := (List.getElem?_eq_some_iff.mp here).1
  have oldHere : oldEx.path.branches[k]? = some event.bid := by
    rw [oldBranches, List.getElem?_map, here]
    rfl
  have samePrefix :
      newEx.path.branches.take k = oldEx.path.branches.take k ↔
        SameBefore k (program.events assignment steps [])
          (program.events other otherSteps []) := by
    rw [oldBranches, newBranches, ← List.map_take, ← List.map_take,
      sameBefore_iff]
  have holdsIff :
      SameBefore k (program.events assignment steps [])
          (program.events other otherSteps []) ↔
        HoldsBefore k (program.events assignment steps []) other :=
    sameBefore_iff_holdsBefore paired (Nat.le_of_lt inBounds)
      (Nat.le_of_lt enough)
  unfold BranchTables.checkPrediction
  rw [oldHere, ← holdsIff]
  by_cases same :
      SameBefore k (program.events assignment steps [])
        (program.events other otherSteps [])
  · obtain ⟨history, conditional, next, oldEvent, newEvent⟩ :=
      exists_conditional inBounds enough same
    obtain rfl := Option.some.inj (here.symm.trans oldEvent)
    obtain ⟨bid, isPaired, flipped⟩ :=
      lookup_paired paired other next supplies
    have newHere :
        newEx.path.branches[k]? = some (conditional.event other).bid := by
      rw [newBranches, List.getElem?_map, newEvent]
      rfl
    simp [newHere, samePrefix.mpr same, same, isPaired, flipped]
  · have different :
        newEx.path.branches.take k ≠ oldEx.path.branches.take k :=
      fun samePath => same (samePrefix.mp samePath)
    cases newHere : newEx.path.branches[k]? with
    | none =>
        simp [same]
    | some bid =>
        simp [same, different]

/-- The constraints of a run are true of its assignment. -/
theorem holds_of_events
    {j : Nat}
    {event : BranchEvent}
    {c : SymbolicPred}
    (here : (program.events assignment steps [])[j]? = some event)
    (supplies : event.constraint = some c) :
    c.holds assignment = true := by
  rw [getElem?_events] at here
  split at here
  · obtain ⟨conditional, _, rfl⟩ := Option.map_eq_some_iff.mp here
    exact Conditional.holds_of_event supplies
  · cases here

/--
The execution records a run of the program on its own inputs.  The inputs are
in range and satisfy the MPI constraints; all variables are declared, and each
retained constraint mentions one.
-/
structure IsRunOf
    (program : TestedProgram)
    (ex : SymbolicExecution)
    (steps n : Nat) : Prop where
  recorded :
    ex.path =
      SymbolicPath.record
        (program.events (assignmentOf ex.inputs) steps [])
  keys : ex.vars.keys = List.range n
  covered : n ≤ ex.inputs.length
  inputsInRange :
    ∀ (v : Var) (type : CType),
      ex.vars[v]? = some type →
      type.InRange (assignmentOf ex.inputs v)
  consistent :
    ∀ c ∈ YicesSolver.generateConstraintsMPI ex,
      c.holds (assignmentOf ex.inputs) = true
  mentions : ∀ c ∈ ex.path.constraints, c.vars ≠ []
  declared :
    YicesSolver.Declared ex.vars
      (ex.path.constraints ++ YicesSolver.generateConstraintsMPI ex)

/--
With every exact decision procedure, the run on an input that solving at a
retained constraint returns passes the check of the prediction.
-/
def Predicts
    (program : TestedProgram)
    (tables : BranchTables)
    (search : Search)
    (ex : SymbolicExecution)
    (i : Nat) : Prop :=
  ∀ solve,
    YicesSolver.ExactSolver solve →
    ∀ solved input,
      search.solveAtBranch solve ex i = some solved →
      solved.input = some input →
      ∀ newEx newSteps pos,
        ex.path.constraintsIdx[i]? = some pos →
        pos < newSteps →
        newEx.path =
          SymbolicPath.record
            (program.events (assignmentOf input) newSteps []) →
        tables.checkPrediction ex newEx pos = some true

/--
The constraints dropped before a retained one are redundant for solving at it:
they are true of every assignment that flips it and keeps the inputs that do
not depend on it.
-/
def DroppedRedundant
    (program : TestedProgram)
    (ex : SymbolicExecution)
    (steps i : Nat) : Prop :=
  ∀ assignment,
    Search.Flips ex i assignment →
    (∀ v, ¬Search.DependsAt ex i v →
      assignment v = assignmentOf ex.inputs v) →
    ∀ pos,
      ex.path.constraintsIdx[i]? = some pos →
      ∀ j < pos,
        j ∉ ex.path.constraintsIdx →
        ∀ event ∈ (program.events (assignmentOf ex.inputs) steps [])[j]?,
          ∀ c ∈ event.constraint, c.holds assignment = true

section Law

variable
  {search : Search}
  {ex : SymbolicExecution}
  {n i pos : Nat}

/-- What is retained before a position is among the constraints before it. -/
theorem mem_take_of_retained
    (run : IsRunOf program ex steps n)
    (position : ex.path.constraintsIdx[i]? = some pos)
    {j : Nat}
    (isBefore : j < pos)
    (retained : j ∈ ex.path.constraintsIdx)
    {event : BranchEvent}
    (here :
      (program.events (assignmentOf ex.inputs) steps [])[j]? = some event)
    {c : SymbolicPred}
    (supplies : event.constraint = some c) :
    c ∈ ex.path.constraints.take i := by
  have records :
      SymbolicPath.Records
        (program.events (assignmentOf ex.inputs) steps []) ex.path :=
    run.recorded ▸ SymbolicPath.records_record _
  obtain ⟨k, found⟩ := List.mem_iff_getElem?.mp retained
  obtain ⟨supplier, d, present, suppliesToo, kept⟩ :=
    records.supplied k j found
  obtain rfl := Option.some.inj (here.symm.trans present)
  obtain rfl := Option.some.inj (supplies.symm.trans suppliesToo)
  obtain ⟨kInBounds, kPosition⟩ := List.getElem?_eq_some_iff.mp found
  obtain ⟨iInBounds, iPosition⟩ := List.getElem?_eq_some_iff.mp position
  have earlier : k < i := by
    rcases Nat.lt_trichotomy k i with lower | rfl | higher
    · exact lower
    · omega
    · have ordered :=
        List.pairwise_iff_getElem.mp records.increasing i k iInBounds
          kInBounds higher
      omega
  refine List.mem_iff_getElem?.mpr ⟨k, ?_⟩
  rw [List.getElem?_take, if_pos earlier]
  exact kept

/--
A prediction law: predictions at a retained constraint are right exactly if
the constraints dropped before it are redundant for solving at it.
-/
theorem predicts_iff
    (program : TestedProgram)
    (tables : BranchTables)
    (paired : Paired tables program)
    (search : Search)
    (ex : SymbolicExecution)
    (steps n i : Nat)
    (run : IsRunOf program ex steps n)
    (inBounds : i < ex.path.constraints.length)
    (coherent :
      search.executionTag = ex.executionTag →
      search.constraintsMPI = YicesSolver.generateConstraintsMPI ex)
    (plain :
      search.numIters ≤ 100 ∨
        (search.refresh ex).rankNonDefaultCommIndices = []) :
    Predicts program tables search ex i ↔
      DroppedRedundant program ex steps i := by
  have records :
      SymbolicPath.Records
        (program.events (assignmentOf ex.inputs) steps []) ex.path :=
    run.recorded ▸ SymbolicPath.records_record _
  have idxInBounds : i < ex.path.constraintsIdx.length :=
    records.aligned ▸ inBounds
  obtain ⟨pos, position⟩ : ∃ pos, ex.path.constraintsIdx[i]? = some pos :=
    ⟨_, List.getElem?_eq_getElem idxInBounds⟩
  obtain ⟨event, c, here, supplies, found⟩ :=
    records.supplied i pos position
  constructor
  · intro predicts assignment flips outside other isPos j isBefore _ earlier
      present d suppliesEarlier
    obtain rfl := Option.some.inj (position.symm.trans isPos)
    obtain ⟨solved, input, returned, isInput, same⟩ :=
      Search.solveAtBranch_preferring inBounds run.keys run.covered coherent
        run.declared plain flips outside
    let newEx : SymbolicExecution :=
      { SymbolicExecution.empty with
        path :=
          SymbolicPath.record
            (program.events (assignmentOf input) (pos + 1) []) }
    have predicted :=
      predicts _ (YicesSolver.preferring_exact assignment) solved input
        returned isInput newEx (pos + 1) pos position (Nat.lt_succ_self pos)
        rfl
    have holdsBefore :=
      (checkPrediction_iff paired records.branches
        (SymbolicPath.records_record _).branches here supplies
        (Nat.lt_succ_self pos)).mp predicted
    rw [← same]
    exact holdsBefore.1 j isBefore earlier present d suppliesEarlier
  · intro redundant solve exact solved input returned isInput newEx newSteps
      other isPos enough newRecorded
    obtain rfl := Option.some.inj (position.symm.trans isPos)
    have follows :
        ∀ d ∈ ex.path.constraints.take i,
          d.holds (assignmentOf ex.inputs) = true := by
      intro d before
      obtain ⟨_, _, earlier, _, present, suppliesEarlier⟩ :=
        records.mem_take position before
      exact holds_of_events present suppliesEarlier
    obtain ⟨spec, specReturned, _, _, model⟩ :=
      Search.solveAtBranch_spec exact inBounds run.keys run.covered
        run.inputsInRange follows run.consistent coherent run.mentions
        run.declared plain
    obtain rfl := Option.some.inj (specReturned.symm.trans returned)
    obtain ⟨flips, outside⟩ := model input isInput
    have newRecords :
        SymbolicPath.Records
          (program.events (assignmentOf input) newSteps []) newEx.path :=
      newRecorded ▸ SymbolicPath.records_record _
    refine (checkPrediction_iff paired records.branches newRecords.branches
      here supplies enough).mpr ⟨?_, flips.2.1 c found⟩
    intro j isBefore earlier present d suppliesEarlier
    by_cases retained : j ∈ ex.path.constraintsIdx
    · exact flips.1 d
        (mem_take_of_retained run position isBefore retained present
          suppliesEarlier)
    · exact redundant (assignmentOf input) flips outside pos position j
        isBefore retained earlier present d suppliesEarlier

/-- Two equal tests of consecutive inputs, and then `x1 >= 1`. -/
def positiveTwice : TestedProgram := fun history =>
  match history.length with
  | 0 => some ⟨1, 2, { op := .gt, expr := .ofTerm 1 0 }⟩
  | 1 => some ⟨1, 2, { op := .gt, expr := .ofTerm 1 1 }⟩
  | 2 =>
      some ⟨3, 4, { op := .ge, expr := (SymbolicExpr.ofTerm 1 1).addConst (-1) }⟩
  | _ => none

/-- Branches 1 and 2 are paired, and so are 3 and 4. -/
def twoPairs : BranchTables where
  branches := [1, 2, 3, 4]
  pairedBranch := [0, 2, 1, 4, 3]
  branchFunction := [0, 1, 1, 1, 1]
  branchCount := [0, 4]

/-- The execution of `positiveTwice` on two ones. -/
def positiveBoth : SymbolicExecution :=
  { SymbolicExecution.empty with
    vars := ((∅ : OrderedMap Var CType).insert 0 .int).insert 1 .int
    inputs := [1, 1]
    path :=
      SymbolicPath.record
        (positiveTwice.events (assignmentOf [1, 1]) 3 []) }

private theorem paired_positiveTwice : Paired twoPairs positiveTwice := by
  intro history conditional next
  unfold positiveTwice at next
  split at next
  · obtain rfl := Option.some.inj next
    decide
  · obtain rfl := Option.some.inj next
    decide
  · obtain rfl := Option.some.inj next
    decide
  · cases next

private theorem positiveBoth_run : IsRunOf positiveTwice positiveBoth 3 2 where
  recorded := rfl
  keys := by decide
  covered := by decide
  inputsInRange := by
    rw [OrderedMap.forall_getElem?_iff]
    decide
  consistent := by decide
  mentions := by decide
  declared := by
    unfold YicesSolver.Declared
    decide

/--
The second event of branch 1 is dropped although it tests another input.  The
last test is flipped by an input that leaves the path at the dropped event.
-/
theorem not_predicts_positiveTwice :
    Paired twoPairs positiveTwice ∧
      IsRunOf positiveTwice positiveBoth 3 2 ∧
      positiveBoth.path.constraintsIdx[1]? = some 2 ∧
      ¬Predicts positiveTwice twoPairs (Search.start "a.out" 2 0)
        positiveBoth 1 := by
  refine ⟨paired_positiveTwice, positiveBoth_run, by decide, ?_⟩
  intro predicts
  have inRange :
      ∀ (v : Var) (type : CType),
        positiveBoth.vars[v]? = some type →
        type.InRange (assignmentOf [1, 0] v) := by
    rw [OrderedMap.forall_getElem?_iff]
    decide
  have flips : Search.Flips positiveBoth 1 (assignmentOf [1, 0]) :=
    ⟨by decide, by decide, by decide, inRange⟩
  have dependsOnLast : Search.DependsAt positiveBoth 1 1 :=
    ⟨{ op := .ge, expr := (SymbolicExpr.ofTerm 1 1).addConst (-1) },
      by decide, YicesSolver.Depends.start (by decide)⟩
  have outside :
      ∀ v,
        ¬Search.DependsAt positiveBoth 1 v →
        assignmentOf [1, 0] v = assignmentOf positiveBoth.inputs v := by
    intro v independent
    match v with
    | 0 => rfl
    | 1 => exact absurd dependsOnLast independent
    | _ + 2 => rfl
  have coherent :
      (Search.start "a.out" 2 0).executionTag = positiveBoth.executionTag →
      (Search.start "a.out" 2 0).constraintsMPI =
        YicesSolver.generateConstraintsMPI positiveBoth := by
    decide
  obtain ⟨solved, input, returned, isInput, same⟩ :=
    Search.solveAtBranch_preferring
      (show 1 < positiveBoth.path.constraints.length by decide)
      positiveBoth_run.keys positiveBoth_run.covered coherent
      positiveBoth_run.declared (by decide) flips outside
  let newEx : SymbolicExecution :=
    { SymbolicExecution.empty with
      path :=
        SymbolicPath.record
          (positiveTwice.events (assignmentOf [1, 0]) 3 []) }
  have predicted :
      twoPairs.checkPrediction positiveBoth newEx 2 = some true :=
    predicts _ (YicesSolver.preferring_exact (assignmentOf [1, 0])) solved
      input returned isInput newEx 3 2 (by decide) (by decide)
      (by rw [same])
  have mispredicted :
      twoPairs.checkPrediction positiveBoth newEx 2 = some false := by
    decide
  rw [mispredicted] at predicted
  cases predicted

/-- The same test of the first input twice, and then `x1 >= 1`. -/
def testedTwice : TestedProgram := fun history =>
  match history.length with
  | 0 | 1 => some ⟨1, 2, { op := .gt, expr := .ofTerm 1 0 }⟩
  | 2 =>
      some ⟨3, 4, { op := .ge, expr := (SymbolicExpr.ofTerm 1 1).addConst (-1) }⟩
  | _ => none

/-- The execution of `testedTwice` on two ones. -/
def testedBoth : SymbolicExecution :=
  { positiveBoth with
    path :=
      SymbolicPath.record (testedTwice.events (assignmentOf [1, 1]) 3 []) }

/-- The constraint that is dropped before the last test repeats the first. -/
theorem predicts_testedBoth_last :
    Predicts testedTwice twoPairs (Search.start "a.out" 2 0) testedBoth 1 := by
  have paired : Paired twoPairs testedTwice := by
    intro history conditional next
    unfold testedTwice at next
    split at next
    · obtain rfl := Option.some.inj next
      decide
    · obtain rfl := Option.some.inj next
      decide
    · obtain rfl := Option.some.inj next
      decide
    · cases next
  have run : IsRunOf testedTwice testedBoth 3 2 :=
    { recorded := rfl
      keys := by decide
      covered := by decide
      inputsInRange := by
        rw [OrderedMap.forall_getElem?_iff]
        decide
      consistent := by decide
      mentions := by decide
      declared := by
        unfold YicesSolver.Declared
        decide }
  have redundant : DroppedRedundant testedTwice testedBoth 3 1 := by
    intro assignment flips _ pos position j isBefore notRetained event present c
      supplies
    have isLast : testedBoth.path.constraintsIdx[1]? = some 2 := by
      decide
    obtain rfl := Option.some.inj (isLast.symm.trans position)
    have first :
        (⟨.gt, .ofTerm 1 0⟩ : SymbolicPred).holds assignment = true :=
      flips.1 _ (by decide)
    match j with
    | 0 =>
        exact absurd (show 0 ∈ testedBoth.path.constraintsIdx by decide)
          notRetained
    | 1 =>
        cases present
        cases supplies
        exact first
    | later + 2 =>
        exact absurd isBefore (by omega)
  exact (predicts_iff testedTwice twoPairs paired
    (Search.start "a.out" 2 0) testedBoth 3 2 1 run (by decide) (by decide)
    (by decide)).mpr redundant

end Law

end TestedProgram

end Compi
