import Compi.Hindsight
import Compi.HybridWindow
import Compi.ProgramPaths
import Compi.SearchProgress

/-!
# The bounded search is exhaustive

A program without loops that always marks the same variables is explored by
`BoundedDepthFirstSearch`: each round of the search launches it once on an
input for each feasible path other than the first, whatever input the first
run has drawn, as long as the decision procedure is exact.
-/

namespace Compi

/--
A target without loops.  All of its executions have the variables, their
bounds and the lists of MPI variables that one of them has.
-/
structure Target where
  program : TestedProgram
  steps : Nat
  marked : SymbolicExecution
  size : Nat
  loopFree : program.LoopFree steps
  keys : marked.vars.keys = List.range size
  mentions :
    ∀ history next,
      program history = some next → next.condition.vars ≠ []
  declared :
    ∀ history next,
      program history = some next →
      ∀ v ∈ next.condition.vars, v ∈ marked.vars
  declaredMPI :
    YicesSolver.Declared marked.vars (YicesSolver.generateConstraintsMPI marked)
  inInputs :
    ∀ id ∈ marked.rankIndices ++ marked.worldSizeIndices,
      Search.position id < size
  plain : marked.rankNonDefaultCommIndices = []

namespace Target

variable (target : Target)

/-- The bounds of the variables and the MPI constraints are kept. -/
structure Admissible (assignment : Var → Value) : Prop where
  consistent :
    ∀ c ∈ YicesSolver.generateConstraintsMPI target.marked,
      c.holds assignment = true
  inRange :
    ∀ (v : Var) (type : CType),
      target.marked.vars[v]? = some type → type.InRange (assignment v)

/-- The events of a run. -/
def events (inputs : List Value) : List BranchEvent :=
  target.program.events (assignmentOf inputs) target.steps []

/-- The path that a run on some inputs takes. -/
def path (inputs : List Value) : List BranchId :=
  target.program.path target.steps (assignmentOf inputs)

/-- The paths that admissible inputs lead to. -/
def Feasible (taken : List BranchId) : Prop :=
  ∃ assignment,
    target.Admissible assignment ∧
      taken = target.program.path target.steps assignment

/-- What a search reads of a run on its own inputs. -/
structure Executed (ex : SymbolicExecution) : Prop where
  branches : ex.path.branches = target.path ex.inputs
  constraints :
    ex.path.constraints =
      (SymbolicPath.record (target.events ex.inputs)).constraints
  constraintsIdx :
    ex.path.constraintsIdx =
      (SymbolicPath.record (target.events ex.inputs)).constraintsIdx
  size : ex.inputs.length = target.size
  admissible : target.Admissible (assignmentOf ex.inputs)
  executionTag : ex.executionTag ≠ 0
  vars : ex.vars = target.marked.vars
  limits : ex.limits = target.marked.limits
  rankIndices : ex.rankIndices = target.marked.rankIndices
  rankNonDefaultCommIndices :
    ex.rankNonDefaultCommIndices = target.marked.rankNonDefaultCommIndices
  worldSizeIndices : ex.worldSizeIndices = target.marked.worldSizeIndices

/--
Every launch so far was answered with an execution of the target, on the
inputs of the launch if these are admissible.
-/
def Answers (env : Environment) (calls : List Call) : Prop :=
  ∀ search inputs,
    .launchProgram search inputs ∈ calls →
    ∀ ex,
      target.Executed (env.execution search.numIters ex) ∧
        (inputs.length = target.size →
          target.Admissible (assignmentOf inputs) →
          (env.execution search.numIters ex).inputs = inputs)

/-- An environment with the tables of the target and an exact solver. -/
structure Suits (env : Environment) : Prop where
  tables : env.tables.WellFormed
  paired : TestedProgram.Paired env.tables target.program
  listed :
    ∀ history next,
      target.program history = some next →
      next.thenId ∈ env.tables.branches ∧ next.elseId ∈ env.tables.branches
  exact : ∀ query, YicesSolver.ExactSolver (env.solve query)
  others :
    ∀ run rank branches,
      env.branchesOfRank run rank = some branches →
      ∀ bid ∈ branches, bid ∈ env.tables.branches ∨ bid < 0

end Target

namespace ExhaustiveSearch

open SearchRun StoppableRun BranchTables Coverage SearchStrategies
open HybridWindow (launchedInputs withAnswer withAnswer_exact)

/-- Calls are only added. -/
def Later (before after : World) : Prop :=
  before.calls <:+ after.calls

instance : IsPreorder World Later where
  refl _ := List.suffix_rfl
  trans _ _ _ first second := first.trans second

section Growth

variable (env : Environment)

theorem advances_require
    {Value : Type}
    (result : Option Value) :
    Advances Later (require result) := by
  cases result with
  | none => exact Advances.throw
  | some value => exact Advances.pure

theorem advances_solveAtBranch
    (ex : SymbolicExecution)
    (branchIdx : Nat) :
    Advances Later (SearchRun.solveAtBranch env ex branchIdx) := by
  unfold SearchRun.solveAtBranch
  refine Advances.bind Advances.get fun world => ?_
  refine Advances.bind (Advances.modify fun _ => List.suffix_cons _ _)
    fun _ => ?_
  split
  · exact Advances.throw
  · exact Advances.bind (Advances.modify fun _ => List.suffix_rfl) fun _ =>
      Advances.pure

theorem advances_launchProgram (inputs : List Value) :
    Advances Later (launchProgram inputs) := by
  unfold launchProgram
  refine Advances.bind Advances.get fun world => ?_
  refine Advances.bind (Advances.modify fun _ => List.suffix_cons _ _)
    fun _ => ?_
  split
  · exact Advances.throw
  · exact Advances.modify fun _ => List.suffix_rfl

theorem advances_runProgram
    (inputs : List Value)
    (ex : SymbolicExecution) :
    Advances Later (runProgram env inputs ex) := by
  unfold runProgram
  refine Advances.bind (Advances.modify fun _ => List.suffix_rfl) fun _ => ?_
  refine Advances.bind Advances.get fun world => ?_
  split
  · exact Advances.throw
  · exact Advances.bind (advances_launchProgram inputs) fun _ => Advances.pure

theorem advances_updateCoverage (ex : SymbolicExecution) :
    Advances Later (SearchRun.updateCoverage env ex) := by
  unfold SearchRun.updateCoverage
  refine Advances.bind Advances.get fun world => ?_
  refine Advances.bind (advances_require _) fun _ => ?_
  exact Advances.bind (Advances.modify fun _ => List.suffix_rfl) fun _ =>
    Advances.pure

theorem advances_dfsLoop
    {shallower :
      Nat → SymbolicExecution → SymbolicExecution → Run Unit}
    (below : ∀ pos prevEx curEx, Advances Later (shallower pos prevEx curEx))
    (prevEx : SymbolicExecution)
    (remaining i : Nat)
    (curEx : SymbolicExecution) :
    Advances Later (dfsLoop env shallower prevEx remaining i curEx) := by
  induction remaining generalizing i curEx with
  | zero => exact Advances.pure
  | succ remaining inductionHypothesis =>
      refine Advances.bind (advances_solveAtBranch env prevEx i)
        fun solution => ?_
      cases solution with
      | none => exact inductionHypothesis (i + 1) curEx
      | some input =>
          refine Advances.bind (advances_runProgram env input curEx)
            fun curEx => ?_
          refine Advances.bind (advances_updateCoverage env curEx)
            fun _ => ?_
          refine Advances.bind (advances_require _) fun branchIdx => ?_
          refine Advances.bind (advances_require _) fun predicted => ?_
          split
          · refine Advances.bind (below _ _ _) fun _ => ?_
            exact below _ _ _
          · exact inductionHypothesis (i + 1) curEx

theorem advances_dfs
    (depth pos : Nat)
    (prevEx curEx : SymbolicExecution) :
    Advances Later (dfs env depth pos prevEx curEx) := by
  induction depth generalizing pos prevEx curEx with
  | zero => exact Advances.pure
  | succ depth inductionHypothesis =>
      exact advances_dfsLoop env inductionHypothesis _ _ _ _

end Growth

/--
What holds between the steps of a search on a target: its cache is empty or
that of the target, and the program can be run so many times.
-/
structure Ready
    (target : Target)
    (env : Environment)
    (budget : Nat)
    (world : World) : Prop where
  fresh :
    world.search.executionTag = 0 →
      world.search.rankIndices = [] ∧ world.search.worldSizeIndices = []
  cached :
    world.search.executionTag ≠ 0 →
      world.search.constraintsMPI =
          YicesSolver.generateConstraintsMPI target.marked ∧
        world.search.rankIndices = target.marked.rankIndices ∧
        world.search.worldSizeIndices = target.marked.worldSizeIndices
  plain : world.search.rankNonDefaultCommIndices = []
  accounted : Accounted env.tables world.coverage
  bounded : world.coverage.numCovered < 2 ^ 32
  budget : (world.search.numIters : Int) + budget ≤ env.maxIters

section Steps

variable {target : Target} {env : Environment}

theorem answers_antitone
    (before after : World)
    (later : Later before after)
    (answers : target.Answers env after.calls) :
    target.Answers env before.calls :=
  fun search inputs member =>
    answers search inputs (later.subset member)

theorem Ready.mono
    {budget less : Nat}
    {world : World}
    (ready : Ready target env budget world)
    (le : less ≤ budget) :
    Ready target env less world where
  fresh := ready.fresh
  cached := ready.cached
  plain := ready.plain
  accounted := ready.accounted
  bounded := ready.bounded
  budget := by
    have enough := ready.budget
    omega

variable {ex : SymbolicExecution}

theorem generateConstraintsMPI_executed
    (executed : target.Executed ex) :
    YicesSolver.generateConstraintsMPI ex =
      YicesSolver.generateConstraintsMPI target.marked := by
  unfold YicesSolver.generateConstraintsMPI
  rw [executed.limits, executed.rankIndices, executed.worldSizeIndices]

/-- An execution has retained the constraints of all its events. -/
theorem recorded_executed
    (executed : target.Executed ex) :
    ex.path.constraints.map some =
      (target.program.events (assignmentOf ex.inputs) target.steps []).map
        BranchEvent.constraint := by
  rw [executed.constraints]
  exact (target.loopFree.retainsAll _).constraints

theorem length_constraints_executed
    (executed : target.Executed ex) :
    ex.path.constraints.length = (target.path ex.inputs).length := by
  have count := congrArg List.length (recorded_executed executed)
  rw [List.length_map, List.length_map] at count
  rw [count, Target.path, TestedProgram.path, List.length_map]

/-- The constraint of an event is that of the condition, or its negation. -/
theorem vars_of_event
    {conditional : Conditional}
    {assignment : Var → Value}
    {c : SymbolicPred}
    (supplies : (conditional.event assignment).constraint = some c) :
    c.vars = conditional.condition.vars := by
  unfold Conditional.event at supplies
  split at supplies
  · obtain rfl := Option.some.inj supplies
    rfl
  · obtain rfl := Option.some.inj supplies
    rfl

/-- The constraints of an execution come from conditions of the program. -/
theorem exists_condition
    (executed : target.Executed ex)
    {c : SymbolicPred}
    (member : c ∈ ex.path.constraints) :
    ∃ history next,
      target.program history = some next ∧ c.vars = next.condition.vars := by
  have listed :
      some c ∈
        (target.program.events (assignmentOf ex.inputs) target.steps []).map
          BranchEvent.constraint := by
    rw [← recorded_executed executed]
    exact List.mem_map_of_mem member
  obtain ⟨event, isEvent, supplies⟩ := List.mem_map.mp listed
  obtain ⟨k, found⟩ := List.mem_iff_getElem?.mp isEvent
  rw [TestedProgram.getElem?_events] at found
  split at found
  · obtain ⟨next, isNext, rfl⟩ := Option.map_eq_some_iff.mp found
    exact ⟨_, next, isNext, vars_of_event supplies⟩
  · cases found

theorem flips_iff
    (executed : target.Executed ex)
    {i : Nat}
    {assignment : Var → Value} :
    Search.Flips ex i assignment ↔
      target.Admissible assignment ∧
        (∀ c ∈ ex.path.constraints.take i, c.holds assignment = true) ∧
        ∀ c ∈ ex.path.constraints[i]?, c.holds assignment = false := by
  unfold Search.Flips
  rw [generateConstraintsMPI_executed executed, executed.vars]
  constructor
  · rintro ⟨before, here, consistent, inRange⟩
    exact ⟨⟨consistent, inRange⟩, before, here⟩
  · rintro ⟨⟨consistent, inRange⟩, before, here⟩
    exact ⟨before, here, consistent, inRange⟩

theorem leaves_iff
    (suits : target.Suits env)
    (executed : target.Executed ex)
    {i : Nat}
    (inBounds : i < ex.path.constraints.length)
    {assignment : Var → Value} :
    Search.Flips ex i assignment ↔
      target.Admissible assignment ∧
        TestedProgram.Leaves target.program target.steps target.Admissible i
          (assignmentOf ex.inputs)
          (target.program.path target.steps assignment) := by
  rw [flips_iff executed]
  constructor
  · rintro ⟨admissible, flips⟩
    exact ⟨admissible,
      (TestedProgram.leaves_iff_flips suits.paired (recorded_executed executed)
        inBounds admissible).mpr flips⟩
  · rintro ⟨admissible, leaves⟩
    exact ⟨admissible,
      (TestedProgram.leaves_iff_flips suits.paired (recorded_executed executed)
        inBounds admissible).mp leaves⟩

/-- What a call of `SolveAtBranch` returns, and leaves. -/
structure SolvedAt
    (target : Target)
    (env : Environment)
    (budget : Nat)
    (ex : SymbolicExecution)
    (i : Nat)
    (before : World)
    (input : Option (List Value))
    (after : World) : Prop where
  ready : Ready target env budget after
  launches : launchedInputs after.calls = launchedInputs before.calls
  coverage : after.coverage = before.coverage
  unsolved :
    input = none →
      ∀ taken,
        ¬TestedProgram.Leaves target.program target.steps target.Admissible i
          (assignmentOf ex.inputs) taken
  solved :
    ∀ inputs,
      input = some inputs →
        after.search.executionTag ≠ 0 ∧
          inputs.length = target.size ∧
          target.Admissible (assignmentOf inputs) ∧
          TestedProgram.Leaves target.program target.steps target.Admissible i
            (assignmentOf ex.inputs) (target.path inputs)

theorem ready_refresh
    (executed : target.Executed ex)
    {budget : Nat}
    {world after : World}
    (ready : Ready target env budget world)
    (refreshed : after.search = world.search.refresh ex)
    (sameCoverage : after.coverage = world.coverage) :
    Ready target env budget after ∧ after.search.executionTag ≠ 0 := by
  have hasTag : after.search.executionTag ≠ 0 := by
    rw [refreshed]
    unfold Search.refresh
    split
    · next same =>
        rw [same]
        exact executed.executionTag
    · exact executed.executionTag
  have numIters : after.search.numIters = world.search.numIters := by
    rw [refreshed, Search.refresh_numIters]
  refine ⟨⟨fun isZero => absurd isZero hasTag, ?_, ?_, ?_, ?_, ?_⟩, hasTag⟩
  · intro _
    rw [refreshed]
    unfold Search.refresh
    split
    · next same =>
        exact ready.cached (same ▸ executed.executionTag)
    · exact ⟨generateConstraintsMPI_executed executed, executed.rankIndices,
        executed.worldSizeIndices⟩
  · rw [refreshed]
    unfold Search.refresh
    split
    · exact ready.plain
    · exact executed.rankNonDefaultCommIndices.trans target.plain
  · rw [sameCoverage]
    exact ready.accounted
  · rw [sameCoverage]
    exact ready.bounded
  · rw [numIters]
    exact ready.budget

/-- `SolveAtBranch` finds an input that leaves the path, if there is one. -/
theorem exists_solvedAt
    (suits : target.Suits env)
    (executed : target.Executed ex)
    {i : Nat}
    (inBounds : i < ex.path.constraints.length)
    {budget : Nat}
    {world : World}
    (ready : Ready target env budget world) :
    ∃ input after,
      Yields (SearchRun.solveAtBranch env ex i) world input after ∧
        SolvedAt target env budget ex i world input after := by
  have sameMPI := generateConstraintsMPI_executed executed
  have follows :
      ∀ c ∈ ex.path.constraints.take i,
        c.holds (assignmentOf ex.inputs) = true :=
    (TestedProgram.take_path_eq_iff suits.paired (recorded_executed executed)
      (Nat.le_of_lt inBounds)).mp rfl
  have coherent :
      world.search.executionTag = ex.executionTag →
        world.search.constraintsMPI =
          YicesSolver.generateConstraintsMPI ex := by
    intro same
    rw [sameMPI]
    exact (ready.cached (same ▸ executed.executionTag)).1
  have mentions : ∀ c ∈ ex.path.constraints, c.vars ≠ [] := by
    intro c member
    obtain ⟨history, next, isNext, sameVars⟩ :=
      exists_condition executed member
    rw [sameVars]
    exact target.mentions history next isNext
  have declared :
      YicesSolver.Declared ex.vars
        (ex.path.constraints ++ YicesSolver.generateConstraintsMPI ex) := by
    intro c member v isVar
    rw [executed.vars]
    rcases List.mem_append.mp member with isPath | isMPI
    · obtain ⟨history, next, isNext, sameVars⟩ :=
        exists_condition executed isPath
      rw [sameVars] at isVar
      exact target.declared history next isNext v isVar
    · rw [sameMPI] at isMPI
      exact target.declaredMPI c isMPI v isVar
  have plain : (world.search.refresh ex).rankNonDefaultCommIndices = [] := by
    unfold Search.refresh
    split
    · exact ready.plain
    · exact executed.rankNonDefaultCommIndices.trans target.plain
  have keys : ex.vars.keys = List.range target.size := by
    rw [executed.vars]
    exact target.keys
  obtain ⟨solved, returned, -, succeeds, flips⟩ :=
    Search.solveAtBranch_spec (suits.exact world.solves) inBounds keys
      (Nat.le_of_eq executed.size.symm)
      (fun v type found =>
        executed.admissible.inRange v type (executed.vars ▸ found))
      follows (fun c isMPI =>
        executed.admissible.consistent c (sameMPI ▸ isMPI))
      coherent mentions declared (Or.inr plain)
  let called : World :=
    { world with
      solves := world.solves + 1
      calls := .solveAtBranch ex i :: world.calls }
  refine ⟨solved.input, { called with search := solved.search }, ?_, ?_⟩
  · unfold SearchRun.solveAtBranch
    refine Yields.bind rfl (Yields.bind rfl ?_)
    rw [returned]
    rfl
  · have unsolved :
        solved.input = none →
          ∀ taken,
            ¬TestedProgram.Leaves target.program target.steps
              target.Admissible i (assignmentOf ex.inputs) taken := by
      intro isNone taken leaves
      obtain ⟨assignment, admissible, rfl⟩ := leaves.isPath
      have flippable : ∃ assignment, Search.Flips ex i assignment :=
        ⟨assignment, (leaves_iff suits executed inBounds).mpr
          ⟨admissible, leaves⟩⟩
      rw [← succeeds, isNone] at flippable
      cases flippable
    rcases Search.solveAtBranch_cases returned with
      ⟨-, sameSearch, noInput⟩ | ⟨-, refreshed, lengths⟩
    · refine ⟨?_, rfl, rfl, unsolved, ?_⟩
      · rw [sameSearch]
        exact ⟨ready.fresh, ready.cached, ready.plain, ready.accounted,
          ready.bounded, ready.budget⟩
      · intro inputs isInput
        rw [noInput] at isInput
        cases isInput
    · have atEnd :
          Ready target env budget { called with search := solved.search } ∧
            solved.search.executionTag ≠ 0 :=
        ready_refresh executed ready refreshed rfl
      obtain ⟨readyAfter, hasTag⟩ := atEnd
      refine ⟨readyAfter, rfl, rfl, unsolved, ?_⟩
      intro inputs isInput
      obtain ⟨admissible, leaves⟩ :=
        (leaves_iff suits executed inBounds).mp (flips inputs isInput).1
      exact ⟨hasTag, (lengths inputs isInput).trans executed.size, admissible,
        leaves⟩

/-- A launch in a world of which it is known that it is the next one. -/
structure Launched
    (target : Target)
    (env : Environment)
    (budget : Nat)
    (inputs : List Value)
    (before : World)
    (newEx : SymbolicExecution)
    (after : World) : Prop where
  ready : Ready target env budget after
  launches : launchedInputs after.calls = inputs :: launchedInputs before.calls
  coverage : after.coverage = before.coverage
  answered :
    target.Answers env after.calls →
      target.Executed newEx ∧
        (inputs.length = target.size →
          target.Admissible (assignmentOf inputs) →
          newEx.inputs = inputs)

/-- The program is run as long as the number of runs has no bound. -/
theorem exists_launched
    {budget : Nat}
    {world : World}
    (ready : Ready target env (budget + 1) world)
    {inputs : List Value}
    (enough :
      world.search.executionTag ≠ 0 → inputs.length = target.size)
    (curEx : SymbolicExecution) :
    ∃ newEx after,
      Yields (runProgram env inputs curEx) world newEx after ∧
        Launched target env budget inputs world newEx after := by
  let counted : World :=
    { world with
      search := { world.search with numIters := world.search.numIters + 1 } }
  have lists :
      Search.HeadInBounds world.search.rankIndices inputs ∧
        Search.HeadInBounds world.search.worldSizeIndices inputs := by
    by_cases isZero : world.search.executionTag = 0
    · obtain ⟨noRank, noSize⟩ := ready.fresh isZero
      rw [noRank, noSize]
      constructor
      · intro index isHead
        cases isHead
      · intro index isHead
        cases isHead
    · obtain ⟨-, ranks, sizes⟩ := ready.cached isZero
      rw [ranks, sizes]
      constructor
      · intro index isHead
        rw [enough isZero]
        exact target.inInputs index
          (List.mem_append_left _ (List.mem_of_mem_head? isHead))
      · intro index isHead
        rw [enough isZero]
        exact target.inInputs index
          (List.mem_append_right _ (List.mem_of_mem_head? isHead))
  obtain ⟨⟨next, launch⟩, launched⟩ :
      ∃ result, counted.search.launchProgram inputs = some result :=
    Search.exists_launchProgram_iff.mpr lists
  obtain ⟨targetRank, commWorldSize, isNext⟩ :=
    Search.launchProgram_next launched
  let after : World :=
    { counted with
      search := next
      calls := .launchProgram counted.search inputs :: world.calls }
  have notStopped : ¬(counted.search.numIters : Int) > env.maxIters := by
    have budgeted := ready.budget
    have isCounted :
        (counted.search.numIters : Int) = world.search.numIters + 1 := rfl
    omega
  refine ⟨env.execution counted.search.numIters curEx, after, ?_, ?_⟩
  · have launchYields : Yields (launchProgram inputs) counted () after := by
      unfold launchProgram
      refine Yields.bind rfl (Yields.bind rfl ?_)
      rw [launched]
      rfl
    have goesOn :
        Yields
          (if (counted.search.numIters : Int) > env.maxIters then
            throw .exit
          else do
            launchProgram inputs
            return env.execution counted.search.numIters curEx :
              Run SymbolicExecution)
          counted (env.execution counted.search.numIters curEx) after := by
      rw [if_neg notStopped]
      exact launchYields.bind rfl
    exact Yields.bind rfl (Yields.bind rfl goesOn)
  · refine ⟨?_, rfl, rfl, ?_⟩
    · have sameSearch :
          after.search =
            { counted.search with
              targetRank := targetRank
              commWorldSize := commWorldSize
              isFirstRun := false } :=
        isNext
      refine ⟨?_, ?_, ?_, ready.accounted, ready.bounded, ?_⟩
      · rw [sameSearch]
        exact ready.fresh
      · rw [sameSearch]
        exact ready.cached
      · rw [sameSearch]
        exact ready.plain
      · rw [sameSearch]
        have budgeted := ready.budget
        have isCounted :
            (counted.search.numIters : Int) = world.search.numIters + 1 := rfl
        dsimp only
        omega
    · intro answers
      exact answers counted.search inputs (List.mem_cons_self ..) curEx

/-- The branches of a path are branches of the program. -/
theorem listed_path
    (suits : target.Suits env)
    (inputs : List Value) :
    ∀ bid ∈ target.path inputs, bid ∈ env.tables.branches := by
  intro bid member
  obtain ⟨event, isEvent, rfl⟩ := List.mem_map.mp member
  obtain ⟨k, found⟩ := List.mem_iff_getElem?.mp isEvent
  rw [TestedProgram.getElem?_events] at found
  split at found
  · obtain ⟨next, isNext, rfl⟩ := Option.map_eq_some_iff.mp found
    obtain ⟨isThen, isElse⟩ := suits.listed _ next isNext
    unfold Conditional.event
    split
    · exact isThen
    · exact isElse
  · cases found

/-- What `UpdateCoverage` leaves for an execution of the target. -/
structure Covers
    (target : Target)
    (env : Environment)
    (budget : Nat)
    (taken : List BranchId)
    (before after : World) : Prop where
  ready : Ready target env budget after
  calls : after.calls = before.calls
  search : after.search = before.search
  kept : setBits before.coverage.covered ⊆ setBits after.coverage.covered
  covers : positives taken ⊆ setBits after.coverage.covered

theorem exists_covers
    (suits : target.Suits env)
    (executed : target.Executed ex)
    {budget : Nat}
    {world : World}
    (ready : Ready target env budget world) :
    ∃ result after,
      Yields (SearchRun.updateCoverage env ex) world result after ∧
        Covers target env budget (target.path ex.inputs) world after := by
  have drawn :
      ∀ bid ∈ reported ex.path.branches (SearchRun.allOthers env world.search),
        bid ∈ env.tables.branches ∨ bid < 0 := by
    intro bid member
    rcases List.mem_append.mp member with own | others
    · rw [executed.branches] at own
      exact Or.inl (listed_path suits ex.inputs bid own)
    · obtain ⟨branches, isOther, inBranches⟩ := List.mem_flatten.mp others
      obtain ⟨rank, -, isBranches⟩ := List.mem_filterMap.mp isOther
      split at isBranches
      · cases isBranches
      · exact suits.others _ _ branches isBranches bid inBranches
  obtain ⟨coverage, newBranches, updated, visited⟩ :=
    updateCoverage_spec suits.tables ready.accounted ready.bounded drawn
  refine ⟨_, _, ObservedSearch.yields_updateCoverage updated, ?_⟩
  refine ⟨?_, rfl, rfl, ?_, ?_⟩
  · refine ⟨ready.fresh, ready.cached, ready.plain, visited.accounted, ?_,
      ready.budget⟩
    rw [visited.numCovered]
    exact Nat.mod_lt _ (by decide)
  · rw [visited.covered]
    exact Finset.subset_union_left
  · rw [visited.covered, ← executed.branches]
    intro bid member
    refine Finset.mem_union_right _ ?_
    simp only [positives, List.mem_toFinset, List.mem_filter] at member ⊢
    exact ⟨List.mem_append_left _ member.1, member.2⟩

/-- The prediction at a constraint that an execution leaves at is right. -/
theorem checkPrediction_executed
    (suits : target.Suits env)
    (executed : target.Executed ex)
    {newEx : SymbolicExecution}
    (newExecuted : target.Executed newEx)
    {i : Nat}
    (inBounds : i < ex.path.constraints.length)
    (leaves :
      TestedProgram.Leaves target.program target.steps target.Admissible i
        (assignmentOf ex.inputs) (target.path newEx.inputs)) :
    ex.path.constraintsIdx[i]? = some i ∧
      env.tables.checkPrediction ex newEx i = some true := by
  have recorded := recorded_executed executed
  have count := length_constraints_executed executed
  have indices :=
    (target.loopFree.retainsAll (assignmentOf ex.inputs)).constraintsIdx
  rw [count, Target.path, TestedProgram.path, List.length_map] at inBounds
  have here := List.getElem?_eq_getElem inBounds
  obtain ⟨c, supplies⟩ :=
    TestedProgram.symbolic_events _ (List.mem_of_getElem? here)
  constructor
  · rw [executed.constraintsIdx]
    exact (congrArg (·[i]?) indices).trans (by simp [inBounds])
  · have inConstraints : i < ex.path.constraints.length := by
      rw [count, Target.path, TestedProgram.path, List.length_map]
      exact inBounds
    obtain ⟨holds, fails⟩ :=
      (TestedProgram.leaves_iff_flips suits.paired recorded inConstraints
        newExecuted.admissible).mp leaves
    have atIndex := congrArg (·[i]?) recorded
    simp only [List.getElem?_map, here, Option.map_some, supplies] at atIndex
    obtain ⟨d, found, same⟩ := Option.map_eq_some_iff.mp atIndex
    obtain rfl := Option.some.inj same
    have few : (target.path ex.inputs).length ≤ target.steps :=
      TestedProgram.length_path_le
    have enough : i < target.steps := by
      rw [count] at inConstraints
      exact lt_of_lt_of_le inConstraints few
    exact (TestedProgram.checkPrediction_iff suits.paired executed.branches
      newExecuted.branches here supplies enough).mpr
      ⟨(TestedProgram.holdsBefore_iff recorded).mpr holds, fails d found⟩

end Steps

/--
From one world to another, the program was launched once on an input for each
path of a kind, and these paths are covered.
-/
structure Explores
    (target : Target)
    (env : Environment)
    (budget : Nat)
    (kind : List BranchId → Prop)
    (before after : World) : Prop where
  ready : Ready target env budget after
  launched :
    ∃ inputs,
      launchedInputs after.calls = inputs ++ launchedInputs before.calls ∧
        (inputs.map target.path).Nodup ∧
        ∀ taken, taken ∈ inputs.map target.path ↔ kind taken
  kept : setBits before.coverage.covered ⊆ setBits after.coverage.covered
  covers :
    ∀ taken, kind taken → positives taken ⊆ setBits after.coverage.covered

namespace Explores

variable
  {target : Target}
  {env : Environment}
  {budget less : Nat}
  {kind other : List BranchId → Prop}
  {before middle after : World}

/-- Nothing is launched for a kind without paths. -/
theorem none
    (ready : Ready target env budget after)
    (sameLaunches : launchedInputs after.calls = launchedInputs before.calls)
    (sameCoverage : after.coverage = before.coverage)
    (empty : ∀ taken, ¬kind taken) :
    Explores target env budget kind before after where
  ready := ready
  launched := by
    refine ⟨[], sameLaunches, List.nodup_nil, ?_⟩
    intro taken
    constructor
    · intro member
      cases member
    · intro isKind
      exact absurd isKind (empty taken)
  kept := by
    rw [sameCoverage]
  covers := fun taken isKind => absurd isKind (empty taken)

/-- Paths of two kinds are explored one kind after the other. -/
theorem andThen
    (first : Explores target env budget kind before middle)
    (second : Explores target env less other middle after)
    (apart : ∀ taken, kind taken → ¬other taken) :
    Explores target env less (fun taken => kind taken ∨ other taken) before
      after where
  ready := second.ready
  launched := by
    obtain ⟨inputs, launched, nodup, areKind⟩ := first.launched
    obtain ⟨later, laterLaunched, laterNodup, areOther⟩ := second.launched
    refine ⟨later ++ inputs, ?_, ?_, ?_⟩
    · rw [laterLaunched, launched, List.append_assoc]
    · rw [List.map_append, List.nodup_append]
      refine ⟨laterNodup, nodup, ?_⟩
      rintro taken isLater _ isEarlier rfl
      exact apart taken ((areKind taken).mp isEarlier)
        ((areOther taken).mp isLater)
    · intro taken
      rw [List.map_append, List.mem_append, areKind, areOther]
      exact Or.comm
  kept := first.kept.trans second.kept
  covers := by
    rintro taken (isKind | isOther)
    · exact (first.covers taken isKind).trans second.kept
    · exact second.covers taken isOther

/-- A world with the same launches and the same coverage comes before. -/
theorem since
    (explores : Explores target env budget kind middle after)
    (sameLaunches : launchedInputs middle.calls = launchedInputs before.calls)
    (sameCoverage : middle.coverage = before.coverage) :
    Explores target env budget kind before after where
  ready := explores.ready
  launched := by
    rw [← sameLaunches]
    exact explores.launched
  kept := by
    rw [← sameCoverage]
    exact explores.kept
  covers := explores.covers

theorem congr
    (explores : Explores target env budget kind before after)
    (same : ∀ taken, kind taken ↔ other taken) :
    Explores target env budget other before after where
  ready := explores.ready
  launched := by
    obtain ⟨inputs, launched, nodup, areKind⟩ := explores.launched
    exact ⟨inputs, launched, nodup,
      fun taken => (areKind taken).trans (same taken)⟩
  kept := explores.kept
  covers := fun taken isOther =>
    explores.covers taken ((same taken).mpr isOther)

end Explores

section Search

variable {target : Target} {env : Environment}

/-- The paths that `DFS` explores from a position of an execution. -/
def SharesWith
    (target : Target)
    (pos : Nat)
    (ex : SymbolicExecution) : List BranchId → Prop :=
  TestedProgram.Shares target.program target.steps target.Admissible pos
    (assignmentOf ex.inputs)

/-- Enough runs to explore what shares so many branches with a path. -/
def runsFrom (target : Target) (pos : Nat) : Nat :=
  2 ^ (target.steps - pos) - 1

theorem runsFrom_succ
    (target : Target)
    {pos : Nat}
    (inBounds : pos < target.steps) :
    runsFrom target pos =
      1 + (runsFrom target (pos + 1) + runsFrom target (pos + 1)) := by
  unfold runsFrom
  have isNext : target.steps - pos = target.steps - (pos + 1) + 1 := by
    omega
  have positive := Nat.two_pow_pos (target.steps - (pos + 1))
  rw [isNext, Nat.pow_succ]
  omega

/-- What a call with some depth does, whatever it is given. -/
def ExploresBelow
    (target : Target)
    (env : Environment)
    (depth : Nat) : Prop :=
  ∀ pos prevEx curEx budget world,
    target.steps - pos ≤ depth →
    target.Executed prevEx →
    Ready target env (budget + runsFrom target pos) world →
    InHindsight (fun after => target.Answers env after.calls)
      (fun current => current = world)
      (dfs env depth pos prevEx curEx)
      fun _ after =>
        Explores target env budget (SharesWith target pos prevEx) world after

variable {ex : SymbolicExecution}

/-- Past the end of a path there is nothing to explore. -/
theorem explores_ended
    {pos budget less : Nat}
    {world : World}
    (ended : (target.path ex.inputs).length ≤ pos)
    (ready : Ready target env budget world)
    (le : less ≤ budget) :
    Explores target env less (SharesWith target pos ex) world world :=
  Explores.none (ready.mono le) rfl rfl
    fun _ => target.loopFree.not_shares ended

/-- The launch on an input that leaves a path, and its coverage. -/
theorem explores_launched
    {budget : Nat}
    {inputs : List Value}
    {before launchedIn after : World}
    {newEx : SymbolicExecution}
    (launched : Launched target env budget inputs before newEx launchedIn)
    (covers : Covers target env budget (target.path inputs) launchedIn after) :
    Explores target env budget (fun taken => taken = target.path inputs) before
      after where
  ready := covers.ready
  launched := by
    refine ⟨[inputs], ?_, List.nodup_singleton _, ?_⟩
    · rw [covers.calls, launched.launches]
      rfl
    · intro taken
      rw [List.map_singleton, List.mem_singleton]
  kept := by
    have kept := covers.kept
    rw [launched.coverage] at kept
    exact kept
  covers := by
    rintro taken rfl
    exact covers.covers

theorem length_path_le
    (target : Target)
    (inputs : List Value) :
    (target.path inputs).length ≤ target.steps :=
  TestedProgram.length_path_le

/-- After an input that leaves a path at a position was launched. -/
theorem explores_afterLaunch
    (suits : target.Suits env)
    {depth : Nat}
    (below : ExploresBelow target env depth)
    (executed : target.Executed ex)
    (remaining : Nat)
    {i budget : Nat}
    (inBounds : i < ex.path.constraints.length)
    (deep : target.steps - i ≤ depth + 1)
    {inputs : List Value}
    {before launchedIn : World}
    {newEx : SymbolicExecution}
    (launched :
      Launched target env
        (budget + (runsFrom target (i + 1) + runsFrom target (i + 1)))
        inputs before newEx launchedIn)
    (newExecuted : target.Executed newEx)
    (sameInputs : newEx.inputs = inputs)
    (leaves :
      TestedProgram.Leaves target.program target.steps target.Admissible i
        (assignmentOf ex.inputs) (target.path inputs)) :
    InHindsight (fun after => target.Answers env after.calls)
      (fun current => current = launchedIn)
      (do
        let _ ← SearchRun.updateCoverage env newEx
        let branchIdx ← require ex.path.constraintsIdx[i]?
        if ← SearchRun.checkPrediction env ex newEx branchIdx then
          dfs env depth (i + 1) newEx SymbolicExecution.empty
          dfs env depth (i + 1) ex newEx
        else
          dfsLoop env (dfs env depth) ex remaining (i + 1) newEx)
      fun _ after =>
        Explores target env budget (SharesWith target i ex) before after := by
  obtain ⟨result, coveredIn, coverageYields, covers⟩ :=
    exists_covers suits newExecuted launched.ready
  rw [sameInputs] at covers
  have newLeaves :
      TestedProgram.Leaves target.program target.steps target.Admissible i
        (assignmentOf ex.inputs) (target.path newEx.inputs) := by
    rw [sameInputs]
    exact leaves
  obtain ⟨isPosition, predicted⟩ :=
    checkPrediction_executed suits executed newExecuted inBounds newLeaves
  have positionYields :
      Yields (require ex.path.constraintsIdx[i]?) coveredIn i coveredIn := by
    rw [isPosition]
    rfl
  have predictionYields :
      Yields (SearchRun.checkPrediction env ex newEx i) coveredIn true
        coveredIn := by
    unfold SearchRun.checkPrediction
    rw [predicted]
    rfl
  refine InHindsight.afterReturn coverageYields ?_
  refine InHindsight.afterReturn positionYields ?_
  refine InHindsight.afterReturn predictionYields ?_
  simp only [if_true]
  have shallow : target.steps - (i + 1) ≤ depth := by omega
  have exploresNew :=
    below (i + 1) newEx SymbolicExecution.empty
      (budget + runsFrom target (i + 1)) coveredIn shallow newExecuted
      (by rw [Nat.add_assoc]; exact covers.ready)
  refine InHindsight.bind answers_antitone exploresNew
    (fun _ => advances_dfs env _ _ _ _) ?_
  intro _ middle _ afterNew
  have exploresOld :=
    below (i + 1) ex newEx budget middle shallow executed afterNew.ready
  refine InHindsight.weaken exploresOld fun _ after _ afterOld => ?_
  -- What leaves the path here is the new path, and what shares it further.
  have own := explores_launched launched covers
  have leavesHere :
      ∀ taken,
        (taken = target.path inputs ∨ SharesWith target (i + 1) newEx taken) ↔
          TestedProgram.Leaves target.program target.steps target.Admissible i
            (assignmentOf ex.inputs) taken := by
    intro taken
    unfold SharesWith
    rw [sameInputs]
    refine (TestedProgram.leaves_iff ?_ leaves).symm
    rw [length_constraints_executed executed] at inBounds
    exact inBounds
  have apartNew :
      ∀ taken,
        taken = target.path inputs →
          ¬SharesWith target (i + 1) newEx taken := by
    rintro taken rfl shares
    rw [SharesWith, sameInputs] at shares
    exact shares.different rfl
  have left := (own.andThen afterNew apartNew).congr leavesHere
  refine (left.andThen afterOld fun taken isLeaving =>
    isLeaving.not_shares).congr fun taken => ?_
  exact Or.comm.trans TestedProgram.shares_iff.symm

/-- The loop of `DFS` explores what shares so many branches. -/
theorem explores_dfsLoop
    (suits : target.Suits env)
    {depth : Nat}
    (below : ExploresBelow target env depth)
    (executed : target.Executed ex)
    {remaining i budget : Nat}
    {world : World}
    (isRemaining : ex.path.constraints.length - i = remaining)
    (deep : target.steps - i ≤ depth + 1)
    (ready : Ready target env (budget + runsFrom target i) world)
    (curEx : SymbolicExecution) :
    InHindsight (fun after => target.Answers env after.calls)
      (fun current => current = world)
      (dfsLoop env (dfs env depth) ex remaining i curEx)
      fun _ after =>
        Explores target env budget (SharesWith target i ex) world after := by
  have count := length_constraints_executed executed
  have few : (target.path ex.inputs).length ≤ target.steps :=
    length_path_le target ex.inputs
  induction remaining generalizing i curEx world with
  | zero =>
      refine InHindsight.pure (explores_ended ?_ ready (Nat.le_add_right _ _))
      omega
  | succ remaining inductionHypothesis =>
      have inBounds : i < ex.path.constraints.length := by omega
      have doubled : runsFrom target i = _ := runsFrom_succ target (by omega)
      obtain ⟨input, solvedIn, solveYields, solvedAt⟩ :=
        exists_solvedAt suits executed inBounds ready
      refine InHindsight.afterReturn solveYields ?_
      cases input with
      | none =>
          have enough :
              Ready target env (budget + runsFrom target (i + 1)) solvedIn :=
            solvedAt.ready.mono (by omega)
          have later :=
            inductionHypothesis (by omega) (by omega) enough curEx
          refine InHindsight.weaken later fun _ _ _ explores => ?_
          have explored := explores.since solvedAt.launches solvedAt.coverage
          refine explored.congr fun taken => ?_
          have noneLeaves := solvedAt.unsolved rfl taken
          exact ((or_iff_left noneLeaves).symm).trans
            TestedProgram.shares_iff.symm
      | some inputs =>
          obtain ⟨hasTag, size, admissible, leaves⟩ :=
            solvedAt.solved inputs rfl
          have enough :
              Ready target env
                (budget + (runsFrom target (i + 1) + runsFrom target (i + 1))
                  + 1) solvedIn :=
            solvedAt.ready.mono (by omega)
          obtain ⟨newEx, launchedIn, launchYields, launched⟩ :=
            exists_launched enough (fun _ => size) curEx
          refine InHindsight.afterYields answers_antitone launchYields ?_ ?_
          · refine Advances.bind (advances_updateCoverage env newEx)
              fun _ => ?_
            refine Advances.bind (advances_require _) fun branchIdx => ?_
            refine Advances.bind (advances_require _) fun predicted => ?_
            split
            · refine Advances.bind (advances_dfs env _ _ _ _) fun _ => ?_
              exact advances_dfs env _ _ _ _
            · exact advances_dfsLoop env (advances_dfs env depth) _ _ _ _
          · intro answers
            obtain ⟨newExecuted, same⟩ := launched.answered answers
            have explored :=
              explores_afterLaunch suits below executed remaining inBounds deep
                launched newExecuted (same size admissible) leaves
            refine InHindsight.weaken explored fun _ _ _ explores => ?_
            exact explores.since solvedAt.launches solvedAt.coverage

/-- `DFS` explores what shares so many branches, if it is deep enough. -/
theorem explores_dfs
    (suits : target.Suits env)
    (depth : Nat) :
    ExploresBelow target env depth := by
  induction depth with
  | zero =>
      intro pos prevEx curEx budget world deep executed ready
      have few := length_path_le target prevEx.inputs
      refine InHindsight.pure (explores_ended ?_ ready (Nat.le_add_right _ _))
      omega
  | succ depth inductionHypothesis =>
      intro pos prevEx curEx budget world deep executed ready
      exact explores_dfsLoop suits inductionHypothesis executed rfl deep ready
        curEx

/-- Several rounds, each of which explores a kind of paths. -/
structure ExploresRounds
    (target : Target)
    (env : Environment)
    (budget rounds : Nat)
    (kind : List BranchId → Prop)
    (before after : World) : Prop where
  ready : Ready target env budget after
  launched :
    ∃ searched : List (List (List Value)),
      searched.length = rounds ∧
        launchedInputs after.calls = searched.flatten ++ launchedInputs before.calls ∧
        ∀ round ∈ searched,
          (round.map target.path).Nodup ∧
            ∀ taken, taken ∈ round.map target.path ↔ kind taken
  kept : setBits before.coverage.covered ⊆ setBits after.coverage.covered
  covers :
    0 < rounds →
      ∀ taken, kind taken → positives taken ⊆ setBits after.coverage.covered

theorem ExploresRounds.next
    {budget less rounds : Nat}
    {kind : List BranchId → Prop}
    {before middle after : World}
    (later : ExploresRounds target env less rounds kind middle after)
    (first : Explores target env budget kind before middle) :
    ExploresRounds target env less (rounds + 1) kind before after where
  ready := later.ready
  launched := by
    obtain ⟨inputs, launched, explored⟩ := first.launched
    obtain ⟨searched, length, laterLaunched, allExplored⟩ := later.launched
    refine ⟨searched ++ [inputs], ?_, ?_, ?_⟩
    · rw [List.length_append, length, List.length_singleton]
    · rw [laterLaunched, launched, List.flatten_append, List.flatten_singleton,
        List.append_assoc]
    · intro round member
      rcases List.mem_append.mp member with isLater | isFirst
      · exact allExplored round isLater
      · rw [List.mem_singleton.mp isFirst]
        exact explored
  kept := first.kept.trans later.kept
  covers := fun _ taken isKind =>
    (first.covers taken isKind).trans later.kept

/-- What `BoundedDepthFirstSearch::Run` repeats. -/
def searchFrom
    (env : Environment)
    (maxDepth : Int)
    (ex : SymbolicExecution) : Run SymbolicExecution := do
  dfs env maxDepth.toNat 0 ex SymbolicExecution.empty
  return ex

/-- A round of its endless loop. -/
def searchRound
    (env : Environment)
    (maxDepth : Int)
    (ex : SymbolicExecution) : Run (Next SymbolicExecution Unit) := do
  let ex ← searchFrom env maxDepth ex
  return .again ex

theorem advances_searchRound
    (env : Environment)
    (maxDepth : Int)
    (ex : SymbolicExecution) :
    Advances Later (searchRound env maxDepth ex) := by
  refine Advances.bind ?_ fun _ => Advances.pure
  exact Advances.bind (advances_dfs env _ _ _ _) fun _ => Advances.pure

/-- Every round explores the paths that are not that of the first run. -/
theorem explores_rounds
    (suits : target.Suits env)
    (executed : target.Executed ex)
    {maxDepth : Int}
    (deep : (target.steps : Int) ≤ maxDepth)
    (rounds budget : Nat)
    {world : World}
    (ready : Ready target env (budget + rounds * runsFrom target 0) world) :
    InHindsight (fun after => target.Answers env after.calls)
      (fun current => current = world)
      (loop (searchRound env maxDepth) rounds ex)
      fun next after =>
        next = .again ex ∧
          ExploresRounds target env budget rounds (SharesWith target 0 ex)
            world after := by
  induction rounds generalizing world with
  | zero =>
      refine InHindsight.pure ⟨rfl, ready.mono (by omega), ?_, ?_, ?_⟩
      · refine ⟨[], rfl, rfl, ?_⟩
        intro round member
        cases member
      · exact Finset.Subset.refl _
      · intro impossible
        exact absurd impossible (Nat.lt_irrefl 0)
  | succ rounds inductionHypothesis =>
      have enough :
          Ready target env
            (budget + rounds * runsFrom target 0 + runsFrom target 0) world :=
        ready.mono (by rw [Nat.succ_mul]; omega)
      have explores :=
        explores_dfs suits maxDepth.toNat 0 ex SymbolicExecution.empty
          (budget + rounds * runsFrom target 0) world (by omega) executed
          enough
      have round :
          InHindsight (fun after => target.Answers env after.calls)
            (fun current => current = world)
            (searchRound env maxDepth ex)
            fun next after =>
              next = .again ex ∧
                Explores target env (budget + rounds * runsFrom target 0)
                  (SharesWith target 0 ex) world after := by
        have searched :
            InHindsight (fun after => target.Answers env after.calls)
              (fun current => current = world)
              (searchFrom env maxDepth ex)
              fun next after =>
                next = ex ∧
                  Explores target env (budget + rounds * runsFrom target 0)
                    (SharesWith target 0 ex) world after :=
          InHindsight.bind answers_antitone explores
            (fun _ => Advances.pure)
            fun _ _ _ explored => InHindsight.pure ⟨rfl, explored⟩
        refine InHindsight.bind answers_antitone searched
          (fun _ => Advances.pure) ?_
        rintro _ middle - ⟨rfl, explored⟩
        exact InHindsight.pure ⟨rfl, explored⟩
      refine InHindsight.bind answers_antitone round ?_ ?_
      · intro next
        cases next with
        | again locals =>
            exact Advances.loop (advances_searchRound env maxDepth) _ _
        | done result => exact Advances.pure
      · rintro _ middle - ⟨rfl, explored⟩
        refine InHindsight.weaken (inductionHypothesis explored.ready)
          fun next after _ later => ?_
        exact ⟨later.1, later.2.next explored⟩

/-- From the start of a path, every other feasible path is shared. -/
theorem sharesWith_zero_iff
    {taken : List BranchId} :
    SharesWith target 0 ex taken ↔
      target.Feasible taken ∧ taken ≠ target.path ex.inputs := by
  constructor
  · rintro ⟨isPath, -, different⟩
    exact ⟨isPath, different⟩
  · rintro ⟨isPath, different⟩
    exact ⟨isPath, rfl, different⟩

/-- An endless loop runs out of its rounds if its loop goes on. -/
theorem run_forever_eq
    {rounds : Nat}
    {world after : World}
    {maxDepth : Int}
    (looped :
      Yields (loop (searchRound env maxDepth) rounds ex) world (.again ex)
        after) :
    Stops (forever rounds (searchFrom env maxDepth) ex) world .outOfFuel
      after := by
  have yields :
      Yields
        (loop
          (fun ex => do
            let ex ← searchFrom env maxDepth ex
            return (Next.again ex : Next SymbolicExecution Unit))
          rounds ex)
        world (.again ex) after :=
    looped
  exact yields.thenStops rfl

theorem advances_forever
    (env : Environment)
    (maxDepth : Int)
    (rounds : Nat)
    (ex : SymbolicExecution) :
    Advances Later (forever rounds (searchFrom env maxDepth) ex) := by
  refine Advances.bind (Advances.loop (advances_searchRound env maxDepth) _ _)
    fun next => ?_
  cases next with
  | again locals => exact Advances.throw
  | done result => exact Advances.pure

/-- The end of the endless loop is the end of its rounds. -/
theorem exists_searched
    (suits : target.Suits env)
    (executed : target.Executed ex)
    {maxDepth : Int}
    (deep : (target.steps : Int) ≤ maxDepth)
    (rounds : Nat)
    {world : World}
    (ready : Ready target env (0 + rounds * runsFrom target 0) world)
    (answers :
      target.Answers env
        ((forever rounds (searchFrom env maxDepth) ex).run.run world).2.calls) :
    ∃ after,
      Stops (forever rounds (searchFrom env maxDepth) ex) world .outOfFuel
          after ∧
        ExploresRounds target env 0 rounds (SharesWith target 0 ex) world
          after := by
  have isBefore :
      Later
        ((loop (searchRound env maxDepth) rounds ex).run.run world).2
        ((forever rounds (searchFrom env maxDepth) ex).run.run world).2 := by
    refine Advances.endOfFirst (fun next => ?_) world
    cases next with
    | again locals => exact Advances.throw
    | done result => exact Advances.pure
  obtain ⟨_, after, looped, -, rfl, explored⟩ :=
    InHindsight.exists_yields
      (explores_rounds suits executed deep rounds 0 ready)
      (answers_antitone _ _ isBefore answers)
  exact ⟨after, run_forever_eq looped, explored⟩

end Search

/-- All that a run of a round-bounded search has done. -/
structure Exhausts
    (target : Target)
    (rounds : Nat)
    (first : List BranchId)
    (searched : List (List (List Value)))
    (final : World) : Prop where
  feasible : target.Feasible first
  length : searched.length = rounds
  launched : launchedInputs final.calls = searched.flatten ++ [[]]
  once : ∀ round ∈ searched, (first :: round.map target.path).Nodup
  all :
    ∀ round ∈ searched,
      ∀ taken,
        taken ∈ first :: round.map target.path ↔ target.Feasible taken
  coversFirst : positives first ⊆ setBits final.coverage.covered
  coversAll :
    0 < rounds →
      ∀ taken,
        target.Feasible taken →
          positives taken ⊆ setBits final.coverage.covered

/--
On a target without loops the bounded search with at least its depth neither
fails nor stops early.  After a first run on drawn inputs, each of its rounds
launches the target exactly once for each other feasible path, and the
branches of all feasible paths are covered.
-/
theorem boundedDepthFirst_exhaustive
    (target : Target)
    (env : Environment)
    (suits : target.Suits env)
    (name : String)
    (commWorldSize targetRank : Int)
    (coverage : Coverage)
    (accounted : Accounted env.tables coverage)
    (bounded : coverage.numCovered < 2 ^ 32)
    (dist : List Nat)
    (maxDepth : Int)
    (deep : (target.steps : Int) ≤ maxDepth)
    (rounds : Nat)
    (enough :
      ((1 + rounds * (2 ^ target.steps - 1) : Nat) : Int) ≤ env.maxIters)
    (result : Except Stop Unit)
    (final : World)
    (ran :
      (boundedDepthFirst env maxDepth rounds).run.run
          (World.start name commWorldSize targetRank coverage dist) =
        (result, final))
    (answers : target.Answers env final.calls) :
    result = .error .outOfFuel ∧
      ∃ first searched, Exhausts target rounds first searched final := by
  have atStart :
      Ready target env (0 + rounds * runsFrom target 0 + 1)
        (World.start name commWorldSize targetRank coverage dist) := by
    refine ⟨fun _ => ⟨rfl, rfl⟩, fun hasTag => absurd rfl hasTag, rfl,
      accounted, bounded, ?_⟩
    have noRuns :
        (World.start name commWorldSize targetRank coverage dist).search.numIters
          = 0 := rfl
    rw [noRuns, runsFrom, Nat.sub_zero]
    omega
  obtain ⟨ex, launchedIn, launchYields, launched⟩ :=
    exists_launched atStart (fun hasTag => absurd rfl hasTag)
      SymbolicExecution.empty
  have restAdvances :
      Advances Later (do
        let _ ← SearchRun.updateCoverage env ex
        forever rounds (searchFrom env maxDepth) ex) :=
    Advances.bind (advances_updateCoverage env ex) fun _ =>
      advances_forever env maxDepth rounds ex
  have unfolded :
      (boundedDepthFirst env maxDepth rounds).run.run
          (World.start name commWorldSize targetRank coverage dist) =
        (do
          let _ ← SearchRun.updateCoverage env ex
          forever rounds (searchFrom env maxDepth) ex :
            Run Unit).run.run launchedIn :=
    launchYields.run_bind _
  rw [unfolded] at ran
  have later := restAdvances launchedIn
  rw [ran] at later
  obtain ⟨executed, -⟩ :=
    launched.answered (answers_antitone launchedIn final later answers)
  obtain ⟨_, coveredIn, coverageYields, covers⟩ :=
    exists_covers suits executed launched.ready
  rw [coverageYields.run_bind] at ran
  have answersHere :
      target.Answers env
        ((forever rounds (searchFrom env maxDepth) ex).run.run
          coveredIn).2.calls := by
    rw [ran]
    exact answers
  obtain ⟨after, stops, explored⟩ :=
    exists_searched suits executed deep rounds covers.ready answersHere
  obtain ⟨rfl, rfl⟩ := Prod.mk.inj (ran.symm.trans stops)
  obtain ⟨searched, length, areLaunched, exactly⟩ := explored.launched
  refine ⟨rfl, target.path ex.inputs, searched, ?_⟩
  have feasible : target.Feasible (target.path ex.inputs) :=
    ⟨assignmentOf ex.inputs, executed.admissible, rfl⟩
  refine ⟨feasible, length, ?_, ?_, ?_, ?_, ?_⟩
  · rw [areLaunched, covers.calls, launched.launches]
    rfl
  · intro round member
    obtain ⟨nodup, areKind⟩ := exactly round member
    refine List.nodup_cons.mpr ⟨fun isFirst => ?_, nodup⟩
    exact (sharesWith_zero_iff.mp ((areKind _).mp isFirst)).2 rfl
  · intro round member taken
    rw [List.mem_cons, (exactly round member).2, sharesWith_zero_iff]
    constructor
    · rintro (rfl | ⟨isFeasible, -⟩)
      · exact feasible
      · exact isFeasible
    · intro isFeasible
      by_cases isFirst : taken = target.path ex.inputs
      · exact Or.inl isFirst
      · exact Or.inr ⟨isFeasible, isFirst⟩
  · exact covers.covers.trans explored.kept
  · intro hasRound taken isFeasible
    by_cases isFirst : taken = target.path ex.inputs
    · rw [isFirst]
      exact covers.covers.trans explored.kept
    · exact explored.covers hasRound taken
        (sharesWith_zero_iff.mpr ⟨isFeasible, isFirst⟩)

section Nested

open YicesSolver

/-- Whether an input is positive, and if so whether the next one is. -/
def nestedTests : TestedProgram := fun history =>
  match history with
  | [] => some ⟨1, 2, { op := .gt, expr := .ofTerm 1 0 }⟩
  | [1] => some ⟨3, 4, { op := .gt, expr := .ofTerm 1 1 }⟩
  | _ => none

/-- Branches 1 and 2 are paired, and so are 3 and 4. -/
def pairedTables : BranchTables where
  branches := [1, 2, 3, 4]
  pairedBranch := [0, 2, 1, 4, 3]
  branchFunction := [0, 1, 1, 1, 1]
  branchCount := [0, 4]

/-- The execution of the nested tests on two inputs. -/
def nestedOn (inputs : List Value) : SymbolicExecution :=
  { SymbolicExecution.empty with
    executionTag := 1
    vars := ((∅ : OrderedMap Var CType).insert 0 .int).insert 1 .int
    inputs := inputs
    path :=
      SymbolicPath.record (nestedTests.events (assignmentOf inputs) 2 []) }

theorem loopFree_nestedTests : nestedTests.LoopFree 2 := by
  constructor
  · intro assignment
    by_cases first :
        SymbolicPred.holds { op := .gt, expr := .ofTerm 1 0 } assignment = true
    · by_cases second :
          SymbolicPred.holds { op := .gt, expr := .ofTerm 1 1 } assignment =
            true
      · simp [TestedProgram.path, TestedProgram.events, nestedTests,
          Conditional.event, first, second]
      · simp [TestedProgram.path, TestedProgram.events, nestedTests,
          Conditional.event, first, second]
    · simp [TestedProgram.path, TestedProgram.events, nestedTests,
        Conditional.event, first]
  · intro assignment
    by_cases first :
        SymbolicPred.holds { op := .gt, expr := .ofTerm 1 0 } assignment = true
    · by_cases second :
          SymbolicPred.holds { op := .gt, expr := .ofTerm 1 1 } assignment =
            true
      · simp [TestedProgram.path, TestedProgram.events, nestedTests,
          Conditional.event, first, second]
      · simp [TestedProgram.path, TestedProgram.events, nestedTests,
          Conditional.event, first, second]
    · simp [TestedProgram.path, TestedProgram.events, nestedTests,
        Conditional.event, first]

/-- The conditions of the nested tests. -/
theorem nestedTests_cases
    {history : List BranchId}
    {next : Conditional}
    (isNext : nestedTests history = some next) :
    next = ⟨1, 2, { op := .gt, expr := .ofTerm 1 0 }⟩ ∨
      next = ⟨3, 4, { op := .gt, expr := .ofTerm 1 1 }⟩ := by
  unfold nestedTests at isNext
  split at isNext
  · exact Or.inl (Option.some.inj isNext).symm
  · exact Or.inr (Option.some.inj isNext).symm
  · cases isNext

/-- The nested tests on two inputs. -/
def nestedTarget : Target where
  program := nestedTests
  steps := 2
  marked := nestedOn [1, 1]
  size := 2
  loopFree := loopFree_nestedTests
  keys := by decide
  mentions := by
    intro history next isNext
    rcases nestedTests_cases isNext with rfl | rfl
    · decide
    · decide
  declared := by
    intro history next isNext
    rcases nestedTests_cases isNext with rfl | rfl
    · decide
    · decide
  declaredMPI := by
    unfold Declared
    decide
  inInputs := by decide
  plain := by decide

/-- An exact decision procedure that answers zero to both queries. -/
noncomputable def zeroSolver : Solve :=
  withAnswer
    ((∅ : OrderedMap Var CType).insert 0 .int,
      [{ op := .le, expr := .ofTerm 1 0 }])
    (some ((∅ : OrderedMap Var Value).insert 0 0))
    (withAnswer
      ((∅ : OrderedMap Var CType).insert 1 .int,
        [{ op := .le, expr := .ofTerm 1 1 }])
      (some ((∅ : OrderedMap Var Value).insert 1 0))
      (preferring fun _ => 0))

/-- The tests are first run on two ones. -/
noncomputable def nestedSearch : Environment :=
  { SearchStrategies.unsatisfiable with
    maxIters := 4
    tables := pairedTables
    solve := fun _ => zeroSolver
    execution := fun run _ =>
      nestedOn
        (if run = 1 then [1, 1] else if run = 2 then [0, 1] else [1, 0])
    branchesOfRank := fun _ _ => none }

theorem zeroSolver_exact : ExactSolver zeroSolver := by
  refine withAnswer_exact ?_ ?_ (withAnswer_exact ?_ ?_ (preferring_exact _))
  · intro soln isSoln
    obtain rfl := Option.some.inj isSoln
    refine ⟨?_, by decide, ?_⟩
    · intro v
      rw [Std.ExtTreeMap.mem_insert, Std.ExtTreeMap.mem_insert]
      simp
    · rw [OrderedMap.forall_getElem?_iff]
      decide
  · intro impossible
    cases impossible
  · intro soln isSoln
    obtain rfl := Option.some.inj isSoln
    refine ⟨?_, by decide, ?_⟩
    · intro v
      rw [Std.ExtTreeMap.mem_insert, Std.ExtTreeMap.mem_insert]
      simp
    · rw [OrderedMap.forall_getElem?_iff]
      decide
  · intro impossible
    cases impossible

/-- Two inputs of the tests lead to an execution. -/
theorem executed_nestedOn
    {inputs : List Value}
    (isInput : inputs ∈ [[1, 1], [0, 1], [1, 0]]) :
    nestedTarget.Executed (nestedOn inputs) := by
  have size : inputs.length = 2 := by
    simp only [List.mem_cons, List.not_mem_nil, or_false] at isInput
    rcases isInput with rfl | rfl | rfl
    · rfl
    · rfl
    · rfl
  have inRange :
      ∀ (v : Var) (type : CType),
        nestedTarget.marked.vars[v]? = some type →
        type.InRange (assignmentOf inputs v) := by
    rw [OrderedMap.forall_getElem?_iff]
    simp only [List.mem_cons, List.not_mem_nil, or_false] at isInput
    rcases isInput with rfl | rfl | rfl
    · decide
    · decide
    · decide
  have admissible : nestedTarget.Admissible (assignmentOf inputs) :=
    { consistent := fun c member => by cases member
      inRange := inRange }
  exact
    { branches := (SymbolicPath.records_record _).branches
      constraints := rfl
      constraintsIdx := rfl
      size := size
      admissible := admissible
      executionTag := Nat.one_ne_zero
      vars := rfl
      limits := rfl
      rankIndices := rfl
      rankNonDefaultCommIndices := rfl
      worldSizeIndices := rfl }

/-- The runs and the inputs of all launches, latest first. -/
def launchedRuns (calls : List Call) : List (Nat × List Value) :=
  calls.filterMap fun call =>
    match call with
    | .solveAtBranch _ _ => none
    | .launchProgram search inputs => some (search.numIters, inputs)

/-- One round of the search on the nested tests. -/
noncomputable def nestedRun : Except Stop Unit × World :=
  (boundedDepthFirst nestedSearch 2 1).run.run
    (World.start "a.out" 2 0 (uncovered pairedTables) [])

theorem answers_nestedRun :
    nestedTarget.Answers nestedSearch nestedRun.2.calls := by
  have runs :
      launchedRuns nestedRun.2.calls = [(3, [1, 0]), (2, [0, 1]), (1, [])] := by
    decide +kernel
  intro search inputs member ex
  have listed :
      (search.numIters, inputs) ∈ launchedRuns nestedRun.2.calls :=
    List.mem_filterMap.mpr ⟨_, member, rfl⟩
  rw [runs] at listed
  simp only [List.mem_cons, Prod.mk.injEq, List.not_mem_nil, or_false] at listed
  rcases listed with ⟨isRun, rfl⟩ | ⟨isRun, rfl⟩ | ⟨isRun, rfl⟩
  · rw [isRun]
    exact ⟨executed_nestedOn (by decide), fun _ _ => rfl⟩
  · rw [isRun]
    exact ⟨executed_nestedOn (by decide), fun _ _ => rfl⟩
  · rw [isRun]
    refine ⟨executed_nestedOn (by decide), fun size => ?_⟩
    cases size

theorem boundedDepthFirst_exhaustive_nestedTests :
    nestedRun.1 = .error .outOfFuel ∧
      ∃ first searched,
        Exhausts nestedTarget 1 first searched nestedRun.2 := by
  have tables : pairedTables.WellFormed :=
    { nodup := by decide
      inRange := by decide
      hasFunction := by decide
      fewBranches := by decide }
  have accounted : Accounted pairedTables (uncovered pairedTables) := by
    obtain ⟨coverage, loads, accounted, -, -⟩ :=
      load_spec tables List.nodup_nil (fun bid member => by cases member)
    obtain rfl := Option.some.inj loads
    exact accounted
  have suits : nestedTarget.Suits nestedSearch :=
    { tables := tables
      paired := by
        intro history next isNext
        rcases nestedTests_cases isNext with rfl | rfl
        · decide
        · decide
      listed := by
        intro history next isNext
        rcases nestedTests_cases isNext with rfl | rfl
        · decide
        · decide
      exact := fun _ => zeroSolver_exact
      others := fun run rank branches isOther => by cases isOther }
  have ran :
      (boundedDepthFirst nestedSearch 2 1).run.run
          (World.start "a.out" 2 0 (uncovered pairedTables) []) =
        (nestedRun.1, nestedRun.2) :=
    (Prod.eta nestedRun).symm
  exact boundedDepthFirst_exhaustive nestedTarget nestedSearch suits "a.out" 2 0
    (uncovered pairedTables) accounted (by decide) [] 2 (by decide) 1
    (by decide) nestedRun.1 nestedRun.2 ran answers_nestedRun

end Nested

end ExhaustiveSearch

end Compi
