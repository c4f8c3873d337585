import Compi.ObservedSearch
import Compi.RecordedProgram
import Compi.StrategyLaunches

/-!
# The windows of the hybrid search

The hybrid search keeps a window of constraints while it replaces the
execution.  A flip at the first constraint of the window can leave the new
execution without any constraint in it, because recording may drop the
constraint of the flipped branch.
-/

namespace Compi

namespace HybridWindow

open ObservedSearch SearchRun StoppableRun

/--
What happens in a hybrid search: a call of `RandomLocalSearch`, a call of
`RandomStep`, and a prediction that `RandomStep` has found right, with the
window, the flipped constraint and its position.
-/
inductive Observation where
  | window (start finish : Nat)
  | step (start finish : Nat) (ex : SymbolicExecution)
  | confirmed (start i p : Nat) (newEx : SymbolicExecution)
  deriving DecidableEq

section Programs

variable (env : Environment)

/-- `randomStep`, observed. -/
def randomStep
    (ex : SymbolicExecution)
    (start finish : Nat) : Observed Observation (Bool × SymbolicExecution) := do
  note fun _ => .step start finish ex
  let finish := min finish ex.path.constraints.length
  lift (SearchRun.assert (decide (start < finish)))
  let result ← loop
    (fun (idxs, nextEx) => do
      match ← lift (takeRandom env idxs) with
      | none => return .done (false, ex)
      | some (i, idxs) =>
          match ← lift (solveAtBranch env ex i) with
          | none => return .again (idxs, nextEx)
          | some input =>
              let nextEx ← lift (runProgram env input nextEx)
              let _ ← lift (updateCoverage env nextEx)
              let branchIdx ← lift (require ex.path.constraintsIdx[i]?)
              if ← lift (checkPrediction env ex nextEx branchIdx) then
                note fun _ => .confirmed start i branchIdx nextEx
                return .done (true, ex.swap nextEx)
              else
                return .again (idxs, nextEx))
    1000
    ((List.range (finish - start)).map (start + ·), SymbolicExecution.empty)
  match result with
  | .again _ => return (false, ex)
  | .done result => return result

/-- `randomLocalSearch`, observed. -/
def randomLocalSearch
    (ex : SymbolicExecution)
    (start finish : Nat) : Observed Observation SymbolicExecution := do
  note fun _ => .window start finish
  let result ← loop
    (fun ex => do
      let (stepped, ex) ← randomStep env ex start finish
      if stepped then
        return .again ex
      else
        return .done ex)
    100 ex
  match result with
  | .again ex => return ex
  | .done ex => return ex

/-- `hybrid`, observed. -/
def hybrid (stepSize fuel : Nat) : Observed Observation Unit :=
  forever fuel
    (fun ex => do
      let ex ← lift (runProgram env [] ex)
      let _ ← lift (updateCoverage env ex)
      let result ← loop
        (fun (pos, ex) => do
          if pos < ex.path.constraints.length then
            let ex ← randomLocalSearch env ex pos (pos + stepSize)
            return .again (pos + stepSize, ex)
          else
            return .done ex)
        fuel (0, ex)
      match result with
      | .again _ => throw .outOfFuel
      | .done ex => return ex)
    SymbolicExecution.empty

end Programs

section Erasure

variable {env : Environment}

theorem erases_randomStep
    (ex : SymbolicExecution)
    (start finish : Nat) :
    Erases (randomStep env ex start finish)
      (SearchStrategies.randomStep env ex start finish) := by
  refine Erases.note ?_
  refine Erases.bind (Erases.lift _) fun _ => ?_
  refine Erases.bind (Erases.loop ?_ _ _) fun result => ?_
  · rintro ⟨idxs, nextEx⟩
    refine Erases.bind (Erases.lift _) fun taken => ?_
    rcases taken with _ | ⟨i, idxs⟩
    · exact Erases.pure
    · refine Erases.bind (Erases.lift _) fun solved => ?_
      cases solved with
      | none =>
          exact Erases.pure
      | some input =>
          refine Erases.bind (Erases.lift _) fun nextEx => ?_
          refine Erases.bind (Erases.lift _) fun _ => ?_
          refine Erases.bind (Erases.lift _) fun branchIdx => ?_
          refine Erases.bind (Erases.lift _) fun predicted => ?_
          cases predicted with
          | false =>
              exact Erases.pure
          | true =>
              exact Erases.note Erases.pure
  · cases result with
    | again locals =>
        exact Erases.pure
    | done result =>
        exact Erases.pure

theorem erases_randomLocalSearch
    (ex : SymbolicExecution)
    (start finish : Nat) :
    Erases (randomLocalSearch env ex start finish)
      (SearchStrategies.randomLocalSearch env ex start finish) := by
  refine Erases.note ?_
  refine Erases.bind (Erases.loop ?_ _ _) fun result => ?_
  · intro ex
    refine Erases.bind (erases_randomStep ex start finish) ?_
    rintro ⟨stepped, ex⟩
    cases stepped with
    | false =>
        exact Erases.pure
    | true =>
        exact Erases.pure
  · cases result with
    | again ex =>
        exact Erases.pure
    | done ex =>
        exact Erases.pure

/-- The observed search is the search. -/
theorem erases_hybrid (stepSize fuel : Nat) :
    Erases (hybrid env stepSize fuel)
      (SearchStrategies.hybrid env stepSize fuel) := by
  refine erases_forever ?_ fuel _
  intro ex
  refine Erases.bind (Erases.lift _) fun ex => ?_
  refine Erases.bind (Erases.lift _) fun _ => ?_
  refine Erases.bind (Erases.loop ?_ _ _) fun result => ?_
  · rintro ⟨pos, ex⟩
    dsimp only
    split
    · exact Erases.bind (erases_randomLocalSearch ex _ _) fun _ => Erases.pure
    · exact Erases.pure
  · cases result with
    | again locals =>
        exact Erases.throw
    | done ex =>
        exact Erases.pure

end Erasure

section Windows

/-- A step is called on a window that has constraints. -/
def Observation.InBounds : Observation → Prop
  | step start finish ex => start < min finish ex.path.constraints.length
  | _ => True

instance : DecidablePred Observation.InBounds
  | .window _ _ => inferInstanceAs (Decidable True)
  | .step _ _ _ => inferInstanceAs (Decidable (_ < _))
  | .confirmed _ _ _ _ => inferInstanceAs (Decidable True)

/--
Where a step follows a flip at the first constraint of its window, the path
that it takes over has a new branch at or after the flipped one.
-/
def Regains
    (program : RecordedProgram)
    (log : List Observation) : Prop :=
  ∀ start finish p ex newEx,
    [.step start finish ex, .confirmed start start p newEx] <:+: log →
    program.TakesNewBranch newEx.path.branches p

/-- The steps so far are in bounds if the flips so far regain the window. -/
def Safe (program : RecordedProgram) (log : List Observation) : Prop :=
  Regains program log → ∀ observation ∈ log, observation.InBounds

/-- So is another step on an execution. -/
def Ready
    (program : RecordedProgram)
    (start : Nat)
    (ex : SymbolicExecution)
    (log : List Observation) : Prop :=
  Safe program log ∧
    ∀ finish,
      Regains program (.step start finish ex :: log) →
      start < ex.path.constraints.length

variable
  {program : RecordedProgram}
  {log : List Observation}
  {observation : Observation}
  {ex newEx : SymbolicExecution}
  {start finish i p : Nat}

theorem Regains.earlier
    (regains : Regains program (observation :: log)) :
    Regains program log :=
  fun start finish p ex newEx adjacent =>
    regains start finish p ex newEx (List.infix_cons adjacent)

theorem Safe.cons
    (safe : Safe program log)
    (inBounds :
      Regains program (observation :: log) → observation.InBounds) :
    Safe program (observation :: log) := by
  intro regains other member
  rcases List.mem_cons.mp member with rfl | earlier
  · exact inBounds regains
  · exact safe regains.earlier other earlier

theorem Ready.step
    (ready : Ready program start ex log)
    (isWindow : start < finish) :
    Safe program (.step start finish ex :: log) :=
  ready.1.cons fun regains => lt_min isWindow (ready.2 finish regains)

/-- A confirmed flip of a constraint of the window makes a step ready. -/
theorem ready_of_confirmed
    (safe : Safe program log)
    (isWindow : start ≤ i)
    (upTo : i ≤ newEx.path.constraints.length)
    (regained :
      program.TakesNewBranch newEx.path.branches p →
      i < newEx.path.constraints.length) :
    Ready program start (ex.swap newEx)
      (.confirmed start i p newEx :: log) := by
  constructor
  · exact safe.cons fun _ => trivial
  · intro finish regains
    show start < newEx.path.constraints.length
    rcases Nat.lt_or_eq_of_le isWindow with isLater | rfl
    · exact Nat.lt_of_lt_of_le isLater upTo
    · refine regained (regains start finish p (ex.swap newEx) newEx ?_)
      exact List.IsPrefix.isInfix ⟨log, rfl⟩

variable {env : Environment}

theorem rule_randomStep
    (distinguishes : program.Distinguishes)
    (always : ∀ run ex, program.Reports (env.execution run ex))
    (reports : program.Reports ex)
    (isWindow : start < finish) :
    Rule (fun observed => Safe program observed.2)
      (fun observed => Ready program start ex observed.2)
      (randomStep env ex start finish)
      fun result observed =>
        (Safe program observed.2 ∧
          (result.1 = true → Ready program start result.2 observed.2)) ∧
          program.Reports result.2 := by
  refine Rule.noteThen (fun observed => Safe program observed.2)
    (fun _ _ ready => ready.step isWindow) ?_
  refine Rule.bind (Rule.keepLog (Safe program) _) fun _ => ?_
  refine Rule.bind
    (Rule.strengthen
      (Rule.loop
        (fun locals observed =>
          Safe program observed.2 ∧ ∀ i ∈ locals.1, start ≤ i)
        (fun result observed =>
          (Safe program observed.2 ∧
            (result.1 = true → Ready program start result.2 observed.2)) ∧
            program.Reports result.2)
        ?_ 1000 _) ?_) ?_
  · rintro ⟨idxs, nextEx⟩
    apply Rule.fact
    intro inWindow
    refine Rule.bind (Rule.keepLogKnowing _ (rule_takeRandom idxs)) ?_
    intro taken
    apply Rule.fact
    intro areIdxs
    rcases taken with _ | ⟨i, rest⟩
    · refine Rule.pure fun observed safe => ⟨⟨safe, ?_⟩, reports⟩
      intro impossible
      cases impossible
    · obtain ⟨isIdx, areRest⟩ := areIdxs i rest rfl
      have restInWindow : ∀ i ∈ rest, start ≤ i := fun i member =>
        inWindow i (areRest member)
      refine Rule.bind (Rule.keepLog _ _) fun solved => ?_
      cases solved with
      | none =>
          exact Rule.pure fun _ safe => ⟨safe, restInWindow⟩
      | some input =>
          refine Rule.bind
            (Rule.keepLogKnowing _ (rule_runProgram always input nextEx)) ?_
          intro newEx
          apply Rule.fact
          intro newReports
          refine Rule.bind (Rule.keepLog _ _) fun _ => ?_
          refine Rule.bind (Rule.keepLogKnowing _ (rule_require _)) ?_
          intro branchIdx
          apply Rule.fact
          intro position
          refine Rule.bind (Rule.keepLogKnowing _ (rule_require _)) ?_
          intro predicted
          apply Rule.fact
          intro confirmed
          cases predicted with
          | false =>
              exact Rule.pure fun _ safe => ⟨safe, restInWindow⟩
          | true =>
              obtain ⟨upTo, regained⟩ :=
                RecordedProgram.length_constraints_of_confirmed
                  distinguishes reports newReports position confirmed
              refine Rule.noteThen
                (fun observed =>
                  Ready program start (ex.swap newEx) observed.2)
                ?_ ?_
              · intro _ log safe
                exact ready_of_confirmed safe (inWindow i isIdx) upTo regained
              · refine Rule.pure fun _ ready => ?_
                exact ⟨⟨ready.1, fun _ => ready⟩, newReports.swap⟩
  · intro observed safe
    refine ⟨safe, ?_⟩
    intro i member
    obtain ⟨offset, _, rfl⟩ := List.mem_map.mp member
    exact Nat.le_add_right start offset
  · intro next
    cases next with
    | again locals =>
        refine Rule.pure fun observed holds => ⟨⟨holds.1, ?_⟩, reports⟩
        intro impossible
        cases impossible
    | done result =>
        exact Rule.pure fun _ holds => holds

theorem rule_randomLocalSearch
    (distinguishes : program.Distinguishes)
    (always : ∀ run ex, program.Reports (env.execution run ex))
    (reports : program.Reports ex)
    (isWindow : start < finish)
    (inBounds : start < ex.path.constraints.length) :
    Rule (fun observed => Safe program observed.2)
      (fun observed => Safe program observed.2)
      (randomLocalSearch env ex start finish)
      fun ex observed => Safe program observed.2 ∧ program.Reports ex := by
  refine Rule.noteThen (fun observed => Ready program start ex observed.2)
    ?_ ?_
  · intro _ log safe
    exact ⟨safe.cons fun _ => trivial, fun _ _ => inBounds⟩
  · refine Rule.bind
      (Rule.strengthen
        (Rule.loop
          (fun ex observed =>
            Ready program start ex observed.2 ∧ program.Reports ex)
          (fun ex observed => Safe program observed.2 ∧ program.Reports ex)
          ?_ 100 ex)
        fun _ ready => ⟨ready, reports⟩) ?_
    · intro ex
      apply Rule.fact
      intro reports
      refine Rule.bind
        (rule_randomStep distinguishes always reports isWindow) ?_
      rintro ⟨stepped, newEx⟩
      cases stepped with
      | false =>
          exact Rule.pure fun _ holds => ⟨holds.1.1, holds.2⟩
      | true =>
          exact Rule.pure fun _ holds => ⟨holds.1.2 rfl, holds.2⟩
    · intro next
      cases next with
      | again ex =>
          exact Rule.pure fun _ holds => ⟨holds.1.1, holds.2⟩
      | done ex =>
          exact Rule.pure fun _ holds => holds

theorem rule_hybrid
    (distinguishes : program.Distinguishes)
    (always : ∀ run ex, program.Reports (env.execution run ex))
    {stepSize : Nat}
    (positive : 0 < stepSize)
    (fuel : Nat) :
    Rule (fun observed => Safe program observed.2)
      (fun observed => Safe program observed.2)
      (hybrid env stepSize fuel)
      fun _ observed => Safe program observed.2 := by
  refine rule_forever (fun _ => True) ?_ fuel trivial
  intro ex _
  refine Rule.bind
    (Rule.keepLogKnowing (Safe program) (rule_runProgram always [] ex)) ?_
  intro ex
  apply Rule.fact
  intro reports
  refine Rule.bind (Rule.keepLog (Safe program) _) fun _ => ?_
  refine Rule.bind
    (Rule.loopKnowing
      (fun (locals : Nat × SymbolicExecution) => program.Reports locals.2)
      (fun _ : SymbolicExecution => True) ?_ fuel reports) ?_
  · rintro ⟨pos, ex⟩ reports
    dsimp only
    split
    · next inBounds =>
        refine Rule.bind
          (rule_randomLocalSearch distinguishes always reports
            (Nat.lt_add_of_pos_right positive) inBounds) fun newEx => ?_
        exact Rule.pure fun _ holds => holds
    · exact Rule.pure fun _ safe => ⟨safe, trivial⟩
  · intro next
    cases next with
    | again locals =>
        exact Rule.throw fun _ holds => holds.1
    | done ex =>
        exact Rule.pure fun _ holds => ⟨holds.1, trivial⟩

/-- What is observed of a hybrid search, latest first. -/
def observations
    (env : Environment)
    (stepSize fuel : Nat)
    (world : World) : List Observation :=
  ((hybrid env stepSize fuel).run.run (world, [])).2.2

/--
For a deterministic program, every step of the hybrid search is called on a
window that has constraints if every flip at the first constraint of a window
that another step follows leads to a new branch.
-/
theorem inBounds_observations
    (program : RecordedProgram)
    (distinguishes : program.Distinguishes)
    (env : Environment)
    (always : ∀ run ex, program.Reports (env.execution run ex))
    (stepSize : Nat)
    (positive : 0 < stepSize)
    (fuel : Nat)
    (world : World)
    (regains : Regains program (observations env stepSize fuel world)) :
    ∀ observation ∈ observations env stepSize fuel world,
      observation.InBounds := by
  have initially : Safe program [] := by
    intro _ observation impossible
    cases impossible
  exact (rule_hybrid distinguishes always positive fuel).afterRun initially
    regains

/-- A program with one test. -/
def oneTest : RecordedProgram := fun history =>
  match history with
  | [] => some ⟨1, 2, .symbolic { op := .gt, expr := .ofTerm 1 0 }⟩
  | _ :: _ => none

/-- The execution of the program with one test on an input. -/
def oneTestOn (input : Value) : SymbolicExecution :=
  { SymbolicExecution.empty with
    executionTag := 1
    vars := (∅ : OrderedMap Var CType).insert 0 .int
    inputs := [input]
    path :=
      SymbolicPath.record (oneTest.events (assignmentOf [input]) 1 []) }

/-- The program runs on 1 first, and then on 0. -/
def oneTestSearch : Environment :=
  { SearchStrategies.unsatisfiable with
    maxIters := 2
    solve := fun _ _ _ => some ((∅ : OrderedMap Var Value).insert 0 0)
    execution := fun run _ => oneTestOn (if run = 1 then 1 else 0)
    branchesOfRank := fun _ _ => none }

/-- The flip of the only test, between two steps, leads to a new branch. -/
theorem inBounds_observations_oneTest :
    (observations oneTestSearch 1 3 SearchStrategies.newWorld).length = 4 ∧
      ∀ observation ∈
          observations oneTestSearch 1 3 SearchStrategies.newWorld,
        observation.InBounds := by
  have distinguishes : oneTest.Distinguishes := by
    intro history test next
    unfold oneTest at next
    split at next
    · obtain rfl := Option.some.inj next
      decide
    · cases next
  have always :
      ∀ run ex, oneTest.Reports (oneTestSearch.execution run ex) :=
    fun run _ =>
      ⟨assignmentOf [if run = 1 then 1 else 0], 1,
        SymbolicExecution.shows_of_path rfl⟩
  have flips :
      (observations oneTestSearch 1 3 SearchStrategies.newWorld).all
          (fun observation =>
            match observation with
            | .confirmed _ _ p newEx =>
                decide (p = 0 ∧ newEx.path.branches = [2])
            | _ => true) =
        true := by
    decide +kernel
  refine ⟨by decide +kernel,
    inBounds_observations oneTest distinguishes oneTestSearch always 1
      (by decide) 3 SearchStrategies.newWorld ?_⟩
  intro start finish p ex newEx adjacent
  have member := adjacent.subset (List.mem_cons_of_mem _ List.mem_cons_self)
  have isFlip := List.all_eq_true.mp flips _ member
  obtain ⟨rfl, isPath⟩ := of_decide_eq_true isFlip
  rw [isPath]
  refine ⟨0, 2, Nat.le_refl 0, rfl, rfl, ?_⟩
  intro earlier impossible
  exact absurd impossible (Nat.not_lt_zero earlier)

end Windows

section Loop

open YicesSolver

/-- A decision procedure with an answer of its own to one query. -/
def withAnswer
    (query : OrderedMap Var CType × List SymbolicPred)
    (answer : Option (OrderedMap Var Value))
    (solve : Solve) : Solve :=
  fun vars constraints =>
    if (vars, constraints) = query then answer else solve vars constraints

/-- A right answer keeps a decision procedure exact. -/
theorem withAnswer_exact
    {query : OrderedMap Var CType × List SymbolicPred}
    {answer : Option (OrderedMap Var Value)}
    {solve : Solve}
    (sound :
      ∀ soln,
        answer = some soln →
        (∀ v, v ∈ soln ↔ v ∈ query.1) ∧
          Satisfies query.1 query.2 (solutionOf soln))
    (complete :
      answer = none → ∀ assignment, ¬Satisfies query.1 query.2 assignment)
    (exact : ExactSolver solve) :
    ExactSolver (withAnswer query answer solve) where
  sound := by
    intro vars constraints soln declared returned
    unfold withAnswer at returned
    split at returned
    · next isQuery =>
        subst isQuery
        exact sound soln returned
    · exact exact.sound declared returned
  complete := by
    intro vars constraints assignment declared model
    unfold withAnswer
    split
    · next isQuery =>
        subst isQuery
        cases answered : answer with
        | none =>
            exact absurd model (complete answered assignment)
        | some soln =>
            exact ⟨soln, rfl⟩
    · exact exact.complete declared model

/-- The condition `x > limit`. -/
def above (limit : Value) (x : Var) : SymbolicPred where
  op := .gt
  expr := (SymbolicExpr.ofTerm 1 x).subConst limit

/-- A loop that compares two inputs, the first with the greatest `int`. -/
def limitLoop : RecordedProgram := fun history =>
  match history.length with
  | 0 => some ⟨1, 2, .symbolic (above 2147483647 0)⟩
  | 1 => some ⟨1, 2, .symbolic (above 0 1)⟩
  | _ => none

/-- The execution of the loop on two inputs. -/
def limitLoopOn (inputs : List Value) : SymbolicExecution :=
  { SymbolicExecution.empty with
    executionTag := 1
    vars := ((∅ : OrderedMap Var CType).insert 0 .int).insert 1 .int
    inputs := inputs
    path :=
      SymbolicPath.record (limitLoop.events (assignmentOf inputs) 2 []) }

/--
An exact decision procedure: no `int` is above the greatest one, and zero is
not above zero.
-/
noncomputable def limitSolver : Solve :=
  withAnswer ((∅ : OrderedMap Var CType).insert 0 .int, [above 2147483647 0])
    none
    (withAnswer
      ((∅ : OrderedMap Var CType).insert 1 .int, [(above 0 1).negate])
      (some ((∅ : OrderedMap Var Value).insert 1 0))
      (preferring fun _ => 0))

/-- The loop runs on the inputs 0 and 1 first, and then on 0 and 0. -/
noncomputable def limitSearch : Environment :=
  { SearchStrategies.unsatisfiable with
    solve := fun _ => limitSolver
    execution := fun run _ =>
      if run = 1 then limitLoopOn [0, 1] else limitLoopOn [0, 0]
    branchesOfRank := fun _ _ => none }

theorem limitSolver_exact : ExactSolver limitSolver := by
  refine withAnswer_exact ?_ ?_ (withAnswer_exact ?_ ?_
    (preferring_exact _))
  · intro soln impossible
    cases impossible
  · intro _ assignment model
    have isAbove := model.1 (above 2147483647 0) (List.mem_singleton_self _)
    have inRange := model.2 0 .int (by decide)
    simp only [above, SymbolicPred.holds, SymbolicExpr.eval_subConst,
      SymbolicExpr.eval_ofTerm, CompareOp.holdsOf, decide_eq_true_iff,
      Int.one_mul] at isAbove
    exact absurd (Int.lt_of_sub_pos isAbove) (Int.not_lt_of_ge inRange.2)
  · intro soln isSoln
    obtain rfl := Option.some.inj isSoln
    refine ⟨?_, ?_, ?_⟩
    · intro v
      rw [Std.ExtTreeMap.mem_insert, Std.ExtTreeMap.mem_insert]
      simp
    · decide
    · rw [OrderedMap.forall_getElem?_iff]
      decide
  · intro impossible
    cases impossible

/-- The inputs that the program is launched with, latest first. -/
def launchedInputs (calls : List Call) : List (List Value) :=
  calls.filterMap fun call =>
    match call with
    | .solveAtBranch _ _ => none
    | .launchProgram _ inputs => some inputs

/-- Why a search has stopped. -/
def stopOf : Except Stop Unit → Option Stop
  | .error stop => some stop
  | .ok _ => none

/--
In a loop that takes the branches `2`, `1` the flip at the second test takes
`2` again, whose constraint is dropped: no constraint is left in the window of
the second test, and the assertion fails.
-/
theorem not_inBounds_observations_limitLoop :
    limitLoop.Distinguishes ∧
      (∀ run ex,
        (limitSearch.execution run ex).Shows
          (limitLoop.events
            (assignmentOf (limitSearch.execution run ex).inputs) 2 [])) ∧
      (∀ solved, ExactSolver (limitSearch.solve solved)) ∧
      launchedInputs
          ((SearchStrategies.hybrid limitSearch 1 3).run.run
            SearchStrategies.newWorld).2.calls =
        [(limitSearch.execution 2 SymbolicExecution.empty).inputs, []] ∧
      stopOf
          ((SearchStrategies.hybrid limitSearch 1 3).run.run
            SearchStrategies.newWorld).1 =
        some .assertFailed ∧
      ¬∀ observation ∈ observations limitSearch 1 3 SearchStrategies.newWorld,
        observation.InBounds := by
  refine ⟨?_, ?_, fun _ => limitSolver_exact, by decide +kernel,
    by decide +kernel, by decide +kernel⟩
  · intro history test next
    unfold limitLoop at next
    split at next
    · obtain rfl := Option.some.inj next
      decide
    · obtain rfl := Option.some.inj next
      decide
    · cases next
  · intro run ex
    apply SymbolicExecution.shows_of_path
    unfold limitSearch
    dsimp only
    split
    · rfl
    · rfl

end Loop

end HybridWindow

end Compi
