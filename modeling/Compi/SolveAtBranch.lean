import Compi.Search

/-!
# Solving at a branch

`SolveAtBranch` looks for an input that follows an execution up to one of its
constraints and falsifies that one.  It negates the constraint in place for
the call of the solver, and caches what it knows about MPI variables under the
tag of the execution.
-/

namespace Compi

namespace Search

/-- Take over the MPI variables of an execution with another tag. -/
def refresh (search : Search) (ex : SymbolicExecution) : Search :=
  if search.executionTag = ex.executionTag then
    search
  else
    { search with
      executionTag := ex.executionTag
      worldSizeIndices := ex.worldSizeIndices
      rankIndices := ex.rankIndices
      rankNonDefaultCommIndices := ex.rankNonDefaultCommIndices
      constraintsMPI := YicesSolver.generateConstraintsMPI ex }

/-- Negate a constraint of an execution in place. -/
def negateAt
    (ex : SymbolicExecution)
    (branchIdx : Nat) : SymbolicExecution :=
  { ex with
    path :=
      { ex.path with
        constraints :=
          ex.path.constraints.modify branchIdx SymbolicPred.negate } }

/-- The first rank in another communicator whose input has changed. -/
def changedRank?
    (search : Search)
    (original input : List Value) : Option Nat :=
  (List.range search.rankNonDefaultCommIndices.length).find? fun i =>
    original.getD i 0 !=
      input.getD (search.rankNonDefaultCommIndices.getD i 0).toNat 0

/--
The rank in `MPI_COMM_WORLD` of a process of a recorded communicator.  Reading
outside what is recorded has no defined result.
-/
def globalRank? (ex : SymbolicExecution) (x : Nat) (y : Int) : Option Value :=
  if y < 0 then
    none
  else
    (ex.rankNonDefaultCommMap[x]?).bind fun ranks => ranks[y.toNat]?

/-- Overwrite all ranks in `MPI_COMM_WORLD`. -/
def overwriteRanks
    (search : Search)
    (globalRank : Value)
    (input : List Value) : List Value :=
  search.rankIndices.foldl
    (fun input index => input.set index.toNat globalRank) input

/-- The new rank in a communicator. -/
def newRank (search : Search) (input : List Value) (x : Nat) : Int :=
  toSigned 32
    (input.getD (search.rankNonDefaultCommIndices.getD x 0).toNat 0)

/--
Overwrite all ranks by the rank in `MPI_COMM_WORLD` of the process that the
changed rank denotes.
-/
def rewriteRanks
    (search : Search)
    (ex : SymbolicExecution)
    (original input : List Value) : Option (List Value) :=
  match search.changedRank? original input with
  | none => some input
  | some x =>
      (globalRank? ex x (search.newRank input x)).map fun globalRank =>
        search.overwriteRanks globalRank input

/-- The old inputs of the ranks in other communicators. -/
def originalRanks (search : Search) (ex : SymbolicExecution) : List Value :=
  search.rankNonDefaultCommIndices.map fun index =>
    ex.inputs.getD index.toNat 0

/-- Merge a solution with the inputs of an execution. -/
def mergeSolution
    (search : Search)
    (ex : SymbolicExecution)
    (soln : OrderedMap Var Value) : Option (List Value) :=
  soln.toList.foldlM
    (fun input entry =>
      let input := input.set entry.1 entry.2
      if search.numIters > 100 then
        search.rewriteRanks ex (search.originalRanks ex) input
      else
        some input)
    ex.inputs

/-- The state after `SolveAtBranch`, and the input if it succeeds. -/
structure Solved where
  search : Search
  ex : SymbolicExecution
  input : Option (List Value)

/-- Whether an identical constraint comes before, so that nothing is solved. -/
def repeats (ex : SymbolicExecution) (branchIdx : Nat) : Bool :=
  match ex.path.constraints[branchIdx]? with
  | some constraint =>
      (ex.path.constraints.take branchIdx).any constraint.equal
  | none => false

/--
`SolveAtBranch`; there is no result if the solver front end diverges or the
recorded communicators are read outside.
-/
def solveAtBranch
    (solve : YicesSolver.Solve)
    (search : Search)
    (ex : SymbolicExecution)
    (branchIdx : Nat) : Option Solved := do
  let constraint ← ex.path.constraints[branchIdx]?
  if (ex.path.constraints.take branchIdx).any constraint.equal then
    return { search := search, ex := ex, input := none }
  else
    let negated := negateAt ex branchIdx
    let search := search.refresh ex
    let soln ←
      YicesSolver.incrementalSolve solve search.constraintsMPI
        negated.inputs negated.vars
        (negated.path.constraints.take branchIdx) constraint.negate
    let restored := negateAt negated branchIdx
    let input ← soln.elim (some none) fun soln =>
      (search.mergeSolution restored soln).map some
    return { search := search, ex := restored, input := input }

section Calls

variable {search : Search} {ex : SymbolicExecution}

@[simp] theorem length_overwriteRanks
    (globalRank : Value)
    (input : List Value) :
    (search.overwriteRanks globalRank input).length = input.length :=
  YicesSolver.length_foldl (fun _ _ => List.length_set) _ _

theorem length_of_rewriteRanks
    {original input rewritten : List Value}
    (isRewritten :
      search.rewriteRanks ex original input = some rewritten) :
    rewritten.length = input.length := by
  unfold rewriteRanks at isRewritten
  split at isRewritten
  · obtain rfl := Option.some.inj isRewritten
    rfl
  · obtain ⟨globalRank, _, rfl⟩ := Option.map_eq_some_iff.mp isRewritten
    exact length_overwriteRanks globalRank input

theorem length_of_mergeSolution
    {soln : OrderedMap Var Value}
    {input : List Value}
    (merged : search.mergeSolution ex soln = some input) :
    input.length = ex.inputs.length := by
  unfold mergeSolution at merged
  generalize soln.toList = entries at merged
  generalize ex.inputs = initial at merged
  induction entries generalizing initial with
  | nil =>
      obtain rfl := Option.some.inj merged
      rfl
  | cons entry rest inductionHypothesis =>
      rw [List.foldlM_cons] at merged
      obtain ⟨next, isNext, restMerged⟩ := Option.bind_eq_some_iff.mp merged
      rw [inductionHypothesis next restMerged]
      dsimp only at isNext
      split at isNext
      · rw [length_of_rewriteRanks isNext, List.length_set]
      · obtain rfl := Option.some.inj isNext
        exact List.length_set

/--
A call either finds an identical constraint before and changes nothing, or it
takes over the MPI variables of the execution and returns as many inputs.
-/
theorem solveAtBranch_cases
    {solve : YicesSolver.Solve}
    {branchIdx : Nat}
    {solved : Solved}
    (returned : search.solveAtBranch solve ex branchIdx = some solved) :
    (repeats ex branchIdx = true ∧
      solved.search = search ∧ solved.input = none) ∨
    (repeats ex branchIdx = false ∧
      solved.search = search.refresh ex ∧
      ∀ input, solved.input = some input →
        input.length = ex.inputs.length) := by
  unfold solveAtBranch at returned
  obtain ⟨constraint, found, returned⟩ := Option.bind_eq_some_iff.mp returned
  cases repeated : (ex.path.constraints.take branchIdx).any constraint.equal with
  | true =>
      rw [if_pos repeated] at returned
      obtain rfl := Option.some.inj returned
      exact Or.inl ⟨by simp only [repeats, found, repeated], rfl, rfl⟩
  | false =>
      rw [if_neg (by simp [repeated])] at returned
      obtain ⟨soln, _, returned⟩ := Option.bind_eq_some_iff.mp returned
      obtain ⟨answer, isAnswer, returned⟩ := Option.bind_eq_some_iff.mp returned
      obtain rfl := Option.some.inj returned
      refine Or.inr ⟨by simp only [repeats, found, repeated], rfl, ?_⟩
      intro input isInput
      cases soln with
      | none =>
          obtain rfl := Option.some.inj isAnswer
          cases isInput
      | some soln =>
          obtain ⟨merged, isMerged, rfl⟩ := Option.map_eq_some_iff.mp isAnswer
          obtain rfl := Option.some.inj isInput
          exact length_of_mergeSolution isMerged

end Calls

section Exactness

/--
An assignment that follows an execution up to a constraint and falsifies it:
it satisfies the constraints before, the MPI constraints and the bounds of all
variables, but not the constraint itself.
-/
def Flips
    (ex : SymbolicExecution)
    (branchIdx : Nat)
    (assignment : Var → Value) : Prop :=
  (∀ c ∈ ex.path.constraints.take branchIdx, c.holds assignment = true) ∧
    (∀ c ∈ ex.path.constraints[branchIdx]?, c.holds assignment = false) ∧
    (∀ c ∈ YicesSolver.generateConstraintsMPI ex,
      c.holds assignment = true) ∧
    ∀ (v : Var) (type : CType),
      ex.vars[v]? = some type → type.InRange (assignment v)

variable {ex : SymbolicExecution} {branchIdx : Nat} {c : SymbolicPred}

/-- Negating a constraint in place twice restores the execution. -/
theorem negateAt_negateAt : negateAt (negateAt ex branchIdx) branchIdx = ex := by
  have restored :
      (ex.path.constraints.modify branchIdx SymbolicPred.negate).modify
          branchIdx SymbolicPred.negate =
        ex.path.constraints := by
    apply List.ext_getElem?
    intro i
    rw [List.getElem?_modify, List.getElem?_modify]
    by_cases target : branchIdx = i
    · cases found : ex.path.constraints[i]? <;> simp [target]
    · simp [target]
  simp [negateAt, restored]

/-- Negating in place leaves the constraints before alone. -/
theorem negateAt_take :
    (negateAt ex branchIdx).path.constraints.take branchIdx =
      ex.path.constraints.take branchIdx := by
  apply List.ext_getElem?
  intro i
  by_cases before : i < branchIdx
  · simp [negateAt, List.getElem?_take, Nat.ne_of_gt before]
  · simp [before]

/-- The system given to the solver is satisfied exactly by the flips. -/
theorem satisfies_iff_flips
    (found : ex.path.constraints[branchIdx]? = some c)
    {assignment : Var → Value} :
    YicesSolver.Satisfies ex.vars
        (ex.path.constraints.take branchIdx ++ [c.negate] ++
          YicesSolver.generateConstraintsMPI ex)
        assignment ↔
      Flips ex branchIdx assignment := by
  unfold YicesSolver.Satisfies Flips
  simp only [List.mem_append, List.mem_singleton, found,
    Option.mem_some_iff, forall_eq']
  constructor
  · rintro ⟨all, inRange⟩
    refine ⟨fun p before => all p (Or.inl (Or.inl before)), ?_,
      fun p isMPI => all p (Or.inr isMPI), inRange⟩
    simpa using all c.negate (Or.inl (Or.inr rfl))
  · rintro ⟨before, falsified, ranks, inRange⟩
    refine ⟨?_, inRange⟩
    rintro p ((isBefore | rfl) | isMPI)
    · exact before p isBefore
    · simp [falsified]
    · exact ranks p isMPI

/-- An identical constraint before makes flipping impossible. -/
theorem not_flips_of_equal
    (found : ex.path.constraints[branchIdx]? = some c)
    (repeated :
      (ex.path.constraints.take branchIdx).any c.equal = true)
    (assignment : Var → Value) :
    ¬Flips ex branchIdx assignment := by
  rintro ⟨before, falsified, _, _⟩
  obtain ⟨p, inPrefix, same⟩ := List.any_eq_true.mp repeated
  have isSame : c = p := SymbolicPred.equal_iff.mp same
  have true := before p inPrefix
  have false := falsified c found
  rw [isSame, true] at false
  cases false

/-- Entries merged one after another, each with what else its merge does. -/
private theorem getElem?_foldlM_merge
    {index : Nat}
    {merge : List Value → Var × Value → Option (List Value)}
    (merges :
      ∀ {input next : List Value} {entry : Var × Value},
        merge input entry = some next →
        next[index]? = (input.set entry.1 entry.2)[index]?)
    {entries : List (Var × Value)}
    (distinct : (entries.map Prod.fst).Nodup)
    {initial input : List Value}
    (inBounds : index < initial.length)
    (merged : entries.foldlM merge initial = some input) :
    (∀ value, (index, value) ∈ entries → input[index]? = some value) ∧
      (index ∉ entries.map Prod.fst → input[index]? = initial[index]?) := by
  induction entries generalizing initial with
  | nil =>
      obtain rfl := Option.some.inj merged
      refine ⟨?_, fun _ => rfl⟩
      intro value member
      cases member
  | cons entry rest inductionHypothesis =>
      rw [List.foldlM_cons] at merged
      obtain ⟨next, isNext, restMerged⟩ := Option.bind_eq_some_iff.mp merged
      rw [List.map_cons, List.nodup_cons] at distinct
      obtain ⟨fresh, restDistinct⟩ := distinct
      have atIndex := merges isNext
      have stays : index < (initial.set entry.1 entry.2).length := by
        rw [List.length_set]
        exact inBounds
      have nextInBounds : index < next.length := by
        rw [List.getElem?_eq_getElem stays] at atIndex
        exact (List.getElem?_eq_some_iff.mp atIndex).1
      obtain ⟨inRest, outsideRest⟩ :=
        inductionHypothesis restDistinct nextInBounds restMerged
      constructor
      · intro value member
        rcases List.mem_cons.mp member with rfl | later
        · rw [outsideRest fresh, atIndex]
          exact List.getElem?_set_self inBounds
        · exact inRest value later
      · intro absent
        rw [List.map_cons, List.mem_cons, not_or] at absent
        rw [outsideRest absent.2, atIndex]
        exact List.getElem?_set_ne (Ne.symm absent.1)

/--
Merging a solution updates the assignment of the inputs at every index that
nothing else is done to.
-/
theorem assignmentOf_of_merged
    {index : Nat}
    {merge : List Value → Var × Value → Option (List Value)}
    (merges :
      ∀ {input next : List Value} {entry : Var × Value},
        merge input entry = some next →
        next[index]? = (input.set entry.1 entry.2)[index]?)
    {soln : OrderedMap Var Value}
    {initial input : List Value}
    (inBounds : index < initial.length)
    (merged : soln.toList.foldlM merge initial = some input) :
    assignmentOf input index =
      YicesSolver.updated soln (assignmentOf initial) index := by
  have distinct : (soln.toList.map Prod.fst).Nodup := by
    rw [Std.ExtTreeMap.map_fst_toList_eq_keys]
    exact OrderedMap.nodup_keys soln
  obtain ⟨inSolution, outside⟩ :=
    getElem?_foldlM_merge merges distinct inBounds merged
  unfold assignmentOf YicesSolver.updated
  rw [List.getD_eq_getElem?_getD]
  cases found : soln[index]? with
  | some value =>
      rw [inSolution value (OrderedMap.mem_toList_iff.mpr found)]
      rfl
  | none =>
      rw [outside, ← List.getD_eq_getElem?_getD]
      · rfl
      · rw [Std.ExtTreeMap.map_fst_toList_eq_keys, Std.ExtTreeMap.mem_keys,
          Std.ExtTreeMap.mem_iff_isSome_getElem?, found]
        exact Bool.false_ne_true

/-- The old inputs overwritten by a solution. -/
def solvedInput
    (ex : SymbolicExecution)
    (soln : OrderedMap Var Value) : List Value :=
  soln.toList.foldl (fun input entry => input.set entry.1 entry.2) ex.inputs

@[simp] theorem length_solvedInput (soln : OrderedMap Var Value) :
    (solvedInput ex soln).length = ex.inputs.length :=
  YicesSolver.length_foldl (fun _ _ => List.length_set) _ _

/-- A solution updates the assignment of the old inputs. -/
theorem assignmentOf_solvedInput
    {soln : OrderedMap Var Value}
    (covered : ∀ v ∈ soln, v < ex.inputs.length) :
    assignmentOf (solvedInput ex soln) =
      YicesSolver.updated soln (assignmentOf ex.inputs) := by
  funext v
  by_cases inBounds : v < ex.inputs.length
  · have merged :
        soln.toList.foldlM
            (fun input entry => some (input.set entry.1 entry.2))
            ex.inputs =
          some (solvedInput ex soln) :=
      List.foldlM_pure
    refine assignmentOf_of_merged ?_ inBounds merged
    intro input next entry isNext
    rw [← Option.some.inj isNext]
  · -- Beyond the inputs there is nothing to overwrite.
    have beyond : (solvedInput ex soln).length ≤ v := by
      rw [length_solvedInput]
      exact Nat.le_of_not_lt inBounds
    have unsolved : soln[v]? = none :=
      Std.ExtTreeMap.getElem?_eq_none fun solved =>
        inBounds (covered v solved)
    have outside : ∀ inputs : List Value,
        inputs.length ≤ v → assignmentOf inputs v = 0 := by
      intro inputs tooShort
      rw [assignmentOf, List.getD_eq_getElem?_getD,
        List.getElem?_eq_none tooShort]
      rfl
    rw [outside _ beyond, YicesSolver.updated, unsolved]
    exact (outside _ (Nat.le_of_not_lt inBounds)).symm

/-- Without rewriting of ranks the solution overwrites the old inputs. -/
theorem mergeSolution_of_plain
    {search : Search}
    (plain :
      search.numIters ≤ 100 ∨ search.rankNonDefaultCommIndices = [])
    (soln : OrderedMap Var Value) :
    search.mergeSolution ex soln = some (solvedInput ex soln) := by
  have noRewrite :
      ∀ input : List Value,
        (if search.numIters > 100 then
          search.rewriteRanks ex (search.originalRanks ex) input
        else
          some input) = some input := by
    intro input
    split
    · next late =>
        rcases plain with early | noRank
        · omega
        · simp [rewriteRanks, changedRank?, noRank]
    · rfl
  unfold mergeSolution solvedInput
  simp only [noRewrite]
  generalize ex.inputs = initial
  induction soln.toList generalizing initial with
  | nil =>
      rfl
  | cons entry rest inductionHypothesis =>
      rw [List.foldlM_cons, List.foldl_cons]
      exact inductionHypothesis _

/-- A variable that depends on the constraint that is solved at. -/
def DependsAt
    (ex : SymbolicExecution)
    (branchIdx : Nat)
    (v : Var) : Prop :=
  ∃ c ∈ ex.path.constraints[branchIdx]?,
    YicesSolver.Depends
      (ex.path.constraints.take branchIdx ++ [c.negate] ++
        YicesSolver.generateConstraintsMPI ex)
      c.negate v

/-- Solving at a branch without an identical constraint before. -/
theorem solveAtBranch_eq
    {solve : YicesSolver.Solve}
    {search : Search}
    {answer : Option (OrderedMap Var Value)}
    (found : ex.path.constraints[branchIdx]? = some c)
    (fresh :
      ¬(ex.path.constraints.take branchIdx).any c.equal = true)
    (cached :
      (search.refresh ex).constraintsMPI =
        YicesSolver.generateConstraintsMPI ex)
    (answered :
      YicesSolver.incrementalSolve solve
          (YicesSolver.generateConstraintsMPI ex) ex.inputs ex.vars
          (ex.path.constraints.take branchIdx) c.negate =
        some answer) :
    search.solveAtBranch solve ex branchIdx =
      (answer.elim (some none) fun soln =>
          ((search.refresh ex).mergeSolution ex soln).map some).map
        fun input =>
          { search := search.refresh ex, ex := ex, input := input } := by
  simp only [solveAtBranch, found, fresh, Option.bind_eq_bind,
    Option.bind_some, negateAt_take, negateAt_negateAt, cached,
    Bool.false_eq_true, ↓reduceIte]
  simp only [negateAt, answered, Option.bind_some, Option.pure_def]
  exact Option.map_eq_bind.symm

/-- Without rewriting of ranks the old inputs are overwritten. -/
theorem solveAtBranch_eq_of_plain
    {solve : YicesSolver.Solve}
    {search : Search}
    {answer : Option (OrderedMap Var Value)}
    (found : ex.path.constraints[branchIdx]? = some c)
    (fresh :
      ¬(ex.path.constraints.take branchIdx).any c.equal = true)
    (cached :
      (search.refresh ex).constraintsMPI =
        YicesSolver.generateConstraintsMPI ex)
    (plain :
      (search.refresh ex).numIters ≤ 100 ∨
        (search.refresh ex).rankNonDefaultCommIndices = [])
    (answered :
      YicesSolver.incrementalSolve solve
          (YicesSolver.generateConstraintsMPI ex) ex.inputs ex.vars
          (ex.path.constraints.take branchIdx) c.negate =
        some answer) :
    search.solveAtBranch solve ex branchIdx =
      some
        { search := search.refresh ex
          ex := ex
          input := answer.map (solvedInput ex) } := by
  rw [solveAtBranch_eq found fresh cached answered]
  cases answer with
  | none =>
      rfl
  | some soln =>
      rw [Option.elim_some, mergeSolution_of_plain plain]
      rfl

/-- The cached MPI constraints are those of the execution after a refresh. -/
theorem refresh_constraintsMPI
    {search : Search}
    (coherent :
      search.executionTag = ex.executionTag →
      search.constraintsMPI = YicesSolver.generateConstraintsMPI ex) :
    (search.refresh ex).constraintsMPI =
      YicesSolver.generateConstraintsMPI ex := by
  unfold refresh
  split
  · next sameTag =>
      exact coherent sameTag
  · rfl

@[simp] theorem refresh_numIters
    (search : Search)
    (ex : SymbolicExecution) :
    (search.refresh ex).numIters = search.numIters := by
  unfold refresh
  split <;> rfl

/-- The system given to the solver has only declared variables. -/
theorem declared_system
    (found : ex.path.constraints[branchIdx]? = some c)
    (declared :
      YicesSolver.Declared ex.vars
        (ex.path.constraints ++ YicesSolver.generateConstraintsMPI ex)) :
    YicesSolver.Declared ex.vars
      (ex.path.constraints.take branchIdx ++ [c.negate] ++
        YicesSolver.generateConstraintsMPI ex) := by
  intro p member v occurs
  simp only [List.mem_append, List.mem_singleton] at member
  rcases member with (isBefore | rfl) | isMPI
  · exact declared p
      (List.mem_append_left _ (List.mem_of_mem_take isBefore)) v occurs
  · exact declared c
      (List.mem_append_left _ (List.mem_of_getElem? found)) v occurs
  · exact declared p (List.mem_append_right _ isMPI) v occurs

/-- The inputs cover the variables of a solution. -/
theorem covered_of_keys
    {n : Nat}
    {soln : OrderedMap Var Value}
    (keys : ex.vars.keys = List.range n)
    (covered : n ≤ ex.inputs.length)
    (solnDeclared : ∀ v ∈ soln, v ∈ ex.vars) :
    ∀ v ∈ soln, v < ex.inputs.length := by
  intro v member
  have listed : v ∈ ex.vars.keys :=
    Std.ExtTreeMap.mem_keys.mpr (solnDeclared v member)
  rw [keys] at listed
  exact lt_of_lt_of_le (List.mem_range.mp listed) covered

/--
What solving at a branch returns with an exact decision procedure: an input
that flips the constraint and differs from the old one only in variables that
depend on it, if there is one.
-/
theorem solveAtBranch_spec
    {solve : YicesSolver.Solve}
    (exact : YicesSolver.ExactSolver solve)
    {search : Search}
    {n : Nat}
    (inBounds : branchIdx < ex.path.constraints.length)
    (keys : ex.vars.keys = List.range n)
    (covered : n ≤ ex.inputs.length)
    (inputsInRange :
      ∀ (v : Var) (type : CType),
        ex.vars[v]? = some type →
        type.InRange (assignmentOf ex.inputs v))
    (follows :
      ∀ c ∈ ex.path.constraints.take branchIdx,
        c.holds (assignmentOf ex.inputs) = true)
    (consistent :
      ∀ c ∈ YicesSolver.generateConstraintsMPI ex,
        c.holds (assignmentOf ex.inputs) = true)
    (coherent :
      search.executionTag = ex.executionTag →
      search.constraintsMPI = YicesSolver.generateConstraintsMPI ex)
    (mentions : ∀ c ∈ ex.path.constraints, c.vars ≠ [])
    (declared :
      YicesSolver.Declared ex.vars
        (ex.path.constraints ++ YicesSolver.generateConstraintsMPI ex))
    (plain :
      search.numIters ≤ 100 ∨
        (search.refresh ex).rankNonDefaultCommIndices = []) :
    ∃ solved,
      search.solveAtBranch solve ex branchIdx = some solved ∧
      solved.ex = ex ∧
      (solved.input.isSome = true ↔
        ∃ assignment, Flips ex branchIdx assignment) ∧
      ∀ input,
        solved.input = some input →
        Flips ex branchIdx (assignmentOf input) ∧
          ∀ v,
            ¬DependsAt ex branchIdx v →
            assignmentOf input v = assignmentOf ex.inputs v := by
  obtain ⟨c, found⟩ : ∃ c, ex.path.constraints[branchIdx]? = some c :=
    ⟨_, List.getElem?_eq_getElem inBounds⟩
  by_cases repeated :
      (ex.path.constraints.take branchIdx).any c.equal = true
  · refine ⟨{ search := search, ex := ex, input := none }, ?_, rfl, ?_, ?_⟩
    · simp only [solveAtBranch, found, repeated, Option.bind_eq_bind,
        Option.bind_some, Option.pure_def, ↓reduceIte]
    · constructor
      · intro impossible
        cases impossible
      · rintro ⟨assignment, flips⟩
        exact absurd flips
          (not_flips_of_equal found repeated assignment)
    · intro input impossible
      cases impossible
  · have othersHold :
        ∀ p ∈ ex.path.constraints.take branchIdx ++
            YicesSolver.generateConstraintsMPI ex,
          p.holds (assignmentOf ex.inputs) = true := by
      intro p member
      rcases List.mem_append.mp member with isBefore | isMPI
      · exact follows p isBefore
      · exact consistent p isMPI
    obtain ⟨answer, solved, succeeds, model⟩ :=
      YicesSolver.incrementalSolve_spec exact keys
        (declared_system found declared)
        (mentions c (List.mem_of_getElem? found)) inputsInRange othersHold
    rw [← refresh_numIters search ex] at plain
    refine ⟨_,
      solveAtBranch_eq_of_plain found repeated
        (refresh_constraintsMPI coherent) plain solved, rfl, ?_, ?_⟩
    · rw [Option.isSome_map, succeeds]
      constructor
      · rintro ⟨assignment, satisfies⟩
        exact ⟨assignment, (satisfies_iff_flips found).mp satisfies⟩
      · rintro ⟨assignment, flips⟩
        exact ⟨assignment, (satisfies_iff_flips found).mpr flips⟩
    · intro input isInput
      obtain ⟨soln, returned, rfl⟩ := Option.map_eq_some_iff.mp isInput
      obtain ⟨solnDeclared, satisfies, outside⟩ := model soln returned
      rw [assignmentOf_solvedInput
        (covered_of_keys keys covered solnDeclared)]
      refine ⟨(satisfies_iff_flips found).mp satisfies, ?_⟩
      intro v independent
      apply outside v
      intro depends
      exact independent ⟨c, found, depends⟩

/--
A flip that keeps the old inputs of the variables that do not depend on the
constraint is what some exact decision procedure leads to.
-/
theorem solveAtBranch_preferring
    {search : Search}
    {n : Nat}
    (inBounds : branchIdx < ex.path.constraints.length)
    (keys : ex.vars.keys = List.range n)
    (covered : n ≤ ex.inputs.length)
    (coherent :
      search.executionTag = ex.executionTag →
      search.constraintsMPI = YicesSolver.generateConstraintsMPI ex)
    (declared :
      YicesSolver.Declared ex.vars
        (ex.path.constraints ++ YicesSolver.generateConstraintsMPI ex))
    (plain :
      search.numIters ≤ 100 ∨
        (search.refresh ex).rankNonDefaultCommIndices = [])
    {preferred : Var → Value}
    (flips : Flips ex branchIdx preferred)
    (outside :
      ∀ v,
        ¬DependsAt ex branchIdx v →
        preferred v = assignmentOf ex.inputs v) :
    ∃ solved input,
      search.solveAtBranch (YicesSolver.preferring preferred) ex branchIdx =
        some solved ∧
      solved.input = some input ∧
      assignmentOf input = preferred := by
  obtain ⟨c, found⟩ : ∃ c, ex.path.constraints[branchIdx]? = some c :=
    ⟨_, List.getElem?_eq_getElem inBounds⟩
  have fresh :
      ¬(ex.path.constraints.take branchIdx).any c.equal = true :=
    fun repeated => not_flips_of_equal found repeated preferred flips
  have outsideTarget :
      ∀ v,
        ¬YicesSolver.Depends
            (ex.path.constraints.take branchIdx ++ [c.negate] ++
              YicesSolver.generateConstraintsMPI ex)
            c.negate v →
        preferred v = assignmentOf ex.inputs v := by
    intro v independent
    apply outside v
    rintro ⟨target, isTarget, depends⟩
    obtain rfl := Option.some.inj (found.symm.trans isTarget)
    exact independent depends
  obtain ⟨soln, answered, solnDeclared, isPreferred⟩ :=
    YicesSolver.incrementalSolve_preferring keys
      (declared_system found declared)
      ((satisfies_iff_flips found).mpr flips) outsideTarget
  rw [← refresh_numIters search ex] at plain
  refine ⟨_, _,
    solveAtBranch_eq_of_plain found fresh (refresh_constraintsMPI coherent)
      plain answered,
    rfl, ?_⟩
  rw [assignmentOf_solvedInput
    (covered_of_keys keys covered solnDeclared)]
  exact isPreferred

/--
With an exact decision procedure, recorded inputs that follow the execution up
to the constraint and coherently cached MPI constraints, solving at a branch
succeeds exactly when some assignment flips it, the input it returns flips it,
and the execution is left as it was.
-/
theorem solveAtBranch_exact
    (solve : YicesSolver.Solve)
    (exact : YicesSolver.ExactSolver solve)
    (search : Search)
    (ex : SymbolicExecution)
    (branchIdx n : Nat)
    (inBounds : branchIdx < ex.path.constraints.length)
    (keys : ex.vars.keys = List.range n)
    (covered : n ≤ ex.inputs.length)
    (inputsInRange :
      ∀ (v : Var) (type : CType),
        ex.vars[v]? = some type →
        type.InRange (assignmentOf ex.inputs v))
    (follows :
      ∀ c ∈ ex.path.constraints.take branchIdx,
        c.holds (assignmentOf ex.inputs) = true)
    (consistent :
      ∀ c ∈ YicesSolver.generateConstraintsMPI ex,
        c.holds (assignmentOf ex.inputs) = true)
    (coherent :
      search.executionTag = ex.executionTag →
      search.constraintsMPI = YicesSolver.generateConstraintsMPI ex)
    (mentions : ∀ c ∈ ex.path.constraints, c.vars ≠ [])
    (declared :
      YicesSolver.Declared ex.vars
        (ex.path.constraints ++ YicesSolver.generateConstraintsMPI ex))
    (plain :
      search.numIters ≤ 100 ∨
        (search.refresh ex).rankNonDefaultCommIndices = []) :
    ∃ solved,
      search.solveAtBranch solve ex branchIdx = some solved ∧
      solved.ex = ex ∧
      (solved.input.isSome = true ↔
        ∃ assignment, Flips ex branchIdx assignment) ∧
      ∀ input,
        solved.input = some input →
        Flips ex branchIdx (assignmentOf input) := by
  obtain ⟨solved, returned, restored, succeeds, model⟩ :=
    solveAtBranch_spec exact inBounds keys covered inputsInRange follows
      consistent coherent mentions declared plain
  exact ⟨solved, returned, restored, succeeds, fun input isInput =>
    (model input isInput).1⟩

/-- The focus process has rank 0 of 4, and has taken the branch of rank 0. -/
def rankZero : SymbolicExecution :=
  { SymbolicExecution.empty with
    limits := (∅ : UnorderedMap Id Value).insert 1 16
    rankIndices := [0]
    worldSizeIndices := [1]
    executionTag := 7
    vars := ((∅ : OrderedMap Var CType).insert 0 .int).insert 1 .int
    inputs := [0, 4]
    path :=
      { SymbolicPath.empty with
        branches := [3]
        constraintsIdx := [0]
        constraints := [{ op := .eq, expr := .ofTerm 1 0 }] } }

theorem solveAtBranch_exact_rankZero :
    ∃ solved,
      (start "a.out" 4 0).solveAtBranch
          (YicesSolver.preferring (assignmentOf [1, 4])) rankZero 0 =
        some solved ∧
      solved.ex = rankZero ∧
      (solved.input.isSome = true ↔
        ∃ assignment, Flips rankZero 0 assignment) ∧
      ∀ input,
        solved.input = some input →
        Flips rankZero 0 (assignmentOf input) := by
  have inputsInRange :
      ∀ (v : Var) (type : CType),
        rankZero.vars[v]? = some type →
        type.InRange (assignmentOf rankZero.inputs v) := by
    rw [OrderedMap.forall_getElem?_iff]
    decide
  have declared :
      YicesSolver.Declared rankZero.vars
        (rankZero.path.constraints ++
          YicesSolver.generateConstraintsMPI rankZero) := by
    unfold YicesSolver.Declared
    decide
  exact solveAtBranch_exact (YicesSolver.preferring (assignmentOf [1, 4]))
    (YicesSolver.preferring_exact _) (start "a.out" 4 0) rankZero 0 2
    (by decide) (by decide) (by decide) inputsInRange (by decide) (by decide)
    (by decide) (by decide) declared (by decide)

end Exactness

end Search

end Compi
