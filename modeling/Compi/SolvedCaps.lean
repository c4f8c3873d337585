import Compi.MarkedRun
import Compi.RankRewriting

/-!
# The caps of a solved input

An input that `SolveAtBranch` finds takes the value of a capped variable from
the decision procedure, which has the limit among its constraints, or from the
execution that is solved at.  Rewriting ranks does not touch it.
-/

namespace Compi

namespace Search

variable {search : Search} {ex : SymbolicExecution}

/-- Rewriting ranks leaves the other inputs alone. -/
theorem getElem?_rewriteRanks
    {index : Nat}
    (apart : ∀ rank ∈ search.rankIndices, rank.toNat ≠ index)
    {original input rewritten : List Value}
    (isRewritten :
      search.rewriteRanks ex original input = some rewritten) :
    rewritten[index]? = input[index]? := by
  unfold rewriteRanks at isRewritten
  split at isRewritten
  · obtain rfl := Option.some.inj isRewritten
    rfl
  · obtain ⟨globalRank, _, rfl⟩ := Option.map_eq_some_iff.mp isRewritten
    rw [getElem?_overwriteRanks, if_neg]
    rintro ⟨_, rank, isRank, same⟩
    exact apart rank isRank same

/-- The value of a variable that is no rank after merging a solution. -/
theorem assignmentOf_mergeSolution
    {index : Nat}
    (apart : ∀ rank ∈ search.rankIndices, rank.toNat ≠ index)
    {soln : OrderedMap Var Value}
    (inBounds : index < ex.inputs.length)
    {input : List Value}
    (merged : search.mergeSolution ex soln = some input) :
    assignmentOf input index =
      YicesSolver.updated soln (assignmentOf ex.inputs) index := by
  refine assignmentOf_of_merged ?_ inBounds merged
  intro input next entry isNext
  dsimp only at isNext
  split at isNext
  · exact getElem?_rewriteRanks apart isNext
  · obtain rfl := Option.some.inj isNext
    rfl

/-- An input that is returned merges an answer of the solver. -/
theorem exists_merged_of_input
    {solve : YicesSolver.Solve}
    {branchIdx : Nat}
    {solved : Solved}
    (returned : search.solveAtBranch solve ex branchIdx = some solved)
    {input : List Value}
    (isInput : solved.input = some input) :
    ∃ c soln,
      ex.path.constraints[branchIdx]? = some c ∧
        YicesSolver.incrementalSolve solve
            (search.refresh ex).constraintsMPI ex.inputs ex.vars
            (ex.path.constraints.take branchIdx) c.negate =
          some (some soln) ∧
        (search.refresh ex).mergeSolution ex soln = some input := by
  unfold solveAtBranch at returned
  obtain ⟨c, found, returned⟩ := Option.bind_eq_some_iff.mp returned
  split at returned
  · obtain rfl := Option.some.inj returned
    cases isInput
  · dsimp only at returned
    rw [negateAt_take, negateAt_negateAt] at returned
    obtain ⟨answer, answered, returned⟩ := Option.bind_eq_some_iff.mp returned
    obtain ⟨merged, isMerged, returned⟩ := Option.bind_eq_some_iff.mp returned
    obtain rfl := Option.some.inj returned
    cases answer with
    | none =>
        obtain rfl := Option.some.inj isMerged
        cases isInput
    | some soln =>
        obtain ⟨own, ownMerged, rfl⟩ := Option.map_eq_some_iff.mp isMerged
        obtain rfl := Option.some.inj isInput
        exact ⟨c, soln, found, answered, ownMerged⟩

/--
What a search has cached is that of an execution, where it keeps the indices
of ranks at all.
-/
structure TakenOver (search : Search) (ex : SymbolicExecution) : Prop where
  constraintsMPI :
    search.constraintsMPI = YicesSolver.generateConstraintsMPI ex
  ranks : ∀ id ∈ search.rankIndices, id ∈ ex.rankIndices

end Search

/-- The constraint of a limit is on the variable that is limited. -/
theorem mem_vars_limit
    {index : Nat}
    (small : index < 2 ^ 32)
    (limit : Value) :
    index ∈
      SymbolicPred.vars
        { op := .le
          expr := (YicesSolver.indexed (index : Id)).subConst limit } := by
  have isIndex : IsIndex (index + 1) (index : Int) := isIndex_new index
  have few : index + 1 ≤ 2 ^ 32 := small
  have unwrapped : YicesSolver.varOfId (index : Id) = index :=
    (Search.varOfId_eq few isIndex).trans (Int.toNat_natCast index)
  have own : index ∈ (YicesSolver.indexed (index : Id)).vars := by
    rw [YicesSolver.indexed, unwrapped, SymbolicExpr.mem_vars]
    exact Std.ExtTreeMap.mem_insert_self
  exact own

/-- The limit of a variable is a constraint for the solver. -/
theorem mem_generateConstraintsMPI_of_limit
    {ex : SymbolicExecution}
    {id : Id}
    {limit : Value}
    (isKey : ex.limits.lookup id = some limit) :
    { op := .le
      expr := (YicesSolver.indexed id).subConst limit } ∈
      YicesSolver.generateConstraintsMPI ex := by
  -- The limits come after the constraints of the three lists.
  apply List.mem_append_right
  apply List.mem_append_right
  apply List.mem_append_right
  exact List.mem_map.mpr ⟨_, Search.mem_limits_iff.mpr isKey, rfl⟩

namespace MarkedProcess

section Recovered

variable {target : MarkedProcess} {ex : SymbolicExecution} {index : Nat}
  {type : CType} {limit : Value}

/-- The value of a capped variable is within its limit when it is read back. -/
theorem Tracks.capped_recovered
    (tracks : target.Tracks)
    (recovers :
      SymbolicExecution.Recovers target.crest.si.numInputs
        target.crest.si.ex ex)
    (capped : CappedBy target.marks index type limit)
    (positive : 1 ≤ limit) :
    castTo (assignmentOf ex.inputs index) type ≤ limit := by
  obtain ⟨value, found, below⟩ :=
    tracks.values index type limit capped positive
  obtain ⟨marking, isMarked, _⟩ := capped
  have marked : index < target.crest.si.numInputs := by
    rw [tracks.numInputs]
    exact lt_of_marked isMarked
  rw [assignmentOf, List.getD_eq_getElem?_getD, recovers.inputs,
    List.getElem?_take_of_lt marked, found]
  exact below

/-- A capped variable is no rank that is read back. -/
theorem Tracks.notMem_rankIndices
    (tracks : target.Tracks)
    (recovers :
      SymbolicExecution.Recovers target.crest.si.numInputs
        target.crest.si.ex ex)
    (capped : CappedBy target.marks index type limit) :
    (index : Id) ∉ ex.rankIndices := by
  intro isRank
  obtain ⟨marking, isMarked, _, _, unlisted⟩ := capped
  rw [recovers.rankIndices] at isRank
  obtain ⟨other, otherMarked, isList⟩ := tracks.lists .rank index isRank
  rw [isMarked] at otherMarked
  obtain rfl := Option.some.inj otherMarked
  rw [unlisted] at isList
  cases isList

end Recovered

/--
An input that is solved at an execution of a process keeps the variables
capped that the process has marked with a limit.
-/
theorem Tracks.capped_of_solved
    {solve : YicesSolver.Solve}
    (sound : YicesSolver.SoundSolver solve)
    {target : MarkedProcess}
    (tracks : target.Tracks)
    (indexed : Indexed target.crest.si.numInputs target.crest.si.ex)
    {search : Search}
    {ex : SymbolicExecution}
    (recovers :
      SymbolicExecution.Recovers target.crest.si.numInputs
        target.crest.si.ex ex)
    (takenOver : (search.refresh ex).TakenOver ex)
    {branchIdx : Nat}
    {solved : Search.Solved}
    (returned : search.solveAtBranch solve ex branchIdx = some solved)
    {input : List Value}
    (isInput : solved.input = some input)
    {index : Nat}
    {type : CType}
    {limit : Value}
    (small : index < 2 ^ 32)
    (capped : CappedBy target.marks index type limit)
    (positive : 1 ≤ limit) :
    castTo (assignmentOf input index) type ≤ limit := by
  obtain ⟨counted, parsedIndexed⟩ := indexed.recovers recovers
  have old := tracks.capped_recovered recovers capped positive
  have apart :
      ∀ rank ∈ (search.refresh ex).rankIndices, rank.toNat ≠ index := by
    rintro rank isRank rfl
    have inList := takenOver.ranks rank isRank
    have isIndex := parsedIndexed.indices .rank rank inList
    apply tracks.notMem_rankIndices recovers capped
    rw [Int.toNat_of_nonneg isIndex.1]
    exact inList
  obtain ⟨marking, isMarked, rfl, isLimit, unlisted⟩ := capped
  have inBounds : index < ex.inputs.length := by
    rw [counted, tracks.numInputs]
    exact lt_of_marked isMarked
  have isType : ex.vars[index]? = some marking.type := by
    rw [recovers.vars]
    exact tracks.vars index marking isMarked
  have isKey : ex.limits.lookup (index : Id) = some limit := by
    rw [recovers.limits, tracks.limits index marking isMarked unlisted]
    exact isLimit
  obtain ⟨c, soln, found, answered, merged⟩ :=
    Search.exists_merged_of_input returned isInput
  rw [takenOver.constraintsMPI] at answered
  rw [Search.assignmentOf_mergeSolution apart inBounds merged]
  have keys := parsedIndexed.keys
  have declared := (parsedIndexed.inRange_system found).declared
  have solnDeclared :=
    (YicesSolver.incrementalSolve_holds sound keys declared answered).1
  rcases YicesSolver.incrementalSolve_cases sound keys declared answered
      index with unchanged | ⟨holds, inRange⟩
  · rw [unchanged]
    exact old
  · have limited :=
      holds _
        (List.mem_append_right _ (mem_generateConstraintsMPI_of_limit isKey))
        (mem_vars_limit small limit)
    rw [← Search.assignmentOf_solvedInput
      (Search.covered_of_keys keys parsedIndexed.covered solnDeclared)]
      at limited inRange ⊢
    have isIndex : IsIndex (index + 1) (index : Int) := isIndex_new index
    have few : index + 1 ≤ 2 ^ 32 := small
    have below := (YicesSolver.holds_le_iff _ limit).mp limited
    rw [Search.valueAt_assignmentOf few isIndex] at below
    rw [castTo_of_inRange (inRange _ isType)]
    exact below

end MarkedProcess

end Compi
