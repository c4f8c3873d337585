import Compi.CoverageAccounting
import Compi.GuardedRun
import Compi.LaunchIndices
import Compi.ObservedCfgSearch

/-!
# The progress of a search

The heuristic search chooses by the distances of branches and is done with
what is covered.  The distances are computed from the coverage, and get out of
date when a branch is covered.
-/

namespace Compi

/-- The coverage and the distances, and the execution kept for later. -/
structure Progress where
  coverage : Coverage
  dist : List Nat
  successEx : SymbolicExecution

/-- The covered branches and the distances. -/
structure Snapshot where
  covered : Finset BranchId
  dist : List Nat

namespace SearchProgress

open SearchRun StoppableRun BranchTables CfgDistance Coverage

/-- The progress of a search. -/
def progress (world : World) : Progress where
  coverage := world.coverage
  dist := world.dist
  successEx := world.successEx

/-- The branches that are covered, with the distances. -/
def snapshot (reached : Progress) : Snapshot where
  covered := setBits reached.coverage.covered
  dist := reached.dist

/-- The distance of a branch is zero exactly if it is not covered. -/
def InSync (tables : BranchTables) (seen : Snapshot) : Prop :=
  ∀ bid ∈ tables.branches,
    lookup? seen.dist bid = some 0 ↔ bid ∉ seen.covered

instance (tables : BranchTables) : DecidablePred (InSync tables) :=
  fun seen =>
    inferInstanceAs
      (Decidable
        (∀ bid ∈ tables.branches,
          lookup? seen.dist bid = some 0 ↔ bid ∉ seen.covered))

/-- The ids are branches of the program or markers of calls. -/
def Drawn (tables : BranchTables) (branches : List BranchId) : Prop :=
  ∀ bid ∈ branches, bid ∈ tables.branches ∨ bid < 0

section Distances

/-- Two tables of distances of one size have the same zeros. -/
structure SameZeros (dist final : List Nat) : Prop where
  length : final.length = dist.length
  zeros : ∀ bid, lookup? final bid = some 0 ↔ lookup? dist bid = some 0

theorem SameZeros.trans
    {dist middle final : List Nat}
    (first : SameZeros dist middle)
    (second : SameZeros middle final) :
    SameZeros dist final where
  length := second.length.trans first.length
  zeros := fun bid => (second.zeros bid).trans (first.zeros bid)

theorem inRange_of_lookup?
    {Entry : Type}
    {table : List Entry}
    {bid : BranchId}
    {entry : Entry}
    (found : lookup? table bid = some entry) :
    0 ≤ bid ∧ bid < table.length := by
  unfold lookup? at found
  split at found
  · next isId =>
      have inBounds := (List.getElem?_eq_some_iff.mp found).1
      exact ⟨isId, (Int.toNat_lt isId).mp inBounds⟩
  · cases found

/-- A distance above zero lowers none to zero. -/
theorem sameZeros_relax
    {distance : Nat}
    (positive : 0 < distance)
    {state next : List Nat × List BranchId}
    {bid : BranchId}
    (relaxed : relax distance state bid = some next) :
    SameZeros state.1 next.1 := by
  obtain ⟨dist, queue⟩ := state
  obtain ⟨current, found, taken⟩ := Option.bind_eq_some_iff.mp relaxed
  split at taken
  · next isLower =>
      cases taken
      refine ⟨length_update _ _ _, ?_⟩
      intro other
      rw [lookup?_update (inRange_of_lookup? found)]
      split
      · next same =>
          subst same
          rw [found, Option.some.injEq, Option.some.injEq]
          constructor
          · intro isZero
            exact absurd isZero (Nat.ne_of_gt positive)
          · intro isZero
            rw [isZero] at isLower
            exact absurd isLower (Nat.not_lt_zero _)
      · exact Iff.rfl
  · cases taken
    exact ⟨rfl, fun _ => Iff.rfl⟩

theorem sameZeros_foldlM_relax
    {distance : Nat}
    (positive : 0 < distance)
    (predecessors : List BranchId)
    {state final : List Nat × List BranchId}
    (relaxed : predecessors.foldlM (relax distance) state = some final) :
    SameZeros state.1 final.1 := by
  induction predecessors generalizing state with
  | nil =>
      cases relaxed
      exact ⟨rfl, fun _ => Iff.rfl⟩
  | cons bid rest inductionHypothesis =>
      rw [List.foldlM_cons] at relaxed
      obtain ⟨next, stepped, folded⟩ := Option.bind_eq_some_iff.mp relaxed
      exact (sameZeros_relax positive stepped).trans
        (inductionHypothesis folded)

/-- The search backwards changes no zero. -/
theorem sameZeros_relaxAll
    {cfgRev : List (List BranchId)}
    (fuel : Nat)
    {dist final : List Nat}
    {queue : List BranchId}
    (relaxed : relaxAll cfgRev fuel (dist, queue) = some final) :
    SameZeros dist final := by
  induction fuel generalizing dist queue with
  | zero =>
      cases relaxed
  | succ fuel inductionHypothesis =>
      cases queue with
      | nil =>
          cases relaxed
          exact ⟨rfl, fun _ => Iff.rfl⟩
      | cons bid queue =>
          unfold relaxAll at relaxed
          obtain ⟨distance, _, relaxed⟩ := Option.bind_eq_some_iff.mp relaxed
          obtain ⟨predecessors, _, relaxed⟩ :=
            Option.bind_eq_some_iff.mp relaxed
          obtain ⟨next, stepped, rest⟩ := Option.bind_eq_some_iff.mp relaxed
          exact (sameZeros_foldlM_relax (Nat.succ_pos distance) predecessors
            stepped).trans (inductionHypothesis rest)

/-- The distances before the search: zero at the branches not covered. -/
theorem zeros_of_resetDistances
    {covered : List Bool}
    (branches : List BranchId)
    {dist : List Nat}
    {queue : List BranchId}
    {final : List Nat × List BranchId}
    (inRange : ∀ bid ∈ branches, 0 ≤ bid ∧ bid < dist.length)
    (isReset :
      branches.foldlM (fun (dist, queue) bid => do
        if ← lookup? covered bid then
          return (update dist bid kInfiniteDistance, queue)
        else
          return (update dist bid 0, queue ++ [bid])) (dist, queue) =
        some final) :
    final.1.length = dist.length ∧
      (∀ bid ∈ branches,
        lookup? final.1 bid = some 0 ↔ bid ∉ setBits covered) ∧
      ∀ bid, bid ∉ branches → lookup? final.1 bid = lookup? dist bid := by
  induction branches generalizing dist queue with
  | nil =>
      cases isReset
      refine ⟨rfl, ?_, fun _ _ => rfl⟩
      intro bid impossible
      cases impossible
  | cons bid rest inductionHypothesis =>
      rw [List.foldlM_cons] at isReset
      obtain ⟨next, stepped, folded⟩ := Option.bind_eq_some_iff.mp isReset
      obtain ⟨isCovered, found, stepped⟩ :=
        Option.bind_eq_some_iff.mp stepped
      have here := inRange bid List.mem_cons_self
      have updated :
          ∃ distance queue,
            next = (update dist bid distance, queue) ∧
              (distance = 0 ↔ isCovered = false) := by
        cases isCovered with
        | false =>
            cases stepped
            exact ⟨0, _, rfl, by decide⟩
        | true =>
            cases stepped
            exact ⟨kInfiniteDistance, _, rfl, by decide⟩
      obtain ⟨distance, nextQueue, rfl, isZero⟩ := updated
      obtain ⟨sized, zeros, others⟩ :=
        inductionHypothesis
          (by
            intro other member
            rw [length_update]
            exact inRange other (List.mem_cons_of_mem _ member))
          folded
      rw [length_update] at sized
      refine ⟨sized, ?_, ?_⟩
      · intro other member
        by_cases isLater : other ∈ rest
        · exact zeros other isLater
        · rcases List.mem_cons.mp member with rfl | impossible
          · rw [others other isLater, lookup?_update here, if_pos rfl,
              mem_setBits, found, Option.some.injEq, isZero,
              Option.some.injEq, Bool.not_eq_true]
          · exact absurd impossible isLater
      · intro other notMember
        rw [List.mem_cons, not_or] at notMember
        rw [others other notMember.2, lookup?_update here,
          if_neg notMember.1]

/-- After `UpdateBranchDistances` the distances are in step. -/
theorem zeros_of_updateBranchDistances
    {cfgRev : List (List BranchId)}
    {covered : List Bool}
    {branches : List BranchId}
    {dist final : List Nat}
    (inRange : ∀ bid ∈ branches, 0 ≤ bid ∧ bid < dist.length)
    (updated :
      updateBranchDistances cfgRev covered branches dist = some final) :
    final.length = dist.length ∧
      ∀ bid ∈ branches,
        lookup? final bid = some 0 ↔ bid ∉ setBits covered := by
  obtain ⟨⟨middle, queue⟩, isReset, relaxed⟩ :=
    Option.bind_eq_some_iff.mp updated
  obtain ⟨sized, zeros, _⟩ :=
    zeros_of_resetDistances branches inRange isReset
  have same := sameZeros_relaxAll _ relaxed
  refine ⟨same.length.trans sized, ?_⟩
  intro bid member
  rw [same.zeros bid]
  exact zeros bid member

end Distances

/--
An environment as a program gives it: the tables are those of branches with
positive ids, paired with each other, and the executions of all ranks report
branches of the program.
-/
structure WellFormed (env : Environment) : Prop where
  tables : env.tables.WellFormed
  positive : ∀ bid ∈ env.tables.branches, 0 < bid
  paired :
    ∀ bid ∈ env.tables.branches,
      ∀ other,
        lookup? env.tables.pairedBranch bid = some other →
        other ∈ env.tables.branches
  executions :
    ∀ run ex, Drawn env.tables (env.execution run ex).path.branches
  others :
    ∀ run rank branches,
      env.branchesOfRank run rank = some branches →
      Drawn env.tables branches

/-- What holds of the progress between the steps of a search. -/
structure Consistent (env : Environment) (reached : Progress) : Prop where
  accounted : Accounted env.tables reached.coverage
  bounded : reached.coverage.numCovered < 2 ^ 32
  sized : reached.dist.length = env.tables.branchFunction.length
  success : Drawn env.tables reached.successEx.path.branches

/-- The progress of a new search, whose distances are all zero. -/
theorem consistent_start
    {env : Environment}
    (wellFormed : WellFormed env)
    {file : List BranchId}
    (distinct : file.Nodup)
    (listed : ∀ bid ∈ file, bid ∈ env.tables.branches) :
    ∃ coverage,
      load env.tables file = some coverage ∧
        ∀ program commWorldSize targetRank,
          Consistent env
            (progress
              (World.start program commWorldSize targetRank coverage
                (List.replicate env.tables.branchFunction.length 0))) := by
  obtain ⟨coverage, loads, accounted, _, bounded⟩ :=
    load_spec wellFormed.tables distinct listed
  refine ⟨coverage, loads, ?_⟩
  intro program commWorldSize targetRank
  exact {
    accounted := accounted
    bounded := bounded
    sized := List.length_replicate
    success := List.forall_mem_nil _ }

section Steps

variable {env : Environment}

/-- A part of a search that keeps the progress. -/
abbrev Steady {Result : Type} (program : Run Result) : Prop :=
  Keeps progress program

theorem steady_require
    {Result : Type}
    (result : Option Result) :
    Steady (require result) := by
  cases result with
  | none =>
      exact Keeps.throw
  | some value =>
      exact Keeps.pure

theorem steady_assert (holds : Bool) : Steady (SearchRun.assert holds) := by
  cases holds with
  | false =>
      exact Keeps.throw
  | true =>
      exact Keeps.pure

theorem steady_rand : Steady (rand env) :=
  Keeps.bind Keeps.get fun _ =>
    Keeps.bind (Keeps.modify fun _ => rfl) fun _ => Keeps.pure

theorem steady_randomShuffle
    {Entry : Type}
    (items : List Entry) :
    Steady (randomShuffle env items) := by
  refine Keeps.foldlM (fun items i => ?_) _ _
  split
  · exact Keeps.pure
  · exact Keeps.bind steady_rand fun _ => Keeps.pure

theorem steady_launchProgram (inputs : List Value) :
    Steady (launchProgram inputs) := by
  refine Keeps.bind Keeps.get fun world => ?_
  refine Keeps.bind (Keeps.modify fun _ => rfl) fun _ => ?_
  cases world.search.launchProgram inputs with
  | none =>
      exact Keeps.throw
  | some launched =>
      exact Keeps.modify fun _ => rfl

theorem steady_runProgram
    (inputs : List Value)
    (ex : SymbolicExecution) :
    Steady (runProgram env inputs ex) := by
  refine Keeps.bind (Keeps.modify fun _ => rfl) fun _ => ?_
  refine Keeps.bind Keeps.get fun world => ?_
  split
  · exact Keeps.throw
  · exact Keeps.bind (steady_launchProgram inputs) fun _ => Keeps.pure

theorem steady_solveAtBranch
    (ex : SymbolicExecution)
    (branchIdx : Nat) :
    Steady (solveAtBranch env ex branchIdx) := by
  refine Keeps.bind Keeps.get fun world => ?_
  refine Keeps.bind (Keeps.modify fun _ => rfl) fun _ => ?_
  cases world.search.solveAtBranch (env.solve world.solves) ex branchIdx with
  | none =>
      exact Keeps.throw
  | some solved =>
      exact Keeps.bind (Keeps.modify fun _ => rfl) fun _ => Keeps.pure

theorem steady_clearIndices : Steady SearchStrategies.clearIndices :=
  Keeps.modify fun _ => rfl

theorem steady_pairedAt
    (ex : SymbolicExecution)
    (idx : Nat) :
    Steady (SearchStrategies.pairedAt env ex idx) :=
  Keeps.bind (steady_require _) fun _ =>
    Keeps.bind (steady_require _) fun _ => steady_require _

theorem steady_distanceOf (bid : BranchId) :
    Steady (SearchStrategies.distanceOf bid) :=
  Keeps.bind Keeps.get fun _ => steady_require _

theorem steady_nearEnough
    (path : List BranchId)
    (maxDist j : Nat) :
    Steady (SearchStrategies.nearEnough env path maxDist j) := by
  refine Keeps.bind (steady_require _) fun bid => ?_
  refine Keeps.bind (steady_distanceOf bid) fun own => ?_
  refine Keeps.bind (steady_require _) fun paired => ?_
  exact Keeps.bind (steady_distanceOf paired) fun _ => Keeps.pure

theorem steady_scoredBranches
    (ex : SymbolicExecution)
    (pos : Nat) :
    Steady
      (SearchStrategies.scoredBranches env SearchStrategies.heuristicScore ex
        pos) := by
  refine Keeps.bind (steady_randomShuffle _) fun shuffled => ?_
  refine Keeps.bind (Keeps.foldlM ?_ _ _) fun _ => Keeps.pure
  rintro ⟨scored, seen⟩ idx
  refine Keeps.bind (steady_pairedAt ex idx) fun bid => ?_
  refine Keeps.bind (Keeps.bind (steady_distanceOf bid) fun _ => Keeps.pure)
    fun _ => Keeps.pure

/-- A run of the program reports branches of the program. -/
theorem rule_runProgram
    (wellFormed : WellFormed env)
    (inputs : List Value)
    (ex : SymbolicExecution) :
    Rule (fun _ => True) (fun _ => True) (runProgram env inputs ex)
      fun newEx _ => Drawn env.tables newEx.path.branches :=
  ObservedSearch.rule_runProgram wellFormed.executions inputs ex

/-- A pairing is found for a branch of the path. -/
theorem rule_pairedAt
    (ex : SymbolicExecution)
    (idx : Nat) :
    Rule (fun _ => True) (fun _ => True)
      (SearchStrategies.pairedAt env ex idx)
      fun paired _ =>
        ∃ pos bid,
          ex.path.constraintsIdx[idx]? = some pos ∧
            ex.path.branches[pos]? = some bid ∧
              lookup? env.tables.pairedBranch bid = some paired := by
  refine Rule.bindFact (ObservedSearch.rule_require _) fun pos position => ?_
  refine Rule.bindFact (ObservedSearch.rule_require _) fun bid isBranch => ?_
  refine Rule.weaken (ObservedSearch.rule_require _) (fun _ holds => holds) ?_
  intro paired _ isPaired
  exact ⟨pos, bid, position, isBranch, isPaired⟩

/-- An execution whose constraints are scored has a branch. -/
theorem rule_scoredBranches
    (score : BranchId → Int → Run Int)
    (ex : SymbolicExecution)
    (hasConstraints : ex.path.constraints.length ≠ 0) :
    Rule (fun _ => True) (fun _ => True)
      (SearchStrategies.scoredBranches env score ex 0)
      fun _ _ => ∃ bid ∈ ex.path.branches, 0 ≤ bid := by
  refine Rule.bindFact (ObservedSearch.rule_randomShuffle _)
    fun shuffled sized => ?_
  cases shuffled with
  | nil =>
      rw [List.length_map, List.length_range, Nat.sub_zero] at sized
      exact absurd sized.symm hasConstraints
  | cons idx rest =>
      rw [List.foldlM_cons]
      refine Rule.bind (Rule.bind (Rule.bindFact (rule_pairedAt ex idx) ?_)
        fun _ => Rule.unconditional _) fun _ => Rule.pure fun _ holds => holds
      rintro paired ⟨pos, bid, _, isBranch, isPaired⟩
      refine Rule.strengthen (Rule.unconditional _) fun _ _ => ?_
      exact ⟨bid, List.mem_of_getElem? isBranch,
        (inRange_of_lookup? isPaired).1⟩

/-- The distance of a branch is read. -/
theorem rule_distanceOf
    (pre : Progress → Prop)
    (bid : BranchId) :
    Rule (fun _ => True) (fun world => pre (progress world))
      (SearchStrategies.distanceOf bid)
      fun distance world =>
        pre (progress world) ∧
          lookup? (progress world).dist bid = some distance := by
  apply Rule.ofStates
  intro world holds
  refine Rule.getFrom ?_
  cases found : lookup? world.dist bid with
  | none =>
      exact Rule.throwFrom trivial
  | some distance =>
      exact Rule.pureFrom ⟨holds, found⟩

/-- What `nearEnough` reads: a branch, its paired branch and their distances. -/
structure Near
    (tables : BranchTables)
    (dist : List Nat)
    (path : List BranchId)
    (j : Nat)
    (bid paired : BranchId)
    (own other : Nat) : Prop where
  branch : path[j]? = some bid
  pair : lookup? tables.pairedBranch bid = some paired
  own : lookup? dist bid = some own
  other : lookup? dist paired = some other

/-- The distances at a position are compared with the bound. -/
theorem rule_nearEnough
    (pre : Progress → Prop)
    (path : List BranchId)
    (maxDist j : Nat) :
    Rule (fun _ => True) (fun world => pre (progress world))
      (SearchStrategies.nearEnough env path maxDist j)
      fun near world =>
        pre (progress world) ∧
          ∃ bid paired own other,
            Near env.tables (progress world).dist path j bid paired own
                other ∧
              near = (decide (own ≤ maxDist), decide (other ≤ maxDist)) := by
  apply Rule.ofStates
  intro world holds
  simp only [SearchStrategies.nearEnough, SearchStrategies.distanceOf,
    bind_assoc]
  refine ObservedSearch.requireFrom (fun bid isBranch => ?_) trivial
  refine Rule.getFrom ?_
  refine ObservedSearch.requireFrom (fun own isOwn => ?_) trivial
  refine ObservedSearch.requireFrom (fun paired isPaired => ?_) trivial
  refine Rule.getFrom ?_
  refine ObservedSearch.requireFrom (fun other isOther => ?_) trivial
  exact Rule.pureFrom
    ⟨holds, bid, paired, own, other,
      ⟨isBranch, isPaired, isOwn, isOther⟩, rfl⟩

/-- Keeping an execution for later leaves the snapshot. -/
theorem rule_succeed
    {ex : SymbolicExecution}
    (drawn : Drawn env.tables ex.path.branches) :
    Rule (fun _ => True)
      (fun world => Consistent env (progress world))
      (SearchStrategies.succeed ex)
      fun _ world => Consistent env (progress world) := by
  apply Rule.ofStates
  intro world consistent
  refine Rule.modifyLast ?_
  exact {
    accounted := consistent.accounted
    bounded := consistent.bounded
    sized := consistent.sized
    success := drawn }

/-- Computing the distances puts them in step with the coverage. -/
theorem rule_updateDistances (wellFormed : WellFormed env) :
    Rule (fun _ => True)
      (fun world => Consistent env (progress world))
      (SearchStrategies.updateDistances env)
      fun _ world =>
        Consistent env (progress world) ∧
          InSync env.tables (snapshot (progress world)) := by
  apply Rule.ofStates
  intro world consistent
  refine Rule.getFrom ?_
  cases updated :
      updateBranchDistances env.cfgRev world.coverage.covered
        env.tables.branches world.dist with
  | none =>
      exact Rule.throwFrom trivial
  | some final =>
      have inRange :
          ∀ bid ∈ env.tables.branches, 0 ≤ bid ∧ bid < world.dist.length := by
        intro bid member
        rw [show world.dist.length = _ from consistent.sized]
        exact wellFormed.tables.inRange bid member
      obtain ⟨sized, zeros⟩ :=
        zeros_of_updateBranchDistances inRange updated
      refine Rule.modifyLast ⟨?_, zeros⟩
      exact {
        accounted := consistent.accounted
        bounded := consistent.bounded
        sized := sized.trans consistent.sized
        success := consistent.success }

/-- A restart uncovers all branches. -/
theorem Consistent.restart
    {reached : Progress}
    (consistent : Consistent env reached) :
    Consistent env { reached with coverage := reached.coverage.restart } where
  accounted :=
    { coveredLength :=
        (List.length_map _).trans consistent.accounted.coveredLength
      totalLength := consistent.accounted.totalLength
      subset := by
        rw [Coverage.restart, setBits_map_false]
        exact Finset.empty_subset _
      listed := consistent.accounted.listed
      totalNumCovered := consistent.accounted.totalNumCovered
      reaches :=
        { length := consistent.accounted.reaches.length
          reached := consistent.accounted.reaches.reached
          reachableFunctions :=
            consistent.accounted.reaches.reachableFunctions
          reachableBranches :=
            consistent.accounted.reaches.reachableBranches } }
  bounded := consistent.bounded
  sized := consistent.sized
  success := consistent.success

/-- The counter of covered branches does not wrap in a call. -/
def Fits
    (env : Environment)
    (world : World)
    (ex : SymbolicExecution) : Prop :=
  world.coverage.numCovered +
      (newIds world.coverage ex.path.branches
        (allOthers env world.search)).card <
    2 ^ 32

instance (world : World) (ex : SymbolicExecution) :
    Decidable (Fits env world ex) :=
  inferInstanceAs (Decidable (_ < 2 ^ 32))

/-- What a call of `UpdateCoverage` that fits does to a snapshot. -/
structure Noticed
    (seen : Snapshot)
    (ex : SymbolicExecution)
    (result : Bool × OrderedSet BranchId)
    (now : Snapshot) : Prop where
  dist : now.dist = seen.dist
  covers : positives ex.path.branches ⊆ now.covered
  same : result.1 = false → now = seen
  newBranches :
    ∀ bid ∈ positives ex.path.branches, bid ∉ seen.covered → bid ∈ result.2

theorem drawn_reported
    (wellFormed : WellFormed env)
    {ex : SymbolicExecution}
    (drawn : Drawn env.tables ex.path.branches)
    (search : Search) :
    Drawn env.tables
      (reported ex.path.branches (allOthers env search)) := by
  intro bid member
  rcases List.mem_append.mp member with inFocus | inOthers
  · exact drawn bid inFocus
  · obtain ⟨branches, isOther, inOther⟩ := List.mem_flatten.mp inOthers
    obtain ⟨rank, _, isRank⟩ := List.mem_filterMap.mp isOther
    split at isRank
    · cases isRank
    · exact wellFormed.others _ _ branches isRank bid inOther

theorem positives_subset_reported
    (branches : List BranchId)
    (allOthers : List (List BranchId)) :
    positives branches ⊆ positives (reported branches allOthers) := by
  intro bid member
  simp only [positives, List.mem_toFinset, List.mem_filter] at member ⊢
  exact ⟨List.mem_append_left _ member.1, member.2⟩

/-- A call that fits finds a branch exactly if one is new. -/
theorem rule_updateCoverage
    (wellFormed : WellFormed env)
    {ex : SymbolicExecution}
    (drawn : Drawn env.tables ex.path.branches)
    (seen : Snapshot) :
    Rule (fun _ => True)
      (fun world =>
        (Consistent env (progress world) ∧
          snapshot (progress world) = seen) ∧
          Fits env world ex)
      (SearchRun.updateCoverage env ex)
      fun result world =>
        Consistent env (progress world) ∧
          Noticed seen ex result (snapshot (progress world)) := by
  apply Rule.ofStates
  rintro world ⟨⟨consistent, rfl⟩, fits⟩
  refine Rule.getFrom ?_
  obtain ⟨next, newBranches, updated, visited⟩ :=
    updateCoverage_spec wellFormed.tables consistent.accounted
      consistent.bounded (drawn_reported wellFormed drawn world.search)
  have counted :
      next.numCovered =
        world.coverage.numCovered +
          (newIds world.coverage ex.path.branches
            (allOthers env world.search)).card :=
    visited.numCovered.trans (Nat.mod_eq_of_lt fits)
  have covered :
      setBits next.covered =
        setBits world.coverage.covered ∪
          positives
            (reported ex.path.branches (allOthers env world.search)) :=
    visited.covered
  refine ObservedSearch.requireFrom (fun result isResult => ?_) trivial
  obtain rfl := Option.some.inj (updated.symm.trans isResult)
  refine Rule.modifyFrom (Rule.pureFrom ?_)
  have afterwards :
      Consistent env
        { coverage := next
          dist := world.dist
          successEx := world.successEx } :=
    { accounted := visited.accounted
      bounded := counted ▸ fits
      sized := consistent.sized
      success := consistent.success }
  refine ⟨afterwards, ?_⟩
  exact {
    dist := rfl
    covers := by
      intro bid member
      show bid ∈ setBits next.covered
      rw [covered]
      exact Finset.mem_union_right _
        (positives_subset_reported _ _ member)
    same := by
      intro notFound
      have noGrowth :
          ¬next.numCovered > world.coverage.numCovered :=
        of_decide_eq_false notFound
      rw [counted] at noGrowth
      have noneNew :
          newIds world.coverage ex.path.branches
            (allOthers env world.search) = ∅ := by
        rw [← Finset.card_eq_zero]
        omega
      rw [Finset.union_eq_left.mpr (Finset.sdiff_eq_empty_iff_subset.mp
        noneNew)] at covered
      exact congrArg (Snapshot.mk · world.dist) covered
    newBranches := by
      intro bid member isNew
      refine (visited.newBranches bid).mpr (Finset.mem_sdiff.mpr ⟨?_, isNew⟩)
      exact positives_subset_reported _ _ member }

end Steps

end SearchProgress

end Compi
