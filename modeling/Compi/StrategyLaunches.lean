import Compi.LaunchIndices

/-!
# What the strategies launch

Between its steps every strategy keeps the index lists in step with the
execution taken over last.  Only the strategies that restart without clearing
the lists can launch out of bounds.
-/

namespace Compi

namespace LaunchIndices

open SearchRun SearchStrategies StoppableRun

variable {lists : Nat → List Id × List Id} {keeps : Bool}

section Depth

variable {env : Environment}

theorem rule_dfsLoop
    (reports : env.Reports lists)
    {shallower : Nat → SymbolicExecution → SymbolicExecution → Run Unit}
    (shallowerRule :
      ∀ i prevEx curEx,
        Recorded lists prevEx →
        Recorded lists curEx →
        Rule (Stopped keeps) (Invariant lists keeps)
          (shallower i prevEx curEx) fun _ => Invariant lists keeps)
    {prevEx : SymbolicExecution}
    (prevRecorded : Recorded lists prevEx)
    (remaining i : Nat)
    {curEx : SymbolicExecution}
    (curRecorded : Recorded lists curEx) :
    Rule (Stopped keeps) (Invariant lists keeps)
      (dfsLoop env shallower prevEx remaining i curEx)
      fun _ => Invariant lists keeps := by
  induction remaining generalizing i curEx with
  | zero =>
      exact Rule.pure fun _ holds => holds
  | succ remaining inductionHypothesis =>
      refine rule_solveThenRun reports prevRecorded curRecorded i
        (fun _ => rfl) (inductionHypothesis (i + 1) curRecorded) ?_
      intro input newEx newRecorded
      refine Rule.bind (quiet_updateCoverage newEx).rule fun _ => ?_
      refine Rule.bind (quiet_require _).rule fun branchIdx => ?_
      refine Rule.bind
        (quiet_checkPrediction prevEx newEx branchIdx).rule fun predicted => ?_
      split
      · refine Rule.bind
          (shallowerRule (i + 1) newEx SymbolicExecution.empty
            newRecorded (recorded_empty reports.untagged)) fun _ => ?_
        exact shallowerRule (i + 1) prevEx newEx prevRecorded newRecorded
      · exact inductionHypothesis (i + 1) newRecorded

theorem rule_dfs
    (reports : env.Reports lists)
    (depth pos : Nat)
    {prevEx curEx : SymbolicExecution}
    (prevRecorded : Recorded lists prevEx)
    (curRecorded : Recorded lists curEx) :
    Rule (Stopped keeps) (Invariant lists keeps)
      (dfs env depth pos prevEx curEx)
      fun _ => Invariant lists keeps := by
  induction depth generalizing pos prevEx curEx with
  | zero =>
      exact Rule.pure fun _ holds => holds
  | succ depth inductionHypothesis =>
      refine rule_dfsLoop reports ?_ prevRecorded _ pos curRecorded
      intro i prevEx curEx
      exact inductionHypothesis i

/-- Before anything is solved, nothing is listed. -/
theorem Coherent.unsolved
    {core : Core}
    (untagged : lists 0 = ([], []))
    (coherent : Coherent lists keeps core)
    (unsolved : Call.lastSolved core.calls = none) :
    core.lists = ([], []) := by
  have tag : core.search.executionTag = 0 := by
    rw [coherent.tag, unsolved]
    rfl
  rcases coherent.indices with listed | ⟨_, cleared⟩
  · rw [listed, tag, untagged]
  · exact cleared

/-- The first run of a strategy that does not restart. -/
theorem rule_firstRun
    (reports : env.Reports lists) :
    Rule (Stopped false)
      (fun world =>
        Invariant lists false world ∧
          Call.lastSolved (core world).calls = none)
      (runProgram env [] SymbolicExecution.empty)
      (fun ex world => Invariant lists false world ∧ Recorded lists ex) := by
  refine Rule.strengthen
    (rule_runProgram reports (recorded_empty reports.untagged)) ?_
  rintro world ⟨coherent, unsolved⟩
  exact ⟨coherent, launchable_of_cleared []
    (coherent.unsolved reports.untagged unsolved)⟩

theorem rule_boundedDepthFirst
    (reports : env.Reports lists)
    (maxDepth : Int)
    (fuel : Nat) :
    Rule (Stopped false)
      (fun world =>
        Invariant lists false world ∧
          Call.lastSolved (core world).calls = none)
      (boundedDepthFirst env maxDepth fuel)
      fun _ => Invariant lists false := by
  refine Rule.bind (rule_firstRun reports) fun ex => ?_
  apply Rule.fact
  intro recorded
  refine Rule.bind (quiet_updateCoverage ex).rule fun _ => ?_
  refine rule_forever stops_of_invariant (Recorded lists) ?_ fuel recorded
  intro ex recorded
  refine Rule.bind
    (rule_dfs reports _ 0 recorded (recorded_empty reports.untagged)) ?_
  intro _
  exact Rule.pure fun _ holds => ⟨holds, recorded⟩

end Depth

section RandomInput

variable {env : Environment}

theorem quiet_randomInput
    (worldSizeIndex : Nat)
    (vars : OrderedMap Var CType)
    (input : List Value) :
    Quiet (randomInput env worldSizeIndex vars input) := by
  refine Keeps.foldlM ?_ _ _
  rintro input ⟨v, type⟩
  refine Keeps.bind ?_ fun val => ?_
  · refine Keeps.foldlM (fun val _ => ?_) _ _
    exact Keeps.bind quiet_rand fun _ => Keeps.pure
  · split
    · split
      · exact Keeps.pure
      · exact Keeps.pure
    · exact Keeps.throw

/-- The random search keeps the lists of a new search, whatever is reported. -/
theorem rule_randomInputSearch
    (untagged : lists 0 = ([], []))
    (fuel : Nat) :
    Rule (Stopped false)
      (fun world =>
        Invariant lists false world ∧
          Call.lastSolved (core world).calls = none)
      (randomInputSearch env fuel)
      (fun _ world =>
        Invariant lists false world ∧
          Call.lastSolved (core world).calls = none) := by
  have launchable :
      ∀ inputs (world : World),
        Invariant lists false world ∧
          Call.lastSolved (core world).calls = none →
        (Invariant lists false world ∧
            Launchable false inputs (core world)) ∧
          Call.lastSolved (core world).calls = none := by
    rintro inputs world ⟨coherent, unsolved⟩
    exact ⟨⟨coherent, launchable_of_cleared inputs
      (coherent.unsolved untagged unsolved)⟩, unsolved⟩
  have quiet :
      ∀ {Result : Type} {program : Run Result},
        Quiet program →
        Rule (Stopped false)
          (fun world =>
            Invariant lists false world ∧
              Call.lastSolved (core world).calls = none)
          program
          (fun _ world =>
            Invariant lists false world ∧
              Call.lastSolved (core world).calls = none) :=
    fun isQuiet =>
      Keeps.rule
        (fun core =>
          Coherent lists false core ∧ Call.lastSolved core.calls = none)
        (fun core => Explained false core.calls)
        isQuiet fun _ holds => holds.1.explained
  have runs (inputs : List Value) (ex : SymbolicExecution) :
      Rule (Stopped false)
        (fun world =>
          Invariant lists false world ∧
            Call.lastSolved (core world).calls = none)
        (runProgram env inputs ex)
        (fun _ world =>
          (Invariant lists false world ∧
            Call.lastSolved (core world).calls = none) ∧
            True) :=
    Rule.strengthen (rule_runProgram_last inputs (fun _ => trivial) none)
      (launchable inputs)
  refine Rule.bind (runs [] SymbolicExecution.empty) fun ex => ?_
  apply Rule.fact
  intro _
  refine rule_forever (fun _ holds => holds.1.explained)
    (fun _ => True) ?_ fuel trivial
  rintro ⟨ex, worldSizeIndex, input⟩ _
  refine Rule.bind (quiet (quiet_updateCoverage ex)) fun _ => ?_
  refine Rule.bind (quiet (quiet_randomInput _ ex.vars input)) fun input => ?_
  refine Rule.bind (runs input ex) fun newEx => ?_
  exact Rule.pure fun _ holds => holds

end RandomInput

section Random

variable {env : Environment}

/-- Where index lists are kept, a restart keeps the invariant. -/
theorem rule_restart
    (reports : env.Reports lists)
    {ex : SymbolicExecution}
    (recorded : Recorded lists ex) :
    Rule (Stopped true) (Invariant lists true) (runProgram env [] ex)
      (fun ex world => Invariant lists true world ∧ Recorded lists ex) :=
  Rule.strengthen (rule_runProgram reports recorded) fun _ coherent =>
    ⟨coherent, coherent.restart reports.untagged⟩

theorem rule_solveRandomBranch
    {ex : SymbolicExecution}
    (recorded : Recorded lists ex) :
    Rule (Stopped keeps) (Invariant lists keeps)
      (solveRandomBranch env ex)
      (fun result world =>
        Invariant lists keeps world ∧
          ∀ input idx, result = some (input, idx) →
            Launchable keeps input (core world)) := by
  refine Rule.bind
    (Rule.loop (fun _ => Invariant lists keeps)
      (fun (result : Option (List Value × Nat)) world =>
        Invariant lists keeps world ∧
          ∀ input idx, result = some (input, idx) →
            Launchable keeps input (core world)) ?_ _ _) fun next => ?_
  · intro idxs
    refine Rule.bind (quiet_takeRandom idxs).rule fun taken => ?_
    rcases taken with _ | ⟨i, idxs⟩
    · refine Rule.pure fun world coherent => ⟨coherent, ?_⟩
      intro input idx impossible
      cases impossible
    · refine Rule.bind (rule_solveAtBranch recorded i) fun result => ?_
      cases result with
      | none =>
          exact Rule.pure fun _ holds => holds.1
      | some input =>
          refine Rule.pure fun world holds => ⟨holds.1, ?_⟩
          intro other idx same
          obtain ⟨rfl, rfl⟩ := Prod.mk.inj (Option.some.inj same)
          exact holds.2 _ rfl
  · cases next with
    | again idxs =>
        refine Rule.pure fun world coherent => ⟨coherent, ?_⟩
        intro input idx impossible
        cases impossible
    | done result =>
        exact Rule.pure fun _ holds => holds

theorem rule_randomRound
    (reports : env.Reports lists)
    (count : Nat)
    {ex nextEx : SymbolicExecution}
    (recorded : Recorded lists ex)
    (nextRecorded : Recorded lists nextEx) :
    Rule (Stopped keeps) (Invariant lists keeps)
      (randomRound env count ex nextEx)
      (fun result world =>
        Invariant lists keeps world ∧
          Recorded lists result.2.1 ∧ Recorded lists result.2.2) := by
  refine Rule.bind (rule_solveRandomBranch recorded) fun result => ?_
  rcases result with _ | ⟨input, idx⟩
  · exact Rule.pure fun _ holds => ⟨holds.1, recorded, nextRecorded⟩
  · refine Rule.bind
      (Rule.strengthen (rule_runProgram reports nextRecorded)
        fun _ holds => ⟨holds.1, holds.2 input idx rfl⟩) fun newEx => ?_
    apply Rule.fact
    intro newRecorded
    refine Rule.bind (quiet_updateCoverage newEx).rule fun covered => ?_
    refine Rule.bind (quiet_require _).rule fun branchIdx => ?_
    refine Rule.bind
      (quiet_checkPrediction ex newEx branchIdx).rule fun predicted => ?_
    have swapped :
        Recorded lists (ex.swap newEx) ∧ Recorded lists (newEx.swap ex) :=
      ⟨newRecorded.swap, recorded.swap⟩
    split
    · exact Rule.pure fun _ holds => ⟨holds, swapped⟩
    · split
      · exact Rule.pure fun _ holds => ⟨holds, swapped⟩
      · exact Rule.pure fun _ holds => ⟨holds, recorded, newRecorded⟩

theorem rule_randomSearch
    (reports : env.Reports lists)
    (fuel : Nat) :
    Rule (Stopped true) (Invariant lists true) (randomSearch env fuel)
      fun _ => Invariant lists true := by
  have empty := recorded_empty reports.untagged
  refine rule_forever stops_of_invariant
    (fun locals => Recorded lists locals.1 ∧ Recorded lists locals.2)
    ?_ fuel ⟨empty, empty⟩
  rintro ⟨ex, nextEx⟩ ⟨recorded, nextRecorded⟩
  refine Rule.bind (rule_restart reports recorded) fun ex => ?_
  apply Rule.fact
  intro recorded
  refine Rule.bind (quiet_updateCoverage ex).rule fun _ => ?_
  refine Rule.bind
    (Rule.loopKnowing
      (fun (locals : Nat × SymbolicExecution × SymbolicExecution) =>
        Recorded lists locals.2.1 ∧ Recorded lists locals.2.2)
      (fun (result : SymbolicExecution × SymbolicExecution) =>
        Recorded lists result.1 ∧ Recorded lists result.2)
      ?_ fuel ⟨recorded, nextRecorded⟩) fun next => ?_
  · rintro ⟨count, ex, nextEx⟩ ⟨recorded, nextRecorded⟩
    dsimp only
    split
    · refine Rule.bind
        (rule_randomRound reports (count + 1) recorded nextRecorded)
        fun result => ?_
      exact Rule.pure fun _ holds => holds
    · exact Rule.pure fun _ holds => ⟨holds, recorded, nextRecorded⟩
  · cases next with
    | again locals =>
        exact Rule.throw fun _ holds => holds.1.explained
    | done result =>
        exact Rule.pure fun _ holds => holds

end Random

section UniformRandom

variable {env : Environment}

theorem rule_doUniformRandomPath
    (reports : env.Reports lists)
    (maxDepth fuel : Nat)
    {prevEx curEx : SymbolicExecution}
    (prevRecorded : Recorded lists prevEx)
    (curRecorded : Recorded lists curEx) :
    Rule (Stopped keeps) (Invariant lists keeps)
      (doUniformRandomPath env maxDepth fuel prevEx curEx)
      (fun result world =>
        Invariant lists keeps world ∧
          Recorded lists result.1 ∧ Recorded lists result.2) := by
  refine Rule.bind
    (Rule.loopKnowing
      (fun (locals : Nat × Nat × SymbolicExecution × SymbolicExecution) =>
        Recorded lists locals.2.2.1 ∧ Recorded lists locals.2.2.2)
      (fun (result : SymbolicExecution × SymbolicExecution) =>
        Recorded lists result.1 ∧ Recorded lists result.2)
      ?_ fuel ⟨prevRecorded, curRecorded⟩) fun next => ?_
  · rintro ⟨i, depth, prevEx, curEx⟩ ⟨prevRecorded, curRecorded⟩
    dsimp only
    split
    · refine Rule.bind (rule_solveAtBranch prevRecorded i) fun result => ?_
      cases result with
      | none =>
          exact Rule.pure fun _ holds => ⟨holds.1, prevRecorded, curRecorded⟩
      | some input =>
          refine Rule.bind
            (Keeps.rule
              (fun core =>
                Coherent lists keeps core ∧
                  ∀ other, some input = some other →
                    Launchable keeps other core)
              (fun core => Explained keeps core.calls)
              quiet_rand fun _ holds => holds.1.explained) fun r => ?_
          split
          · refine Rule.bind
              (Rule.strengthen (rule_runProgram reports curRecorded)
                fun _ holds => ⟨holds.1, holds.2 input rfl⟩) fun newEx => ?_
            apply Rule.fact
            intro newRecorded
            refine Rule.bind (quiet_updateCoverage newEx).rule fun _ => ?_
            refine Rule.bind (quiet_require _).rule fun branchIdx => ?_
            refine Rule.bind
              (quiet_checkPrediction prevEx newEx branchIdx).rule
              fun predicted => ?_
            split
            · exact Rule.pure fun _ holds =>
                ⟨holds, newRecorded.swap, prevRecorded.swap⟩
            · exact Rule.pure fun _ holds =>
                ⟨holds, prevRecorded, newRecorded⟩
          · exact Rule.pure fun _ holds =>
              ⟨holds.1, prevRecorded, curRecorded⟩
    · exact Rule.pure fun _ holds => ⟨holds, prevRecorded, curRecorded⟩
  · cases next with
    | again locals =>
        exact Rule.throw fun _ holds => holds.1.explained
    | done result =>
        exact Rule.pure fun _ holds => holds

theorem rule_uniformRandom
    (reports : env.Reports lists)
    (maxDepth fuel : Nat) :
    Rule (Stopped false)
      (fun world =>
        Invariant lists false world ∧
          Call.lastSolved (core world).calls = none)
      (uniformRandom env maxDepth fuel)
      fun _ => Invariant lists false := by
  refine Rule.bind (rule_firstRun reports) fun prevEx => ?_
  apply Rule.fact
  intro recorded
  refine Rule.bind (quiet_updateCoverage prevEx).rule fun _ => ?_
  refine rule_forever stops_of_invariant
    (fun locals => Recorded lists locals.1 ∧ Recorded lists locals.2)
    ?_ fuel ⟨recorded, recorded_empty reports.untagged⟩
  rintro ⟨prevEx, curEx⟩ ⟨prevRecorded, curRecorded⟩
  exact rule_doUniformRandomPath reports maxDepth fuel prevRecorded
    curRecorded

end UniformRandom

section Hybrid

variable {env : Environment}

theorem rule_randomStep
    (reports : env.Reports lists)
    {ex : SymbolicExecution}
    (recorded : Recorded lists ex)
    (start finish : Nat) :
    Rule (Stopped keeps) (Invariant lists keeps)
      (randomStep env ex start finish)
      (fun result world =>
        Invariant lists keeps world ∧ Recorded lists result.2) := by
  refine Rule.bind (quiet_assert _).rule fun _ => ?_
  refine Rule.bind
    (Rule.loopKnowing
      (fun (locals : List Nat × SymbolicExecution) =>
        Recorded lists locals.2)
      (fun (result : Bool × SymbolicExecution) => Recorded lists result.2)
      ?_ 1000 (recorded_empty reports.untagged)) fun next => ?_
  · rintro ⟨idxs, nextEx⟩ nextRecorded
    refine Rule.bind (quiet_takeRandom idxs).rule fun taken => ?_
    rcases taken with _ | ⟨i, idxs⟩
    · exact Rule.pure fun _ holds => ⟨holds, recorded⟩
    · refine rule_solveThenRun reports recorded nextRecorded i (fun _ => rfl)
        (Rule.pure fun _ holds => ⟨holds, nextRecorded⟩) ?_
      intro input newEx newRecorded
      refine Rule.bind (quiet_updateCoverage newEx).rule fun _ => ?_
      refine Rule.bind (quiet_require _).rule fun branchIdx => ?_
      refine Rule.bind
        (quiet_checkPrediction ex newEx branchIdx).rule fun predicted => ?_
      split
      · exact Rule.pure fun _ holds => ⟨holds, newRecorded.swap⟩
      · exact Rule.pure fun _ holds => ⟨holds, newRecorded⟩
  · cases next with
    | again locals =>
        exact Rule.pure fun _ holds => ⟨holds.1, recorded⟩
    | done result =>
        exact Rule.pure fun _ holds => holds

theorem rule_randomLocalSearch
    (reports : env.Reports lists)
    {ex : SymbolicExecution}
    (recorded : Recorded lists ex)
    (start finish : Nat) :
    Rule (Stopped keeps) (Invariant lists keeps)
      (randomLocalSearch env ex start finish)
      (fun ex world => Invariant lists keeps world ∧ Recorded lists ex) := by
  refine Rule.bind
    (Rule.loopKnowing (Recorded lists) (Recorded lists) ?_ 100 recorded)
    fun next => ?_
  · intro ex recorded
    refine Rule.bind (rule_randomStep reports recorded start finish) ?_
    rintro ⟨stepped, newEx⟩
    dsimp only
    split
    · exact Rule.pure fun _ holds => holds
    · exact Rule.pure fun _ holds => holds
  · cases next with
    | again ex =>
        exact Rule.pure fun _ holds => holds
    | done ex =>
        exact Rule.pure fun _ holds => holds

theorem rule_hybrid
    (reports : env.Reports lists)
    (stepSize fuel : Nat) :
    Rule (Stopped true) (Invariant lists true) (hybrid env stepSize fuel)
      fun _ => Invariant lists true := by
  refine rule_forever stops_of_invariant (Recorded lists) ?_ fuel
    (recorded_empty reports.untagged)
  intro ex recorded
  refine Rule.bind (rule_restart reports recorded) fun ex => ?_
  apply Rule.fact
  intro recorded
  refine Rule.bind (quiet_updateCoverage ex).rule fun _ => ?_
  refine Rule.bind
    (Rule.loopKnowing
      (fun (locals : Nat × SymbolicExecution) => Recorded lists locals.2)
      (Recorded lists) ?_ fuel recorded) fun next => ?_
  · rintro ⟨pos, ex⟩ recorded
    dsimp only
    split
    · refine Rule.bind
        (rule_randomLocalSearch reports recorded pos (pos + stepSize))
        fun newEx => ?_
      exact Rule.pure fun _ holds => holds
    · exact Rule.pure fun _ holds => ⟨holds, recorded⟩
  · cases next with
    | again locals =>
        exact Rule.throw fun _ holds => holds.1.explained
    | done ex =>
        exact Rule.pure fun _ holds => holds

end Hybrid

section Cfg

variable {env : Environment}

/-- Clearing the index lists is safe where they need not be kept. -/
theorem rule_clearIndices :
    Rule (Stopped false) (Invariant lists false) clearIndices
      (fun _ world =>
        Invariant lists false world ∧ (core world).lists = ([], [])) := by
  apply Rule.ofStates
  intro world coherent
  refine Rule.modifyLast ⟨?_, rfl⟩
  exact {
    tag := coherent.tag
    solved := coherent.solved
    indices := Or.inr ⟨rfl, rfl⟩
    success := coherent.success
    explained := coherent.explained }

/-- A restart on cleared index lists keeps the invariant. -/
theorem rule_clearedRestart
    (reports : env.Reports lists)
    {ex : SymbolicExecution}
    (recorded : Recorded lists ex) :
    Rule (Stopped false)
      (fun world =>
        Invariant lists false world ∧ (core world).lists = ([], []))
      (runProgram env [] ex)
      (fun ex world => Invariant lists false world ∧ Recorded lists ex) :=
  Rule.strengthen (rule_runProgram reports recorded) fun _ holds =>
    ⟨holds.1, launchable_of_cleared [] holds.2⟩

theorem rule_succeed
    {curEx : SymbolicExecution}
    (recorded : Recorded lists curEx) :
    Rule (Stopped keeps) (Invariant lists keeps) (succeed curEx)
      fun _ => Invariant lists keeps := by
  apply Rule.ofStates
  intro world coherent
  refine Rule.modifyLast ?_
  exact {
    tag := coherent.tag
    solved := coherent.solved
    indices := coherent.indices
    success := recorded.swap
    explained := coherent.explained }

theorem rule_succeeded
    {curEx : SymbolicExecution}
    (recorded : Recorded lists curEx) :
    Rule (Stopped keeps) (Invariant lists keeps)
      (do
        succeed curEx
        return true)
      fun _ => Invariant lists keeps :=
  Rule.bind (rule_succeed recorded) fun _ => Rule.pure fun _ holds => holds

theorem rule_searchOn
    {doSearch : SymbolicExecution → Run Bool}
    {afterSuccess : Run Unit}
    (doSearchRule :
      ∀ ex,
        Recorded lists ex →
        Rule (Stopped keeps) (Invariant lists keeps) (doSearch ex)
          fun _ => Invariant lists keeps)
    (quiet : Quiet afterSuccess)
    (fuel : Nat)
    {ex : SymbolicExecution}
    (recorded : Recorded lists ex) :
    Rule (Stopped keeps) (Invariant lists keeps)
      (searchOn doSearch afterSuccess fuel ex)
      (fun ex world => Invariant lists keeps world ∧ Recorded lists ex) := by
  refine Rule.bind
    (Rule.loopKnowing (Recorded lists) (Recorded lists) ?_ fuel recorded)
    fun next => ?_
  · intro ex recorded
    refine Rule.bind (doSearchRule ex recorded) fun found => ?_
    split
    · refine Rule.bind quiet.rule fun _ => ?_
      apply Rule.ofStates
      intro world coherent
      refine Rule.getFrom (Rule.modifyFrom (Rule.pureFrom ⟨?_, ?_⟩))
      · exact {
          tag := coherent.tag
          solved := coherent.solved
          indices := coherent.indices
          success := recorded.swap
          explained := coherent.explained }
      · exact coherent.success.swap
    · exact Rule.pure fun _ holds => ⟨holds, recorded⟩
  · cases next with
    | again ex =>
        exact Rule.throw fun _ holds => holds.1.explained
    | done ex =>
        exact Rule.pure fun _ holds => holds

theorem quiet_pairedAt
    (ex : SymbolicExecution)
    (idx : Nat) :
    Quiet (pairedAt env ex idx) :=
  Keeps.bind (quiet_require _) fun _ =>
    Keeps.bind (quiet_require _) fun _ => quiet_require _

theorem quiet_scoredBranches
    {score : BranchId → Int → Run Int}
    (quiet : ∀ bid times, Quiet (score bid times))
    (ex : SymbolicExecution)
    (pos : Nat) :
    Quiet (scoredBranches env score ex pos) := by
  refine Keeps.bind (quiet_randomShuffle _) fun shuffled => ?_
  refine Keeps.bind (Keeps.foldlM ?_ _ _) fun _ => Keeps.pure
  rintro ⟨scored, seen⟩ idx
  refine Keeps.bind (quiet_pairedAt ex idx) fun bid => ?_
  exact Keeps.bind (quiet bid _) fun _ => Keeps.pure

/-- New branches end a search, otherwise it goes on. -/
theorem rule_succeedOr
    {newEx : SymbolicExecution}
    (newRecorded : Recorded lists newEx)
    {further : Run Bool}
    (rule :
      Rule (Stopped keeps) (Invariant lists keeps) further
        fun _ => Invariant lists keeps) :
    Rule (Stopped keeps) (Invariant lists keeps)
      (do
        let (found, _) ← updateCoverage env newEx
        if found then
          succeed newEx
          return true
        else
          further)
      fun _ => Invariant lists keeps := by
  refine Rule.bind (quiet_updateCoverage newEx).rule ?_
  rintro ⟨found, newBranches⟩
  dsimp only
  split
  · exact rule_succeeded newRecorded
  · exact rule

theorem rule_baselineDoSearch
    (reports : env.Reports lists)
    {prevEx : SymbolicExecution}
    (prevRecorded : Recorded lists prevEx)
    (scored : List (Nat × Int))
    (iters : Nat)
    {curEx : SymbolicExecution}
    (curRecorded : Recorded lists curEx) :
    Rule (Stopped keeps) (Invariant lists keeps)
      (baselineDoSearch env prevEx scored iters curEx)
      fun _ => Invariant lists keeps := by
  induction scored generalizing iters curEx with
  | nil =>
      exact Rule.pure fun _ holds => holds
  | cons item rest inductionHypothesis =>
      unfold baselineDoSearch
      split
      · exact Rule.pure fun _ holds => holds
      · refine rule_solveThenRun reports prevRecorded curRecorded item.1
          (fun _ => rfl) (inductionHypothesis iters curRecorded) ?_
        intro input newEx newRecorded
        exact
          rule_succeedOr newRecorded
            (inductionHypothesis (iters - 1) newRecorded)

theorem quiet_baselineScore (bid : BranchId) (times : Int) :
    Quiet (baselineScore bid times) :=
  Keeps.bind Keeps.get fun _ =>
    Keeps.bind (quiet_require _) fun _ => Keeps.pure

theorem rule_cfgBaseline
    (reports : env.Reports lists)
    (fuel : Nat) :
    Rule (Stopped false) (Invariant lists false) (cfgBaseline env fuel)
      fun _ => Invariant lists false := by
  refine rule_forever stops_of_invariant (Recorded lists) ?_ fuel
    (recorded_empty reports.untagged)
  intro ex recorded
  refine Rule.bind rule_clearIndices fun _ => ?_
  refine Rule.bind (rule_clearedRestart reports recorded) fun ex => ?_
  apply Rule.fact
  intro recorded
  refine Rule.bind (quiet_updateCoverage ex).rule fun _ => ?_
  refine rule_searchOn ?_ Keeps.pure fuel recorded
  intro ex recorded
  refine Rule.bind (quiet_scoredBranches quiet_baselineScore ex 0).rule
    fun scored => ?_
  exact rule_baselineDoSearch reports recorded scored 250
    (recorded_empty reports.untagged)

theorem quiet_updateDistances : Quiet (updateDistances env) :=
  Keeps.bind Keeps.get fun _ =>
    Keeps.bind (quiet_require _) fun _ => Keeps.modify fun _ => rfl

theorem quiet_distanceOf (bid : BranchId) : Quiet (distanceOf bid) :=
  Keeps.bind Keeps.get fun _ => quiet_require _

theorem quiet_nearEnough
    (path : List BranchId)
    (maxDist j : Nat) :
    Quiet (nearEnough env path maxDist j) := by
  refine Keeps.bind (quiet_require _) fun bid => ?_
  refine Keeps.bind (quiet_distanceOf bid) fun own => ?_
  refine Keeps.bind (quiet_require _) fun paired => ?_
  exact Keeps.bind (quiet_distanceOf paired) fun _ => Keeps.pure

theorem rule_both
    (first : Bool)
    {second : Run Bool}
    (rule :
      Rule (Stopped keeps) (Invariant lists keeps) second
        fun _ => Invariant lists keeps) :
    Rule (Stopped keeps) (Invariant lists keeps) (both first second)
      fun _ => Invariant lists keeps := by
  cases first with
  | false =>
      exact Rule.pure fun _ holds => holds
  | true =>
      exact rule

theorem rule_solveEachAlongCfg
    (reports : env.Reports lists)
    {recurse : Nat → Nat → SymbolicExecution → Run Bool}
    (recurseRule :
      ∀ i maxDist ex,
        Recorded lists ex →
        Rule (Stopped keeps) (Invariant lists keeps) (recurse i maxDist ex)
          fun _ => Invariant lists keeps)
    (maxDist : Nat)
    {prevEx : SymbolicExecution}
    (prevRecorded : Recorded lists prevEx)
    (idxs : List Nat)
    {curEx : SymbolicExecution}
    (curRecorded : Recorded lists curEx) :
    Rule (Stopped keeps) (Invariant lists keeps)
      (solveEachAlongCfg env recurse maxDist prevEx idxs curEx)
      fun _ => Invariant lists keeps := by
  induction idxs generalizing curEx with
  | nil =>
      exact Rule.pure fun _ holds => holds
  | cons j rest inductionHypothesis =>
      unfold solveEachAlongCfg
      refine Rule.bind (quiet_nearEnough _ maxDist j).rule ?_
      rintro ⟨own, paired⟩
      dsimp only
      refine Rule.bind (rule_both own (recurseRule j _ prevEx prevRecorded))
        fun along => ?_
      split
      · exact Rule.pure fun _ holds => holds
      · split
        · refine rule_solveThenRun reports prevRecorded curRecorded _
            (fun _ => rfl) (inductionHypothesis curRecorded) ?_
          intro input newEx newRecorded
          refine rule_succeedOr newRecorded ?_
          refine Rule.bind (quiet_checkPrediction prevEx newEx j).rule
            fun predicted => ?_
          split
          · refine Rule.bind (recurseRule j _ newEx newRecorded)
              fun further => ?_
            split
            · exact Rule.pure fun _ holds => holds
            · exact inductionHypothesis newRecorded
          · exact inductionHypothesis newRecorded
        · exact inductionHypothesis curRecorded

theorem rule_solveAlongCfg
    (reports : env.Reports lists)
    (fuel i maxDist : Nat)
    {prevEx : SymbolicExecution}
    (prevRecorded : Recorded lists prevEx) :
    Rule (Stopped keeps) (Invariant lists keeps)
      (solveAlongCfg env fuel i maxDist prevEx)
      fun _ => Invariant lists keeps := by
  induction fuel generalizing i maxDist prevEx with
  | zero =>
      exact Rule.throw stops_of_invariant
  | succ fuel inductionHypothesis =>
      refine Rule.bind (quiet_require _).rule fun idxs => ?_
      refine Rule.bind
        (Quiet.rule
          (Keeps.mapM (quiet_nearEnough _ maxDist) idxs)) fun near => ?_
      split
      · refine Rule.bind (quiet_randomShuffle idxs).rule fun shuffled => ?_
        refine rule_solveEachAlongCfg reports ?_ maxDist prevRecorded shuffled
          (recorded_empty reports.untagged)
        intro i maxDist ex recorded
        exact inductionHypothesis i maxDist recorded
      · exact Rule.pure fun _ holds => holds

theorem quiet_heuristicScore (bid : BranchId) (times : Int) :
    Quiet (heuristicScore bid times) :=
  Keeps.bind (quiet_distanceOf bid) fun _ => Keeps.pure

theorem quiet_foundAlongCfg
    (curEx : SymbolicExecution)
    (newBranches : OrderedSet BranchId)
    (b_idx dist : Nat) :
    Quiet (foundAlongCfg curEx newBranches b_idx dist) := by
  refine Keeps.bind (quiet_require _) fun minDist => ?_
  refine Keeps.bind (quiet_require _) fun along => ?_
  split
  · exact Keeps.bind (quiet_assert _) fun _ => Keeps.pure
  · refine Keeps.bind (quiet_assert _) fun _ => ?_
    exact Keeps.bind (quiet_assert _) fun _ => Keeps.pure

theorem rule_afterFlip
    (reports : env.Reports lists)
    (fuel : Nat)
    (prevEx : SymbolicExecution)
    {curEx : SymbolicExecution}
    (curRecorded : Recorded lists curEx)
    (idx : Nat)
    (score : Int) :
    Rule (Stopped keeps) (Invariant lists keeps)
      (afterFlip env fuel prevEx curEx idx score)
      fun _ => Invariant lists keeps := by
  have succeeded :
      Rule (Stopped keeps) (Invariant lists keeps) _
        fun _ => Invariant lists keeps :=
    rule_succeeded curRecorded
  refine Rule.bind (quiet_require _).rule fun b_idx => ?_
  refine Rule.bind (quiet_pairedAt prevEx idx).rule fun bid => ?_
  refine Rule.bind (quiet_updateCoverage curEx).rule ?_
  rintro ⟨found, newBranches⟩
  refine Rule.bind
    (quiet_checkPrediction prevEx curEx b_idx).rule fun predicted => ?_
  split
  · exact succeeded
  · split
    · exact Rule.pure fun _ holds => holds
    · refine Rule.bind (quiet_distanceOf bid).rule fun dist => ?_
      refine Rule.bind
        (rule_both found (quiet_foundAlongCfg curEx newBranches b_idx dist).rule)
        fun along => ?_
      split
      · exact succeeded
      · refine Rule.bind
          (rule_both _ (rule_solveAlongCfg reports fuel b_idx _ curRecorded))
          fun further => ?_
        split
        · exact Rule.pure fun _ holds => holds
        · split
          · exact succeeded
          · exact Rule.pure fun _ holds => holds

theorem rule_heuristicSolve
    (reports : env.Reports lists)
    (fuel : Nat)
    (maxDist : Int)
    {prevEx : SymbolicExecution}
    (prevRecorded : Recorded lists prevEx)
    (scored : List (Nat × Int))
    (iters : Nat)
    {curEx : SymbolicExecution}
    (curRecorded : Recorded lists curEx) :
    Rule (Stopped keeps) (Invariant lists keeps)
      (heuristicSolve env fuel maxDist prevEx scored iters curEx)
      fun _ => Invariant lists keeps := by
  induction scored generalizing iters curEx with
  | nil =>
      exact Rule.pure fun _ holds => holds
  | cons item rest inductionHypothesis =>
      unfold heuristicSolve
      split
      · exact Rule.pure fun _ holds => holds
      · refine rule_solveThenRun reports prevRecorded curRecorded item.1
          (fun _ => rfl) (inductionHypothesis iters curRecorded) ?_
        intro input newEx newRecorded
        refine Rule.bind
          (rule_afterFlip reports fuel prevEx newRecorded item.1 item.2)
          fun succeeded => ?_
        split
        · exact Rule.pure fun _ holds => holds
        · exact inductionHypothesis (iters - 1) newRecorded

theorem rule_cfgHeuristic
    (reports : env.Reports lists)
    (fuel : Nat) :
    Rule (Stopped false) (Invariant lists false) (cfgHeuristic env fuel)
      fun _ => Invariant lists false := by
  refine rule_forever stops_of_invariant (Recorded lists) ?_ fuel
    (recorded_empty reports.untagged)
  intro ex recorded
  refine Rule.bind rule_clearIndices fun _ => ?_
  refine Rule.bind
    (Keeps.rule
      (fun core => Coherent lists false core ∧ core.lists = ([], []))
      (fun core => Explained false core.calls)
      (Keeps.modify fun _ => rfl) fun _ holds => holds.1.explained)
    fun _ => ?_
  refine Rule.bind (rule_clearedRestart reports recorded) fun ex => ?_
  apply Rule.fact
  intro recorded
  have searched :
      Rule (Stopped false) (Invariant lists false)
        (searchOn (heuristicDoSearch env fuel) (updateDistances env) fuel ex)
        (fun ex world =>
          Invariant lists false world ∧ Recorded lists ex) := by
    refine rule_searchOn ?_ quiet_updateDistances fuel recorded
    intro ex recorded
    unfold heuristicDoSearch
    split
    · exact Rule.pure fun _ holds => holds
    · refine Rule.bind (quiet_scoredBranches quiet_heuristicScore ex 0).rule
        fun scored => ?_
      exact rule_heuristicSolve reports fuel _ recorded scored 30
        (recorded_empty reports.untagged)
  refine Rule.bind (quiet_updateCoverage ex).rule ?_
  rintro ⟨found, newBranches⟩
  dsimp only
  split
  · exact Rule.bind quiet_updateDistances.rule fun _ => searched
  · exact searched

end Cfg

end LaunchIndices

namespace SearchStrategies

open LaunchIndices SearchRun StoppableRun

/-- The strategies that restart without clearing the index lists. -/
def Strategy.keepsIndices : Strategy → Bool
  | random => true
  | hybrid _ => true
  | _ => false

/-- All calls of a run from a new search, latest first. -/
def Strategy.calls
    (strategy : Strategy)
    (env : Environment)
    (fuel : Nat)
    (start : World) : List Call :=
  ((strategy.run env fuel).run.run start).2.calls

theorem explained_calls
    {env : Environment}
    {lists : Nat → List Id × List Id}
    (strategy : Strategy)
    (untagged : lists 0 = ([], []))
    (reports : strategy ≠ .randomInput → env.Reports lists)
    (fuel : Nat)
    {start : World}
    (coherent : Coherent lists strategy.keepsIndices (core start))
    (unsolved : Call.lastSolved start.calls = none) :
    Explained strategy.keepsIndices (strategy.calls env fuel start) := by
  have rule :
      Rule (Stopped strategy.keepsIndices)
        (fun world =>
          Invariant lists strategy.keepsIndices world ∧
            Call.lastSolved (core world).calls = none)
        (strategy.run env fuel)
        (fun _ => Stopped strategy.keepsIndices) := by
    cases strategy with
    | boundedDepthFirst maxDepth =>
        exact (rule_boundedDepthFirst (reports nofun) maxDepth fuel).weaken
          (fun _ => id) fun _ => stops_of_invariant
    | random =>
        exact (rule_randomSearch (reports nofun) fuel).weaken
          (fun _ holds => holds.1) fun _ => stops_of_invariant
    | randomInput =>
        exact (rule_randomInputSearch untagged fuel).weaken
          (fun _ => id) fun _ world holds => stops_of_invariant world holds.1
    | uniformRandom maxDepth =>
        exact (rule_uniformRandom (reports nofun) maxDepth fuel).weaken
          (fun _ => id) fun _ => stops_of_invariant
    | hybrid stepSize =>
        exact (rule_hybrid (reports nofun) stepSize fuel).weaken
          (fun _ holds => holds.1) fun _ => stops_of_invariant
    | cfgBaseline =>
        exact (rule_cfgBaseline (reports nofun) fuel).weaken
          (fun _ holds => holds.1) fun _ => stops_of_invariant
    | cfgHeuristic =>
        exact (rule_cfgHeuristic (reports nofun) fuel).weaken
          (fun _ holds => holds.1) fun _ => stops_of_invariant
  have reached := rule start ⟨coherent, unsolved⟩
  unfold Strategy.calls
  revert reached
  rcases (strategy.run env fuel).run.run start with ⟨stop | value, final⟩
  · intro reached
    exact reached
  · intro reached
    exact reached

/--
Of every run of every strategy, all launches read within their inputs exactly
if the strategy clears the index lists before it restarts, or restarts only
while the execution taken over last marks neither a rank nor a world size.  The
search on random inputs never reads the lists that an execution reports.
-/
theorem launches_inBounds_iff
    (env : Environment)
    (lists : Nat → List Id × List Id)
    (strategy : Strategy)
    (reports : strategy ≠ .randomInput → env.Reports lists)
    (fuel : Nat)
    (program : String)
    (commWorldSize targetRank : Int)
    (coverage : Coverage)
    (dist : List Nat) :
    (∀ call ∈
        strategy.calls env fuel
          (World.start program commWorldSize targetRank coverage dist),
        call.InBounds) ↔
      (strategy.keepsIndices = true →
        Call.RestartsUnmarked
          (strategy.calls env fuel
            (World.start program commWorldSize targetRank coverage dist))) := by
  have explained :
      Explained strategy.keepsIndices
        (strategy.calls env fuel
          (World.start program commWorldSize targetRank coverage dist)) := by
    by_cases isRandom : strategy = .randomInput
    · have coherent :
          Coherent (fun _ => ([], [])) strategy.keepsIndices
            (core
              (World.start program commWorldSize targetRank coverage dist)) :=
        coherent_start rfl program commWorldSize targetRank coverage dist
      exact explained_calls strategy rfl (absurd isRandom) fuel coherent rfl
    · have untagged := (reports isRandom).untagged
      exact
        explained_calls strategy untagged reports fuel
          (coherent_start untagged program commWorldSize targetRank coverage
            dist) rfl
  exact explained.inBounds_iff

section Restart

/-- A program that marks its rank and the size, and branches on rank < size. -/
def rankBelowSize (run : Nat) : SymbolicExecution :=
  { SymbolicExecution.empty with
    rankIndices := [0]
    worldSizeIndices := [1]
    executionTag := max run 1
    vars := ((∅ : OrderedMap Var CType).insert 0 .int).insert 1 .int
    inputs := [0, 4]
    path :=
      { SymbolicPath.empty with
        branches := [1]
        constraintsIdx := [0]
        constraints :=
          [{ op := .lt
             expr := (SymbolicExpr.ofTerm 1 0).subAssign
               (SymbolicExpr.ofTerm 1 1) }] } }

/-- The negated branch contradicts the MPI constraints. -/
def unsatisfiable : Environment where
  maxIters := 10
  tables :=
    { branches := [1, 2]
      pairedBranch := [0, 2, 1]
      branchFunction := [0, 1, 1]
      branchCount := [0, 2] }
  cfgRev := [[], [], []]
  rand := fun _ => 0
  solve := fun _ _ _ => none
  execution := fun run _ => rankBelowSize run
  branchesOfRank := fun _ _ => some [1]

/-- A new search of four processes with two branches. -/
def newWorld : World :=
  World.start "a.out" 4 0
    { covered := [false, false, false]
      totalCovered := [false, false, false]
      numCovered := 0
      totalNumCovered := 0
      reached := [false, false]
      reachableFunctions := 0
      reachableBranches := 0 }
    [0, 0, 0]

theorem launches_inBounds_cfgBaseline :
    (Strategy.cfgBaseline.calls unsatisfiable 5 newWorld).all
      (fun call => decide call.InBounds) = true := by
  have reports :
      unsatisfiable.Reports
        fun tag => if tag = 0 then ([], []) else ([0], [1]) :=
    { untagged := rfl
      recorded := by
        intro run ex _
        refine ⟨?_, ?_, ?_⟩
        · have tagged : max run 1 ≠ 0 := by
            omega
          exact (if_neg tagged).symm
        · intro index isHead
          simp only [unsatisfiable, rankBelowSize, List.head?_cons,
            Option.mem_some_iff] at isHead
          subst index
          exact (by decide : Search.position 0 < 2)
        · intro index isHead
          simp only [unsatisfiable, rankBelowSize, List.head?_cons,
            Option.mem_some_iff] at isHead
          subst index
          exact (by decide : Search.position 1 < 2) }
  have inBounds :=
    (launches_inBounds_iff unsatisfiable _ .cfgBaseline (fun _ => reports) 5
      "a.out" 4 0 newWorld.coverage newWorld.dist).mpr
      (fun restarts => absurd restarts (by decide))
  apply List.all_eq_true.mpr
  intro call member
  exact decide_eq_true (inBounds call member)

/-- The hybrid search restarts on an empty input, and reads its first entry. -/
theorem not_launches_inBounds_hybrid :
    ¬∀ call ∈ (Strategy.hybrid 100).calls unsatisfiable 5 newWorld,
      call.InBounds := by
  decide +kernel

end Restart

end SearchStrategies

end Compi
