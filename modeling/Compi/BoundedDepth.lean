import Compi.ObservedSearch
import Compi.SettlingRun

/-!
# The depth of the bounded search

`DFS` with the loop of the source: the depth is a local variable that each
success decreases, for the recursive call and for what is left of the loop.
The new execution may have any number of constraints, so that nothing but fuel
ends it a priori.
-/

namespace Compi

namespace BoundedDepth

open ObservedSearch SearchRun StoppableRun

/--
What happens in a search: a call of `DFS`, nested in others, or a prediction
that is found right.
-/
inductive Observation where
  | call (level : Nat)
  | confirmed
  deriving DecidableEq

/-- The loop of a call of `DFS` from a constraint on. -/
def dfsLoop
    (env : Environment) :
    Nat → Nat → Nat → Int → SymbolicExecution → SymbolicExecution →
      Observed Observation Unit
  | 0, _, _, _, _, _ => throw .outOfFuel
  | fuel + 1, level, i, depth, prevEx, curEx => do
      if i < prevEx.path.constraints.length ∧ 0 < depth then
        match ← lift (solveAtBranch env prevEx i) with
        | none => dfsLoop env fuel level (i + 1) depth prevEx curEx
        | some input =>
            let curEx ← lift (runProgram env input curEx)
            let _ ← lift (updateCoverage env curEx)
            let branchIdx ← lift (require prevEx.path.constraintsIdx[i]?)
            if ← lift (checkPrediction env prevEx curEx branchIdx) then
              note fun _ => .confirmed
              let depth := depth - 1
              note fun _ => .call (level + 1)
              dfsLoop env fuel (level + 1) (i + 1) depth curEx
                SymbolicExecution.empty
              dfsLoop env fuel level (i + 1) depth prevEx curEx
            else
              dfsLoop env fuel level (i + 1) depth prevEx curEx
      else
        return ()

section Rounds

variable
  {env : Environment}
  {level i : Nat}
  {depth : Int}
  {prevEx : SymbolicExecution}

theorem dfsLoop_ends
    (ends : ¬(i < prevEx.path.constraints.length ∧ 0 < depth))
    (fuel : Nat)
    (curEx : SymbolicExecution) :
    dfsLoop env (fuel + 1) level i depth prevEx curEx = pure () :=
  if_neg ends

theorem dfsLoop_goesOn
    (goesOn : i < prevEx.path.constraints.length ∧ 0 < depth)
    (fuel : Nat)
    (curEx : SymbolicExecution) :
    dfsLoop env (fuel + 1) level i depth prevEx curEx = (do
      match ← lift (solveAtBranch env prevEx i) with
      | none => dfsLoop env fuel level (i + 1) depth prevEx curEx
      | some input =>
          let curEx ← lift (runProgram env input curEx)
          let _ ← lift (updateCoverage env curEx)
          let branchIdx ← lift (require prevEx.path.constraintsIdx[i]?)
          if ← lift (checkPrediction env prevEx curEx branchIdx) then
            note fun _ => .confirmed
            note fun _ => .call (level + 1)
            dfsLoop env fuel (level + 1) (i + 1) (depth - 1) curEx
              SymbolicExecution.empty
            dfsLoop env fuel level (i + 1) (depth - 1) prevEx curEx
          else
            dfsLoop env fuel level (i + 1) depth prevEx curEx) :=
  if_pos goesOn

end Rounds

/-- `DFS`, called from outside. -/
def dfs
    (env : Environment)
    (fuel pos : Nat)
    (depth : Int)
    (prevEx : SymbolicExecution) : Observed Observation Unit :=
  dfsLoop env fuel 0 pos depth prevEx SymbolicExecution.empty

/-- The number of predictions that were found right. -/
def confirmations (log : List Observation) : Nat :=
  log.count .confirmed

section Steps

variable (env : Environment)

/-- The environment with another bound on the iterations. -/
def capAt (cap : Int) : Environment :=
  { env with maxIters := cap }

theorem avoids_require
    {Result : Type}
    (result : Option Result) :
    Avoids .outOfFuel (require result) := by
  cases result with
  | none => exact Avoids.throw (by decide)
  | some value => exact Avoids.pure

theorem avoids_solveAtBranch (ex : SymbolicExecution) (branchIdx : Nat) :
    Avoids .outOfFuel (SearchRun.solveAtBranch env ex branchIdx) := by
  unfold SearchRun.solveAtBranch
  refine Avoids.bind Avoids.get fun world => ?_
  refine Avoids.bind Avoids.modify fun _ => ?_
  split
  · exact Avoids.throw (by decide)
  · exact Avoids.bind Avoids.modify fun _ => Avoids.pure

theorem avoids_launchProgram (inputs : List Value) :
    Avoids .outOfFuel (launchProgram inputs) := by
  unfold launchProgram
  refine Avoids.bind Avoids.get fun world => ?_
  refine Avoids.bind Avoids.modify fun _ => ?_
  split
  · exact Avoids.throw (by decide)
  · exact Avoids.modify

theorem avoids_updateCoverage (ex : SymbolicExecution) :
    Avoids .outOfFuel (updateCoverage env ex) := by
  unfold updateCoverage
  refine Avoids.bind Avoids.get fun world => ?_
  refine Avoids.bind (avoids_require _) fun _ => ?_
  exact Avoids.bind Avoids.modify fun _ => Avoids.pure

/-- A run of the program settles: the cap stops it, or has no effect. -/
theorem settles_runProgram
    (inputs : List Value)
    (ex : SymbolicExecution)
    (world : World) :
    Settles Stop.exit Stop.outOfFuel
      (fun cap _ => runProgram (capAt env cap) inputs ex) world := by
  let counted : World :=
    { world with
      search :=
        { world.search with numIters := world.search.numIters + 1 } }
  let launched : Run SymbolicExecution := do
    launchProgram inputs
    return env.execution counted.search.numIters ex
  have avoids : Avoids .outOfFuel launched :=
    Avoids.bind (avoids_launchProgram inputs) fun _ => Avoids.pure
  refine ⟨launched.run.run counted, avoids counted, 0, ?_⟩
  intro cap _ _
  have unfolded :
      (runProgram (capAt env cap) inputs ex).run.run world =
        (if (counted.search.numIters : Int) > cap then
            (throw .exit : Run SymbolicExecution)
          else
            launched).run.run counted := by
    rfl
  rw [unfolded]
  by_cases exceeded : (counted.search.numIters : Int) > cap
  · refine .inr ?_
    rw [if_pos exceeded]
    rfl
  · refine .inl ?_
    rw [if_neg exceeded]

end Steps

section Termination

variable (env : Environment)

/-- A step of the search that takes neither cap nor fuel. -/
theorem settles_lift
    {Result : Type}
    {program : Run Result}
    (avoids : Avoids .outOfFuel program)
    (observed : World × List Observation) :
    Settles Stop.exit Stop.outOfFuel
      (fun (_ : Int) _ =>
        (lift program : Observed Observation Result))
      observed :=
  Settles.lift (Settles.constant avoids)

/-- A note takes neither cap nor fuel. -/
theorem settles_note
    (observation : Observation)
    (observed : World × List Observation) :
    Settles Stop.exit Stop.outOfFuel
      (fun (_ : Int) _ =>
        (note fun _ => observation : Observed Observation Unit))
      observed :=
  Settles.constant Avoids.modify

theorem settles_ends
    {level i : Nat}
    {depth : Int}
    {prevEx : SymbolicExecution}
    (ends : ¬(i < prevEx.path.constraints.length ∧ 0 < depth))
    (curEx : SymbolicExecution)
    (observed : World × List Observation) :
    Settles Stop.exit Stop.outOfFuel
      (fun cap fuel => dfsLoop (capAt env cap) fuel level i depth prevEx curEx)
      observed :=
  Settles.step (fun _ fuel => dfsLoop_ends ends fuel curEx)
    (Settles.constant Avoids.pure)

/-- The loop settles if it settles after its next round. -/
theorem settles_round
    {level i : Nat}
    {depth : Int}
    {prevEx curEx : SymbolicExecution}
    (later :
      ∀ curEx observed,
        Settles Stop.exit Stop.outOfFuel
          (fun cap fuel =>
            dfsLoop (capAt env cap) fuel level (i + 1) depth prevEx curEx)
          observed)
    (shallower :
      ∀ level prevEx curEx observed,
        Settles Stop.exit Stop.outOfFuel
          (fun cap fuel =>
            dfsLoop (capAt env cap) fuel level (i + 1) (depth - 1) prevEx
              curEx)
          observed)
    (observed : World × List Observation) :
    Settles Stop.exit Stop.outOfFuel
      (fun cap fuel => dfsLoop (capAt env cap) fuel level i depth prevEx curEx)
      observed := by
  by_cases goesOn : i < prevEx.path.constraints.length ∧ 0 < depth
  · refine Settles.step
      (fun cap fuel => dfsLoop_goesOn goesOn fuel curEx) ?_
    refine Settles.bind
      (settles_lift (avoids_solveAtBranch env prevEx i) observed)
      fun solution solved => ?_
    cases solution with
    | none =>
        exact later curEx solved
    | some input =>
        refine Settles.bind
          (Settles.lift (settles_runProgram env input curEx solved.1))
          fun curEx launched => ?_
        refine Settles.bind
          (settles_lift (avoids_updateCoverage env curEx) launched)
          fun _ covered => ?_
        refine Settles.bind (settles_lift (avoids_require _) covered)
          fun branchIdx required => ?_
        refine Settles.bind
          (settles_lift
            (avoids_require (env.tables.checkPrediction prevEx curEx branchIdx))
            required)
          fun predicted checked => ?_
        cases predicted with
        | false =>
            exact later curEx checked
        | true =>
            refine Settles.bind (settles_note .confirmed checked)
              fun _ confirmed => ?_
            refine Settles.bind (settles_note (.call (level + 1)) confirmed)
              fun _ called => ?_
            refine Settles.bind
              (shallower (level + 1) curEx SymbolicExecution.empty called)
              fun _ returned => ?_
            exact shallower level prevEx curEx returned
  · exact settles_ends env goesOn curEx observed

/-- With enough fuel the loop of `DFS` ends, or it stops at the cap. -/
theorem settles_dfsLoop
    (d remaining : Nat)
    (level i : Nat)
    {depth : Int}
    (isDepth : depth.toNat = d)
    {prevEx : SymbolicExecution}
    (isRemaining : prevEx.path.constraints.length - i = remaining)
    (curEx : SymbolicExecution)
    (observed : World × List Observation) :
    Settles Stop.exit Stop.outOfFuel
      (fun cap fuel => dfsLoop (capAt env cap) fuel level i depth prevEx curEx)
      observed := by
  -- A success makes the depth smaller, whatever execution comes next, and
  -- everything else leaves fewer constraints of the same execution.
  induction d generalizing remaining level i depth prevEx curEx observed with
  | zero =>
      exact settles_ends env (by omega) curEx observed
  | succ d shallower =>
      induction remaining generalizing level i curEx observed with
      | zero =>
          exact settles_ends env (by omega) curEx observed
      | succ remaining later =>
          refine settles_round env ?_ ?_ observed
          · intro curEx observed
            exact later level (i + 1) (by omega) curEx observed
          · intro level prevEx curEx observed
            exact shallower _ level (i + 1) (by omega) rfl curEx observed

end Termination

section Counting

/-- So many predictions are found right, and calls are nested so deep. -/
structure Within (confirmed nested : Nat) (log : List Observation) : Prop where
  confirmations_le : confirmations log ≤ confirmed
  level_le : ∀ level, .call level ∈ log → level ≤ nested

namespace Within

variable {confirmed nested : Nat} {log : List Observation}

theorem weaken
    {more : Nat}
    (within : Within confirmed nested log)
    (le : confirmed ≤ more) : Within more nested log :=
  ⟨within.confirmations_le.trans le, within.level_le⟩

theorem noteConfirmed (within : Within confirmed nested log) :
    Within (confirmed + 1) nested (.confirmed :: log) := by
  constructor
  · simp only [confirmations, List.count_cons_self]
    exact Nat.succ_le_succ within.confirmations_le
  · intro level isCalled
    cases isCalled with
    | tail _ isCalled => exact within.level_le level isCalled

theorem noteCall
    {level : Nat}
    (within : Within confirmed nested log)
    (le : level ≤ nested) : Within confirmed nested (.call level :: log) := by
  constructor
  · have notConfirmed : Observation.call level ≠ .confirmed := by
      intro same
      cases same
    simp only [confirmations, List.count_cons_of_ne notConfirmed]
    exact within.confirmations_le
  · intro other isCalled
    cases isCalled with
    | head => exact le
    | tail _ isCalled => exact within.level_le other isCalled

end Within

/-- A step of the search that is not noted. -/
theorem rule_lift
    {Result : Type}
    {total nested confirmed : Nat}
    (le : confirmed ≤ total)
    (program : Run Result) :
    Rule (fun observed => Within total nested observed.2)
      (fun observed => Within confirmed nested observed.2)
      (lift program)
      fun _ observed => Within confirmed nested observed.2 :=
  (Rule.keepLog (Within confirmed nested) program).relax
    fun _ within => within.weaken le

theorem two_pow_depth
    {depth : Int}
    (positive : 0 < depth) :
    2 ^ depth.toNat = 2 * 2 ^ (depth - 1).toNat := by
  have isNext : depth.toNat = (depth - 1).toNat + 1 := by omega
  rw [isNext, Nat.pow_succ, Nat.mul_comm]

variable (env : Environment)

/-- The loop of `DFS` stays within the bounds of its depth. -/
theorem rule_dfsLoop
    (total nested : Nat)
    (fuel : Nat)
    (level i : Nat)
    (depth : Int)
    (prevEx curEx : SymbolicExecution)
    (confirmed : Nat)
    (enough : confirmed + (2 ^ depth.toNat - 1) ≤ total)
    (notDeep : level + depth.toNat ≤ nested) :
    Rule (fun observed => Within total nested observed.2)
      (fun observed => Within confirmed nested observed.2)
      (dfsLoop env fuel level i depth prevEx curEx)
      fun _ observed =>
        Within (confirmed + (2 ^ depth.toNat - 1)) nested observed.2 := by
  induction fuel generalizing level i depth prevEx curEx confirmed with
  | zero =>
      exact Rule.throw fun _ within => within.weaken (by omega)
  | succ fuel inductionHypothesis =>
      by_cases goesOn : i < prevEx.path.constraints.length ∧ 0 < depth
      · rw [dfsLoop_goesOn goesOn]
        have later :=
          inductionHypothesis level (i + 1) depth prevEx
        refine Rule.bind (rule_lift (by omega) _) fun solution => ?_
        cases solution with
        | none =>
            exact later curEx confirmed enough notDeep
        | some input =>
            refine Rule.bind (rule_lift (by omega) _) fun curEx => ?_
            refine Rule.bind (rule_lift (by omega) _) fun _ => ?_
            refine Rule.bind (rule_lift (by omega) _) fun branchIdx => ?_
            refine Rule.bind (rule_lift (by omega) _) fun predicted => ?_
            cases predicted with
            | false =>
                exact later curEx confirmed enough notDeep
            | true =>
                have doubled := two_pow_depth goesOn.2
                have positive := Nat.two_pow_pos (depth - 1).toNat
                refine Rule.noteThen
                  (fun observed =>
                    Within (confirmed + 1) nested observed.2)
                  (fun _ _ within => within.noteConfirmed) ?_
                refine Rule.noteThen
                  (fun observed =>
                    Within (confirmed + 1) nested observed.2)
                  (fun _ _ within => within.noteCall (by omega)) ?_
                have called :=
                  inductionHypothesis (level + 1) (i + 1) (depth - 1) curEx
                    SymbolicExecution.empty (confirmed + 1)
                    (by omega) (by omega)
                refine Rule.bind called fun _ => ?_
                have goneOn :=
                  inductionHypothesis level (i + 1) (depth - 1) prevEx curEx
                    (confirmed + 1 + (2 ^ (depth - 1).toNat - 1))
                    (by omega) (by omega)
                refine Rule.weaken goneOn (fun _ within => within) ?_
                exact fun _ _ within => within.weaken (by omega)
      · rw [dfsLoop_ends goesOn]
        exact Rule.pure fun _ within => within.weaken (by omega)

end Counting

section Erasure

variable
  {env : Environment}
  {i : Nat}
  {depth : Int}
  {prevEx : SymbolicExecution}

theorem source_ends
    (ends : ¬(i < prevEx.path.constraints.length ∧ 0 < depth))
    (curEx : SymbolicExecution) :
    SearchStrategies.dfs env depth.toNat i prevEx curEx = pure () := by
  cases isDepth : depth.toNat with
  | zero => rfl
  | succ d =>
      have noneLeft : prevEx.path.constraints.length - i = 0 := by omega
      simp only [SearchStrategies.dfs, noneLeft]
      rfl

theorem source_goesOn
    (goesOn : i < prevEx.path.constraints.length ∧ 0 < depth)
    (curEx : SymbolicExecution) :
    SearchStrategies.dfs env depth.toNat i prevEx curEx = (do
      match ← solveAtBranch env prevEx i with
      | none => SearchStrategies.dfs env depth.toNat (i + 1) prevEx curEx
      | some input =>
          let curEx ← runProgram env input curEx
          let _ ← updateCoverage env curEx
          let branchIdx ← require prevEx.path.constraintsIdx[i]?
          if ← checkPrediction env prevEx curEx branchIdx then
            SearchStrategies.dfs env (depth - 1).toNat (i + 1) curEx
              SymbolicExecution.empty
            SearchStrategies.dfs env (depth - 1).toNat (i + 1) prevEx curEx
          else
            SearchStrategies.dfs env depth.toNat (i + 1) prevEx curEx) := by
  have isNext : depth.toNat = (depth - 1).toNat + 1 := by omega
  have leftOver :
      prevEx.path.constraints.length - i =
        prevEx.path.constraints.length - (i + 1) + 1 := by
    omega
  rw [isNext]
  simp only [SearchStrategies.dfs, leftOver]
  rfl

/-- Where the fuel lasts, the loop is the search without its log. -/
theorem erasesUnless_dfsLoop
    (fuel : Nat)
    (level i : Nat)
    (depth : Int)
    (prevEx curEx : SymbolicExecution) :
    ErasesUnless .outOfFuel (dfsLoop env fuel level i depth prevEx curEx)
      (SearchStrategies.dfs env depth.toNat i prevEx curEx) := by
  induction fuel generalizing level i depth prevEx curEx with
  | zero =>
      intro state log hasFuel
      exact absurd rfl hasFuel
  | succ fuel inductionHypothesis =>
      by_cases goesOn : i < prevEx.path.constraints.length ∧ 0 < depth
      · rw [dfsLoop_goesOn goesOn, source_goesOn goesOn]
        refine ErasesUnless.bind (.ofErases (Erases.lift _)) fun solution => ?_
        cases solution with
        | none =>
            exact inductionHypothesis level (i + 1) depth prevEx curEx
        | some input =>
            refine ErasesUnless.bind (.ofErases (Erases.lift _))
              fun curEx => ?_
            refine ErasesUnless.bind (.ofErases (Erases.lift _)) fun _ => ?_
            refine ErasesUnless.bind (.ofErases (Erases.lift _))
              fun branchIdx => ?_
            refine ErasesUnless.bind (.ofErases (Erases.lift _))
              fun predicted => ?_
            cases predicted with
            | false =>
                exact inductionHypothesis level (i + 1) depth prevEx curEx
            | true =>
                refine ErasesUnless.noteThen (ErasesUnless.noteThen ?_)
                refine ErasesUnless.bind
                  (inductionHypothesis (level + 1) (i + 1) (depth - 1) curEx
                    SymbolicExecution.empty) fun _ => ?_
                exact inductionHypothesis level (i + 1) (depth - 1) prevEx
                  curEx
      · rw [dfsLoop_ends goesOn, source_ends goesOn]
        exact .ofErases Erases.pure

end Erasure

section Bounds

variable (env : Environment)

/--
From a depth on, `DFS` ends whatever the bound on the iterations is, its calls
are nested at most so deep, and it finds less than `2 ^ d` predictions right.
-/
theorem dfs_isBounded
    (pos d : Nat)
    (ex : SymbolicExecution)
    (world : World) :
    ∃ bound, ∀ (maxIters : Int) (fuel : Nat),
      bound ≤ fuel →
      let (result, _, log) :=
        (dfs (capAt env maxIters) fuel pos d ex).run.run (world, [])
      result ≠ .error .outOfFuel ∧
        confirmations log ≤ 2 ^ d - 1 ∧
        ∀ level, .call level ∈ log → level ≤ d := by
  obtain ⟨bound, hasFuel⟩ :=
    Settles.exists_bound (by decide)
      (settles_dfsLoop env d _ 0 pos (Int.toNat_natCast d) rfl
        SymbolicExecution.empty (world, []))
  refine ⟨bound, fun maxIters fuel enough => ?_⟩
  have within :
      Within (2 ^ d - 1) d
        ((dfs (capAt env maxIters) fuel pos d ex).run.run (world, [])).2.2 := by
    have rule :=
      rule_dfsLoop (capAt env maxIters) (2 ^ d - 1) d fuel 0 pos d ex
        SymbolicExecution.empty 0
        (by rw [Int.toNat_natCast]; omega) (by rw [Int.toNat_natCast]; omega)
    refine Rule.afterRun (rule.weaken (fun _ => id) ?_) ?_
    · intro _ observed reached
      rw [Int.toNat_natCast] at reached
      exact reached.weaken (by omega)
    · exact ⟨Nat.zero_le _, fun _ isCalled => nomatch isCalled⟩
  exact
    ⟨hasFuel maxIters fuel enough, within.confirmations_le, within.level_le⟩

/-- Where its fuel lasts, `DFS` is the one of the strategy. -/
theorem run_dfs_eq
    {fuel pos : Nat}
    {depth : Int}
    {ex : SymbolicExecution}
    {world : World}
    (hasFuel :
      ((dfs env fuel pos depth ex).run.run (world, [])).1 ≠
        .error .outOfFuel) :
    let (result, after, _) := (dfs env fuel pos depth ex).run.run (world, [])
    (SearchStrategies.dfs env depth.toNat pos ex
      SymbolicExecution.empty).run.run world = (result, after) :=
  (erasesUnless_dfsLoop fuel 0 pos depth ex SymbolicExecution.empty world []
    hasFuel).symm

end Bounds

end BoundedDepth

end Compi
