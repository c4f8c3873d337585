import Compi.SearchStrategies

/-!
# Index lists and inputs in step

`SolveAtBranch` takes over the MPI index lists of an execution, and a later
`LaunchProgram` reads the inputs at their first entries.  A launch on an empty
input is safe only if the lists are empty again.
-/

namespace Compi

namespace Call

/-- A launch reads only within its inputs. -/
def InBounds : Call → Prop
  | solveAtBranch _ _ => True
  | launchProgram search inputs =>
      Search.HeadInBounds search.rankIndices inputs ∧
        Search.HeadInBounds search.worldSizeIndices inputs

instance : DecidablePred InBounds
  | solveAtBranch _ _ => isTrue trivial
  | launchProgram _ _ => inferInstanceAs (Decidable (_ ∧ _))

/-- The execution whose MPI variables were taken over last. -/
def lastSolved : List Call → Option SymbolicExecution
  | [] => none
  | solveAtBranch ex branchIdx :: earlier =>
      if Search.repeats ex branchIdx then lastSolved earlier else some ex
  | launchProgram _ _ :: earlier => lastSolved earlier

/-- An execution marks neither a rank nor a world size, if there is one. -/
def Unmarked (last : Option SymbolicExecution) : Prop :=
  ∀ ex ∈ last, ex.rankIndices = [] ∧ ex.worldSizeIndices = []

/--
Whenever the program is launched on an empty input, the execution taken over
last marks neither a rank nor a world size.
-/
def RestartsUnmarked : List Call → Prop
  | [] => True
  | solveAtBranch _ _ :: earlier => RestartsUnmarked earlier
  | launchProgram _ inputs :: earlier =>
      (inputs = [] → Unmarked (lastSolved earlier)) ∧
        RestartsUnmarked earlier

end Call

/--
The index lists of an execution lie within its inputs and are determined by
its tag.
-/
structure Recorded
    (lists : Nat → List Id × List Id)
    (ex : SymbolicExecution) : Prop where
  tagged : (ex.rankIndices, ex.worldSizeIndices) = lists ex.executionTag
  rankInBounds : Search.HeadInBounds ex.rankIndices ex.inputs
  worldSizeInBounds : Search.HeadInBounds ex.worldSizeIndices ex.inputs

theorem Recorded.swap
    {lists : Nat → List Id × List Id}
    {ex other : SymbolicExecution}
    (recorded : Recorded lists other) :
    Recorded lists (ex.swap other) where
  tagged := recorded.tagged
  rankInBounds := recorded.rankInBounds
  worldSizeInBounds := recorded.worldSizeInBounds

/--
All executions that the program reports are recorded ones.  A read that fails
may leave the old execution in place.  The tag that a new search has belongs
to no execution with index lists.
-/
structure Environment.Reports
    (env : Environment)
    (lists : Nat → List Id × List Id) : Prop where
  untagged : lists 0 = ([], [])
  recorded :
    ∀ run ex, Recorded lists ex → Recorded lists (env.execution run ex)

/-- A new search. -/
def World.start
    (program : String)
    (commWorldSize targetRank : Int)
    (coverage : Coverage)
    (dist : List Nat) : World where
  search := Search.start program commWorldSize targetRank
  coverage := coverage
  dist := dist
  successEx := SymbolicExecution.empty
  draws := 0
  solves := 0
  calls := []

namespace LaunchIndices

open SearchRun SearchStrategies StoppableRun

/-- The part of the state that decides what is launched. -/
structure Core where
  search : Search
  successEx : SymbolicExecution
  calls : List Call

/-- The part of a state that decides what is launched. -/
def core (world : World) : Core where
  search := world.search
  successEx := world.successEx
  calls := world.calls

/-- The lists that a launch reads. -/
def Core.lists (core : Core) : List Id × List Id :=
  (core.search.rankIndices, core.search.worldSizeIndices)

variable {lists : Nat → List Id × List Id} {keeps : Bool}

/--
A launch is in bounds exactly if it is no restart after an execution that
marks a rank or a world size, where index lists are kept over restarts.
-/
def Launchable (keeps : Bool) (inputs : List Value) (core : Core) : Prop :=
  (Call.launchProgram core.search inputs).InBounds ↔
    (keeps = true → inputs = [] → Call.Unmarked (Call.lastSolved core.calls))

/-- All launches so far were launchable. -/
def Explained (keeps : Bool) : List Call → Prop
  | [] => True
  | .solveAtBranch _ _ :: earlier => Explained keeps earlier
  | .launchProgram search inputs :: earlier =>
      ((Call.launchProgram search inputs).InBounds ↔
        (keeps = true → inputs = [] →
          Call.Unmarked (Call.lastSolved earlier))) ∧
        Explained keeps earlier

/--
The index lists are those of the execution taken over last, unless a strategy
has cleared them.
-/
structure Coherent
    (lists : Nat → List Id × List Id)
    (keeps : Bool)
    (core : Core) : Prop where
  tag :
    core.search.executionTag =
      (Call.lastSolved core.calls).elim 0 SymbolicExecution.executionTag
  solved : ∀ ex ∈ Call.lastSolved core.calls, Recorded lists ex
  indices :
    core.lists = lists core.search.executionTag ∨
      (keeps = false ∧ core.lists = ([], []))
  success : Recorded lists core.successEx
  explained : Explained keeps core.calls

theorem recorded_empty
    (untagged : lists 0 = ([], [])) :
    Recorded lists SymbolicExecution.empty where
  tagged := untagged.symm
  rankInBounds := by
    intro index isHead
    cases isHead
  worldSizeInBounds := by
    intro index isHead
    cases isHead

theorem coherent_start
    (untagged : lists 0 = ([], []))
    (program : String)
    (commWorldSize targetRank : Int)
    (coverage : Coverage)
    (dist : List Nat) :
    Coherent lists keeps
      (core (World.start program commWorldSize targetRank coverage dist)) where
  tag := rfl
  solved := by
    intro ex impossible
    cases impossible
  indices := Or.inl untagged.symm
  success := recorded_empty untagged
  explained := trivial

/-- Explained launches are in bounds exactly if restarts are unmarked. -/
theorem Explained.inBounds_iff
    {calls : List Call}
    (explained : Explained keeps calls) :
    (∀ call ∈ calls, call.InBounds) ↔
      (keeps = true → Call.RestartsUnmarked calls) := by
  induction calls with
  | nil =>
      simp [Call.RestartsUnmarked]
  | cons call earlier inductionHypothesis =>
      rw [List.forall_mem_cons]
      cases call with
      | solveAtBranch ex branchIdx =>
          rw [inductionHypothesis explained]
          simp [Call.InBounds, Call.RestartsUnmarked]
      | launchProgram search inputs =>
          obtain ⟨launched, before⟩ := explained
          rw [launched, inductionHypothesis before]
          simp only [Call.RestartsUnmarked]
          exact forall_and.symm

theorem headInBounds_nil_iff {indices : List Id} :
    Search.HeadInBounds indices [] ↔ indices = [] := by
  cases indices with
  | nil =>
      simp [Search.HeadInBounds]
  | cons index rest =>
      simp [Search.HeadInBounds]

/-- On an empty input a launch is in bounds exactly if nothing is listed. -/
theorem inBounds_nil_iff {search : Search} :
    (Call.launchProgram search []).InBounds ↔
      (search.rankIndices, search.worldSizeIndices) = ([], []) := by
  rw [Call.InBounds, headInBounds_nil_iff, headInBounds_nil_iff,
    Prod.mk.injEq]

/-- Where index lists are kept, every restart is launchable. -/
theorem Coherent.restart
    {core : Core}
    (untagged : lists 0 = ([], []))
    (coherent : Coherent lists true core) :
    Launchable true [] core := by
  have listed : core.lists = lists core.search.executionTag := by
    rcases coherent.indices with listed | ⟨impossible, _⟩
    · exact listed
    · cases impossible
  unfold Launchable
  rw [inBounds_nil_iff]
  change core.lists = ([], []) ↔ _
  rw [listed, coherent.tag]
  have solved := coherent.solved
  cases last : Call.lastSolved core.calls with
  | none =>
      simp [untagged, Call.Unmarked]
  | some ex =>
      have recorded := solved ex last
      simp [← recorded.tagged, Call.Unmarked]

/-- Where nothing is listed, every launch is launchable. -/
theorem launchable_of_cleared
    {core : Core}
    (inputs : List Value)
    (cleared : core.lists = ([], [])) :
    Launchable false inputs core := by
  obtain ⟨noRank, noWorldSize⟩ := Prod.mk.inj cleared
  constructor
  · intro _ impossible
    cases impossible
  · intro _
    rw [Call.InBounds, noRank, noWorldSize]
    exact ⟨fun index isHead => (by cases isHead),
      fun index isHead => (by cases isHead)⟩

/-- As many inputs as the execution taken over last are launchable. -/
theorem Coherent.launchable
    {core : Core}
    {ex : SymbolicExecution}
    {inputs : List Value}
    (coherent : Coherent lists keeps core)
    (last : Call.lastSolved core.calls = some ex)
    (sameLength : inputs.length = ex.inputs.length) :
    Launchable keeps inputs core := by
  have recorded := coherent.solved ex last
  have tag : core.search.executionTag = ex.executionTag := by
    rw [coherent.tag, last]
    rfl
  have sameBounds :
      ∀ indices,
        Search.HeadInBounds indices ex.inputs →
        Search.HeadInBounds indices inputs := by
    intro indices inBounds index isHead
    rw [sameLength]
    exact inBounds index isHead
  have inBounds : (Call.launchProgram core.search inputs).InBounds := by
    rcases coherent.indices with listed | ⟨_, cleared⟩
    · rw [tag, ← recorded.tagged] at listed
      obtain ⟨rank, worldSize⟩ := Prod.mk.inj listed
      rw [Call.InBounds, rank, worldSize]
      exact ⟨sameBounds _ recorded.rankInBounds,
        sameBounds _ recorded.worldSizeInBounds⟩
    · obtain ⟨noRank, noWorldSize⟩ := Prod.mk.inj cleared
      rw [Call.InBounds, noRank, noWorldSize]
      exact ⟨fun index isHead => (by cases isHead),
        fun index isHead => (by cases isHead)⟩
  constructor
  · intro _ _ isEmpty
    have noInputs : ex.inputs = [] := by
      rw [← List.length_eq_zero_iff, ← sameLength, isEmpty]
      rfl
    rw [last]
    intro other isLast
    obtain rfl := Option.some.inj isLast
    constructor
    · exact headInBounds_nil_iff.mp (noInputs ▸ recorded.rankInBounds)
    · exact headInBounds_nil_iff.mp (noInputs ▸ recorded.worldSizeInBounds)
  · intro _
    exact inBounds

/-- The lists after a call of `SolveAtBranch` that is not cut short. -/
theorem refresh_lists
    (search : Search)
    (ex : SymbolicExecution) :
    (search.refresh ex).executionTag = ex.executionTag ∧
      ((search.executionTag = ex.executionTag ∧
          search.refresh ex = search) ∨
        ((search.refresh ex).rankIndices,
            (search.refresh ex).worldSizeIndices) =
          (ex.rankIndices, ex.worldSizeIndices)) := by
  unfold Search.refresh
  split
  · next sameTag =>
      exact ⟨sameTag, Or.inl ⟨sameTag, rfl⟩⟩
  · exact ⟨rfl, Or.inr rfl⟩

/-- A call of `SolveAtBranch` keeps the invariant and is launchable. -/
theorem Coherent.afterSolve
    {core : Core}
    {ex : SymbolicExecution}
    {branchIdx : Nat}
    {solve : YicesSolver.Solve}
    {solved : Search.Solved}
    (coherent : Coherent lists keeps core)
    (recorded : Recorded lists ex)
    (returned :
      core.search.solveAtBranch solve ex branchIdx = some solved) :
    let after : Core :=
      { search := solved.search
        successEx := core.successEx
        calls := .solveAtBranch ex branchIdx :: core.calls }
    Coherent lists keeps after ∧
      ∀ input, solved.input = some input → Launchable keeps input after := by
  intro after
  rcases Search.solveAtBranch_cases returned with
    ⟨repeated, sameSearch, noInput⟩ | ⟨fresh, refreshed, sameLength⟩
  · have sameLast :
        Call.lastSolved after.calls = Call.lastSolved core.calls :=
      if_pos repeated
    have sameSearch : after.search = core.search := sameSearch
    constructor
    · exact {
        tag := by
          rw [sameSearch, sameLast]
          exact coherent.tag
        solved := by
          rw [sameLast]
          exact coherent.solved
        indices := by
          rw [Core.lists, sameSearch]
          exact coherent.indices
        success := coherent.success
        explained := coherent.explained }
    · intro input isInput
      rw [noInput] at isInput
      cases isInput
  · have isLast : Call.lastSolved after.calls = some ex := by
      exact if_neg (by simp [fresh])
    have sameSearch : after.search = core.search.refresh ex := refreshed
    obtain ⟨newTag, kept⟩ :=
      refresh_lists core.search ex
    have indices :
        after.lists = lists after.search.executionTag ∨
          (keeps = false ∧ after.lists = ([], [])) := by
      rw [Core.lists, sameSearch]
      rcases kept with ⟨_, same⟩ | taken
      · rw [same]
        exact coherent.indices
      · rw [taken, newTag]
        exact Or.inl recorded.tagged
    have afterCoherent : Coherent lists keeps after :=
      { tag := by
          rw [isLast, sameSearch]
          exact newTag
        solved := by
          intro other isOther
          obtain rfl := Option.some.inj (isLast.symm.trans isOther)
          exact recorded
        indices := indices
        success := coherent.success
        explained := coherent.explained }
    exact ⟨afterCoherent, fun input isInput =>
      afterCoherent.launchable isLast (sameLength input isInput)⟩

section Steps

variable {env : Environment}

/-- The condition for stops. -/
abbrev Stopped (keeps : Bool) (world : World) : Prop :=
  Explained keeps (core world).calls

/-- What holds between the steps of a strategy. -/
abbrev Invariant
    (lists : Nat → List Id × List Id)
    (keeps : Bool)
    (world : World) : Prop :=
  Coherent lists keeps (core world)

/-- A program keeps the part of the state that decides what is launched. -/
abbrev Quiet {Result : Type} (program : Run Result) : Prop :=
  Keeps core program

/-- Quiet programs keep the invariant. -/
theorem Quiet.rule
    {Result : Type}
    {program : Run Result}
    (quiet : Quiet program) :
    Rule (Stopped keeps) (Invariant lists keeps) program
      fun _ => Invariant lists keeps :=
  Keeps.rule (Coherent lists keeps) (fun core => Explained keeps core.calls)
    quiet fun _ coherent => coherent.explained

/-- A launch leaves the index lists and the tag alone. -/
theorem launchProgram_fields
    {search next : Search}
    {inputs : List Value}
    {launch : Launch}
    (launched : search.launchProgram inputs = some (next, launch)) :
    (next.rankIndices, next.worldSizeIndices) =
        (search.rankIndices, search.worldSizeIndices) ∧
      next.executionTag = search.executionTag := by
  obtain ⟨targetRank, commWorldSize, rfl⟩ := Search.launchProgram_next launched
  exact ⟨rfl, rfl⟩

/-- A launch keeps the invariant and which execution was last. -/
theorem rule_launchProgram
    (lists : Nat → List Id × List Id)
    (inputs : List Value)
    (last : Option SymbolicExecution) :
    Rule (Stopped keeps)
      (fun world =>
        (Invariant lists keeps world ∧ Launchable keeps inputs (core world)) ∧
          Call.lastSolved (core world).calls = last)
      (launchProgram inputs)
      (fun _ world =>
        Invariant lists keeps world ∧
          Call.lastSolved (core world).calls = last) := by
  apply Rule.ofStates
  rintro world ⟨⟨coherent, launchable⟩, isLast⟩
  have explained :
      Explained keeps
        (.launchProgram world.search inputs :: world.calls) :=
    ⟨launchable, coherent.explained⟩
  refine Rule.getFrom (Rule.modifyFrom ?_)
  cases launched : world.search.launchProgram inputs with
  | none =>
      exact Rule.throwFrom explained
  | some result =>
      obtain ⟨sameLists, sameTag⟩ := launchProgram_fields launched
      refine Rule.modifyLast ⟨?_, isLast⟩
      exact {
        tag := sameTag.trans coherent.tag
        solved := coherent.solved
        indices := by
          change (result.1.rankIndices, result.1.worldSizeIndices) =
              lists result.1.executionTag ∨
            (keeps = false ∧
              (result.1.rankIndices, result.1.worldSizeIndices) = ([], []))
          rw [sameLists, sameTag]
          exact coherent.indices
        success := coherent.success
        explained := explained }

/-- A run of the program keeps the invariant and which execution was last. -/
theorem rule_runProgram_last
    (inputs : List Value)
    {ex : SymbolicExecution}
    {known : SymbolicExecution → Prop}
    (reported : ∀ run, known (env.execution run ex))
    (last : Option SymbolicExecution) :
    Rule (Stopped keeps)
      (fun world =>
        (Invariant lists keeps world ∧ Launchable keeps inputs (core world)) ∧
          Call.lastSolved (core world).calls = last)
      (runProgram env inputs ex)
      (fun ex world =>
        (Invariant lists keeps world ∧
          Call.lastSolved (core world).calls = last) ∧
          known ex) := by
  apply Rule.ofStates
  rintro world ⟨⟨coherent, launchable⟩, isLast⟩
  refine Rule.modifyFrom (Rule.getFrom ?_)
  split
  · exact Rule.throwFrom coherent.explained
  · refine Rule.bind
      (Rule.strengthen (rule_launchProgram lists inputs last) ?_) ?_
    · rintro _ rfl
      refine ⟨⟨?_, launchable⟩, isLast⟩
      exact {
        tag := coherent.tag
        solved := coherent.solved
        indices := coherent.indices
        success := coherent.success
        explained := coherent.explained }
    · intro _
      exact Rule.pure fun _ holds => ⟨holds, reported _⟩

/-- A launchable run of the program keeps the invariant. -/
theorem rule_runProgram
    (reports : env.Reports lists)
    {inputs : List Value}
    {ex : SymbolicExecution}
    (recorded : Recorded lists ex) :
    Rule (Stopped keeps)
      (fun world =>
        Invariant lists keeps world ∧ Launchable keeps inputs (core world))
      (runProgram env inputs ex)
      (fun ex world => Invariant lists keeps world ∧ Recorded lists ex) := by
  apply Rule.ofView fun world => Call.lastSolved (core world).calls
  intro last
  refine Rule.weaken
    (rule_runProgram_last inputs
      (fun run => reports.recorded run ex recorded) last)
    (fun _ => id) ?_
  rintro next world ⟨⟨coherent, _⟩, nextRecorded⟩
  exact ⟨coherent, nextRecorded⟩

/-- A successful call of `SolveAtBranch` returns a launchable input. -/
theorem rule_solveAtBranch
    {ex : SymbolicExecution}
    (recorded : Recorded lists ex)
    (branchIdx : Nat) :
    Rule (Stopped keeps)
      (Invariant lists keeps)
      (solveAtBranch env ex branchIdx)
      (fun result world =>
        Invariant lists keeps world ∧
          ∀ input, result = some input →
            Launchable keeps input (core world)) := by
  apply Rule.ofStates
  intro world coherent
  refine Rule.getFrom (Rule.modifyFrom ?_)
  cases returned :
      world.search.solveAtBranch (env.solve world.solves) ex branchIdx with
  | none =>
      exact Rule.throwFrom coherent.explained
  | some solved =>
      refine Rule.modifyFrom (Rule.pureFrom ?_)
      exact coherent.afterSolve recorded returned

/--
A search that solves at a branch runs the program on the input it gets, and
goes on with the execution that the run has recorded.
-/
theorem rule_solveThenRun
    (reports : env.Reports lists)
    {prevEx curEx : SymbolicExecution}
    (prevRecorded : Recorded lists prevEx)
    (curRecorded : Recorded lists curEx)
    (branchIdx : Nat)
    {Result : Type}
    {next : Option (List Value) → Run Result}
    {further : List Value → SymbolicExecution → Run Result}
    {post : Result → World → Prop}
    (runs :
      ∀ input,
        next (some input) = runProgram env input curEx >>= further input)
    (unsolved :
      Rule (Stopped keeps) (Invariant lists keeps) (next none) post)
    (solved :
      ∀ input newEx,
        Recorded lists newEx →
        Rule (Stopped keeps) (Invariant lists keeps) (further input newEx)
          post) :
    Rule (Stopped keeps) (Invariant lists keeps)
      (solveAtBranch env prevEx branchIdx >>= next) post := by
  refine Rule.bind (rule_solveAtBranch prevRecorded branchIdx)
    fun result => ?_
  cases result with
  | none =>
      exact Rule.strengthen unsolved fun _ holds => holds.1
  | some input =>
      rw [runs input]
      refine Rule.bind
        (Rule.strengthen (rule_runProgram reports curRecorded)
          fun _ holds => ⟨holds.1, holds.2 input rfl⟩) fun newEx => ?_
      exact Rule.fact (solved input newEx)

theorem quiet_require
    {Result : Type}
    (result : Option Result) :
    Quiet (require result) := by
  cases result with
  | none =>
      exact Keeps.throw
  | some value =>
      exact Keeps.pure

theorem quiet_assert (holds : Bool) : Quiet (SearchRun.assert holds) := by
  cases holds with
  | false =>
      exact Keeps.throw
  | true =>
      exact Keeps.pure

theorem quiet_rand : Quiet (rand env) :=
  Keeps.bind Keeps.get fun _ =>
    Keeps.bind (Keeps.modify fun _ => rfl) fun _ => Keeps.pure

theorem quiet_updateCoverage (ex : SymbolicExecution) :
    Quiet (updateCoverage env ex) :=
  Keeps.bind Keeps.get fun _ =>
    Keeps.bind (quiet_require _) fun _ =>
      Keeps.bind (Keeps.modify fun _ => rfl) fun _ => Keeps.pure

theorem quiet_checkPrediction
    (oldEx newEx : SymbolicExecution)
    (branchIdx : Nat) :
    Quiet (checkPrediction env oldEx newEx branchIdx) :=
  quiet_require _

theorem quiet_randomShuffle
    {Entry : Type}
    (items : List Entry) :
    Quiet (randomShuffle env items) := by
  refine Keeps.foldlM (fun items i => ?_) _ _
  split
  · exact Keeps.pure
  · exact Keeps.bind quiet_rand fun _ => Keeps.pure

theorem quiet_takeRandom
    {Entry : Type}
    (items : List Entry) :
    Quiet (takeRandom env items) := by
  unfold takeRandom
  split
  · exact Keeps.pure
  · exact Keeps.bind quiet_rand fun _ => Keeps.pure

end Steps

/-- An endless loop keeps what its body keeps. -/
theorem rule_forever
    {Locals : Type}
    {body : Locals → Run Locals}
    {stopped held : World → Prop}
    (stops : ∀ world, held world → stopped world)
    (known : Locals → Prop)
    (step :
      ∀ locals,
        known locals →
        Rule stopped held (body locals)
          fun next world => held world ∧ known next)
    (fuel : Nat)
    {locals : Locals}
    (initially : known locals) :
    Rule stopped held (forever fuel body locals) fun _ => held := by
  refine Rule.bind
    (Rule.loopKnowing known (fun _ : Unit => True) ?_ fuel initially) ?_
  · intro locals knownLocals
    refine Rule.bind (step locals knownLocals) fun next => ?_
    exact Rule.pure fun _ holds => holds
  · intro next
    cases next with
    | again locals =>
        exact Rule.throw fun world holds => stops world holds.1
    | done result =>
        exact Rule.pure fun _ holds => holds.1

theorem stops_of_invariant
    (world : World)
    (coherent : Invariant lists keeps world) :
    Stopped keeps world :=
  coherent.explained

end LaunchIndices

end Compi
