import Compi.SearchStrategies
import Compi.SolvedCaps

/-!
# Input capping over the runs of a search

A search launches the program under test again and again, on the empty input,
on an input that it has solved at an execution read back before, or on one
that `RandomInput` has made up.  Each process reads the same input file.  Which
of these a search does, and in which order, is left open.
-/

namespace Compi

namespace InputCapping

/-- The calls of one process in a launch, with its configuration. -/
structure ProcessRun where
  execTimes : Nat
  rank : Int
  targetRank : Int
  worldSize : Int
  calls : List TargetCall

/-- The process before its first call. -/
def ProcessRun.process
    (run : ProcessRun)
    (file : List Value) : MarkedProcess :=
  MarkedProcess.start file run.execTimes run.rank run.targetRank run.worldSize

/-- Where the input of a launch comes from. -/
inductive Source where
  | empty
  | solved
      (solve : YicesSolver.Solve)
      (ex : SymbolicExecution)
      (branchIdx : Nat)
  | random
      (env : Environment)
      (world : World)
      (worldSizeIndex : Nat)
      (vars : OrderedMap Var CType)
      (input : List Value)

/-- The input, and the search after it has been found. -/
def Source.input
    (search : Search) : Source → Option (Search × List Value)
  | empty => some (search, [])
  | solved solve ex branchIdx => do
      let solved ← search.solveAtBranch solve ex branchIdx
      let input ← solved.input
      return (solved.search, input)
  | random env world worldSizeIndex vars input =>
      let made :=
        SearchStrategies.randomInput env worldSizeIndex vars input
      match (made.run.run world).1 with
      | .ok input => some (search, input)
      | .error _ => none

/--
A search, the input file on disk, and the executions that processes under test
have recorded.
-/
structure Session where
  search : Search
  file : List Value
  recorded : List MarkedProcess

/-- What a search does: a restart, a solve that leads to no launch, a launch. -/
inductive Event where
  | restart
  | solve
      (solve : YicesSolver.Solve)
      (ex : SymbolicExecution)
      (branchIdx : Nat)
  | run
      (source : Source)
      (focus : ProcessRun)
      (others : List ProcessRun)

/-- The search after a launch, and the input file that the processes read. -/
def Session.launch
    (session : Session)
    (source : Source) : Option (Search × List Value) := do
  let (search, input) ← source.input session.search
  let (search, launch) ←
    { search with numIters := search.numIters + 1 }.launchProgram input
  return (search, launch.inputFile.getD session.file)

/-- One event; the focus process records its execution if it gets to its end. -/
def Session.step (session : Session) : Event → Option Session
  | .restart =>
      some
        { session with
          search :=
            { session.search with
              rankIndices := []
              worldSizeIndices := [] } }
  | .solve solve ex branchIdx =>
      (session.search.solveAtBranch solve ex branchIdx).map fun solved =>
        { session with search := solved.search }
  | .run source focus _ =>
      (session.launch source).map fun (search, file) =>
        { search := search
          file := file
          recorded :=
            (PartialRun.run? MarkedProcess.step (focus.process file)
              focus.calls).toList ++ session.recorded }

/-- The processes of a launch hand over capped values only. -/
def Capped (session : Session) : Event → Prop
  | .run source focus others =>
      ∀ search file,
        session.launch source = some (search, file) →
        ∀ run ∈ focus :: others,
          PartialRun.Along MarkedProcess.step MarkedProcess.HandsCapped
            (run.process file) run.calls
  | _ => True

/--
What an input promises for a variable: it was solved at an execution that was
read back whole, with what the search has cached of it in place, and the
process that recorded it has marked the variable with the same type and no
larger limit.
-/
def Promised
    (session : Session)
    (source : Source)
    (index : Nat)
    (type : CType)
    (limit : Value) : Prop :=
  match source with
  | .solved _ ex _ =>
      session.search.isFirstRun = false ∧
        (session.search.refresh ex).TakenOver ex ∧
        index < 2 ^ 32 ∧
        ∃ target ∈ session.recorded,
          SymbolicExecution.Recovers target.crest.si.numInputs
              target.crest.si.ex ex ∧
            ∃ bound,
              1 ≤ bound ∧ bound ≤ limit ∧
                MarkedProcess.CappedBy target.marks index type bound
  | _ => False

/-- The processes of a launch heed what its input promises. -/
def Heeded (session : Session) : Event → Prop
  | .run source focus others =>
      ∀ search file,
        session.launch source = some (search, file) →
        ∀ run ∈ focus :: others,
          PartialRun.Along MarkedProcess.step
            (MarkedProcess.Heeds (Promised session source))
            (run.process file) run.calls
  | _ => True

/-- The decision procedure that finds the input of a launch is sound. -/
def Event.SolvesSoundly : Event → Prop
  | .run (.solved procedure _ _) _ _ => YicesSolver.SoundSolver procedure
  | _ => True

/-- What is recorded is what the processes under test have marked. -/
def Recorded (session : Session) : Prop :=
  ∀ target ∈ session.recorded,
    target.Tracks ∧ target.crest.si.MarkedOnly

section Runs

variable {session next : Session}

/-- Solving at a branch does not launch anything. -/
theorem isFirstRun_solveAtBranch
    {search : Search}
    {solve : YicesSolver.Solve}
    {ex : SymbolicExecution}
    {branchIdx : Nat}
    {solved : Search.Solved}
    (returned : search.solveAtBranch solve ex branchIdx = some solved) :
    solved.search.isFirstRun = search.isFirstRun := by
  rcases Search.solveAtBranch_cases returned with
    ⟨_, same, _⟩ | ⟨_, refreshed, _⟩
  · rw [same]
  · rw [refreshed, Search.refresh]
    split
    · rfl
    · rfl

/-- After the first run the input file is the input. -/
theorem file_of_launch
    {source : Source}
    {search after : Search}
    {input file : List Value}
    (hasInput : source.input session.search = some (search, input))
    (later : search.isFirstRun = false)
    (launched : session.launch source = some (after, file)) :
    file = input := by
  unfold Session.launch at launched
  rw [hasInput, Option.bind_eq_bind, Option.bind_some] at launched
  obtain ⟨⟨configured, launch⟩, isLaunch, isFile⟩ :=
    Option.bind_eq_some_iff.mp launched
  obtain ⟨rank, _, isLaunch⟩ := Option.bind_eq_some_iff.mp isLaunch
  obtain ⟨size, _, isLaunch⟩ := Option.bind_eq_some_iff.mp isLaunch
  obtain ⟨_, rfl⟩ := Prod.mk.inj (Option.some.inj isLaunch)
  obtain ⟨_, rfl⟩ := Prod.mk.inj (Option.some.inj isFile)
  unfold Search.assemble Search.configure
  split
  · simp [later]
  · simp [later]

/-- The input file of a launch keeps its promises. -/
theorem keepsPromises_of_launch
    (recorded : Recorded session)
    {source : Source}
    {focus : ProcessRun}
    {others : List ProcessRun}
    (sound : (Event.run source focus others).SolvesSoundly)
    {after : Search}
    {file : List Value}
    (launched : session.launch source = some (after, file)) :
    MarkedProcess.KeepsPromises (Promised session source) file := by
  intro index type limit promised value found
  cases source with
  | empty => exact promised.elim
  | random => exact promised.elim
  | solved solve ex branchIdx =>
      obtain ⟨later, takenOver, small, target, isRecorded, recovers, bound,
        positive, within, capped⟩ := promised
      obtain ⟨⟨search, input⟩, hasInput, _⟩ :=
        Option.bind_eq_some_iff.mp launched
      obtain ⟨solved, returned, isOwn⟩ :=
        Option.bind_eq_some_iff.mp hasInput
      obtain ⟨own, isInput, same⟩ := Option.bind_eq_some_iff.mp isOwn
      obtain ⟨rfl, rfl⟩ := Prod.mk.inj (Option.some.inj same)
      have stillLater : solved.search.isFirstRun = false :=
        (isFirstRun_solveAtBranch returned).trans later
      obtain rfl := file_of_launch hasInput stillLater launched
      obtain ⟨tracks, markedOnly⟩ := recorded target isRecorded
      have below :=
        tracks.capped_of_solved sound markedOnly.record recovers takenOver
          returned isInput small capped positive
      rw [assignmentOf, List.getD_eq_getElem?_getD, found] at below
      exact Int.le_trans below within

/-- Under the invariant a launch that heeds its promises is capped. -/
theorem capped_of_heeded
    (recorded : Recorded session)
    {event : Event}
    (sound : event.SolvesSoundly)
    (heeded : Heeded session event) :
    Capped session event := by
  cases event with
  | restart => trivial
  | solve => trivial
  | run source focus others =>
      intro search file launched run member
      exact MarkedProcess.along_handsCapped
        (keepsPromises_of_launch recorded sound launched)
        (MarkedProcess.kept_start file _ _ _ _)
        (heeded search file launched run member)

/-- An event keeps what is recorded in step with what was marked. -/
theorem Recorded.step
    (recorded : Recorded session)
    {event : Event}
    (sound : event.SolvesSoundly)
    (heeded : Heeded session event)
    (stepped : session.step event = some next) :
    Recorded next := by
  cases event with
  | restart =>
      obtain rfl := Option.some.inj stepped
      exact recorded
  | solve =>
      obtain ⟨solved, _, rfl⟩ := Option.map_eq_some_iff.mp stepped
      exact recorded
  | run source focus others =>
      obtain ⟨⟨search, file⟩, launched, rfl⟩ :=
        Option.map_eq_some_iff.mp stepped
      intro target isRecorded
      rcases List.mem_append.mp isRecorded with isNew | old
      · have ran := Option.mem_toList.mp isNew
        have kept :=
          (MarkedProcess.kept_start file focus.execTimes focus.rank
            focus.targetRank focus.worldSize).run
            (keepsPromises_of_launch recorded sound launched)
            (heeded search file launched focus List.mem_cons_self) ran
        exact ⟨kept.tracks, kept.markedOnly⟩
      · exact recorded target old

/--
In every run of a search whose launches heed what their inputs promise, every
process is handed capped values for the variables that it marks with a limit.
-/
theorem inputs_capped
    (search : Search)
    (file : List Value)
    (events : List Event)
    (sound : ∀ event ∈ events, event.SolvesSoundly)
    (heeded :
      PartialRun.Along Session.step Heeded
        { search := search, file := file, recorded := [] } events) :
    PartialRun.Along Session.step Capped
      { search := search, file := file, recorded := [] } events := by
  have initially :
      Recorded { search := search, file := file, recorded := [] } :=
    fun _ member => nomatch member
  have soundly :
      PartialRun.Along Session.step
        (fun _ event => event.SolvesSoundly)
        { search := search, file := file, recorded := [] } events :=
    PartialRun.along_of_forall sound _
  exact PartialRun.along_of_invariant
    (fun recorded both stepped => recorded.step both.1 both.2 stepped)
    (fun recorded both => capped_of_heeded recorded both.1 both.2)
    initially (soundly.and heeded)

end Runs

/-- The program marks one variable with the limit 10, and compares it to 5. -/
def capTen : ProcessRun where
  execTimes := 1
  rank := 0
  targetRank := 0
  worldSize := 1
  calls :=
    [.marks (.newInputWithLimit .int 100 10 7 0),
      .inserted here (.load Cil.noAddr Cil.noAddr),
      .inserted { here with addr := fun _ => 0, value := fun _ => 5 }
        (.load Cil.noAddr Cil.noAddr),
      .inserted here (.apply2 14 Cil.noAddr),
      .inserted here (.branch 6 true)]
where
  here : Circumstances :=
    { addr := fun _ => 100
      value := fun _ => 7
      pointee := fun _ => 7
      rank := 0
      targetRank := 0
      worldSize := 1
      focus := 0
      gathered := [0] }

/-- Before the first run there is no input file. -/
def newSession : Session where
  search := Search.start "a.out" 1 0
  file := []
  recorded := []

/-- The first run, on the empty input, has drawn 7. -/
def firstRun : Event :=
  .run .empty capTen []

/-- The session after the first run. -/
def afterFirstRun : Session :=
  (newSession.step firstRun).getD newSession

/-- What the first run records. -/
def firstRecorded : MarkedProcess :=
  (PartialRun.run? MarkedProcess.step (capTen.process [])
    capTen.calls).getD (capTen.process [])

/-- A solve at the branch of the first run. -/
noncomputable def flipFirst : Source :=
  .solved (YicesSolver.preferring fun _ => 0) firstRecorded.crest.si.ex 0

/-- Only the marking call of the program has something to heed. -/
theorem heeds_capTen
    {promised : Nat → CType → Value → Prop}
    {file : List Value}
    (isPromised : 0 < file.length → promised 0 .int 10) :
    PartialRun.Along MarkedProcess.step (MarkedProcess.Heeds promised)
      (capTen.process file) capTen.calls := by
  have unmarked :
      ∀ (process : MarkedProcess) (here : Circumstances)
        (call : Cil.RuntimeCall),
        TargetCall.event? (.inserted here call) = none →
        TargetCall.patches (.inserted here call) = false →
        process.Heeds promised (.inserted here call) := by
    intro process here call noEvent noPatch
    unfold MarkedProcess.Heeds
    rw [noEvent, noPatch]
    exact ⟨nofun, trivial⟩
  refine ⟨⟨nofun, fun _ => Or.inr ?_⟩, fun _ _ => ?_⟩
  · split
    · next inside => exact isPromised inside
    · exact Or.inl rfl
  · refine ⟨unmarked _ _ _ rfl rfl, fun _ _ => ?_⟩
    refine ⟨unmarked _ _ _ rfl rfl, fun _ _ => ?_⟩
    refine ⟨unmarked _ _ _ rfl rfl, fun _ _ => ?_⟩
    exact ⟨unmarked _ _ _ rfl rfl, fun _ _ => trivial⟩

/-- The input that flips the branch of the first run promises its cap. -/
theorem promised_flipFirst : Promised afterFirstRun flipFirst 0 .int 10 := by
  have newTag :
      afterFirstRun.search.executionTag ≠
        firstRecorded.crest.si.ex.executionTag := by
    decide
  have recorded : afterFirstRun.recorded = [firstRecorded] := rfl
  refine ⟨rfl, ?_, by decide, firstRecorded, ?_, ?_, 10, by decide, le_rfl, ?_⟩
  · rw [Search.refresh, if_neg newTag]
    exact ⟨rfl, fun _ member => member⟩
  · rw [recorded]
    exact List.mem_singleton_self _
  · exact ⟨rfl, rfl, rfl, fun _ => rfl, rfl, rfl, rfl, rfl, rfl, rfl, rfl⟩
  · exact ⟨_, rfl, rfl, rfl, rfl⟩

theorem inputs_capped_flipFirst :
    PartialRun.Along Session.step Capped newSession
      [firstRun, .run flipFirst capTen []] := by
  have sound :
      ∀ event ∈ [firstRun, .run flipFirst capTen []],
        event.SolvesSoundly := by
    refine List.forall_mem_cons.mpr ⟨trivial, ?_⟩
    refine List.forall_mem_cons.mpr ⟨?_, fun _ member => nomatch member⟩
    exact (YicesSolver.preferring_exact fun _ => 0).toSound
  refine inputs_capped newSession.search [] _ sound ⟨?_, ?_⟩
  · intro search file launched run member
    obtain rfl := List.mem_singleton.mp member
    have isEmpty : (newSession.launch .empty).map Prod.snd = some [] := rfl
    obtain rfl : [] = file := by
      have same := congrArg (Option.map Prod.snd) launched
      exact Option.some.inj (isEmpty.symm.trans same)
    exact heeds_capTen fun nonempty => absurd nonempty (lt_irrefl 0)
  · intro next stepped
    obtain rfl : afterFirstRun = next :=
      Option.some.inj (Eq.trans (Eq.refl (some afterFirstRun)) stepped)
    refine ⟨?_, fun _ _ => trivial⟩
    intro search file launched run member
    obtain rfl := List.mem_singleton.mp member
    exact heeds_capTen fun _ => promised_flipFirst

/-- A random number generator that always returns 256. -/
def monotonous : Environment where
  maxIters := 10
  tables :=
    { branches := []
      pairedBranch := []
      branchFunction := []
      branchCount := [] }
  cfgRev := []
  rand := fun _ => 256
  solve := fun _ _ _ => none
  execution := fun _ ex => ex
  branchesOfRank := fun _ _ => none

/-- The world in which `RandomInput` is called. -/
def afterOneRun : World where
  search := Search.start "a.out" 1 0
  coverage := Coverage.uncovered monotonous.tables
  dist := []
  successEx := SymbolicExecution.empty
  draws := 0
  solves := 0
  calls := []

/-- `RandomInput` for the variable of the first run. -/
def randomFirst : Source :=
  .random monotonous afterOneRun (2 ^ 64 - 1)
    ((∅ : OrderedMap Var CType).insert 0 .int) []

/-- `RandomInput` makes up a value above the limit of the variable. -/
theorem not_inputs_capped_randomFirst :
    ¬PartialRun.Along Session.step Capped newSession
      [firstRun, .run randomFirst capTen []] := by
  intro along
  have first : newSession.step firstRun = some afterFirstRun := rfl
  have second := (along.2 afterFirstRun first).1
  have made :
      (afterFirstRun.launch randomFirst).map Prod.snd = some [16843009] := by
    decide +kernel
  obtain ⟨⟨search, file⟩, launched, isFile⟩ := Option.map_eq_some_iff.mp made
  have hands := (second search file launched capTen List.mem_cons_self).1
  obtain rfl : file = [16843009] := isFile
  exact absurd (hands (by decide)) (by decide)

end InputCapping

end Compi
