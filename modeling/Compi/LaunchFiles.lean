import Compi.LaunchProgram
import Compi.PartialRun
import Compi.TargetCalls
import Compi.TextStream

/-!
# The files of a launch

A search hands its inputs, the rank under test and the number of the run to the
processes of a launch in text files, which every process reads when it starts.
-/

namespace Compi

/-- The files that a search writes for the processes of a launch. -/
structure LaunchFiles where
  input : Option (List Char)
  targetRank : Option (List Char)
  numIters : Option (List Char)

namespace LaunchFiles

open TextStream

/-- The files when a launch is handed to the system; `run` counts the runs. -/
def write (files : LaunchFiles) (run : Nat) (launch : Launch) : LaunchFiles where
  input := (launch.inputFile.map printLines).or files.input
  targetRank := some (decimal launch.targetRankFile)
  numIters := some (decimal run)

/-- The inputs that `__CrestInit` reads. -/
def readInput (files : LaunchFiles) : List Value :=
  match files.input with
  | none => []
  | some text => readNumbers readLong text

/-- The number of the run that `__CrestInit` reads. -/
def readNumIters (files : LaunchFiles) : Nat :=
  match files.numIters with
  | none => 0
  | some text => ((readSize (opened text)).1.getD 0).toNat

/-- The rank that `__CrestGetMPIInfo` reads, if anything is stored. -/
def readTargetRank (files : LaunchFiles) : Option Int :=
  files.targetRank.bind fun text => (readInt (opened text)).1

/-- `__CrestInit` and `__CrestGetMPIInfo` of a process of a rank. -/
def crestInit
    (files : LaunchFiles)
    (rank worldSize : Int) : Option Crest :=
  files.readTargetRank.map fun targetRank =>
    Crest.start files.readInput files.readNumIters rank targetRank worldSize

/-- A process starts with what was written. -/
theorem crestInit_write
    (files : LaunchFiles)
    {run : Nat}
    (fewRuns : run < 2 ^ 64)
    {launch : Launch}
    (areLong :
      ∀ inputs, launch.inputFile = some inputs →
        ∀ value ∈ inputs, -2 ^ 63 ≤ value ∧ value < 2 ^ 63)
    (isInt : -2 ^ 31 ≤ launch.targetRankFile ∧ launch.targetRankFile < 2 ^ 31)
    (rank worldSize : Int) :
    (files.write run launch).crestInit rank worldSize =
      some
        (Crest.start (launch.inputFile.getD files.readInput) run rank
          launch.targetRankFile worldSize) := by
  have targetRank :
      (files.write run launch).readTargetRank = some launch.targetRankFile :=
    extracts_readInt.alone isInt
  have numIters : (files.write run launch).readNumIters = run := by
    have isSize : 0 ≤ (run : Int) ∧ (run : Int) < 2 ^ 64 := by omega
    have read := extracts_readSize.alone isSize
    show ((readSize (opened (decimal run))).1.getD 0).toNat = run
    rw [read]
    exact Int.toNat_natCast run
  have input :
      (files.write run launch).readInput =
        launch.inputFile.getD files.readInput := by
    cases isFile : launch.inputFile with
    | none =>
        simp only [readInput, write, isFile, Option.map_none, Option.none_or,
          Option.getD_none]
    | some inputs =>
        simp only [readInput, write, isFile, Option.map_some, Option.some_or,
          Option.getD_some]
        exact readNumbers_printLines extracts_readLong (areLong inputs isFile)
  rw [crestInit, targetRank, numIters, input]
  rfl

end LaunchFiles

section Runs

/-- A search in its working directory. -/
structure RunningSearch where
  search : Search
  files : LaunchFiles

/--
A run: a call of `LaunchProgram`, and whether its command fails, after which the
file with the inputs is moved away.
-/
structure ProgramRun where
  call : Search.LaunchCall
  fails : Bool

namespace RunningSearch

/-- What `RunProgram` hands to the system. -/
def launch (running : RunningSearch) (run : ProgramRun) :
    Option (Search × Launch) :=
  ({ running.search with numIters := running.search.numIters + 1 }.atCall
    run.call).launchProgram run.call.inputs

/-- The files that the processes of a launch find. -/
def filesAt (running : RunningSearch) (launch : Launch) : LaunchFiles :=
  running.files.write (running.search.numIters + 1) launch

/-- A run of the program under test. -/
def step (running : RunningSearch) (run : ProgramRun) : Option RunningSearch :=
  (running.launch run).map fun (search, launch) =>
    let files := running.filesAt launch
    { search := search
      files := if run.fails then { files with input := none } else files }

/-- The rank under test is an `int`. -/
def HasInt (running : RunningSearch) : Prop :=
  -2 ^ 31 ≤ running.search.targetRank ∧ running.search.targetRank < 2 ^ 31

theorem isInt_toSigned (value : Int) :
    -2 ^ 31 ≤ toSigned 32 value ∧ toSigned 32 value < 2 ^ 31 := by
  have atLeast := Int.le_bmod (x := value) (m := 2 ^ 32) (by decide)
  have below := Int.bmod_lt (x := value) (m := 2 ^ 32) (by decide)
  unfold toSigned
  omega

/-- The rank that is read is an `int`. -/
theorem isInt_firstInput
    {indices : List Id}
    {inputs : List Value}
    {current rank : Int}
    (isInt : -2 ^ 31 ≤ current ∧ current < 2 ^ 31)
    (read : Search.firstInput indices inputs current = some rank) :
    -2 ^ 31 ≤ rank ∧ rank < 2 ^ 31 := by
  cases indices with
  | nil =>
      cases read
      exact isInt
  | cons index rest =>
      obtain ⟨value, _, rfl⟩ := Option.map_eq_some_iff.mp read
      exact isInt_toSigned value

/-- What a launch leaves of the search, and what it hands over. -/
structure Launches
    (running : RunningSearch)
    (run : ProgramRun)
    (search : Search)
    (launch : Launch) : Prop where
  numIters : search.numIters = running.search.numIters + 1
  isFirstRun : search.isFirstRun = false
  targetRank : launch.targetRankFile = search.targetRank
  isInt :
    running.HasInt →
      -2 ^ 31 ≤ search.targetRank ∧ search.targetRank < 2 ^ 31
  inputFile :
    launch.inputFile =
      if running.search.isFirstRun then none else some run.call.inputs

theorem launches_of_launch
    {running : RunningSearch}
    {run : ProgramRun}
    {search : Search}
    {launch : Launch}
    (launched : running.launch run = some (search, launch)) :
    Launches running run search launch := by
  obtain ⟨rank, readRank, launched⟩ := Option.bind_eq_some_iff.mp launched
  obtain ⟨size, readSize, launched⟩ := Option.bind_eq_some_iff.mp launched
  cases launched
  unfold Search.configure
  split
  · exact ⟨rfl, rfl, rfl, fun isInt => isInt, rfl⟩
  · exact ⟨rfl, rfl, rfl, fun isInt => isInt_firstInput isInt readRank, rfl⟩

/-- Every launch succeeds, as the lists of the search are within the inputs. -/
theorem exists_launch
    (running : RunningSearch)
    (run : ProgramRun) :
    ∃ search launch, running.launch run = some (search, launch) := by
  have inBounds :
      ∃ result, running.launch run = some result :=
    Search.exists_launchProgram_iff.mpr
      ⟨run.call.rankInBounds, run.call.worldSizeInBounds⟩
  obtain ⟨⟨search, launch⟩, launched⟩ := inBounds
  exact ⟨search, launch, launched⟩

/-- A search after some runs. -/
structure Ran
    (start : RunningSearch)
    (count : Nat)
    (running : RunningSearch) : Prop where
  numIters : running.search.numIters = count
  isFirstRun : running.search.isFirstRun = decide (count = 0)
  hasInt : running.HasInt
  files : count = 0 → running.files = start.files

variable {start running : RunningSearch}

/-- Another run. -/
theorem Ran.step
    {count : Nat}
    (ran : Ran start count running)
    (run : ProgramRun) :
    ∃ next, running.step run = some next ∧ Ran start (count + 1) next := by
  obtain ⟨search, launch, launched⟩ := exists_launch running run
  have launches := launches_of_launch launched
  refine ⟨_, Option.map_eq_some_iff.mpr ⟨_, launched, rfl⟩, ?_⟩
  constructor
  · exact launches.numIters.trans (congrArg Nat.succ ran.numIters)
  · exact launches.isFirstRun
  · exact launches.isInt ran.hasInt
  · intro impossible
    cases impossible

/-- Any number of runs. -/
theorem Ran.runs
    (runs : List ProgramRun)
    {count : Nat}
    (ran : Ran start count running) :
    ∃ final,
      PartialRun.run? RunningSearch.step running runs = some final ∧
        Ran start (count + runs.length) final := by
  induction runs generalizing running count with
  | nil =>
      exact ⟨running, rfl, ran⟩
  | cons run rest inductionHypothesis =>
      obtain ⟨next, stepped, ran⟩ := ran.step run
      obtain ⟨final, reached, ran⟩ := inductionHypothesis ran
      refine
        ⟨final, PartialRun.run?_cons_eq_some.mpr ⟨next, stepped, reached⟩, ?_⟩
      rw [List.length_cons, Nat.add_comm rest.length 1, ← Nat.add_assoc]
      exact ran

/--
However many runs of a search have ended or failed, every process of the next
launch starts with the inputs of this launch, its number and the rank that it
has put under test.  The first launch leaves the inputs that it finds.
-/
theorem crestInit_of_launch
    (start : RunningSearch)
    (isNew : start.search.isFirstRun = true)
    (notRun : start.search.numIters = 0)
    (hasInt : start.HasInt)
    (runs : List ProgramRun)
    (few : runs.length < 2 ^ 31 - 1)
    (run : ProgramRun)
    (areLong :
      ∀ value ∈ run.call.inputs, -2 ^ 63 ≤ value ∧ value < 2 ^ 63) :
    ∃ running search launch,
      PartialRun.run? RunningSearch.step start runs = some running ∧
        running.launch run = some (search, launch) ∧
        ∀ rank worldSize,
          (running.filesAt launch).crestInit rank worldSize =
            some
              (Crest.start
                (if runs = [] then start.files.readInput
                  else run.call.inputs)
                (runs.length + 1) rank search.targetRank worldSize) := by
  have starts : Ran start 0 start := ⟨notRun, isNew, hasInt, fun _ => rfl⟩
  obtain ⟨running, reached, ran⟩ := starts.runs runs
  rw [Nat.zero_add] at ran
  obtain ⟨search, launch, launched⟩ := exists_launch running run
  have launches := launches_of_launch launched
  have written :
      ∀ inputs, launch.inputFile = some inputs →
        ∀ value ∈ inputs, -2 ^ 63 ≤ value ∧ value < 2 ^ 63 := by
    intro inputs isFile
    rw [launches.inputFile] at isFile
    split at isFile
    · cases isFile
    · cases isFile
      exact areLong
  have isInt :
      -2 ^ 31 ≤ launch.targetRankFile ∧ launch.targetRankFile < 2 ^ 31 := by
    rw [launches.targetRank]
    exact launches.isInt ran.hasInt
  refine ⟨running, search, launch, reached, launched, fun rank worldSize => ?_⟩
  have fewRuns : running.search.numIters + 1 < 2 ^ 64 := by
    rw [ran.numIters]
    omega
  rw [filesAt,
    LaunchFiles.crestInit_write running.files fewRuns written isInt rank
      worldSize,
    launches.inputFile, launches.targetRank, ran.numIters, ran.isFirstRun]
  cases runs with
  | nil =>
      rw [← ran.files rfl]
      rfl
  | cons earlier rest =>
      rfl

/-- A run with some inputs that marks no rank and no size. -/
def runWith (inputs : List Value) (fails : Bool) : ProgramRun where
  call :=
    { rankIndices := []
      worldSizeIndices := []
      inputs := inputs
      rankInBounds := fun _ impossible => nomatch impossible
      worldSizeInBounds := fun _ impossible => nomatch impossible }
  fails := fails

/-- A search for rank 1 of 4 in an empty directory. -/
def inEmptyDirectory : RunningSearch where
  search := Search.start "program" 4 1
  files := { input := none, targetRank := none, numIters := none }

theorem crestInit_of_launch_afterFailure :
    ∃ running search launch,
      PartialRun.run? RunningSearch.step inEmptyDirectory
          [runWith [] false, runWith [7] true] =
        some running ∧
        running.launch (runWith [12, -3] false) = some (search, launch) ∧
        ∀ rank worldSize,
          (running.filesAt launch).crestInit rank worldSize =
            some (Crest.start [12, -3] 3 rank search.targetRank worldSize) :=
  crestInit_of_launch inEmptyDirectory rfl rfl
    ⟨by decide, by decide⟩ [runWith [] false, runWith [7] true] (by decide)
    (runWith [12, -3] false) (by decide)

end RunningSearch

end Runs

end Compi
