import Compi.PartialRun
import Compi.Search

/-!
# Launching the program under test

`LaunchProgram` reads the next focus rank and the next number of processes
from the input, and assembles an `mpirun` command.  The heavily instrumented
program runs at one rank only; all other ranks run its light version.
-/

namespace Compi

/-- A part `-np count program` of an `mpirun` command. -/
structure ProcessGroup where
  count : Int
  program : String
  deriving DecidableEq

/-- What a launch hands to the system. -/
structure Launch where
  inputFile : Option (List Value)
  targetRankFile : Int
  groups : List ProcessGroup
  deriving DecidableEq

namespace Launch

/-- `TIMEOUT_IN_SECONDS`. -/
def timeoutInSeconds : Nat :=
  120

/-- The text of a command. -/
def command (launch : Launch) : String :=
  "timeout " ++ toString timeoutInSeconds ++ "s mpirun.mpich " ++
    " : ".intercalate
      (launch.groups.map fun group =>
        "-np " ++ toString group.count ++ " " ++ group.program)

/-- The programs that a command runs, by global rank. -/
def processes (launch : Launch) : List String :=
  launch.groups.flatMap fun group =>
    List.replicate group.count.toNat group.program

end Launch

namespace Search

/-- An index list entry as a position of the input vector. -/
def position (index : Id) : Nat :=
  (toUnsigned 64 index).toNat

/-- Whether the first entry of an index list is within the input vector. -/
def HeadInBounds (indices : List Id) (inputs : List Value) : Prop :=
  ∀ index ∈ indices.head?, position index < inputs.length

instance (indices : List Id) (inputs : List Value) :
    Decidable (HeadInBounds indices inputs) :=
  inferInstanceAs (Decidable (∀ index ∈ indices.head?, _))

/-- The input at the first index as an `int`, or the current value. -/
def firstInput
    (indices : List Id)
    (inputs : List Value)
    (current : Int) : Option Int :=
  match indices with
  | [] => some current
  | index :: _ => inputs[position index]?.map (toSigned 32)

/-- The light version of the program. -/
def programClean (search : Search) : String :=
  search.program ++ "_c"

/-- The parts of the command. -/
def processGroups (search : Search) : List ProcessGroup :=
  if search.targetRank ≠ 0 then
    [{ count := search.targetRank, program := search.programClean },
      { count := 1, program := search.program }] ++
      if search.targetRank + 1 < search.commWorldSize then
        [{ count := search.commWorldSize - search.targetRank - 1
           program := search.programClean }]
      else
        []
  else
    [{ count := 1, program := search.program },
      { count := search.commWorldSize - 1, program := search.programClean }]

/-- Take over a new focus and size, unless the focus is not a current rank. -/
def configure
    (search : Search)
    (targetRank commWorldSize : Int) : Search :=
  if targetRank < 0 ∨ targetRank ≥ search.commWorldSize ∨
      search.commWorldSize > 16 then
    search
  else
    { search with
      targetRank := targetRank
      commWorldSize := commWorldSize }

/-- What is handed to the system in a configuration. -/
def assemble (search : Search) (inputs : List Value) : Launch where
  inputFile := if search.isFirstRun then none else some inputs
  targetRankFile := search.targetRank
  groups := search.processGroups

/-- `LaunchProgram`; there is no result if it reads outside the inputs. -/
def launchProgram
    (search : Search)
    (inputs : List Value) : Option (Search × Launch) := do
  let targetRank ←
    firstInput search.rankIndices inputs search.targetRank
  let commWorldSize ←
    firstInput search.worldSizeIndices inputs search.commWorldSize
  let configured := search.configure targetRank commWorldSize
  return ({ configured with isFirstRun := false },
    configured.assemble inputs)

/-- Reading the first index succeeds exactly within the inputs. -/
theorem exists_firstInput_iff
    {indices : List Id}
    {inputs : List Value}
    (current : Int) :
    (∃ value, firstInput indices inputs current = some value) ↔
      HeadInBounds indices inputs := by
  cases indices with
  | nil =>
      simp [firstInput, HeadInBounds]
  | cons index rest =>
      simp [firstInput, HeadInBounds, List.getElem?_eq_some_iff]

/-- A launch succeeds exactly if the first indices are within the inputs. -/
theorem exists_launchProgram_iff
    {search : Search}
    {inputs : List Value} :
    (∃ result, search.launchProgram inputs = some result) ↔
      HeadInBounds search.rankIndices inputs ∧
        HeadInBounds search.worldSizeIndices inputs := by
  rw [← exists_firstInput_iff search.targetRank,
    ← exists_firstInput_iff search.commWorldSize]
  unfold launchProgram
  constructor
  · rintro ⟨result, launched⟩
    obtain ⟨rank, readRank, launched⟩ := Option.bind_eq_some_iff.mp launched
    obtain ⟨size, readSize, _⟩ := Option.bind_eq_some_iff.mp launched
    exact ⟨⟨rank, readRank⟩, ⟨size, readSize⟩⟩
  · rintro ⟨⟨rank, readRank⟩, ⟨size, readSize⟩⟩
    exact ⟨_, by rw [readRank, readSize]; rfl⟩

/-- A launch changes the configuration only. -/
theorem launchProgram_next
    {search next : Search}
    {inputs : List Value}
    {launch : Launch}
    (launched : search.launchProgram inputs = some (next, launch)) :
    ∃ targetRank commWorldSize,
      next =
        { search with
          targetRank := targetRank
          commWorldSize := commWorldSize
          isFirstRun := false } := by
  unfold launchProgram at launched
  obtain ⟨rank, _, launched⟩ := Option.bind_eq_some_iff.mp launched
  obtain ⟨size, _, launched⟩ := Option.bind_eq_some_iff.mp launched
  obtain ⟨rfl, _⟩ := Prod.mk.inj (Option.some.inj launched)
  unfold configure
  split
  · exact ⟨search.targetRank, search.commWorldSize, rfl⟩
  · exact ⟨rank, size, rfl⟩

/-- The focus rank is a rank, and there are at most 16 processes. -/
structure ValidConfig (search : Search) : Prop where
  nonneg : 0 ≤ search.targetRank
  lt_size : search.targetRank < search.commWorldSize
  size_le : search.commWorldSize ≤ 16

/-- What a launch should leave behind and hand to the system. -/
structure SoundLaunch (search : Search) (launch : Launch) : Prop where
  valid : search.ValidConfig
  counts : ∀ group ∈ launch.groups, 0 ≤ group.count
  total : (launch.groups.map ProcessGroup.count).sum = search.commWorldSize
  focus :
    ∀ rank : Nat,
      launch.processes[rank]? = some search.program ↔
        (rank : Int) = search.targetRank

section Command

/-- One different entry between copies of another is at its own position. -/
private theorem getElem?_between_replicates
    {light heavy : String}
    (different : light ≠ heavy)
    (before after rank : Nat) :
    (List.replicate before light ++
        heavy :: List.replicate after light)[rank]? = some heavy ↔
      rank = before := by
  rcases lt_trichotomy rank before with isBefore | rfl | isAfter
  · rw [List.getElem?_append_left (by simpa using isBefore)]
    simp [isBefore, different, Nat.ne_of_lt isBefore]
  · simp
  · obtain ⟨offset, rfl⟩ := Nat.exists_eq_add_of_lt isAfter
    rw [List.getElem?_append_right (by simp; omega)]
    have shifted :
        before + offset + 1 - (List.replicate before light).length =
          offset + 1 := by
      rw [List.length_replicate]
      omega
    rw [shifted, List.getElem?_cons_succ, List.getElem?_replicate]
    split
    · simp [different]
      omega
    · simp
      omega

/-- The light version is another program. -/
theorem programClean_ne (search : Search) :
    search.programClean ≠ search.program := by
  intro same
  have lengths := congrArg String.length same
  rw [programClean, String.length_append] at lengths
  have suffix : "_c".length = 2 := rfl
  omega

/-- The command of a valid configuration is sound. -/
theorem soundLaunch_of_valid
    {search : Search}
    {launch : Launch}
    (valid : search.ValidConfig)
    (groups : launch.groups = search.processGroups) :
    search.SoundLaunch launch := by
  have nonneg := valid.nonneg
  have lt_size := valid.lt_size
  have processes :
      launch.processes =
        List.replicate search.targetRank.toNat search.programClean ++
          search.program ::
            List.replicate
              (search.commWorldSize - search.targetRank - 1).toNat
              search.programClean := by
    rw [Launch.processes, groups, processGroups]
    by_cases isFirst : search.targetRank = 0
    · simp [isFirst]
    · by_cases isLast : search.targetRank + 1 < search.commWorldSize
      · simp [isFirst, isLast]
      · have none_after :
            (search.commWorldSize - search.targetRank - 1).toNat = 0 := by
          omega
        simp [isFirst, isLast, none_after]
  refine ⟨valid, ?_, ?_, ?_⟩
  · intro group member
    rw [groups, processGroups] at member
    split at member
    · split at member
      · simp at member
        rcases member with rfl | rfl | rfl
        · exact nonneg
        · exact Int.one_nonneg
        · simp
          omega
      · simp at member
        rcases member with rfl | rfl
        · exact nonneg
        · exact Int.one_nonneg
    · simp at member
      rcases member with rfl | rfl
      · exact Int.one_nonneg
      · simp
        omega
  · rw [groups, processGroups]
    split
    · split
      · simp
      · simp
        omega
    · simp
  · intro rank
    rw [processes,
      getElem?_between_replicates search.programClean_ne]
    omega

end Command

section Sequences

/-- A call of `LaunchProgram`, with the index lists it finds. -/
structure LaunchCall where
  rankIndices : List Id
  worldSizeIndices : List Id
  inputs : List Value
  rankInBounds : HeadInBounds rankIndices inputs
  worldSizeInBounds : HeadInBounds worldSizeIndices inputs

/-- The search at a call. -/
def atCall (search : Search) (call : LaunchCall) : Search :=
  { search with
    rankIndices := call.rankIndices
    worldSizeIndices := call.worldSizeIndices }

/-- One call of `LaunchProgram`, as a step of the search. -/
def launchStep (search : Search) (call : LaunchCall) : Option Search :=
  ((search.atCall call).launchProgram call.inputs).map Prod.fst

/-- The call succeeds, and its configuration and command are sound. -/
def LaunchesSoundly (search : Search) (call : LaunchCall) : Prop :=
  ∃ next launch,
    (search.atCall call).launchProgram call.inputs = some (next, launch) ∧
      next.SoundLaunch launch

/--
If the new rank is a rank of the current configuration, it is also one of the
new configuration, which has at most 16 processes.
-/
def ConsistentCall (search : Search) (call : LaunchCall) : Prop :=
  ∀ targetRank commWorldSize,
    firstInput call.rankIndices call.inputs search.targetRank =
      some targetRank →
    firstInput call.worldSizeIndices call.inputs search.commWorldSize =
      some commWorldSize →
    0 ≤ targetRank →
    targetRank < search.commWorldSize →
    targetRank < commWorldSize ∧ commWorldSize ≤ 16

/-- From a valid configuration, calls launch soundly if consistent. -/
theorem launchesSoundly_iff
    {search : Search}
    {call : LaunchCall}
    (valid : search.ValidConfig) :
    search.LaunchesSoundly call ↔ search.ConsistentCall call := by
  obtain ⟨nonneg, lt_size, size_le⟩ := valid
  obtain ⟨targetRank, readRank⟩ :=
    (exists_firstInput_iff search.targetRank).mpr call.rankInBounds
  obtain ⟨commWorldSize, readSize⟩ :=
    (exists_firstInput_iff search.commWorldSize).mpr call.worldSizeInBounds
  have launched :
      (search.atCall call).launchProgram call.inputs =
        some (
          { (search.atCall call).configure targetRank commWorldSize with
            isFirstRun := false },
          ((search.atCall call).configure targetRank commWorldSize).assemble
            call.inputs) := by
    simp only [launchProgram, atCall, readRank, readSize,
      Option.bind_eq_bind, Option.bind_some, Option.pure_def]
  by_cases isRank : 0 ≤ targetRank ∧ targetRank < search.commWorldSize
  · have accepted :
        (search.atCall call).configure targetRank commWorldSize =
          { search.atCall call with
            targetRank := targetRank
            commWorldSize := commWorldSize } := by
      rw [configure, if_neg]
      simp only [atCall]
      omega
    rw [accepted] at launched
    constructor
    · rintro ⟨next, launch, returned, sound⟩
      obtain ⟨rfl, rfl⟩ :=
        Prod.mk.inj (Option.some.inj (launched.symm.trans returned))
      intro rank size otherRank otherSize _ _
      obtain rfl := Option.some.inj (readRank.symm.trans otherRank)
      obtain rfl := Option.some.inj (readSize.symm.trans otherSize)
      exact ⟨sound.valid.lt_size, sound.valid.size_le⟩
    · intro consistent
      obtain ⟨isNewRank, small⟩ :=
        consistent targetRank commWorldSize readRank readSize
          isRank.1 isRank.2
      exact ⟨_, _, launched,
        soundLaunch_of_valid ⟨isRank.1, isNewRank, small⟩ rfl⟩
  · have rejected :
        (search.atCall call).configure targetRank commWorldSize =
          search.atCall call := by
      rw [configure, if_pos]
      simp only [atCall]
      omega
    rw [rejected] at launched
    constructor
    · intro _ rank size otherRank _ nonnegRank rankBelow
      obtain rfl := Option.some.inj (readRank.symm.trans otherRank)
      exact absurd ⟨nonnegRank, rankBelow⟩ isRank
    · intro _
      exact ⟨_, _, launched,
        soundLaunch_of_valid ⟨nonneg, lt_size, size_le⟩ rfl⟩

/--
From a valid configuration, all calls of a sequence launch soundly exactly if
all of them are consistent.
-/
theorem launchesSoundly_along_iff
    (search : Search)
    (valid : search.ValidConfig)
    (calls : List LaunchCall) :
    PartialRun.Along launchStep LaunchesSoundly search calls ↔
      PartialRun.Along launchStep ConsistentCall search calls := by
  have preserved :
      ∀ {current : Search} {call : LaunchCall} {next : Search},
        current.ValidConfig →
        current.ConsistentCall call →
        current.launchStep call = some next →
        next.ValidConfig := by
    intro current call next validCurrent consistent stepped
    obtain ⟨after, launch, launched, sound⟩ :=
      (launchesSoundly_iff validCurrent).mpr consistent
    rw [launchStep, launched] at stepped
    obtain rfl := Option.some.inj stepped
    exact sound.valid
  exact PartialRun.along_iff_of_invariant launchesSoundly_iff preserved valid

/-- A call whose input sets the focus rank and the number of processes. -/
def callWith (targetRank commWorldSize : Value) : LaunchCall where
  rankIndices := [0]
  worldSizeIndices := [1]
  inputs := [targetRank, commWorldSize]
  rankInBounds := by
    intro index isHead
    simp only [List.head?_cons, Option.mem_some_iff] at isHead
    simp [← isHead, position, toUnsigned]
  worldSizeInBounds := by
    intro index isHead
    simp only [List.head?_cons, Option.mem_some_iff] at isHead
    simp [← isHead, position, toUnsigned]

/-- A call is consistent if its rank is below its size, at most 16. -/
theorem consistentCall_callWith
    {search : Search}
    {targetRank commWorldSize : Value}
    (below : toSigned 32 targetRank < toSigned 32 commWorldSize)
    (small : toSigned 32 commWorldSize ≤ 16) :
    search.ConsistentCall (callWith targetRank commWorldSize) := by
  intro rank size readRank readSize _ _
  obtain rfl : toSigned 32 targetRank = rank := Option.some.inj readRank
  obtain rfl : toSigned 32 commWorldSize = size := Option.some.inj readSize
  exact ⟨below, small⟩

theorem launchesSoundly_along_moved :
    PartialRun.Along launchStep LaunchesSoundly (start "a.out" 4 0)
      [callWith 3 8, callWith 7 9, callWith 12 16] := by
  have valid : (start "a.out" 4 0).ValidConfig :=
    ⟨by decide, by decide, by decide⟩
  apply (launchesSoundly_along_iff (start "a.out" 4 0) valid _).mpr
  refine PartialRun.Along.cons ?_ rfl
    (PartialRun.Along.cons ?_ rfl (PartialRun.Along.cons ?_ rfl trivial))
  · exact consistentCall_callWith (by decide) (by decide)
  · exact consistentCall_callWith (by decide) (by decide)
  · exact consistentCall_callWith (by decide) (by decide)

/-- Rank 3 of 4 is accepted together with a size of only 2 processes. -/
theorem not_launchesSoundly_shrunk :
    (start "a.out" 4 0).ValidConfig ∧
      ¬PartialRun.Along launchStep LaunchesSoundly (start "a.out" 4 0)
        [callWith 3 2] := by
  refine ⟨⟨by decide, by decide, by decide⟩, ?_⟩
  rintro ⟨⟨next, launch, launched, sound⟩, _⟩
  have configured :
      some (next.targetRank, next.commWorldSize) = some (3, 2) := by
    have shrunk :
        (((start "a.out" 4 0).atCall (callWith 3 2)).launchProgram
            (callWith 3 2).inputs).map
            (fun result => (result.1.targetRank, result.1.commWorldSize)) =
          some (3, 2) := by
      decide
    rw [launched] at shrunk
    exact shrunk
  have below := sound.valid.lt_size
  obtain ⟨target, size⟩ := Prod.mk.inj (Option.some.inj configured)
  omega

example :
    (((start "a.out" 4 0).atCall (callWith 3 2)).launchProgram
        (callWith 3 2).inputs).map (fun result => result.2.command) =
      some "timeout 120s mpirun.mpich -np 3 a.out_c : -np 1 a.out" := by
  decide

end Sequences

end Search

end Compi
