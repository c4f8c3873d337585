import Compi.ProgramGraph

/-!
# Distances in a program

The search measures the distances from its branches to the uncovered ones in
the thinned graph.  They are the least numbers of branches that control has to
enter on its way through the program.
-/

namespace Compi

open BranchTables

namespace CfgBranchesFile

open CfgFiles

variable
  {files : List (List Function)}
  {branchFiles : List (List Pairs)}
  {tables : BranchTables}
  {written : List (Nat × List Nat)}

section Construction

/-- There are fewer branches than `int`s. -/
theorem length_branchesOf_le (recorded : Recorded branchFiles) :
    (branchesOf branchFiles).length ≤ 2 ^ 31 - 1 :=
  length_le_of_nodup recorded.regular.nodup recorded.regular.inRange

variable (writesNext : WritesNext files branchFiles written)

include writesNext

theorem branch_mem
    {entry : Nat × List Nat}
    (member : entry ∈ written) :
    (branchEntry entry).1 ∈ branchesOf branchFiles :=
  writesNext.branches.mem_iff.mp
    (List.mem_map_of_mem (f := fun entry => (branchEntry entry).1) member)

theorem length_written :
    written.length = (branchesOf branchFiles).length := by
  rw [← writesNext.branches.length_eq, List.length_map]

/-- What is written fits into its types. -/
theorem representable_written
    (recorded : Recorded branchFiles)
    {entry : Nat × List Nat}
    (member : entry ∈ written) :
    Representable entry := by
  have isInt
      {bid : Int}
      (isBranch : bid ∈ branchesOf branchFiles) :
      ByteStream.SignedRange 4 bid := by
    obtain ⟨nonnegative, below⟩ : 0 ≤ bid ∧ bid < 2 ^ 31 - 1 :=
      recorded.regular.inRange bid isBranch
    unfold ByteStream.SignedRange
    omega
  constructor
  · exact isInt (branch_mem writesNext member)
  · have short := writesNext.short entry member
    have few := length_branchesOf_le recorded
    unfold ByteStream.UnsignedRange
    omega
  · intro bid isTarget
    have isListed : (bid : BranchId) ∈ (branchEntry entry).2 :=
      List.mem_map_of_mem (f := fun bid : Nat => (bid : BranchId)) isTarget
    exact isInt ((writesNext.targets entry member bid).mp isListed).1

/-- The table `cfg_` that is read. -/
def tableOf (tables : BranchTables) (written : List (Nat × List Nat)) :
    List (List BranchId) :=
  updateAll (List.replicate tables.pairedBranch.length [])
    (written.map branchEntry)

/-- A branch has the entry that was written for it. -/
theorem lookup?_tableOf
    (recorded : Recorded branchFiles)
    (reconstructed : Reconstructed branchFiles tables)
    {bid : BranchId}
    (isBranch : bid ∈ branchesOf branchFiles) :
    ∃ targets,
      lookup? (tableOf tables written) bid = some targets ∧
        ∀ next, next ∈ targets ↔ ComesNext files branchFiles bid next := by
  have keys :
      (written.map branchEntry).map Prod.fst =
        written.map fun entry => (branchEntry entry).1 :=
    List.map_map
  have below :
      AllBelow ((written.map branchEntry).map Prod.fst)
        (List.replicate tables.pairedBranch.length
          ([] : List BranchId)).length := by
    rw [keys, List.length_replicate]
    intro other isKey
    have inTables :=
      reconstructed.branches.mem_iff.mpr
        (writesNext.branches.mem_iff.mp isKey)
    have inRange := reconstructed.inRange other inTables
    exact ⟨inRange.1, inRange.2.1⟩
  have nodup : ((written.map branchEntry).map Prod.fst).Nodup := by
    rw [keys, writesNext.branches.nodup_iff]
    exact recorded.regular.nodup
  obtain ⟨entry, member, rfl⟩ :=
    List.mem_map.mp (writesNext.branches.mem_iff.mpr isBranch)
  exact
    ⟨(branchEntry entry).2,
      lookup?_updateAll below nodup (List.mem_map_of_mem member),
      writesNext.targets entry member⟩

/-- The entry of a branch has the branches that come next after it. -/
theorem mem_targets_iff
    (recorded : Recorded branchFiles)
    (reconstructed : Reconstructed branchFiles tables)
    {bid : BranchId}
    (isBranch : bid ∈ branchesOf branchFiles)
    {targets : List BranchId}
    (found : lookup? (tableOf tables written) bid = some targets)
    {next : BranchId} :
    next ∈ targets ↔ ComesNext files branchFiles bid next := by
  obtain ⟨others, isEntry, listed⟩ :=
    lookup?_tableOf writesNext recorded reconstructed isBranch
  cases found.symm.trans isEntry
  exact listed next

/-- The search reads what was written, and reverses it. -/
theorem constructSearch_bytesOf
    (garbage : Uninitialised)
    (recorded : Recorded branchFiles)
    (reconstructed : Reconstructed branchFiles tables) :
    ∃ (graph : BranchGraph) (cfgRev : List (List BranchId)),
      constructSearch garbage tables (bytesOf written) =
          some (graph.cfg, cfgRev) ∧
        graph.maxBranch = tables.pairedBranch.length ∧
        graph.branches = tables.branches ∧
        BranchGraph.Lists graph graph.Edge cfgRev ∧
        ∀ bid next,
          graph.Edge bid next ↔
            bid ∈ branchesOf branchFiles ∧
              ComesNext files branchFiles bid next := by
  have isBranch (bid : BranchId) :
      bid ∈ tables.branches ↔ bid ∈ branchesOf branchFiles :=
    reconstructed.branches.mem_iff
  let graph : BranchGraph := {
    maxBranch := tables.pairedBranch.length
    branches := tables.branches
    cfg := tableOf tables written
    inRange := fun bid member =>
      ⟨(reconstructed.inRange bid member).1,
        (reconstructed.inRange bid member).2.1⟩
    sized := by rw [tableOf, length_updateAll, List.length_replicate]
    closed := by
      intro bid member targets found next isTarget
      have comesNext :=
        (mem_targets_iff writesNext recorded reconstructed
          ((isBranch bid).mp member) found).mp isTarget
      exact (isBranch next).mpr comesNext.1 }
  have read :
      ByteStream.Reads (readCfgBranches garbage tables) (bytesOf written)
        (some graph.cfg) := by
    have counted : written.length = tables.branches.length :=
      (length_written writesNext).trans reconstructed.branches.length_eq.symm
    have few : ByteStream.UnsignedRange 8 written.length := by
      have atMost := length_branchesOf_le recorded
      rw [← length_written writesNext] at atMost
      unfold ByteStream.UnsignedRange
      omega
    refine
      reads_readCfgBranches garbage tables counted few
        (fun entry member => representable_written writesNext recorded member)
        fun entry member => ?_
    exact
      (reconstructed.inRange _
        ((isBranch _).mpr (branch_mem writesNext member))).2.1
  obtain ⟨cfgRev, reversed, lists⟩ := BranchGraph.reverseCfg_spec graph
  refine ⟨graph, cfgRev, ?_, rfl, rfl, lists, fun bid next => ?_⟩
  · have isRead := read []
    rw [List.append_nil] at isRead
    rw [constructSearch, isRead]
    show (CfgDistance.reverseCfg graph.maxBranch graph.branches graph.cfg).bind _ = _
    rw [reversed]
    rfl
  · constructor
    · rintro ⟨member, targets, found, isTarget⟩
      have inProgram := (isBranch bid).mp member
      exact
        ⟨inProgram,
          (mem_targets_iff writesNext recorded reconstructed inProgram
            found).mp isTarget⟩
    · rintro ⟨member, comesNext⟩
      obtain ⟨targets, found, listed⟩ :=
        lookup?_tableOf writesNext recorded reconstructed member
      exact
        ⟨(isBranch bid).mpr member, targets, found,
          (listed next).mpr comesNext⟩

end Construction

section Distances

/-- The uncovered branches of a program. -/
def IsUncovered
    (branchFiles : List (List Pairs))
    (covered : List Bool)
    (bid : BranchId) : Prop :=
  bid ∈ branchesOf branchFiles ∧ lookup? covered bid = some false

/--
The least number of branches that control enters on a way from a statement to
an uncovered branch, if it is below the infinite distance.
-/
def IsControlDistance
    (files : List (List Function))
    (branchFiles : List (List Pairs))
    (covered : List Bool)
    (sid : Int)
    (dist : Nat) : Prop :=
  (dist < CfgDistance.kInfiniteDistance ∧
      IsLeast
        {entered |
          ThinnedGraph.Entries (Flows files) (· ∈ branchesOf branchFiles)
            (IsUncovered branchFiles covered) sid entered}
        dist) ∨
    ((∀ entered,
        ThinnedGraph.Entries (Flows files) (· ∈ branchesOf branchFiles)
          (IsUncovered branchFiles covered) sid entered →
        CfgDistance.kInfiniteDistance ≤ entered) ∧
      dist = CfgDistance.kInfiniteDistance)

variable
  {graph : BranchGraph}
  {covered : List Bool}

/-- The paths of the search are those of the thinned graph. -/
theorem stepsToUncovered_iff
    (branches :
      ∀ bid, bid ∈ graph.branches ↔ bid ∈ branchesOf branchFiles)
    (edges :
      ∀ bid next,
        graph.Edge bid next ↔
          bid ∈ branchesOf branchFiles ∧
            ComesNext files branchFiles bid next)
    {bid : BranchId}
    (isBranch : bid ∈ branchesOf branchFiles)
    {count : Nat} :
    graph.StepsToUncovered covered bid count ↔
      ThinnedGraph.Hops (Flows files) (· ∈ branchesOf branchFiles)
        (IsUncovered branchFiles covered) bid count := by
  constructor
  · intro path
    induction path with
    | here uncovered =>
        exact .here ⟨isBranch, uncovered.2⟩
    | step isEdge _ inductionHypothesis =>
        have comesNext := ((edges _ _).mp isEdge).2
        exact .hop comesNext (inductionHypothesis comesNext.1)
  · intro path
    induction path with
    | here isGoal =>
        exact .here ⟨(branches _).mpr isBranch, isGoal.2⟩
    | hop isNext _ inductionHypothesis =>
        exact
          .step ((edges _ _).mpr ⟨isBranch, isNext⟩)
            (inductionHypothesis isNext.1)

/-- The distances of the search are those of control. -/
theorem isControlDistance_of_isDistance
    (branches :
      ∀ bid, bid ∈ graph.branches ↔ bid ∈ branchesOf branchFiles)
    (edges :
      ∀ bid next,
        graph.Edge bid next ↔
          bid ∈ branchesOf branchFiles ∧
            ComesNext files branchFiles bid next)
    {bid : BranchId}
    (isBranch : bid ∈ branchesOf branchFiles)
    {dist : Nat}
    (isDistance : graph.IsDistance covered bid dist) :
    IsControlDistance files branchFiles covered bid dist := by
  have goals :
      ∀ goal, IsUncovered branchFiles covered goal →
        goal ∈ branchesOf branchFiles :=
    fun goal isGoal => isGoal.1
  unfold BranchGraph.IsDistance at isDistance
  simp only [stepsToUncovered_iff branches edges isBranch] at isDistance
  rcases isDistance with ⟨isNear, isLeast⟩ | ⟨isFar, isInfinite⟩
  · exact .inl ⟨isNear, (ThinnedGraph.isLeast_iff goals).mp isLeast⟩
  · exact
      .inr ⟨(ThinnedGraph.mem_lowerBounds_iff goals).mp isFar, isInfinite⟩

/--
The distances of the heuristic search in a program: `process_cfg` thins the
graph, the constructor of the search reads what it has written, and
`UpdateBranchDistances` measures.
-/
def heuristicDistances
    (garbage : Uninitialised)
    (branchesText funcMapText cfgText : List Char)
    (covered : List Bool)
    (dist : List Nat) : Option (List Nat) := do
  let bytes ← processCfg branchesText funcMapText cfgText
  let tables ← ofText branchesText
  let search ← constructSearch garbage tables bytes
  CfgDistance.updateBranchDistances search.2 covered tables.branches dist

/-- The search measures how many branches control has to enter. -/
theorem isControlDistance_heuristicDistances
    (garbage : Uninitialised)
    (ofProgram : OfProgram files branchFiles)
    {dist : List Nat}
    (sized :
      ∀ tables,
        ofText (BranchesFile.textOf branchFiles) = some tables →
        covered.length = tables.pairedBranch.length ∧
          dist.length = tables.pairedBranch.length) :
    ∃ final,
      heuristicDistances garbage (BranchesFile.textOf branchFiles)
          (cfgFuncMap files) (cfg files) covered dist =
        some final ∧
        ∀ bid ∈ branchesOf branchFiles,
          ∃ far,
            lookup? final bid = some far ∧
              IsControlDistance files branchFiles covered bid far := by
  obtain ⟨written, processed, writesNext⟩ := writesNext_processCfg ofProgram
  have read := ofText_textOf ofProgram.recorded
  have reconstructed := reconstructed_ofFile ofProgram.recorded
  obtain ⟨graph, cfgRev, constructed, maxBranch, branches, lists, edges⟩ :=
    constructSearch_bytesOf writesNext garbage ofProgram.recorded reconstructed
  have isBranch (bid : BranchId) :
      bid ∈ graph.branches ↔ bid ∈ branchesOf branchFiles := by
    rw [branches]
    exact reconstructed.branches.mem_iff
  obtain ⟨coveredSized, distSized⟩ := sized _ read
  obtain ⟨final, ran, distances⟩ :=
    BranchGraph.isDistance_updateBranchDistances lists
      (coveredSized.trans maxBranch.symm) (distSized.trans maxBranch.symm)
  refine ⟨final, ?_, fun bid member => ?_⟩
  · rw [branches] at ran
    simp only [heuristicDistances, processed, read, constructed,
      Option.bind_eq_bind, Option.bind_some]
    exact ran
  · obtain ⟨far, found, isDistance⟩ := distances bid ((isBranch bid).mpr member)
    exact
      ⟨far, found,
        isControlDistance_of_isDistance isBranch edges member isDistance⟩

end Distances

end CfgBranchesFile

end Compi
