import Mathlib.Logic.Function.Basic
import Compi.CoverageCheckpoint
import Compi.VariableIndices

/-!
# The exchange of coverage between processes

The processes of a launch write what they recorded to files when they exit, in
any order: the focus process its whole execution, the others the branches that
they reached.  The search reads these files after the launch.  A process that
does not exit normally leaves the file of an earlier launch in place.
-/

namespace Compi

open ByteStream
open BranchTables Coverage

namespace SymbolicPath

/-- `SerializeBranches`. -/
def serializeBranches (path : SymbolicPath) : List UInt8 :=
  toBytes 8 path.branchesSet.length ++ path.branchesSet.flatMap (toBytes 4)

/-- `ParseBranches`; a failure cuts the branches to what was read. -/
def parseBranches
    (garbage : Uninitialised)
    (path : SymbolicPath) : Reader (Except SymbolicPath SymbolicPath) := do
  let len ← readUnsigned 8 garbage.len
  let (bytes, available) ←
    read ((resize len 0 path.branches).flatMap (toBytes 4))
  let branches :=
    ofBlock (fun bytes => toSigned 32 (ofBytes bytes)) 4 len bytes
  match ← fail with
  | true =>
      return .error { path with branches := resize (available / 4) 0 branches }
  | false => return .ok { path with branches := branches }

/-- The branches that were written are read. -/
theorem reads_parseBranches
    (garbage : Uninitialised)
    {path : SymbolicPath}
    (old : SymbolicPath)
    (size : UnsignedRange 8 path.branchesSet.length)
    (inRange : ∀ bid ∈ path.branchesSet, SignedRange 4 bid) :
    Reads (parseBranches garbage old) path.serializeBranches
      (.ok { old with branches := path.branchesSet }) := by
  have decoded :
      ofBlock (fun bytes => toSigned 32 (ofBytes bytes)) 4
          path.branchesSet.length (path.branchesSet.flatMap (toBytes 4)) =
        path.branchesSet := by
    apply ofBlock_flatMap
    intro bid member
    exact ⟨length_toBytes 4 bid, bmod_ofBytes_toBytes (inRange bid member)⟩
  unfold parseBranches serializeBranches
  refine (reads_unsigned garbage.len size).bind ?_
  refine
    (reads_block (length_toBytes 4) old.branches path.branchesSet
      0).bind_nothing ?_
  refine reads_fail.nothing_bind ?_
  simp only [decoded]
  exact Reads.pure _

end SymbolicPath

section Reached

open Cil

namespace TargetCall

/-- The branch that a call takes in the focus process. -/
def branched : TargetCall → List BranchId
  | .inserted _ (.branch bid _) => [bid]
  | _ => []

/-- What a call enters in the set of reached branches. -/
def entered : TargetCall → List BranchId
  | .inserted _ (.branchOnly bid) => [bid]
  | .inserted _ (.call _) => [kCallId]
  | .inserted _ .returns => [kReturnId]
  | _ => []

end TargetCall

namespace SymbolicPath

/-- A path that grows by some branches, and some entries of the set. -/
structure Grows
    (path : SymbolicPath)
    (branched entered : List BranchId)
    (next : SymbolicPath) : Prop where
  branches : next.branches = path.branches ++ branched
  branchesSet :
    ∀ bid, bid ∈ next.branchesSet ↔ bid ∈ path.branchesSet ∨ bid ∈ entered

theorem Grows.refl (path : SymbolicPath) :
    Grows path [] [] path where
  branches := (List.append_nil _).symm
  branchesSet := by simp

theorem Grows.trans
    {path middle next : SymbolicPath}
    {branched entered branchedAfter enteredAfter : List BranchId}
    (first : Grows path branched entered middle)
    (second : Grows middle branchedAfter enteredAfter next) :
    Grows path (branched ++ branchedAfter) (entered ++ enteredAfter) next where
  branches := by
    rw [second.branches, first.branches, List.append_assoc]
  branchesSet := by
    intro bid
    rw [second.branchesSet, first.branchesSet, List.mem_append, or_assoc]

theorem grows_pushReached (path : SymbolicPath) (bid : BranchId) :
    Grows path [] [bid] (path.pushReached bid) where
  branches := (List.append_nil _).symm
  branchesSet := by
    intro query
    simp [pushReached, or_comm]

theorem grows_push
    (path : SymbolicPath)
    (bid : BranchId)
    (constraint : Option SymbolicPred)
    (state : BranchState) :
    Grows path [bid] [] (path.push bid constraint state) where
  branches := push_branches path bid constraint state
  branchesSet := by
    intro query
    unfold push
    split
    · simp
    · split <;> simp

end SymbolicPath

namespace Crest

variable {crest next : Crest}

theorem path_forwardTracked
    {event : SymbolicInterpreter.Event}
    (unmarked : event.marking = none)
    (kept : crest.si.pathAfter event = crest.si.ex.path)
    (forwarded : crest.forwardTracked event = some next) :
    next.si.ex.path = crest.si.ex.path := by
  unfold forwardTracked at forwarded
  split at forwarded
  · obtain rfl := Option.some.inj forwarded
    rfl
  · obtain ⟨si, stepped, rfl⟩ := Option.map_eq_some_iff.mp forwarded
    rw [← kept]
    exact (SymbolicInterpreter.keepsRecord_of_step unmarked stepped).2

theorem path_forward
    {event : SymbolicInterpreter.Event}
    (unmarked : event.marking = none)
    (forwarded : crest.forward event = some next) :
    next.si.ex.path = crest.si.pathAfter event := by
  obtain ⟨si, stepped, rfl⟩ := Option.map_eq_some_iff.mp forwarded
  exact (SymbolicInterpreter.keepsRecord_of_step unmarked stepped).2

theorem path_mark
    {event : SymbolicInterpreter.Event}
    (marks : event.marking.isSome)
    (marked : crest.mark event = some next) :
    next.si.ex.path = crest.si.ex.path := by
  obtain ⟨si, stepped, rfl⟩ := Option.map_eq_some_iff.mp marked
  obtain ⟨marking, isMarking⟩ := Option.isSome_iff_exists.mp marks
  exact (SymbolicInterpreter.records_of_step isMarking stepped).path

theorem path_rankNonDefaultComm2
    (crest : Crest)
    (here : Circumstances)
    (addr : Exp) :
    (crest.rankNonDefaultComm2 here addr).si.ex.path = crest.si.ex.path := by
  unfold rankNonDefaultComm2
  split
  · rfl
  · split <;> rfl

/-- What an inserted call does to the path. -/
theorem grows_perform
    {here : Circumstances}
    {call : RuntimeCall}
    (performed : crest.perform here call = some next) :
    crest.si.ex.path.Grows
      (TargetCall.branched (.inserted here call))
      (TargetCall.entered (.inserted here call))
      next.si.ex.path := by
  have unchanged :
      next.si.ex.path = crest.si.ex.path →
        crest.si.ex.path.Grows [] [] next.si.ex.path := by
    intro same
    rw [same]
    exact .refl _
  cases call with
  | load | store | clearStack | handleReturn =>
      exact unchanged (path_forwardTracked rfl rfl performed)
  | apply1 op value =>
      simp only [perform] at performed
      split at performed
      · exact unchanged (path_forwardTracked rfl rfl performed)
      · cases performed
  | apply2 op value =>
      simp only [perform] at performed
      split at performed
      · refine unchanged (path_forwardTracked ?_ ?_ performed)
        all_goals
          unfold apply2Event
          dsimp only
          split
          · rfl
          · rfl
      · cases performed
  | branch bid taken =>
      obtain rfl := Option.some.inj performed
      unfold TargetCall.branched TargetCall.entered
      dsimp only
      have atBranch :
          ∀ si : SymbolicInterpreter,
            si.ex.path = crest.si.ex.path →
              crest.si.ex.path.Grows [bid] []
                (si.branch bid taken).ex.path := by
        intro si same
        rw [← same]
        exact SymbolicPath.grows_push _ bid _ _
      split
      · exact atBranch _ rfl
      · exact atBranch _ rfl
  | branchOnly bid =>
      rw [path_forward rfl performed]
      exact SymbolicPath.grows_pushReached _ bid
  | call fid =>
      rw [path_forward rfl performed]
      exact SymbolicPath.grows_pushReached _ kCallId
  | returns =>
      rw [path_forward rfl performed]
      exact SymbolicPath.grows_pushReached _ kReturnId
  | rank | rankNonDefaultComm1 | worldSizeWithLimit =>
      exact unchanged (path_mark rfl performed)
  | rankNonDefaultComm2 comm addr =>
      obtain rfl := Option.some.inj performed
      exact unchanged (path_rankNonDefaultComm2 crest here addr)
  | getMPIInfo =>
      obtain rfl := Option.some.inj performed
      exact unchanged rfl

/-- What a call does to the path. -/
theorem grows_step
    {call : TargetCall}
    (stepped : crest.step call = some next) :
    crest.si.ex.path.Grows call.branched call.entered next.si.ex.path := by
  cases call with
  | marks event =>
      simp only [step] at stepped
      split at stepped
      · next marks =>
          rw [path_mark marks stepped]
          exact .refl _
      · cases stepped
  | inserted here call =>
      simp only [step] at stepped
      split at stepped
      · cases stepped
      · exact grows_perform stepped

/-- What some calls do to the path. -/
theorem grows_run
    {calls : List TargetCall}
    (ran : PartialRun.run? step crest calls = some next) :
    crest.si.ex.path.Grows
      (calls.flatMap TargetCall.branched)
      (calls.flatMap TargetCall.entered)
      next.si.ex.path := by
  induction calls generalizing crest with
  | nil =>
      obtain rfl := Option.some.inj ran
      exact .refl _
  | cons call rest inductionHypothesis =>
      obtain ⟨middle, stepped, restRan⟩ := PartialRun.run?_cons_eq_some.mp ran
      simp only [List.flatMap_cons]
      exact (grows_step stepped).trans (inductionHypothesis restRan)

end Crest

end Reached

/-- `szd_execution`, or the same with a rank at its end. -/
inductive ExecutionFile where
  | focus
  | other (rank : Int)
  deriving DecidableEq

/-- The contents of the files that exist. -/
abbrev ExecutionFiles : Type :=
  ExecutionFile → Option (List UInt8)

/-- A process that exits after some calls. -/
structure EndedProcess where
  input : List Value
  execTimes : Nat
  ranks : Int × Int × Int
  calls : List TargetCall
  crest : Crest
  ran :
    PartialRun.run? Crest.step
      (Crest.start input execTimes ranks.1 ranks.2.1 ranks.2.2) calls =
        some crest

namespace EndedProcess

variable (process : EndedProcess)

/-- The rank of the process when it exits. -/
def rank : Int :=
  process.crest.si.rank

/-- The rank that the process compares its own to. -/
def targetRank : Int :=
  process.crest.si.targetRank

/-- `outfile_name`. -/
def file : ExecutionFile :=
  if process.rank = process.targetRank then .focus else .other process.rank

/-- `buff`. -/
def encoded : Option (List UInt8) :=
  if process.rank = process.targetRank then
    process.crest.si.ex.serialize
  else
    some process.crest.si.ex.path.serializeBranches

/-- `__CrestAtExit`. -/
def atExit (files : ExecutionFiles) : Option ExecutionFiles :=
  process.encoded.map fun bytes =>
    Function.update files process.file (some bytes)

/-- The branches that a process writes. -/
def recorded : List BranchId :=
  if process.rank = process.targetRank then
    process.crest.si.ex.path.branches
  else
    process.crest.si.ex.path.branchesSet

/-- The branches that the calls of a process report. -/
def reached : List BranchId :=
  if process.rank = process.targetRank then
    process.calls.flatMap TargetCall.branched
  else
    process.calls.flatMap TargetCall.entered

theorem mem_recorded
    {process : EndedProcess}
    {bid : BranchId} :
    bid ∈ process.recorded ↔ bid ∈ process.reached := by
  have grows := Crest.grows_run process.ran
  unfold recorded reached
  split
  · rw [grows.branches]
    simp [Crest.start, SymbolicInterpreter.fresh, SymbolicExecution.empty,
      SymbolicPath.empty]
  · rw [grows.branchesSet]
    simp [Crest.start, SymbolicInterpreter.fresh, SymbolicExecution.empty,
      SymbolicPath.empty]

/-- What a process records fits its C++ types, and is about the program. -/
structure Writable (tables : BranchTables) : Prop where
  focus :
    process.rank = process.targetRank →
      process.crest.si.ex.Representable ∧
        ∀ p ∈ process.crest.si.ex.path.constraints, p.expr.coeff.size < 128
  other :
    process.rank ≠ process.targetRank →
      UnsignedRange 8 process.crest.si.ex.path.branchesSet.length ∧
        ∀ bid ∈ process.crest.si.ex.path.branchesSet, SignedRange 4 bid
  drawn : ∀ bid ∈ process.reached, bid ∈ tables.branches ∨ bid < 0

/-- A process writes something. -/
theorem Writable.exists_encoded
    {process : EndedProcess}
    {tables : BranchTables}
    (writable : process.Writable tables) :
    ∃ bytes, process.encoded = some bytes := by
  unfold encoded
  split
  · next focus =>
      exact SymbolicExecution.exists_serialize (writable.focus focus).2
  · exact ⟨_, rfl⟩

end EndedProcess

/-- The object of a search that an execution is read into. -/
abbrev ReadExecution : Type :=
  Except (SymbolicExecution × PathRemains) SymbolicExecution

/-- What is left of an execution. -/
def ReadExecution.object : ReadExecution → SymbolicExecution
  | .ok ex => ex
  | .error (ex, remains) =>
      { ex with path := { ex.path with branches := remains.branches } }

/-- The configuration of a search, the files, and what the search has read. -/
structure Campaign where
  targetRank : Int
  commWorldSize : Int
  files : ExecutionFiles
  ex : ReadExecution
  coverage : Coverage

/--
A launch in some configuration, the exit of one of its processes, the end of
`RunProgram` and the call of `UpdateCoverage`, with a new or the last object,
or a search that starts again.
-/
inductive CampaignEvent where
  | launch (targetRank commWorldSize : Int)
  | exit (process : EndedProcess)
  | collect (isNew : Bool)
  | restart

/-- The process that exits in an event. -/
def CampaignEvent.exited : CampaignEvent → List EndedProcess
  | .launch _ _ => []
  | .exit process => [process]
  | .collect _ => []
  | .restart => []

namespace Campaign

/-- A search in a directory without files. -/
def start (coverage : Coverage) : Campaign where
  targetRank := 0
  commWorldSize := 0
  files := fun _ => none
  ex := .ok .empty
  coverage := coverage

variable (garbage : Uninitialised)

/-- The end of `RunProgram`; without a file, the object stays as it is. -/
def readExecution (campaign : Campaign) (isNew : Bool) : ReadExecution :=
  let into := if isNew then .empty else campaign.ex.object
  match campaign.files .focus with
  | none => .ok into
  | some bytes =>
      (SymbolicExecution.parse garbage into
        { rest := bytes, failed := false }).1

/-- The branches that `UpdateCoverage` reads from a file, if it can. -/
def readBranches (campaign : Campaign) (rank : Nat) : Option (List BranchId) :=
  (campaign.files (.other rank)).bind fun bytes =>
    match (SymbolicPath.parseBranches garbage .empty
        { rest := bytes, failed := false }).1 with
    | .ok path => some path.branches
    | .error _ => none

/-- `ex_all_others`. -/
def allOthers (campaign : Campaign) : List (List BranchId) :=
  ((List.range campaign.commWorldSize.toNat).filter fun rank : Nat =>
      decide ((rank : Int) ≠ campaign.targetRank)).filterMap
    (campaign.readBranches garbage)

variable (tables : BranchTables)

/-- One step of a search and its processes. -/
def step (campaign : Campaign) : CampaignEvent → Option Campaign
  | .launch targetRank commWorldSize =>
      some
        { campaign with
          targetRank := targetRank
          commWorldSize := commWorldSize }
  | .exit process =>
      (process.atExit campaign.files).map fun files =>
        { campaign with files := files }
  | .collect isNew =>
      let read := campaign.readExecution garbage isNew
      (campaign.coverage.updateCoverage tables read.object.path.branches
          (campaign.allOthers garbage)).map fun updated =>
        { campaign with
          ex := read
          coverage := updated.1 }
  | .restart => some { campaign with coverage := campaign.coverage.restart }

section Exchange

/-- The last of some processes that wrote a file. -/
def lastExit
    (exits : List EndedProcess)
    (file : ExecutionFile) : Option EndedProcess :=
  (exits.filter fun process => decide (process.file = file)).getLast?

theorem lastExit_concat
    (exits : List EndedProcess)
    (process : EndedProcess)
    (file : ExecutionFile) :
    lastExit (exits ++ [process]) file =
      if process.file = file then some process else lastExit exits file := by
  unfold lastExit
  rw [List.filter_append]
  split
  · next same => simp [same]
  · next other => simp [other]

theorem lastExit_eq_some
    {exits : List EndedProcess}
    {file : ExecutionFile}
    {process : EndedProcess}
    (isLast : lastExit exits file = some process) :
    process ∈ exits ∧ process.file = file := by
  have member := List.mem_of_getLast? isLast
  rw [List.mem_filter, decide_eq_true_eq] at member
  exact member

/-- The last of several exits, when no two processes share a file. -/
theorem lastExit_append_of_distinct
    {before exits : List EndedProcess}
    (distinct : (exits.map EndedProcess.file).Nodup)
    {process : EndedProcess}
    (member : process ∈ exits) :
    lastExit (before ++ exits) process.file = some process := by
  induction exits using List.reverseRecOn with
  | nil => cases member
  | append_singleton exits last inductionHypothesis =>
      rw [List.map_append, List.nodup_append] at distinct
      obtain ⟨distinctBefore, -, apart⟩ := distinct
      rw [← List.append_assoc, lastExit_concat]
      rcases List.mem_append.mp member with earlier | isLast
      · have otherFile : last.file ≠ process.file := by
          intro same
          exact apart process.file (List.mem_map_of_mem earlier) last.file
            (by simp) same.symm
        rw [if_neg otherFile]
        exact inductionHypothesis distinctBefore earlier
      · rw [List.mem_singleton.mp isLast, if_pos rfl]

/-- The files and the coverage are what some exits have left. -/
structure Exchanged
    (tables : BranchTables)
    (initial : Coverage)
    (exits : List EndedProcess)
    (campaign : Campaign) : Prop where
  writable : ∀ process ∈ exits, process.Writable tables
  files :
    ∀ file, campaign.files file = (lastExit exits file).bind (·.encoded)
  read :
    ∀ bid ∈ campaign.ex.object.path.branches,
      ∃ process ∈ exits, bid ∈ process.reached
  accounted : Accounted tables campaign.coverage
  bounded : campaign.coverage.numCovered < 2 ^ 32
  covered :
    ∀ bid ∈ setBits campaign.coverage.totalCovered,
      bid ∈ setBits initial.totalCovered ∨
        ∃ process ∈ exits, bid ∈ process.reached

variable (garbage : Uninitialised)
variable {tables : BranchTables}
variable {initial : Coverage}
variable {exits : List EndedProcess}
variable {campaign : Campaign}

/-- The search reads what the last process of a rank has recorded. -/
theorem Exchanged.readBranches
    (exchanged : Exchanged tables initial exits campaign)
    (rank : Nat) :
    campaign.readBranches garbage rank =
      (lastExit exits (.other rank)).map (·.recorded) := by
  unfold Campaign.readBranches
  rw [exchanged.files]
  cases isLast : lastExit exits (.other rank) with
  | none => rfl
  | some process =>
      obtain ⟨member, sameFile⟩ := lastExit_eq_some isLast
      have isOther : process.rank ≠ process.targetRank := by
        intro focus
        rw [EndedProcess.file, if_pos focus] at sameFile
        cases sameFile
      obtain ⟨size, inRange⟩ := (exchanged.writable process member).other isOther
      have reads :=
        SymbolicPath.reads_parseBranches garbage .empty size inRange []
      rw [List.append_nil] at reads
      simp only [Option.bind_some, EndedProcess.encoded, if_neg isOther, reads,
        Option.map_some, EndedProcess.recorded]

/-- The search reads the execution of the last focus process. -/
theorem Exchanged.readExecution
    (exchanged : Exchanged tables initial exits campaign)
    (isNew : Bool) :
    ∃ ex,
      campaign.readExecution garbage isNew = .ok ex ∧
        (∀ bid ∈ ex.path.branches,
          ∃ process ∈ exits, bid ∈ process.reached) ∧
        ∀ process,
          lastExit exits .focus = some process →
            SymbolicExecution.Recovers process.crest.si.numInputs
                process.crest.si.ex ex ∧
              ex.path.branches = process.recorded := by
  unfold Campaign.readExecution
  rw [exchanged.files]
  cases isLast : lastExit exits .focus with
  | none =>
      refine ⟨_, rfl, ?_, fun process isProcess => by cases isProcess⟩
      intro bid member
      cases isNew with
      | true => cases member
      | false => exact exchanged.read bid member
  | some process =>
      obtain ⟨member, sameFile⟩ := lastExit_eq_some isLast
      have focus : process.rank = process.targetRank := by
        by_contra isOther
        rw [EndedProcess.file, if_neg isOther] at sameFile
        cases sameFile
      obtain ⟨bytes, encoded⟩ :=
        (exchanged.writable process member).exists_encoded
      have serialized : process.crest.si.ex.serialize = some bytes := by
        rw [EndedProcess.encoded, if_pos focus] at encoded
        exact encoded
      have indexed := Crest.indexed_of_run process.ran
      obtain ⟨ex, parsed, recovers⟩ :=
        SymbolicExecution.exists_recovers garbage
          (if isNew then .empty else campaign.ex.object) []
          ((exchanged.writable process member).focus focus).1
          indexed.keys indexed.covered indexed.aligned serialized
      have branches : ex.path.branches = process.recorded := by
        rw [recovers.branches, EndedProcess.recorded, if_pos focus]
      rw [List.append_nil] at parsed
      refine ⟨ex, ?_, ?_, ?_⟩
      · simp only [Option.bind_some, encoded, parsed]
      · intro bid inBranches
        rw [branches] at inBranches
        exact ⟨process, member, EndedProcess.mem_recorded.mp inBranches⟩
      · intro other isOther
        cases isOther
        exact ⟨recovers, branches⟩

theorem Exchanged.mem_allOthers
    (exchanged : Exchanged tables initial exits campaign)
    {branches : List BranchId} :
    branches ∈ campaign.allOthers garbage ↔
      ∃ rank : Nat,
        (rank : Int) < campaign.commWorldSize ∧
          (rank : Int) ≠ campaign.targetRank ∧
          ∃ process,
            lastExit exits (.other rank) = some process ∧
              process.recorded = branches := by
  unfold Campaign.allOthers
  simp only [List.mem_filterMap, List.mem_filter, List.mem_range,
    decide_eq_true_eq, exchanged.readBranches garbage, Option.map_eq_some_iff,
    Int.lt_toNat, and_assoc]

theorem mem_positives_iff
    {branches : List BranchId}
    {bid : BranchId} :
    bid ∈ positives branches ↔ bid ∈ branches ∧ 0 < bid := by
  simp [positives]

/-- Reading the files changes nothing but the coverage. -/
theorem Exchanged.collect
    (exchanged : Exchanged tables initial exits campaign)
    (wellFormed : WellFormed tables)
    (isNew : Bool) :
    ∃ next ex,
      campaign.step garbage tables (.collect isNew) = some next ∧
        Exchanged tables initial exits next ∧
        campaign.readExecution garbage isNew = .ok ex ∧
        next.ex = .ok ex ∧
        setBits next.coverage.covered =
          setBits campaign.coverage.covered ∪
            positives
              (reported ex.path.branches (campaign.allOthers garbage)) ∧
        setBits campaign.coverage.totalCovered ⊆
          setBits next.coverage.totalCovered := by
  obtain ⟨ex, isRead, fromExits, -⟩ := exchanged.readExecution garbage isNew
  have reachedBy :
      ∀ bid ∈ reported ex.path.branches (campaign.allOthers garbage),
        ∃ process ∈ exits, bid ∈ process.reached := by
    intro bid member
    rcases List.mem_append.mp member with inFocus | inOthers
    · exact fromExits bid inFocus
    · obtain ⟨branches, listed, inBranches⟩ := List.mem_flatten.mp inOthers
      obtain ⟨rank, -, -, process, isLast, rfl⟩ :=
        (exchanged.mem_allOthers garbage).mp listed
      exact ⟨process, (lastExit_eq_some isLast).1,
        EndedProcess.mem_recorded.mp inBranches⟩
  have drawn :
      ∀ bid ∈ reported ex.path.branches (campaign.allOthers garbage),
        bid ∈ tables.branches ∨ bid < 0 := by
    intro bid member
    obtain ⟨process, exited, reached⟩ := reachedBy bid member
    exact (exchanged.writable process exited).drawn bid reached
  obtain ⟨coverage, newBranches, updated, visited⟩ :=
    updateCoverage_spec wellFormed exchanged.accounted exchanged.bounded drawn
  refine ⟨{ campaign with ex := .ok ex, coverage := coverage }, ex, ?_, ?_,
    isRead, rfl, visited.covered, ?_⟩
  · simp only [Campaign.step, isRead, ReadExecution.object, updated,
      Option.map_some]
  · constructor
    · exact exchanged.writable
    · exact exchanged.files
    · exact fromExits
    · exact visited.accounted
    · rw [visited.numCovered]
      exact Nat.mod_lt _ (by decide)
    · intro bid member
      rw [visited.totalCovered, Finset.mem_union] at member
      rcases member with before | isNewBranch
      · exact exchanged.covered bid before
      · exact Or.inr (reachedBy bid (mem_positives_iff.mp isNewBranch).1)
  · rw [visited.totalCovered]
    exact Finset.subset_union_left

/-- A process that exits leaves its file. -/
theorem Exchanged.exit
    (exchanged : Exchanged tables initial exits campaign)
    {process : EndedProcess}
    (writable : process.Writable tables) :
    ∃ files,
      campaign.step garbage tables (.exit process) =
          some { campaign with files := files } ∧
        Exchanged tables initial (exits ++ [process])
          { campaign with files := files } := by
  obtain ⟨bytes, encoded⟩ := writable.exists_encoded
  refine ⟨Function.update campaign.files process.file (some bytes), ?_, ?_⟩
  · simp only [Campaign.step, EndedProcess.atExit, encoded, Option.map_some]
  · constructor
    · intro other member
      rcases List.mem_append.mp member with before | isProcess
      · exact exchanged.writable other before
      · rw [List.mem_singleton.mp isProcess]
        exact writable
    · intro file
      rw [lastExit_concat]
      by_cases same : process.file = file
      · subst same
        simp [encoded]
      · rw [if_neg same, ← exchanged.files file]
        exact Function.update_of_ne (Ne.symm same) _ _
    · intro bid member
      obtain ⟨other, exited, reached⟩ := exchanged.read bid member
      exact ⟨other, List.mem_append_left _ exited, reached⟩
    · exact exchanged.accounted
    · exact exchanged.bounded
    · intro bid member
      rcases exchanged.covered bid member with before | later
      · exact Or.inl before
      · obtain ⟨other, exited, reached⟩ := later
        exact Or.inr ⟨other, List.mem_append_left _ exited, reached⟩

/-- A launch leaves the files and the coverage as they are. -/
theorem Exchanged.configured
    (exchanged : Exchanged tables initial exits campaign)
    (targetRank commWorldSize : Int) :
    Exchanged tables initial exits
      { campaign with
        targetRank := targetRank
        commWorldSize := commWorldSize } where
  writable := exchanged.writable
  files := exchanged.files
  read := exchanged.read
  accounted := exchanged.accounted
  bounded := exchanged.bounded
  covered := exchanged.covered

/-- A search that starts again has the same branches in total. -/
theorem Exchanged.restart
    (exchanged : Exchanged tables initial exits campaign) :
    Exchanged tables initial exits
      { campaign with coverage := campaign.coverage.restart } where
  writable := exchanged.writable
  files := exchanged.files
  read := exchanged.read
  accounted := by
    have kept :
        CoverageSession.Kept tables
          { coverage := campaign.coverage
            file := writeCoverage tables campaign.coverage.totalCovered } :=
      ⟨exchanged.accounted, exchanged.bounded, rfl⟩
    exact kept.restart.accounted
  bounded := exchanged.bounded
  covered := exchanged.covered

/-- Every event steps, and no branch is forgotten. -/
theorem Exchanged.step
    (exchanged : Exchanged tables initial exits campaign)
    (wellFormed : WellFormed tables)
    {event : CampaignEvent}
    (writable : ∀ process ∈ event.exited, process.Writable tables) :
    ∃ next,
      campaign.step garbage tables event = some next ∧
        Exchanged tables initial (exits ++ event.exited) next ∧
        setBits campaign.coverage.totalCovered ⊆
          setBits next.coverage.totalCovered := by
  cases event with
  | launch targetRank commWorldSize =>
      refine ⟨_, rfl, ?_, Finset.Subset.refl _⟩
      rw [CampaignEvent.exited, List.append_nil]
      exact exchanged.configured targetRank commWorldSize
  | exit process =>
      obtain ⟨files, stepped, after⟩ :=
        exchanged.exit garbage (writable process (List.mem_singleton.mpr rfl))
      exact ⟨_, stepped, after, Finset.Subset.refl _⟩
  | collect isNew =>
      obtain ⟨next, ex, stepped, after, -, -, -, kept⟩ :=
        exchanged.collect garbage wellFormed isNew
      refine ⟨next, stepped, ?_, kept⟩
      rw [CampaignEvent.exited, List.append_nil]
      exact after
  | restart =>
      refine ⟨_, rfl, ?_, Finset.Subset.refl _⟩
      rw [CampaignEvent.exited, List.append_nil]
      exact exchanged.restart

/-- The processes that exit in some events. -/
def exitsOf (events : List CampaignEvent) : List EndedProcess :=
  events.flatMap CampaignEvent.exited

/-- Every run goes through, and no branch is forgotten. -/
theorem Exchanged.run
    (exchanged : Exchanged tables initial exits campaign)
    (wellFormed : WellFormed tables)
    {events : List CampaignEvent}
    (writable : ∀ process ∈ exitsOf events, process.Writable tables) :
    ∃ final,
      PartialRun.run? (Campaign.step garbage tables) campaign events =
          some final ∧
        Exchanged tables initial (exits ++ exitsOf events) final ∧
        setBits campaign.coverage.totalCovered ⊆
          setBits final.coverage.totalCovered := by
  induction events generalizing exits campaign with
  | nil =>
      refine ⟨campaign, rfl, ?_, Finset.Subset.refl _⟩
      rw [exitsOf, List.flatMap_nil, List.append_nil]
      exact exchanged
  | cons event rest inductionHypothesis =>
      have inRest : ∀ process ∈ exitsOf rest, process ∈ exitsOf (event :: rest) :=
        fun process member => List.mem_append_right _ member
      obtain ⟨next, stepped, after, kept⟩ :=
        exchanged.step garbage wellFormed
          fun process member =>
            writable process (List.mem_append_left _ member)
      obtain ⟨final, ran, atEnd, keptAfter⟩ :=
        inductionHypothesis after fun process member =>
          writable process (inRest process member)
      refine ⟨final, ?_, ?_, kept.trans keptAfter⟩
      · rw [PartialRun.run?_cons_eq_some]
        exact ⟨next, stepped, ran⟩
      · rw [exitsOf, List.flatMap_cons, ← List.append_assoc]
        exact atEnd

/-- A launch in some configuration, its exits in some order, and the reading. -/
def launchOf
    (targetRank commWorldSize : Int)
    (processes : List EndedProcess)
    (isNew : Bool) : List CampaignEvent :=
  .launch targetRank commWorldSize ::
    (processes.map .exit ++ [.collect isNew])

/-- Processes of different ranks of a launch; some may be missing. -/
structure OfLaunch
    (targetRank commWorldSize : Int)
    (processes : List EndedProcess) : Prop where
  target : ∀ process ∈ processes, process.targetRank = targetRank
  inWorld :
    ∀ process ∈ processes,
      0 ≤ process.rank ∧ process.rank < commWorldSize
  distinct : (processes.map EndedProcess.rank).Nodup

theorem OfLaunch.distinctFiles
    {targetRank commWorldSize : Int}
    {processes : List EndedProcess}
    (ofLaunch : OfLaunch targetRank commWorldSize processes) :
    (processes.map EndedProcess.file).Nodup := by
  have ranks := List.pairwise_map.mp ofLaunch.distinct
  refine List.pairwise_map.mpr (ranks.imp_of_mem ?_)
  intro first second inFirst inSecond apart sameFile
  unfold EndedProcess.file at sameFile
  rw [ofLaunch.target first inFirst, ofLaunch.target second inSecond]
    at sameFile
  split at sameFile
  · next firstIsFocus =>
      split at sameFile
      · next secondIsFocus =>
          exact apart (firstIsFocus.trans secondIsFocus.symm)
      · cases sameFile
  · split at sameFile
    · cases sameFile
    · exact apart (ExecutionFile.other.inj sameFile)

theorem exitsOf_map_exit (processes : List EndedProcess) :
    exitsOf (processes.map .exit) = processes := by
  induction processes with
  | nil => rfl
  | cons process rest inductionHypothesis =>
      rw [List.map_cons, exitsOf, List.flatMap_cons, ← exitsOf,
        inductionHypothesis]
      rfl

/-- Exits leave the configuration and what was read as they are. -/
theorem run_exits
    {processes : List EndedProcess}
    {final : Campaign}
    (ran :
      PartialRun.run? (Campaign.step garbage tables) campaign
        (processes.map .exit) = some final) :
    ∃ files, final = { campaign with files := files } := by
  induction processes generalizing campaign with
  | nil =>
      obtain rfl := Option.some.inj ran
      exact ⟨_, rfl⟩
  | cons process rest inductionHypothesis =>
      obtain ⟨next, stepped, restRan⟩ := PartialRun.run?_cons_eq_some.mp ran
      obtain ⟨files, -, rfl⟩ := Option.map_eq_some_iff.mp stepped
      obtain ⟨lastFiles, rfl⟩ := inductionHypothesis restRan
      exact ⟨lastFiles, rfl⟩

/--
What one launch brings: the branches of all its processes are covered, and the
search has the execution of the focus process.
-/
theorem Exchanged.launch
    (exchanged : Exchanged tables initial exits campaign)
    (wellFormed : WellFormed tables)
    {targetRank commWorldSize : Int}
    {processes : List EndedProcess}
    (isNew : Bool)
    (ofLaunch : OfLaunch targetRank commWorldSize processes)
    (writable : ∀ process ∈ processes, process.Writable tables) :
    ∃ next ex,
      PartialRun.run? (Campaign.step garbage tables) campaign
          (launchOf targetRank commWorldSize processes isNew) = some next ∧
        Exchanged tables initial (exits ++ processes) next ∧
        setBits campaign.coverage.totalCovered ⊆
          setBits next.coverage.totalCovered ∧
        next.ex = .ok ex ∧
        ∀ process ∈ processes,
          positives process.reached ⊆ setBits next.coverage.covered ∧
            (process.rank = process.targetRank →
              SymbolicExecution.Recovers process.crest.si.numInputs
                process.crest.si.ex ex) := by
  have afterLaunch := exchanged.configured targetRank commWorldSize
  have exitsWritable :
      ∀ process ∈ exitsOf (processes.map .exit), process.Writable tables := by
    rw [exitsOf_map_exit]
    exact writable
  obtain ⟨exited, exitsRan, afterExits, keptByExits⟩ :=
    afterLaunch.run garbage wellFormed exitsWritable
  rw [exitsOf_map_exit] at afterExits
  obtain ⟨files, rfl⟩ := run_exits garbage exitsRan
  obtain
    ⟨next, ex, collected, afterCollect, isRead, isEx, covered, keptByCollect⟩ :=
    afterExits.collect garbage wellFormed isNew
  obtain ⟨sameEx, isSameEx, -, fromFocus⟩ :=
    afterExits.readExecution garbage isNew
  obtain rfl := Except.ok.inj (isSameEx.symm.trans isRead)
  have isLast :
      ∀ process ∈ processes,
        lastExit (exits ++ processes) process.file = some process :=
    fun process member =>
      lastExit_append_of_distinct ofLaunch.distinctFiles member
  refine ⟨next, sameEx, ?_, afterCollect, keptByCollect, isEx, ?_⟩
  · rw [launchOf, PartialRun.run?_cons_eq_some]
    refine ⟨_, rfl, ?_⟩
    rw [PartialRun.run?_append_eq_some]
    refine ⟨_, exitsRan, ?_⟩
    rw [PartialRun.run?_cons_eq_some]
    exact ⟨next, collected, rfl⟩
  · intro process member
    have ownLast := isLast process member
    by_cases focus : process.rank = process.targetRank
    · rw [EndedProcess.file, if_pos focus] at ownLast
      obtain ⟨recovers, branches⟩ := fromFocus process ownLast
      refine ⟨?_, fun _ => recovers⟩
      intro bid reached
      rw [mem_positives_iff] at reached
      rw [covered, Finset.mem_union, mem_positives_iff, branches]
      have listed : bid ∈ process.recorded :=
        EndedProcess.mem_recorded.mpr reached.1
      exact Or.inr ⟨List.mem_append_left _ listed, reached.2⟩
    · refine ⟨?_, fun isFocus => absurd isFocus focus⟩
      rw [EndedProcess.file, if_neg focus] at ownLast
      obtain ⟨nonneg, below⟩ := ofLaunch.inWorld process member
      obtain ⟨rank, isRank⟩ := Int.eq_ofNat_of_zero_le nonneg
      have listed :
          process.recorded ∈
            Campaign.allOthers garbage
              { campaign with
                targetRank := targetRank
                commWorldSize := commWorldSize
                files := files } := by
        rw [afterExits.mem_allOthers garbage]
        refine ⟨rank, ?_, ?_, process, ?_, rfl⟩
        · rw [← isRank]
          exact below
        · rw [← isRank, ← ofLaunch.target process member]
          exact focus
        · rw [← isRank]
          exact ownLast
      intro bid reached
      rw [mem_positives_iff] at reached
      rw [covered, Finset.mem_union, mem_positives_iff]
      have inOthers : bid ∈ (Campaign.allOthers garbage _).flatten :=
        List.mem_flatten.mpr
          ⟨_, listed, EndedProcess.mem_recorded.mpr reached.1⟩
      exact Or.inr ⟨List.mem_append_right _ inOthers, reached.2⟩

/-- Two conditionals in one function. -/
def fourBranches : BranchTables where
  branches := [1, 2, 3, 4]
  pairedBranch := [0, 2, 1, 4, 3]
  branchFunction := [0, 1, 1, 1, 1]
  branchCount := [0, 4]

/-- A process of two, with some input. -/
def alone : Circumstances where
  addr := fun _ => 0
  value := fun _ => 0
  pointee := fun _ => 0
  rank := 0
  targetRank := 0
  worldSize := 2
  focus := -1
  gathered := []

/-- The focus process, which takes two branches. -/
def focusOfTwo : EndedProcess where
  input := [7]
  execTimes := 1
  ranks := (0, 0, 2)
  calls :=
    [.inserted alone (.call 1), .inserted alone (.branch 1 true),
      .inserted alone (.branch 4 false)]
  crest :=
    (PartialRun.run? Crest.step (Crest.start [7] 1 0 0 2)
      [.inserted alone (.call 1), .inserted alone (.branch 1 true),
        .inserted alone (.branch 4 false)]).getD (Crest.start [] 0 0 0 0)
  ran := rfl

/-- The other process, which takes one branch in a function. -/
def otherOfTwo : EndedProcess where
  input := []
  execTimes := 1
  ranks := (1, 0, 2)
  calls := [.inserted alone (.call 1), .inserted alone (.branchOnly 3)]
  crest :=
    (PartialRun.run? Crest.step (Crest.start [] 1 1 0 2)
      [.inserted alone (.call 1), .inserted alone (.branchOnly 3)]).getD
        (Crest.start [] 0 0 0 0)
  ran := rfl

theorem writable_focusOfTwo : focusOfTwo.Writable fourBranches where
  focus := by
    intro _
    have path : focusOfTwo.crest.si.ex.path.Representable :=
      { branchesSize := by decide
        branches := by decide
        constraintsSize := by decide
        constraintsIdx := by decide
        constraints := fun p member => by cases member }
    refine ⟨?_, fun p member => by cases member⟩
    exact
      { vars := by decide
        inputs := by decide
        executionTag := by decide
        limitsSize := by decide
        limits := by decide
        idsSize := by decide
        rankNonDefaultCommMapSize := by decide
        path := path }
  other := fun isOther => absurd rfl isOther
  drawn := by decide

theorem writable_otherOfTwo : otherOfTwo.Writable fourBranches where
  focus := by
    intro isFocus
    exact absurd isFocus (by decide)
  other := fun _ => ⟨by decide, by decide⟩
  drawn := by decide

end Exchange

end Campaign

end Compi
