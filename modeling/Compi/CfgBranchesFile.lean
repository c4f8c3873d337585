import Compi.BranchDistances
import Compi.CfgRoundTrip
import Compi.CfgThinning
import Compi.ExecutionRoundTrip
import Compi.ReconstructedTables

/-!
# The file of the thinned graph

`process_cfg` writes the thinned graph as bytes, branch after branch, and the
constructor of the heuristic search reads it into a table that it reverses.
-/

namespace Compi

open ByteStream BranchTables

namespace CfgGraph

/--
The graph that is read, if no edge leaves it; to follow one that does is
undefined.
-/
def ofGraph? (graph : CfgFiles.Graph) : Option CfgGraph :=
  if inside :
      ∀ edges ∈ graph, ∀ edge ∈ edges, 0 ≤ edge.1 ∧ edge.1 < graph.length then
    some {
      neighbours :=
        graph.map fun edges => edges.map fun edge => (edge.1.toNat, edge.2)
      closed := by
        intro edges member edge isEdge
        obtain ⟨original, isOriginal, rfl⟩ := List.mem_map.mp member
        obtain ⟨before, isBefore, rfl⟩ := List.mem_map.mp isEdge
        obtain ⟨nonnegative, below⟩ := inside original isOriginal before isBefore
        rw [List.length_map]
        exact (Int.toNat_lt nonnegative).mpr below }
  else
    none

end CfgGraph

namespace CfgBranchesFile

section Writing

/-- The branches as indices of the graph. -/
def indicesOf (branches : OrderedSet BranchId) : OrderedSet Nat :=
  branches.toList.foldl (fun indices bid => indices.insert bid.toNat) ∅

/-- What is written for a branch: its id, and its neighbours after their number. -/
def entryBytes (entry : Nat × List Nat) : List UInt8 :=
  toBytes 4 entry.1 ++
    (toBytes 8 entry.2.length ++ entry.2.flatMap fun bid : Nat => toBytes 4 bid)

/-- What is written for the thinned graph. -/
def bytesOf (written : List (Nat × List Nat)) : List UInt8 :=
  toBytes 8 written.length ++ written.flatMap entryBytes

/-- `main` of `process_cfg`, on the texts of the files that it reads. -/
def processCfg
    (branchesText funcMapText cfgText : List Char) : Option (List UInt8) := do
  let branches ← readBranches branchesText
  let cfg ← CfgFiles.readCfg funcMapText cfgText
  let graph ← CfgGraph.ofGraph? cfg
  let written ← graph.thin (indicesOf branches)
  return toBytes 8 branches.size ++ written.flatMap entryBytes

end Writing

section Reading

/-- A round of the loop that reads the neighbours of a branch. -/
def readEntry
    (garbage : Uninitialised)
    (cfg : List (List BranchId)) : Reader (Option (List (List BranchId))) := do
  let src ← readSigned 4 garbage.id
  let len ← readUnsigned 8 garbage.len
  match lookup? cfg src with
  | none => return none
  | some old =>
      let (bytes, _) ← read ((resize len 0 old).flatMap (toBytes 4))
      let targets :=
        ofBlock (fun bytes => toSigned 32 (ofBytes bytes)) 4 len bytes
      return some (update cfg src targets)

/-- The loop over the branches. -/
def readEntries (garbage : Uninitialised) :
    Nat → List (List BranchId) → Reader (Option (List (List BranchId)))
  | 0, cfg => return some cfg
  | count + 1, cfg => do
      match ← readEntry garbage cfg with
      | none => return none
      | some cfg => readEntries garbage count cfg

/-- The vector `cfg_`, if there are as many entries as branches. -/
def readCfgBranches
    (garbage : Uninitialised)
    (tables : BranchTables) : Reader (Option (List (List BranchId))) := do
  let numBranches ← readUnsigned 8 garbage.len
  if numBranches = tables.branches.length then
    readEntries garbage numBranches
      (List.replicate tables.pairedBranch.length [])
  else
    return none

/-- The constructor of `CfgHeuristicSearch`: the vectors `cfg_` and `cfg_rev_`. -/
def constructSearch
    (garbage : Uninitialised)
    (tables : BranchTables)
    (bytes : List UInt8) :
    Option (List (List BranchId) × List (List BranchId)) := do
  let cfg ←
    (readCfgBranches garbage tables { rest := bytes, failed := false }).1
  let cfgRev ←
    CfgDistance.reverseCfg tables.pairedBranch.length tables.branches cfg
  return (cfg, cfgRev)

end Reading

section RoundTrip

/-- An entry as the search has it. -/
def branchEntry (entry : Nat × List Nat) : BranchId × List BranchId :=
  (entry.1, entry.2.map fun bid : Nat => (bid : BranchId))

/-- The numbers of an entry are those of the types that they are written as. -/
structure Representable (entry : Nat × List Nat) : Prop where
  src : SignedRange 4 entry.1
  len : UnsignedRange 8 entry.2.length
  targets : ∀ bid ∈ entry.2, SignedRange 4 (bid : BranchId)

variable
  {entry : Nat × List Nat}
  {cfg : List (List BranchId)}

/-- The entry of a branch is set to what was written. -/
theorem reads_readEntry
    (garbage : Uninitialised)
    (representable : Representable entry)
    (inRange : (entry.1 : BranchId) < cfg.length) :
    Reads (readEntry garbage cfg) (entryBytes entry)
      (some (update cfg (branchEntry entry).1 (branchEntry entry).2)) := by
  have below : (0 : BranchId) ≤ entry.1 ∧ (entry.1 : BranchId) < cfg.length :=
    ⟨Int.natCast_nonneg _, inRange⟩
  obtain ⟨old, found⟩ := lookup?_of_inRange below
  have block :
      (entry.2.flatMap fun bid : Nat => toBytes 4 bid) =
        (branchEntry entry).2.flatMap (toBytes 4) := by
    rw [branchEntry, List.flatMap_map]
  have sameLength : entry.2.length = (branchEntry entry).2.length := by
    rw [branchEntry, List.length_map]
  have decoded :
      ofBlock (fun bytes => toSigned 32 (ofBytes bytes)) 4
          (branchEntry entry).2.length
          ((branchEntry entry).2.flatMap (toBytes 4)) =
        (branchEntry entry).2 := by
    refine ofBlock_flatMap fun bid member => ?_
    obtain ⟨target, isTarget, rfl⟩ := List.mem_map.mp member
    exact
      ⟨length_toBytes 4 _,
        bmod_ofBytes_toBytes (representable.targets target isTarget)⟩
  unfold readEntry entryBytes
  refine (reads_signed garbage.id representable.src).bind ?_
  refine (reads_unsigned garbage.len representable.len).bind ?_
  simp only [found]
  rw [block, sameLength]
  refine
    (reads_block (length_toBytes 4) old (branchEntry entry).2
      0).bind_nothing ?_
  simp only [decoded]
  exact Reads.pure _

/-- The entries are read one after the other. -/
theorem reads_readEntries
    (garbage : Uninitialised)
    {written : List (Nat × List Nat)}
    (representable : ∀ entry ∈ written, Representable entry)
    (inRange : ∀ entry ∈ written, (entry.1 : BranchId) < cfg.length) :
    Reads (readEntries garbage written.length cfg)
      (written.flatMap entryBytes)
      (some (updateAll cfg (written.map branchEntry))) := by
  induction written generalizing cfg with
  | nil =>
      exact Reads.pure _
  | cons entry rest inductionHypothesis =>
      obtain ⟨isRepresentable, areLater⟩ := List.forall_mem_cons.mp representable
      obtain ⟨isInRange, laterInRange⟩ := List.forall_mem_cons.mp inRange
      rw [List.flatMap_cons]
      refine
        (reads_readEntry garbage isRepresentable isInRange).bind ?_
      refine inductionHypothesis areLater ?_
      rw [length_update]
      exact laterInRange

/-- The search reads the entries that were written. -/
theorem reads_readCfgBranches
    (garbage : Uninitialised)
    (tables : BranchTables)
    {written : List (Nat × List Nat)}
    (counted : written.length = tables.branches.length)
    (few : UnsignedRange 8 written.length)
    (representable : ∀ entry ∈ written, Representable entry)
    (inRange :
      ∀ entry ∈ written, (entry.1 : BranchId) < tables.pairedBranch.length) :
    Reads (readCfgBranches garbage tables) (bytesOf written)
      (some
        (updateAll (List.replicate tables.pairedBranch.length [])
          (written.map branchEntry))) := by
  unfold readCfgBranches bytesOf
  refine (reads_unsigned garbage.len few).bind ?_
  rw [if_pos counted]
  refine reads_readEntries garbage representable ?_
  rw [List.length_replicate]
  exact inRange

end RoundTrip

end CfgBranchesFile

end Compi
