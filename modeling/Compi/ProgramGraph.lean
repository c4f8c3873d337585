import Compi.CfgBranchesFile
import Compi.ThinnedGraph

/-!
# The graph of a whole program

Control goes from a statement to its successors and into the functions that it
calls.  From the files of a program `process_cfg` reads this graph, keeps the
branches, and the search measures its distances in what is left.
-/

namespace Compi

open BranchTables

namespace CfgFiles

/-- The ids of the statements of a program. -/
def sidsOf (files : List (List Function)) : List Int :=
  (files.flatMap nodesOf).map Node.sid

/-- Control goes on to a successor, or into a function that is called. -/
def Flows (files : List (List Function)) (sid next : Int) : Prop :=
  ∃ file ∈ files,
    ∃ s ∈ nodesOf file,
      s.sid = sid ∧
        (next ∈ s.succs ∨ ∃ g ∈ s.calls, target files file g = some next)

/-- Files whose successors are statements of them. -/
structure Whole (files : List (List Function)) : Prop where
  readable : Readable files
  inside : ∀ s ∈ files.flatMap nodesOf, ∀ n ∈ s.succs, n ∈ sidsOf files

variable
  {files : List (List Function)}
  {sid next : Int}

section Flow

theorem mem_sidsOf
    {file : List Function}
    (isFile : file ∈ files)
    {s : Node}
    (isNode : s ∈ nodesOf file) :
    s.sid ∈ sidsOf files :=
  List.mem_map_of_mem (List.mem_flatMap.mpr ⟨file, isFile, isNode⟩)

theorem isNode_of_mem_sidsOf
    (readable : Readable files)
    (member : sid ∈ sidsOf files) :
    IsNode sid := by
  obtain ⟨s, isNode, rfl⟩ := List.mem_map.mp member
  exact readable.sids s isNode

/-- A call leads to the first statement of a function. -/
theorem target_mem
    {file : List Function}
    (isFile : file ∈ files)
    {g : FuncVar}
    (found : target files file g = some next) :
    next ∈ sidsOf files := by
  have first
      {other : List Function}
      (isOther : other ∈ files)
      {f : Function}
      (inOther : f ∈ other) :
      f.first.sid ∈ sidsOf files :=
    mem_sidsOf isOther (List.mem_flatMap.mpr ⟨f, inOther, List.mem_cons_self⟩)
  unfold target at found
  split at found
  · next f inFile =>
      cases found
      exact first isFile (List.mem_of_find?_eq_some inFile)
  · obtain ⟨f, isFound, rfl⟩ := Option.map_eq_some_iff.mp found
    obtain ⟨other, isOther, inOther⟩ :=
      List.mem_flatten.mp (List.mem_of_find?_eq_some isFound)
    exact first (List.mem_filter.mp isOther).1 inOther

/-- Control goes from statements to statements. -/
theorem Flows.mem
    (whole : Whole files)
    (flows : Flows files sid next) :
    sid ∈ sidsOf files ∧ next ∈ sidsOf files := by
  obtain ⟨file, isFile, s, isNode, rfl, goesOn⟩ := flows
  refine ⟨mem_sidsOf isFile isNode, ?_⟩
  rcases goesOn with isSucc | ⟨g, _, found⟩
  · exact
      whole.inside s (List.mem_flatMap.mpr ⟨file, isFile, isNode⟩) next isSucc
  · exact target_mem isFile found

end Flow

section Read

/-- A line makes room for its node, and takes none away. -/
theorem length_addEdges
    (funcNodeMap : FuncNodeMap)
    (graph : Graph)
    (sid : Int)
    (words : List Word) :
    graph.length ≤ (addEdges funcNodeMap graph sid words).length ∧
      sid.toNat < (addEdges funcNodeMap graph sid words).length := by
  have length :
      (addEdges funcNodeMap graph sid words).length =
        graph.length + (sid.toNat + 1 - graph.length) := by
    simp [addEdges, resize]
  omega

/-- The graph has room for the nodes of all lines. -/
theorem length_foldl_addEdges
    (funcNodeMap : FuncNodeMap)
    (lines : List Line)
    (graph : Graph) :
    graph.length ≤
        (lines.foldl
          (fun graph line => addEdges funcNodeMap graph line.1 line.2)
          graph).length ∧
      ∀ line ∈ lines,
        line.1.toNat <
          (lines.foldl
            (fun graph line => addEdges funcNodeMap graph line.1 line.2)
            graph).length := by
  induction lines generalizing graph with
  | nil =>
      exact ⟨Nat.le_refl _, List.forall_mem_nil _⟩
  | cons line rest inductionHypothesis =>
      have added := length_addEdges funcNodeMap graph line.1 line.2
      have later :=
        inductionHypothesis (addEdges funcNodeMap graph line.1 line.2)
      rw [List.foldl_cons]
      refine ⟨Nat.le_trans added.1 later.1, List.forall_mem_cons.mpr ⟨?_, later.2⟩⟩
      exact Nat.lt_of_lt_of_le added.2 later.1

/-- A graph with room for all statements, whose edges are those of control. -/
structure IsGraphOf (files : List (List Function)) (graph : Graph) : Prop where
  room : ∀ sid ∈ sidsOf files, sid < graph.length
  edges :
    ∀ sid next length,
      0 ≤ sid →
      ((next, length) ∈ neighbours graph sid ↔
        Flows files sid next ∧ length = 0)

/-- What is read is the graph of the program. -/
theorem isGraphOf_readCfg (readable : Readable files) :
    ∃ graph,
      readCfg (cfgFuncMap files) (cfg files) = some graph ∧
        IsGraphOf files graph := by
  have distinct : ((linesOf files).map Prod.fst).Nodup := by
    rw [sids_linesOf]
    exact readable.distinct
  have isEdge
      {file : List Function}
      (isFile : file ∈ files)
      {s : Node}
      (isNode : s ∈ nodesOf file)
      (next : Int)
      (length : Nat) :
      (next, length) ∈
          edges (exportedEntries files).reverse
            (wordsOf (buildFirstStmtIdMap file) s) ↔
        (next ∈ s.succs ∨ ∃ g ∈ s.calls, target files file g = some next) ∧
          length = 0 := by
    rw [edges_wordsOf readable isFile isNode]
    simp [List.mem_filterMap, or_and_right, eq_comm]
  refine ⟨_, readCfg_eq readable, ?_, ?_⟩
  · intro sid isSid
    rw [sidsOf, ← sids_linesOf] at isSid
    obtain ⟨line, isLine, rfl⟩ := List.mem_map.mp isSid
    have hasRoom :=
      (length_foldl_addEdges (exportedEntries files).reverse
        (linesOf files) []).2 line isLine
    exact
      (Int.toNat_lt (isValid_linesOf readable line isLine).1.1).mp hasRoom
  · intro sid next length nonnegative
    rw [neighbours_foldl (isValid_linesOf readable) distinct [] sid nonnegative]
    constructor
    · intro member
      cases found :
          (linesOf files).find? fun line => decide (line.1 = sid) with
      | none =>
          rw [found] at member
          cases member
      | some line =>
          rw [found] at member
          obtain ⟨file, isFile, inFile⟩ :=
            List.mem_flatMap.mp (List.mem_of_find?_eq_some found)
          obtain ⟨s, isNode, rfl⟩ := List.mem_map.mp inFile
          have accepted := List.find?_some found
          have goesOn := (isEdge isFile isNode next length).mp member
          exact
            ⟨⟨file, isFile, s, isNode, of_decide_eq_true accepted, goesOn.1⟩,
              goesOn.2⟩
    · rintro ⟨⟨file, isFile, s, isNode, rfl, goesOn⟩, rfl⟩
      have isLine :
          (s.sid, wordsOf (buildFirstStmtIdMap file) s) ∈ linesOf files :=
        List.mem_flatMap.mpr ⟨file, isFile, List.mem_map_of_mem isNode⟩
      have found := find?_line distinct isLine
      rw [found]
      exact (isEdge isFile isNode next 0).mpr ⟨goesOn, rfl⟩

end Read

section Indices

variable {graph : Graph}

/-- Where control goes to, the graph has an edge without length. -/
theorem IsGraphOf.mem_iff
    (isGraph : IsGraphOf files graph)
    {edges : List (Int × Nat)}
    {v : Nat}
    (found : graph[v]? = some edges)
    (edge : Int × Nat) :
    edge ∈ edges ↔ Flows files v edge.1 ∧ edge.2 = 0 := by
  have isEntry : neighbours graph v = edges := by
    rw [neighbours, Int.toNat_natCast, List.getD_eq_getElem?_getD, found]
    rfl
  rw [← isEntry]
  exact isGraph.edges v edge.1 edge.2 (Int.natCast_nonneg v)

/-- No edge leaves the graph, and its steps are those of control. -/
theorem IsGraphOf.ofGraph?
    (whole : Whole files)
    (isGraph : IsGraphOf files graph) :
    ∃ cfgGraph,
      CfgGraph.ofGraph? graph = some cfgGraph ∧
        cfgGraph.neighbours.length = graph.length ∧
        ∀ v u : Nat, cfgGraph.Step v u ↔ Flows files v u := by
  have inside :
      ∀ edges ∈ graph, ∀ edge ∈ edges, 0 ≤ edge.1 ∧ edge.1 < graph.length := by
    intro edges member edge isEdge
    obtain ⟨v, found⟩ := List.mem_iff_getElem?.mp member
    have flows := ((isGraph.mem_iff found edge).mp isEdge).1
    have isSid := (flows.mem whole).2
    exact
      ⟨(isNode_of_mem_sidsOf whole.readable isSid).1,
        isGraph.room edge.1 isSid⟩
  refine ⟨_, dif_pos inside, List.length_map _, fun v u => ?_⟩
  constructor
  · rintro ⟨length, edges, found, isEdge⟩
    rw [List.getElem?_map, Option.map_eq_some_iff] at found
    obtain ⟨original, isOriginal, rfl⟩ := found
    obtain ⟨edge, isMember, same⟩ := List.mem_map.mp isEdge
    have flows := ((isGraph.mem_iff isOriginal edge).mp isMember).1
    have nonnegative :=
      (isNode_of_mem_sidsOf whole.readable (flows.mem whole).2).1
    have target : edge.1 = (u : Int) := by
      rw [← (Prod.mk.inj same).1]
      exact (Int.toNat_of_nonneg nonnegative).symm
    rw [← target]
    exact flows
  · intro flows
    have inRange := isGraph.room v (flows.mem whole).1
    have found :=
      List.getElem?_eq_getElem (Int.ofNat_lt.mp inRange)
    refine ⟨0, graph[v].map fun edge => (edge.1.toNat, edge.2), ?_, ?_⟩
    · rw [List.getElem?_map, found]
      rfl
    · have isEdge := (isGraph.mem_iff found (u, 0)).mpr ⟨flows, rfl⟩
      exact List.mem_map.mpr ⟨_, isEdge, rfl⟩

end Indices

end CfgFiles

namespace CfgBranchesFile

open CfgFiles

section Branches

variable {branches : OrderedSet BranchId}

theorem mem_indicesOf
    (nonnegative : ∀ bid ∈ branches, 0 ≤ bid)
    (i : Nat) :
    i ∈ indicesOf branches ↔ (i : BranchId) ∈ branches := by
  suffices inserted :
      ∀ (items : List BranchId) (indices : OrderedSet Nat),
        i ∈ items.foldl (fun indices bid => indices.insert bid.toNat) indices ↔
          i ∈ indices ∨ ∃ bid ∈ items, bid.toNat = i by
    refine (inserted _ ∅).trans ?_
    simp only [Std.ExtTreeSet.not_mem_empty, Std.ExtTreeSet.mem_toList,
      false_or]
    constructor
    · rintro ⟨bid, member, rfl⟩
      rw [Int.toNat_of_nonneg (nonnegative bid member)]
      exact member
    · intro member
      exact ⟨i, member, Int.toNat_natCast i⟩
  intro items
  induction items with
  | nil =>
      simp
  | cons bid rest inductionHypothesis =>
      intro indices
      rw [List.foldl_cons, inductionHypothesis, OrderedSet.mem_insert_iff]
      simp only [List.mem_cons, exists_eq_or_imp, or_assoc]
      tauto

/-- The indices are the branches in the order of the set. -/
theorem indicesOf_perm
    {ids : List BranchId}
    (listed : branches.toList.Perm ids)
    (nonnegative : ∀ bid ∈ ids, 0 ≤ bid) :
    ((indicesOf branches).toList.map fun i : Nat => (i : BranchId)).Perm
      ids := by
  have isBranch (bid : BranchId) : bid ∈ branches ↔ bid ∈ ids := by
    rw [← Std.ExtTreeSet.mem_toList, listed.mem_iff]
  have isIndex (i : Nat) :
      i ∈ indicesOf branches ↔ (i : BranchId) ∈ ids := by
    rw [mem_indicesOf fun bid member =>
      nonnegative bid ((isBranch bid).mp member), isBranch]
  refine
    (List.perm_ext_iff_of_nodup
      ((OrderedSet.nodup_toList _).map fun _ _ => Int.ofNat_inj.mp)
      (listed.nodup_iff.mp (OrderedSet.nodup_toList _))).mpr fun bid => ?_
  rw [List.mem_map]
  constructor
  · rintro ⟨i, member, rfl⟩
    exact (isIndex i).mp (Std.ExtTreeSet.mem_toList.mp member)
  · intro member
    have same := Int.toNat_of_nonneg (nonnegative bid member)
    refine ⟨bid.toNat, Std.ExtTreeSet.mem_toList.mpr ?_, same⟩
    rw [isIndex, same]
    exact member

end Branches

/-- The branches of the files of a program. -/
def branchesOf (branchFiles : List (List Pairs)) : List BranchId :=
  branchFiles.flatten.flatMap idsOf

/-- The files of one program: its branches are statements. -/
structure OfProgram
    (files : List (List Function))
    (branchFiles : List (List Pairs)) : Prop where
  whole : Whole files
  recorded : Recorded branchFiles
  areNodes : ∀ bid ∈ branchesOf branchFiles, bid ∈ sidsOf files

/-- One branch comes next after another in the program. -/
def ComesNext
    (files : List (List Function))
    (branchFiles : List (List Pairs)) : BranchId → BranchId → Prop :=
  ThinnedGraph.Next (Flows files) (· ∈ branchesOf branchFiles)

/-- Every branch is written once, with the branches that come next after it. -/
structure WritesNext
    (files : List (List Function))
    (branchFiles : List (List Pairs))
    (written : List (Nat × List Nat)) : Prop where
  branches :
    (written.map fun entry => (branchEntry entry).1).Perm
      (branchesOf branchFiles)
  targets :
    ∀ entry ∈ written,
      ∀ next,
        next ∈ (branchEntry entry).2 ↔
          ComesNext files branchFiles (branchEntry entry).1 next
  short : ∀ entry ∈ written, entry.2.length ≤ (branchesOf branchFiles).length

section Thinning

variable
  {files : List (List Function)}
  {branchFiles : List (List Pairs)}

/-- `process_cfg` reads the branches of the program. -/
theorem readBranches_perm (recorded : Recorded branchFiles) :
    ∃ branches,
      readBranches (BranchesFile.textOf branchFiles) = some branches ∧
        branches.toList.Perm (branchesOf branchFiles) := by
  refine ⟨_, readBranches_textOf recorded, ?_⟩
  refine
    (List.perm_ext_iff_of_nodup (OrderedSet.nodup_toList _)
      recorded.regular.nodup).mpr fun bid => ?_
  rw [Std.ExtTreeSet.mem_toList, mem_insertGroups_groupOf, map_snd_entriesOf]
  exact (idsOf_sortedPairs_perm branchFiles.flatten).mem_iff

variable (ofProgram : OfProgram files branchFiles)

include ofProgram

/-- The branches that the graph leads to are those that control leads to. -/
theorem leadsTo_iff
    {graph : CfgGraph}
    (steps : ∀ v u : Nat, graph.Step v u ↔ Flows files v u)
    {indices : OrderedSet Nat}
    (marked :
      ∀ i : Nat, i ∈ indices ↔ (i : BranchId) ∈ branchesOf branchFiles)
    (b j : Nat) :
    graph.LeadsTo indices b j ↔
      ThinnedGraph.LeadsTo (Flows files) (· ∈ branchesOf branchFiles) b j := by
  constructor
  · intro path
    induction path with
    | first step =>
        exact .first ((steps _ _).mp step)
    | through _ notBranch step inductionHypothesis =>
        exact
          .through inductionHypothesis (fun member =>
            notBranch ((marked _).mpr member)) ((steps _ _).mp step)
  · intro path
    have isIndex
        {sid next : Int}
        (flows : Flows files sid next) :
        ((next.toNat : Nat) : Int) = next :=
      Int.toNat_of_nonneg
        (isNode_of_mem_sidsOf ofProgram.whole.readable
          (flows.mem ofProgram.whole).2).1
    suffices led :
        ∀ node,
          ThinnedGraph.LeadsTo (Flows files) (· ∈ branchesOf branchFiles) b
              node →
          ∃ i : Nat, node = i ∧ graph.LeadsTo indices b i by
      obtain ⟨i, same, inGraph⟩ := led j path
      rw [Int.ofNat_inj.mp same]
      exact inGraph
    intro node path
    induction path with
    | @first next step =>
        refine ⟨next.toNat, (isIndex step).symm, .first ((steps _ _).mpr ?_)⟩
        rw [isIndex step]
        exact step
    | @through inner next _ notBranch step inductionHypothesis =>
        obtain ⟨i, rfl, inGraph⟩ := inductionHypothesis
        refine
          ⟨next.toNat, (isIndex step).symm,
            .through inGraph (fun member => notBranch ((marked i).mp member))
              ((steps _ _).mpr ?_)⟩
        rw [isIndex step]
        exact step

/-- The branches that come next in the graph come next in the program. -/
theorem mem_branchEntry_iff
    {graph : CfgGraph}
    (steps : ∀ v u : Nat, graph.Step v u ↔ Flows files v u)
    {indices : OrderedSet Nat}
    (marked :
      ∀ i : Nat, i ∈ indices ↔ (i : BranchId) ∈ branchesOf branchFiles)
    {b : Nat}
    {nbhrs : List Nat}
    (neighbours :
      ∀ j, j ∈ nbhrs ↔ j ∈ indices ∧ j ≠ b ∧ graph.LeadsTo indices b j)
    (next : BranchId) :
    next ∈ (branchEntry (b, nbhrs)).2 ↔
      ComesNext files branchFiles b next := by
  have listed (j : Nat) :
      j ∈ nbhrs ↔ ComesNext files branchFiles b j := by
    rw [neighbours, marked, leadsTo_iff ofProgram steps marked]
    exact
      and_congr_right fun _ =>
        and_congr_left fun _ => not_congr Int.ofNat_inj.symm
  show next ∈ nbhrs.map (fun bid : Nat => (bid : BranchId)) ↔ _
  rw [List.mem_map]
  constructor
  · rintro ⟨j, isListed, rfl⟩
    exact (listed j).mp isListed
  · intro comesNext
    have isSid := ofProgram.areNodes next comesNext.1
    have same :=
      Int.toNat_of_nonneg
        (isNode_of_mem_sidsOf ofProgram.whole.readable isSid).1
    refine ⟨next.toNat, (listed _).mpr ?_, same⟩
    rw [same]
    exact comesNext

/-- `process_cfg` writes for every branch those that come next after it. -/
theorem writesNext_processCfg :
    ∃ written,
      processCfg (BranchesFile.textOf branchFiles) (cfgFuncMap files)
          (cfg files) =
        some (bytesOf written) ∧
        WritesNext files branchFiles written := by
  obtain ⟨branches, readBranches, listed⟩ :=
    readBranches_perm ofProgram.recorded
  obtain ⟨graph, readGraph, isGraph⟩ :=
    isGraphOf_readCfg ofProgram.whole.readable
  obtain ⟨cfgGraph, isCfgGraph, sized, steps⟩ :=
    isGraph.ofGraph? ofProgram.whole
  have indices :=
    indicesOf_perm listed fun bid member =>
      (isNode_of_mem_sidsOf ofProgram.whole.readable
        (ofProgram.areNodes bid member)).1
  have marked (i : Nat) :
      i ∈ indicesOf branches ↔ (i : BranchId) ∈ branchesOf branchFiles := by
    rw [← indices.mem_iff, ← Std.ExtTreeSet.mem_toList,
      List.mem_map_of_injective fun _ _ => Int.ofNat_inj.mp]
  have areNodes : ∀ b ∈ indicesOf branches, b < cfgGraph.neighbours.length := by
    intro b member
    have hasRoom := isGraph.room b (ofProgram.areNodes b ((marked b).mp member))
    rw [sized]
    exact Int.ofNat_lt.mp hasRoom
  obtain ⟨written, isThin, thinned⟩ :=
    CfgGraph.thin_spec cfgGraph (indicesOf branches) areNodes
  have order :
      (written.map fun entry => (branchEntry entry).1) =
        (indicesOf branches).toList.map fun i : Nat => (i : BranchId) := by
    rw [← thinned.order, List.map_map]
    rfl
  have counted : branches.size = written.length := by
    have sameLength := indices.length_eq
    rw [← order, List.length_map] at sameLength
    rw [sameLength, ← listed.length_eq, Std.ExtTreeSet.length_toList]
  refine ⟨written, ?_, ?_, ?_, ?_⟩
  · simp only [processCfg, readBranches, readGraph, isCfgGraph, isThin,
      Option.bind_eq_bind, Option.bind_some, counted]
    rfl
  · rw [order]
    exact indices
  · rintro ⟨b, nbhrs⟩ member
    exact
      mem_branchEntry_iff ofProgram steps marked
        (thinned.neighbours b nbhrs member).2
  · rintro ⟨b, nbhrs⟩ member
    have few := (thinned.neighbours b nbhrs member).1.length_le
    rw [← indices.length_eq, List.length_map]
    exact few

end Thinning

end CfgBranchesFile

end Compi
