import Compi.BoundedDijkstra
import Compi.PartialRun

/-!
# Thinning the control-flow graph

The graph of branches that the heuristic search reads is the control-flow graph
without its other nodes.  An edge to a branch has length one and every other
edge length zero, so the branches at distance one are those that come next.
-/

namespace Compi

namespace CfgGraph

open OrderedSet

open CfgDistance ShortestDistance

/-- The length of an edge: one if its destination is a branch. -/
def lengthTo (branches : OrderedSet Nat) (dst : Nat) : Nat :=
  if dst ∈ branches then 1 else 0

/-- Set the length of every edge. -/
def withLengths
    (graph : CfgGraph)
    (branches : OrderedSet Nat) : CfgGraph where
  neighbours :=
    graph.neighbours.map fun edges =>
      edges.map fun edge => (edge.1, lengthTo branches edge.1)
  closed := by
    intro edges member edge isEdge
    obtain ⟨original, isOriginal, rfl⟩ := List.mem_map.mp member
    obtain ⟨before, isBefore, rfl⟩ := List.mem_map.mp isEdge
    rw [List.length_map]
    exact graph.closed original isOriginal before isBefore

/-- The branch nodes at distance one. -/
def branchesAtOne
    (branches dist : List Nat) : Option (List Nat) :=
  branches.foldlM (fun nbhrs j => do
    let distance ← dist[j]?
    return if distance = 1 then nbhrs ++ [j] else nbhrs) []

/-- Write the neighbours of a branch, with the vector of the one before. -/
def thinBranch
    (cfg : CfgGraph)
    (branches : OrderedSet Nat)
    (state : List Nat × List (Nat × List Nat))
    (i : Nat) : Option (List Nat × List (Nat × List Nat)) := do
  let dist ← cfg.dijkstraBoundedShortestPaths i state.1 1
  let nbhrs ← branchesAtOne branches.toList dist
  return (dist, state.2 ++ [(i, nbhrs)])

/-- The lists of neighbours that `main` writes. -/
def thin
    (graph : CfgGraph)
    (branches : OrderedSet Nat) : Option (List (Nat × List Nat)) := do
  let cfg := graph.withLengths branches
  let state ← branches.toList.foldlM (cfg.thinBranch branches)
    (List.replicate cfg.neighbours.length 0, [])
  return state.2

/-- The control-flow edges. -/
def Step (graph : CfgGraph) (v u : Nat) : Prop :=
  ∃ length, graph.Edge v length u

/-- A path from a node none of whose intermediate nodes is a branch. -/
inductive LeadsTo
    (graph : CfgGraph)
    (branches : OrderedSet Nat)
    (b : Nat) : Nat → Prop where
  | first
      {u : Nat}
      (step : graph.Step b u) :
      LeadsTo graph branches b u
  | through
      {v u : Nat}
      (path : LeadsTo graph branches b v)
      (notBranch : v ∉ branches)
      (step : graph.Step v u) :
      LeadsTo graph branches b u

/-- Every branch is written with the other branches that it leads to. -/
structure Thinned
    (graph : CfgGraph)
    (branches : OrderedSet Nat)
    (written : List (Nat × List Nat)) : Prop where
  order : written.map Prod.fst = branches.toList
  neighbours :
    ∀ b nbhrs,
      (b, nbhrs) ∈ written →
      nbhrs.Sublist branches.toList ∧
        ∀ j,
          j ∈ nbhrs ↔
            j ∈ branches ∧ j ≠ b ∧ graph.LeadsTo branches b j

variable
  {graph : CfgGraph}
  {branches : OrderedSet Nat}
  {b j u v length : Nat}

/-- The lengths depend on the destinations only. -/
theorem edge_withLengths_iff :
    (graph.withLengths branches).Edge v length u ↔
      length = lengthTo branches u ∧ graph.Step v u := by
  unfold Edge Step withLengths Edge
  simp only [List.getElem?_map, Option.map_eq_some_iff]
  constructor
  · rintro ⟨_, ⟨edges, found, rfl⟩, member⟩
    obtain ⟨⟨target, original⟩, isEdge, same⟩ := List.mem_map.mp member
    cases same
    exact ⟨rfl, original, edges, found, isEdge⟩
  · rintro ⟨rfl, original, edges, found, isEdge⟩
    exact ⟨_, ⟨edges, found, rfl⟩, List.mem_map.mpr ⟨_, isEdge, rfl⟩⟩

section Distances

/-- Walks in the graph with lengths from a branch. -/
def Walks
    (graph : CfgGraph)
    (branches : OrderedSet Nat)
    (b u length : Nat) : Prop :=
  Reaches (· = b) (graph.withLengths branches).Edge u length

theorem walks_of_leadsTo (path : graph.LeadsTo branches b u) :
    graph.Walks branches b u (lengthTo branches u) := by
  induction path with
  | @first u step =>
      have isEdge :
          (graph.withLengths branches).Edge b (lengthTo branches u) u :=
        edge_withLengths_iff.mpr ⟨rfl, step⟩
      have here : graph.Walks branches b b 0 := Reaches.source rfl
      have walk := Reaches.edge here isEdge
      rw [Nat.zero_add] at walk
      exact walk
  | @through v u _ notBranch step inductionHypothesis =>
      rw [lengthTo, if_neg notBranch] at inductionHypothesis
      have isEdge :
          (graph.withLengths branches).Edge v (lengthTo branches u) u :=
        edge_withLengths_iff.mpr ⟨rfl, step⟩
      have walk := Reaches.edge inductionHypothesis isEdge
      rw [Nat.zero_add] at walk
      exact walk

/-- Without length a walk only passes nodes that are no branches. -/
theorem leadsTo_of_walks_zero (walk : graph.Walks branches b u 0) :
    u = b ∨ (u ∉ branches ∧ graph.LeadsTo branches b u) := by
  generalize isZero : 0 = length at walk
  induction walk with
  | source isSource =>
      exact Or.inl isSource
  | @edge v u length weight _ isEdge inductionHypothesis =>
      obtain ⟨isLength, step⟩ := edge_withLengths_iff.mp isEdge
      have noWeight : weight = 0 := by omega
      have notBranch : u ∉ branches := by
        intro member
        rw [isLength, lengthTo, if_pos member] at noWeight
        cases noWeight
      refine Or.inr ⟨notBranch, ?_⟩
      rcases inductionHypothesis (by omega) with rfl | ⟨passed, path⟩
      · exact .first step
      · exact .through path passed step

/-- A walk of length one to a branch passes no branch in between. -/
theorem leadsTo_of_walks_one
    (isBranch : j ∈ branches)
    (walk : graph.Walks branches b j 1) :
    graph.LeadsTo branches b j := by
  generalize isOne : 1 = length at walk
  cases walk with
  | source =>
      cases isOne
  | @edge v _ length weight before isEdge =>
      obtain ⟨isLength, step⟩ := edge_withLengths_iff.mp isEdge
      rw [lengthTo, if_pos isBranch] at isLength
      have noLength : length = 0 := by omega
      rw [noLength] at before
      rcases leadsTo_of_walks_zero before with rfl | ⟨passed, path⟩
      · exact .first step
      · exact .through path passed step

/-- Distance one from a branch means to come next after it. -/
theorem eq_one_iff_leadsTo
    {dist : Nat}
    (isBranch : j ∈ branches)
    (isDistance :
      (graph.withLengths branches).IsBoundedDistance b 1 j dist) :
    dist = 1 ↔ j ≠ b ∧ graph.LeadsTo branches b j := by
  constructor
  · rintro rfl
    rcases isDistance with ⟨_, walk, isLeast⟩ | ⟨_, impossible⟩
    · refine ⟨?_, leadsTo_of_walks_one isBranch walk⟩
      rintro rfl
      exact absurd (isLeast (Reaches.source rfl)) (by decide)
    · exact absurd impossible (by decide)
  · rintro ⟨different, path⟩
    have walk := walks_of_leadsTo path
    rw [lengthTo, if_pos isBranch] at walk
    rcases isDistance with ⟨inBound, shortest, _⟩ | ⟨isFar, _⟩
    · rcases Nat.lt_or_eq_of_le inBound with isZero | isOne
      · rw [Nat.lt_one_iff.mp isZero] at shortest
        rcases leadsTo_of_walks_zero shortest with same | ⟨notBranch, _⟩
        · exact absurd same different
        · exact absurd isBranch notBranch
      · exact isOne
    · exact absurd (isFar 1 walk) (Nat.lt_irrefl 1)

/-- Sums of at most one and one do not overflow. -/
theorem sumsFit_withLengths :
    (graph.withLengths branches).SumsFit b 1 := by
  intro visited v sum length u _ isShort isEdge _
  obtain ⟨rfl, _⟩ := edge_withLengths_iff.mp isEdge
  have atMost : lengthTo branches u ≤ 1 := by
    unfold lengthTo
    split <;> decide
  exact Nat.lt_of_le_of_lt (Nat.add_le_add isShort atMost) (by decide)

end Distances

section Written

/-- The branches at distance one are filtered out. -/
theorem branchesAtOne_spec
    {dist : List Nat}
    (items : List Nat)
    (present : ∀ j ∈ items, ∃ distance, dist[j]? = some distance) :
    ∃ nbhrs,
      branchesAtOne items dist = some nbhrs ∧
        nbhrs.Sublist items ∧
        ∀ j, j ∈ nbhrs ↔ j ∈ items ∧ dist[j]? = some 1 := by
  unfold branchesAtOne
  refine PartialRun.foldlM_of_all_steps _ _ _
    (fun before (nbhrs : List Nat) =>
      nbhrs.Sublist before ∧
        ∀ j, j ∈ nbhrs ↔ j ∈ before ∧ dist[j]? = some 1)
    ?_ ⟨List.Sublist.slnil, by simp⟩
  intro before nbhrs j member earlier
  obtain ⟨distance, found⟩ := present j member
  refine ⟨_, by rw [found]; rfl, ?_, ?_⟩
  · split
    · exact earlier.1.append (List.Sublist.refl _)
    · exact List.sublist_append_of_sublist_left earlier.1
  · intro other
    rw [List.mem_append, List.mem_singleton]
    split
    · next isOne =>
        rw [List.mem_append, List.mem_singleton, earlier.2]
        constructor
        · rintro (⟨isBefore, atOne⟩ | rfl)
          · exact ⟨Or.inl isBefore, atOne⟩
          · rw [found, isOne]
            exact ⟨Or.inr rfl, rfl⟩
        · rintro ⟨isBefore | rfl, atOne⟩
          · exact Or.inl ⟨isBefore, atOne⟩
          · exact Or.inr rfl
    · next notOne =>
        rw [earlier.2]
        constructor
        · rintro ⟨isBefore, atOne⟩
          exact ⟨Or.inl isBefore, atOne⟩
        · rintro ⟨isBefore | rfl, atOne⟩
          · exact ⟨isBefore, atOne⟩
          · rw [found] at atOne
            exact absurd (Option.some.inj atOne) notOne

/-- The lists are written for one branch after another. -/
theorem thin_spec
    (graph : CfgGraph)
    (branches : OrderedSet Nat)
    (areNodes : ∀ b ∈ branches, b < graph.neighbours.length) :
    ∃ written,
      graph.thin branches = some written ∧
        Thinned graph branches written := by
  have sized :
      (graph.withLengths branches).neighbours.length =
        graph.neighbours.length :=
    List.length_map _
  have processed :=
    PartialRun.foldlM_of_all_steps
      ((graph.withLengths branches).thinBranch branches)
      branches.toList
      (List.replicate (graph.withLengths branches).neighbours.length 0, [])
      (fun before state =>
        state.1.length = graph.neighbours.length ∧
          state.2.map Prod.fst = before ∧
          ∀ b nbhrs,
            (b, nbhrs) ∈ state.2 →
            nbhrs.Sublist branches.toList ∧
              ∀ j,
                j ∈ nbhrs ↔
                  j ∈ branches ∧ j ≠ b ∧ graph.LeadsTo branches b j)
      ?_
      ⟨by rw [List.length_replicate, sized], rfl, by simp⟩
  · obtain ⟨⟨dist, written⟩, ran, _, isWritten, neighbours⟩ := processed
    refine ⟨written, ?_, isWritten, neighbours⟩
    unfold thin
    dsimp only
    rw [ran]
    rfl
  · rintro before ⟨dist, written⟩ i member ⟨distSized, isWritten, earlier⟩
    have isNode := areNodes i (Std.ExtTreeSet.mem_toList.mp member)
    rw [← sized] at isNode
    obtain ⟨final, ran, finalSized, distances⟩ :=
      dijkstraBoundedShortestPaths_spec (sumsFit_withLengths (b := i)) isNode
        (distSized.trans sized.symm) (by decide)
    have present :
        ∀ j ∈ branches.toList, ∃ distance, final[j]? = some distance := by
      intro j isBranch
      have inRange := areNodes j (Std.ExtTreeSet.mem_toList.mp isBranch)
      rw [← sized] at inRange
      obtain ⟨distance, found, _⟩ := distances j inRange
      exact ⟨distance, found⟩
    obtain ⟨nbhrs, filtered, isSublist, atOne⟩ :=
      branchesAtOne_spec branches.toList present
    refine ⟨(final, written ++ [(i, nbhrs)]), ?_, finalSized.trans sized, ?_,
      ?_⟩
    · unfold thinBranch
      simp only [ran, Option.bind_eq_bind, Option.bind_some, filtered]
      rfl
    · rw [List.map_append, isWritten]
      rfl
    · intro b others isEntry
      rcases List.mem_append.mp isEntry with isEarlier | isNew
      · exact earlier b others isEarlier
      · cases List.mem_singleton.mp isNew
        refine ⟨isSublist, ?_⟩
        intro j
        rw [atOne j, Std.ExtTreeSet.mem_toList]
        refine and_congr_right fun isBranch => ?_
        have inRange := areNodes j isBranch
        rw [← sized] at inRange
        obtain ⟨distance, found, isDistance⟩ := distances j inRange
        rw [found, Option.some.injEq]
        exact eq_one_iff_leadsTo isBranch isDistance

/--
The tool writes for each branch the branches that come next after it, and its
shortest paths are right whenever the sums along paths fit.
-/
theorem processCfg_spec :
    (∀ (graph : CfgGraph) (branches : OrderedSet Nat),
      (∀ b ∈ branches, b < graph.neighbours.length) →
      ∃ written,
        graph.thin branches = some written ∧
          Thinned graph branches written) ∧
      ∀ (graph : CfgGraph) (src : Nat) (distMap : List Nat) (maxDist : Nat),
        graph.PathsFit src →
        src < graph.neighbours.length →
        distMap.length = graph.neighbours.length →
        maxDist ≤ sizeMax →
        ∃ final,
          graph.dijkstraBoundedShortestPaths src distMap maxDist =
              some final ∧
            ∀ u < graph.neighbours.length,
              ∃ dist,
                final[u]? = some dist ∧
                  graph.IsBoundedDistance src maxDist u dist := by
  refine ⟨thin_spec, ?_⟩
  intro graph src distMap maxDist fit isNode sized isSize
  obtain ⟨final, ran, _, distances⟩ :=
    dijkstraBoundedShortestPaths_spec (SumsFit.of_pathsFit fit) isNode sized
      isSize
  exact ⟨final, ran, distances⟩

/-- Two branches, and a node on the way from one to the other. -/
def throughNode : CfgGraph where
  neighbours := [[(1, 0)], [(2, 1)], []]
  closed := by decide

theorem pathsFit_throughNode : throughNode.PathsFit 0 := by
  have sums :
      ∀ visited u sum,
        throughNode.Path 0 visited u sum →
        (u = 0 ∧ sum = 0) ∨ (u = 1 ∧ sum = 0) ∨ (u = 2 ∧ sum = 1) := by
    intro visited u sum path
    induction path with
    | start =>
        exact .inl ⟨rfl, rfl⟩
    | edge _ isEdge _ inductionHypothesis =>
        obtain ⟨edges, found, member⟩ := isEdge
        rcases inductionHypothesis with ⟨rfl, rfl⟩ | ⟨rfl, rfl⟩ | ⟨rfl, rfl⟩
        · cases found
          cases List.mem_singleton.mp member
          exact .inr (.inl ⟨rfl, rfl⟩)
        · cases found
          cases List.mem_singleton.mp member
          exact .inr (.inr ⟨rfl, rfl⟩)
        · cases found
          cases member
  intro visited u sum path
  rcases sums visited u sum path with ⟨_, rfl⟩ | ⟨_, rfl⟩ | ⟨_, rfl⟩
  · decide
  · decide
  · decide

/--
The branches `0` and `2` thinned, which are neighbours then, and the graph
measured with old distances in the vector.
-/
theorem processCfg_throughNode :
    (∃ written,
      throughNode.thin (((∅ : OrderedSet Nat).insert 0).insert 2) =
          some written ∧
        Thinned throughNode (((∅ : OrderedSet Nat).insert 0).insert 2)
          written) ∧
      ∃ final,
        throughNode.dijkstraBoundedShortestPaths 0 [7, 7, 7] 2 = some final ∧
          ∀ u < throughNode.neighbours.length,
            ∃ dist,
              final[u]? = some dist ∧
                throughNode.IsBoundedDistance 0 2 u dist := by
  refine ⟨processCfg_spec.1 throughNode _ ?_,
    processCfg_spec.2 throughNode 0 [7, 7, 7] 2 pathsFit_throughNode
      (by decide) rfl (by decide)⟩
  intro b member
  rcases mem_insert_iff.mp member with rfl | earlier
  · decide
  · rcases mem_insert_iff.mp earlier with rfl | impossible
    · decide
    · exact absurd impossible Std.ExtTreeSet.not_mem_empty

end Written

end CfgGraph

end Compi
