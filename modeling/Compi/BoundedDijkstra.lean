import Compi.CfgDistance
import Compi.ShortestDistance
import Mathlib.Data.Prod.Lex

/-!
# Bounded shortest paths

The tool that prepares the graph of branches runs a bounded form of Dijkstra's
algorithm on the control-flow graph.  Its queue is an ordered set of distances
and nodes, in which a node is entered anew when its distance is lowered.
-/

namespace Compi

/-- `graph_t`: the neighbours of each node, with the lengths of the edges. -/
structure CfgGraph where
  neighbours : List (List (Nat × Nat))
  closed :
    ∀ edges ∈ neighbours, ∀ edge ∈ edges, edge.1 < neighbours.length

/-- An entry of the queue: a distance and a node, compared in this order. -/
abbrev QueueEntry : Type :=
  Nat ×ₗ Nat

namespace CfgGraph

open OrderedSet

open CfgDistance ShortestDistance

/-- Relax an edge to a vertex that is not finished. -/
def relaxEdge
    (maxDist v : Nat)
    (finished : OrderedSet Nat)
    (state : List Nat × OrderedSet QueueEntry)
    (edge : Nat × Nat) : Option (List Nat × OrderedSet QueueEntry) := do
  let (distMap, queue) := state
  let (u, length) := edge
  if u ∈ finished then
    return state
  else
    let distV ← distMap[v]?
    let distU ← distMap[u]?
    let d := (distV + length) % 2 ^ 64
    if d < distU ∧ d ≤ maxDist then
      return (distMap.set u d,
        (queue.erase (toLex (distU, u))).insert (toLex (d, u)))
    else
      return state

/-- The loop of `dijkstra_bounded_shortest_paths`. -/
def processQueue
    (graph : CfgGraph)
    (maxDist : Nat) :
    Nat → List Nat → OrderedSet QueueEntry → OrderedSet Nat →
    Option (List Nat)
  | 0, _, _, _ => none
  | fuel + 1, distMap, queue, finished =>
      match queue.min? with
      | none => some distMap
      | some head => do
          let (dist, v) := ofLex head
          if dist > maxDist then
            return distMap
          else
            let finished := finished.insert v
            let edges ← graph.neighbours[v]?
            let (distMap, queue) ←
              edges.foldlM (relaxEdge maxDist v finished)
                (distMap, queue.erase head)
            processQueue graph maxDist fuel distMap queue finished

/--
`dijkstra_bounded_shortest_paths`.  Each round finishes another vertex, so the
fuel is enough.
-/
def dijkstraBoundedShortestPaths
    (graph : CfgGraph)
    (src : Nat)
    (distMap : List Nat)
    (maxDist : Nat) : Option (List Nat) :=
  let distMap :=
    (List.range graph.neighbours.length).foldl
      (fun distMap i => distMap.set i sizeMax) distMap
  processQueue graph maxDist (graph.neighbours.length + 1)
    (distMap.set src 0) ((∅ : OrderedSet QueueEntry).insert (toLex (0, src)))
    ∅

variable
  {graph : CfgGraph}
  {src maxDist v u length : Nat}
  {distMap : List Nat}
  {queue : OrderedSet QueueEntry}
  {finished : OrderedSet Nat}

section Specification

/-- The edges of the graph. -/
def Edge (graph : CfgGraph) (v length u : Nat) : Prop :=
  ∃ edges, graph.neighbours[v]? = some edges ∧ (u, length) ∈ edges

/-- A path from a source that visits no node twice, with its length. -/
inductive Path (graph : CfgGraph) (src : Nat) : List Nat → Nat → Nat → Prop
    where
  | start : Path graph src [src] src 0
  | edge
      {visited : List Nat}
      {v u sum length : Nat}
      (path : Path graph src visited v sum)
      (isEdge : graph.Edge v length u)
      (fresh : u ∉ visited) :
      Path graph src (u :: visited) u (sum + length)

/-- The sums along paths fit into a `size_t`. -/
def PathsFit (graph : CfgGraph) (src : Nat) : Prop :=
  ∀ visited u sum, graph.Path src visited u sum → sum < 2 ^ 64

/-- The sums that the search forms within a bound fit into a `size_t`. -/
def SumsFit (graph : CfgGraph) (src maxDist : Nat) : Prop :=
  ∀ visited v sum length u,
    graph.Path src visited v sum →
    sum ≤ maxDist →
    graph.Edge v length u →
    u ∉ visited →
    sum + length < 2 ^ 64

/-- The shortest distance of a node within a bound, or infinity. -/
def IsBoundedDistance
    (graph : CfgGraph)
    (src maxDist u dist : Nat) : Prop :=
  IsBounded (· = src) graph.Edge maxDist sizeMax u dist

theorem SumsFit.of_pathsFit (fit : graph.PathsFit src) :
    graph.SumsFit src maxDist :=
  fun _ _ _ _ _ path _ isEdge fresh => fit _ _ _ (path.edge isEdge fresh)

theorem Edge.target_lt (isEdge : graph.Edge v length u) :
    u < graph.neighbours.length := by
  obtain ⟨edges, found, member⟩ := isEdge
  exact graph.closed edges (List.mem_of_getElem? found) _ member

end Specification

section Queue

instance : Std.LawfulEqOrd QueueEntry where
  eq_of_compare := by
    intro entry other same
    rw [Prod.Lex.compare_def, compareLex_eq_eq] at same
    apply ofLex.injective
    exact Prod.ext (Std.LawfulEqOrd.eq_of_compare same.1)
      (Std.LawfulEqOrd.eq_of_compare same.2)

/-- The head of the queue has the least distance. -/
theorem head_le
    {head entry : QueueEntry}
    (isHead : queue.min? = some head)
    (member : entry ∈ queue) :
    (ofLex head).1 ≤ (ofLex entry).1 := by
  have isLE :=
    (Std.ExtTreeSet.min?_eq_some_iff_mem_and_forall.mp isHead).2 entry member
  rw [Prod.Lex.compare_def] at isLE
  rcases Nat.lt_trichotomy (ofLex head).1 (ofLex entry).1 with
    isLess | same | isGreater
  · exact Nat.le_of_lt isLess
  · exact Nat.le_of_eq same
  · exfalso
    have isGt :
        compare (ofLex head).1 (ofLex entry).1 = .gt :=
      Nat.compare_eq_gt.mpr isGreater
    simp [compareLex, compareOn, isGt] at isLE

end Queue

section Search

/-- The distances in a vector as labels; other numbers are infinitely far. -/
def labels (distMap : List Nat) (u : Nat) : Nat :=
  (distMap[u]?).getD sizeMax

theorem getElem?_labels (inRange : u < distMap.length) :
    distMap[u]? = some (labels distMap u) := by
  rw [labels, List.getElem?_eq_getElem inRange]
  rfl

theorem lt_length_of_labels_lt (isFinite : labels distMap u < sizeMax) :
    u < distMap.length := by
  by_contra outside
  rw [labels, List.getElem?_eq_none (Nat.le_of_not_lt outside)] at isFinite
  exact absurd isFinite (Nat.lt_irrefl _)

theorem labels_set (inRange : u < distMap.length) (d : Nat) :
    labels (distMap.set u d) = Function.update (labels distMap) u d := by
  funext x
  rw [Function.update_apply, labels, labels, List.getElem?_set]
  by_cases same : u = x
  · subst same
    simp [inRange]
  · rw [if_neg same, if_neg (Ne.symm same)]

/--
What the search keeps.  Edges of vertices that are not finished are waived,
and so are some pending ones.
-/
structure Searching
    (graph : CfgGraph)
    (src maxDist : Nat)
    (pending : Nat → Nat → Nat → Prop)
    (distMap : List Nat)
    (queue : OrderedSet QueueEntry)
    (finished : OrderedSet Nat) : Prop where
  sized : distMap.length = graph.neighbours.length
  labelled :
    Labelled (· = src) graph.Edge maxDist sizeMax
      (fun v length u => v ∉ finished ∨ pending v length u)
      (labels distMap)
  queued :
    ∀ dist u,
      toLex (dist, u) ∈ queue ↔
        u ∉ finished ∧ labels distMap u = dist ∧ dist < sizeMax
  settled :
    ∀ v ∈ finished, ∀ u, u ∉ finished → labels distMap v ≤ labels distMap u
  paths :
    ∀ u,
      labels distMap u < sizeMax →
      ∃ visited,
        graph.Path src visited u (labels distMap u) ∧
          ∀ x ∈ visited, x ≠ u → x ∈ finished

variable {todo : List (Nat × Nat)} {pending : Nat → Nat → Nat → Prop}

/-- A shorter path to a vertex that is not finished is entered. -/
theorem Searching.lower
    (searching : Searching graph src maxDist pending distMap queue finished)
    (isFinished : v ∈ finished)
    (isReached : labels distMap v < sizeMax)
    (latest : ∀ x ∈ finished, labels distMap x ≤ labels distMap v)
    (isEdge : graph.Edge v length u)
    (notFinished : u ∉ finished)
    (inBound : labels distMap v + length ≤ maxDist)
    (lowers : labels distMap v + length < labels distMap u) :
    Searching graph src maxDist pending
      (distMap.set u (labels distMap v + length))
      ((queue.erase (toLex (labels distMap u, u))).insert
        (toLex (labels distMap v + length, u)))
      finished := by
  have inRange : u < distMap.length := by
    rw [searching.sized]
    exact isEdge.target_lt
  have same := labels_set inRange (labels distMap v + length)
  have different : ∀ x ∈ finished, x ≠ u := by
    rintro x member rfl
    exact notFinished member
  refine ⟨?_, ?_, ?_, ?_, ?_⟩
  · rw [List.length_set]
    exact searching.sized
  · rw [same]
    refine (searching.labelled.lower isEdge inBound lowers).settle ?_
    rintro x weight y _ (rfl | isWaived) _ _
    · exact Or.inl (Or.inl notFinished)
    · exact Or.inl isWaived
  · intro dist x
    rw [mem_insert_iff, mem_erase_iff, searching.queued, same]
    have entryEq :
        ∀ other : Nat,
          toLex (dist, x) = toLex (other, u) ↔ dist = other ∧ x = u := by
      intro other
      rw [toLex.injective.eq_iff, Prod.mk.injEq]
    rw [Ne, entryEq, entryEq]
    by_cases isTarget : x = u
    · subst isTarget
      rw [Function.update_self]
      constructor
      · rintro (⟨rfl, _⟩ | ⟨isNew, _, isOld, _⟩)
        · exact ⟨notFinished, rfl,
            Nat.lt_of_lt_of_le lowers (searching.labelled.bounded x)⟩
        · exact absurd ⟨isOld.symm, rfl⟩ isNew
      · rintro ⟨_, isSum, _⟩
        exact Or.inl ⟨isSum.symm, rfl⟩
    · rw [Function.update_of_ne isTarget]
      simp [isTarget]
  · intro x isDone y notDone
    rw [same, Function.update_of_ne (different x isDone),
      Function.update_apply]
    split
    · exact Nat.le_trans (latest x isDone) (Nat.le_add_right _ _)
    · exact searching.settled x isDone y notDone
  · intro x isFinite
    rw [same] at isFinite ⊢
    by_cases isTarget : x = u
    · subst isTarget
      rw [Function.update_self]
      obtain ⟨visited, path, areDone⟩ := searching.paths v isReached
      have visitedDone : ∀ y ∈ visited, y ∈ finished := by
        intro y member
        by_cases isLast : y = v
        · rw [isLast]
          exact isFinished
        · exact areDone y member isLast
      refine ⟨x :: visited, path.edge isEdge ?_, ?_⟩
      · intro member
        exact notFinished (visitedDone x member)
      · intro y member notLast
        rcases List.mem_cons.mp member with rfl | earlier
        · exact absurd rfl notLast
        · exact visitedDone y earlier
    · rw [Function.update_of_ne isTarget] at isFinite ⊢
      exact searching.paths x isFinite

/-- Pending edges may be given up if they are relaxed. -/
theorem Searching.settle
    {fewer : Nat → Nat → Nat → Prop}
    (searching : Searching graph src maxDist pending distMap queue finished)
    (relaxed :
      ∀ v length u,
        graph.Edge v length u →
        pending v length u →
        labels distMap v + length ≤ maxDist →
        fewer v length u ∨
          labels distMap u ≤ labels distMap v + length) :
    Searching graph src maxDist fewer distMap queue finished := by
  refine ⟨searching.sized, searching.labelled.settle ?_, searching.queued,
    searching.settled, searching.paths⟩
  rintro x weight y isEdge (notFinished | isPending) _ inBound
  · exact Or.inl (Or.inl notFinished)
  · rcases relaxed x weight y isEdge isPending inBound with isFewer | isDone
    · exact Or.inl (Or.inr isFewer)
    · exact Or.inr isDone

/-- The edges of a vertex that are still to be looked at. -/
def Remaining
    (v : Nat)
    (todo : List (Nat × Nat))
    (x length u : Nat) : Prop :=
  x = v ∧ (u, length) ∈ todo

/-- One edge of a vertex is looked at. -/
theorem relaxEdge_spec
    (fit : graph.SumsFit src maxDist)
    (isFinished : v ∈ finished)
    (isReached : labels distMap v < sizeMax)
    (latest : ∀ x ∈ finished, labels distMap x ≤ labels distMap v)
    (isEdge : graph.Edge v length u)
    (searching :
      Searching graph src maxDist (Remaining v ((u, length) :: todo)) distMap
        queue finished) :
    ∃ next nextQueue,
      relaxEdge maxDist v finished (distMap, queue) (u, length) =
          some (next, nextQueue) ∧
        Searching graph src maxDist (Remaining v todo) next nextQueue
          finished ∧
        ∀ x ∈ finished, labels next x = labels distMap x := by
  unfold relaxEdge
  dsimp only
  by_cases isDone : u ∈ finished
  · refine ⟨distMap, queue, if_pos isDone, searching.settle ?_,
      fun _ _ => rfl⟩
    rintro x weight y _ ⟨rfl, member⟩ _
    rcases List.mem_cons.mp member with same | isLater
    · cases same
      exact Or.inr (Nat.le_trans (latest _ isDone) (Nat.le_add_right _ _))
    · exact Or.inl ⟨rfl, isLater⟩
  · obtain ⟨visited, path, areDone⟩ := searching.paths v isReached
    have fresh : u ∉ visited := by
      intro member
      by_cases isLast : u = v
      · rw [isLast] at isDone
        exact isDone isFinished
      · exact isDone (areDone u member isLast)
    have inBound := (searching.labelled.walked v isReached).1
    have fits := fit visited v _ length u path inBound isEdge fresh
    have inRange : u < distMap.length := by
      rw [searching.sized]
      exact isEdge.target_lt
    rw [if_neg isDone, getElem?_labels (lt_length_of_labels_lt isReached),
      getElem?_labels inRange]
    simp only [Option.bind_eq_bind, Option.bind_some, Nat.mod_eq_of_lt fits]
    have others :
        Searching graph src maxDist
          (fun x weight y => Remaining v todo x weight y ∨
            (x = v ∧ weight = length ∧ y = u)) distMap queue finished := by
      refine searching.settle ?_
      rintro x weight y _ ⟨rfl, member⟩ _
      rcases List.mem_cons.mp member with same | isLater
      · cases same
        exact Or.inl (Or.inr ⟨rfl, rfl, rfl⟩)
      · exact Or.inl (Or.inl ⟨rfl, isLater⟩)
    by_cases lowers :
        labels distMap v + length < labels distMap u ∧
          labels distMap v + length ≤ maxDist
    · have lowered := others.lower isFinished isReached latest isEdge isDone
        lowers.2 lowers.1
      have same := labels_set inRange (labels distMap v + length)
      have kept :
          ∀ x ∈ finished,
            labels (distMap.set u (labels distMap v + length)) x =
              labels distMap x := by
        intro x member
        rw [same, Function.update_of_ne]
        rintro rfl
        exact isDone member
      refine ⟨_, _, if_pos lowers, lowered.settle ?_, kept⟩
      rintro x weight y _ (isLater | ⟨rfl, rfl, rfl⟩) _
      · exact Or.inl isLater
      · refine Or.inr ?_
        rw [kept x isFinished, same, Function.update_self]
    · refine ⟨_, _, if_neg lowers, others.settle ?_, fun _ _ => rfl⟩
      rintro x weight y _ (isLater | ⟨rfl, rfl, rfl⟩) isShort
      · exact Or.inl isLater
      · refine Or.inr (Nat.le_of_not_lt ?_)
        intro isLess
        exact lowers ⟨isLess, isShort⟩

/-- All edges of a vertex are looked at. -/
theorem foldlM_relaxEdge_spec
    (fit : graph.SumsFit src maxDist)
    (isFinished : v ∈ finished)
    (isReached : labels distMap v < sizeMax)
    (latest : ∀ x ∈ finished, labels distMap x ≤ labels distMap v)
    (edges : ∀ edge ∈ todo, graph.Edge v edge.2 edge.1)
    (searching :
      Searching graph src maxDist (Remaining v todo) distMap queue
        finished) :
    ∃ next nextQueue,
      todo.foldlM (relaxEdge maxDist v finished) (distMap, queue) =
          some (next, nextQueue) ∧
        Searching graph src maxDist (fun _ _ _ => False) next nextQueue
          finished := by
  induction todo generalizing distMap queue with
  | nil =>
      refine ⟨distMap, queue, rfl, searching.settle ?_⟩
      rintro x weight y _ ⟨_, impossible⟩ _
      cases impossible
  | cons edge todo inductionHypothesis =>
      obtain ⟨next, nextQueue, relaxed, nextSearching, kept⟩ :=
        relaxEdge_spec fit isFinished isReached latest
          (edges edge List.mem_cons_self) searching
      obtain ⟨final, finalQueue, folded, finalSearching⟩ :=
        inductionHypothesis
          (by rw [kept v isFinished]; exact isReached)
          (by
            intro x member
            rw [kept x member, kept v isFinished]
            exact latest x member)
          (fun edge member => edges edge (List.mem_cons_of_mem _ member))
          nextSearching
      refine ⟨final, finalQueue, ?_, finalSearching⟩
      rw [List.foldlM_cons, relaxed]
      exact folded

/-- The head of the queue is finished. -/
theorem Searching.pop
    {dist : Nat}
    (searching :
      Searching graph src maxDist (fun _ _ _ => False) distMap queue
        finished)
    (isHead : queue.min? = some (toLex (dist, v)))
    {edges : List (Nat × Nat)}
    (found : graph.neighbours[v]? = some edges) :
    Searching graph src maxDist (Remaining v edges) distMap
      (queue.erase (toLex (dist, v))) (finished.insert v) := by
  have member := Std.ExtTreeSet.min?_mem isHead
  obtain ⟨notFinished, isDist, isFinite⟩ :=
    (searching.queued dist v).mp member
  refine ⟨searching.sized, searching.labelled.settle ?_, ?_, ?_, ?_⟩
  · rintro x weight y ⟨others, foundOthers, isOther⟩
      (isWaived | impossible) _ _
    · by_cases isPopped : x = v
      · subst isPopped
        rw [found] at foundOthers
        cases foundOthers
        exact Or.inl (Or.inr ⟨rfl, isOther⟩)
      · refine Or.inl (Or.inl ?_)
        rw [mem_insert_iff, not_or]
        exact ⟨isPopped, isWaived⟩
    · exact absurd impossible not_false
  · intro other x
    rw [mem_erase_iff, searching.queued, mem_insert_iff, not_or, Ne,
      toLex.injective.eq_iff, Prod.mk.injEq]
    constructor
    · rintro ⟨isOther, notDone, isLabel, isFinite'⟩
      refine ⟨⟨?_, notDone⟩, isLabel, isFinite'⟩
      rintro rfl
      exact isOther ⟨isLabel.symm.trans isDist, rfl⟩
    · rintro ⟨⟨notPopped, notDone⟩, isLabel, isFinite'⟩
      exact ⟨fun same => notPopped same.2, notDone, isLabel, isFinite'⟩
  · intro x isDone y notDone
    rw [mem_insert_iff, not_or] at notDone
    rcases mem_insert_iff.mp isDone with rfl | wasDone
    · rcases Nat.lt_or_ge (labels distMap y) sizeMax with
        isNear | isFar
      · have isQueued := (searching.queued _ y).mpr ⟨notDone.2, rfl, isNear⟩
        rw [isDist]
        exact head_le isHead isQueued
      · exact Nat.le_trans (searching.labelled.bounded x) isFar
    · exact searching.settled x wasDone y notDone.2
  · intro x isNear
    obtain ⟨visited, path, areDone⟩ := searching.paths x isNear
    refine ⟨visited, path, ?_⟩
    intro y member notLast
    exact mem_insert_iff.mpr (Or.inr (areDone y member notLast))

/-- The vertices that are not finished. -/
def unfinished (graph : CfgGraph) (finished : OrderedSet Nat) : Finset Nat :=
  (Finset.range graph.neighbours.length).filter fun v => v ∉ finished

theorem card_unfinished_insert_lt
    (inRange : v < graph.neighbours.length)
    (notFinished : v ∉ finished) :
    (graph.unfinished (finished.insert v)).card <
      (graph.unfinished finished).card := by
  apply Finset.card_lt_card
  refine Finset.ssubset_iff_of_subset ?_ |>.mpr ⟨v, ?_, ?_⟩
  · intro x member
    obtain ⟨xInRange, notDone⟩ := Finset.mem_filter.mp member
    rw [mem_insert_iff, not_or] at notDone
    exact Finset.mem_filter.mpr ⟨xInRange, notDone.2⟩
  · exact Finset.mem_filter.mpr ⟨Finset.mem_range.mpr inRange, notFinished⟩
  · intro member
    exact (Finset.mem_filter.mp member).2
      (mem_insert_iff.mpr (Or.inl rfl))

/-- The loop ends, and then the labels are the distances. -/
theorem processQueue_spec
    (fit : graph.SumsFit src maxDist)
    (isSize : maxDist ≤ sizeMax)
    (fuel : Nat)
    (searching :
      Searching graph src maxDist (fun _ _ _ => False) distMap queue
        finished)
    (enough : (graph.unfinished finished).card < fuel) :
    ∃ final,
      graph.processQueue maxDist fuel distMap queue finished = some final ∧
        final.length = graph.neighbours.length ∧
        ∀ u, graph.IsBoundedDistance src maxDist u (labels final u) := by
  induction fuel generalizing distMap queue finished with
  | zero =>
      exact absurd enough (Nat.not_lt_zero _)
  | succ fuel inductionHypothesis =>
      unfold processQueue
      cases isHead : queue.min? with
      | none =>
          refine ⟨distMap, rfl, searching.sized, ?_⟩
          have done :
              Labelled (· = src) graph.Edge maxDist sizeMax
                (fun _ _ _ => False) (labels distMap) := by
            refine searching.labelled.settle ?_
            rintro x weight y _ (notFinished | impossible) isNear _
            · have isQueued :=
                (searching.queued _ x).mpr ⟨notFinished, rfl, isNear⟩
              rw [Std.ExtTreeSet.min?_eq_none_iff.mp isHead] at isQueued
              exact absurd isQueued Std.ExtTreeSet.not_mem_empty
            · exact absurd impossible not_false
          exact done.isBounded isSize
      | some head =>
          obtain ⟨⟨dist, v⟩, rfl⟩ := toLex.surjective head
          obtain ⟨notFinished, isDist, isNear⟩ :=
            (searching.queued dist v).mp (Std.ExtTreeSet.min?_mem isHead)
          rw [← isDist] at isNear
          have inRange := lt_length_of_labels_lt isNear
          rw [searching.sized] at inRange
          have found := List.getElem?_eq_getElem inRange
          generalize graph.neighbours[v] = edges at found
          have popped := searching.pop isHead found
          have isFinished : v ∈ finished.insert v :=
            mem_insert_iff.mpr (Or.inl rfl)
          have latest :
              ∀ x ∈ finished.insert v, labels distMap x ≤ labels distMap v := by
            intro x member
            rcases mem_insert_iff.mp member with rfl | isDone
            · exact Nat.le_refl _
            · exact searching.settled x isDone v notFinished
          obtain ⟨next, nextQueue, folded, nextSearching⟩ :=
            foldlM_relaxEdge_spec fit isFinished isNear latest
              (fun edge member => ⟨edges, found, member⟩) popped
          have fewer := card_unfinished_insert_lt inRange notFinished
          obtain ⟨final, ran, isFinal⟩ :=
            inductionHypothesis nextSearching
              (Nat.lt_of_lt_of_le fewer (Nat.le_of_lt_succ enough))
          refine ⟨final, ?_, isFinal⟩
          have notBeyond : ¬dist > maxDist := by
            rw [← isDist]
            exact Nat.not_lt_of_le (searching.labelled.walked v isNear).1
          simp only [ofLex_toLex, notBeyond, ↓reduceIte, found,
            Option.bind_eq_bind, Option.bind_some, folded]
          exact ran

/-- All distances are infinite before the source is entered. -/
theorem foldl_set_range
    (distMap : List Nat)
    (count : Nat)
    (inRange : count ≤ distMap.length) :
    (List.range count).foldl
        (fun distMap i => distMap.set i sizeMax) distMap =
      List.replicate count sizeMax ++ distMap.drop count := by
  induction count with
  | zero =>
      rfl
  | succ count inductionHypothesis =>
      have isNext : count < distMap.length := inRange
      rw [List.range_succ, List.foldl_append,
        inductionHypothesis (Nat.le_of_lt isNext),
        List.drop_eq_getElem_cons isNext, List.replicate_succ',
        List.foldl_cons, List.foldl_nil,
        List.set_append_right _ _ (Nat.le_of_eq List.length_replicate),
        List.length_replicate, Nat.sub_self, List.set_cons_zero,
        List.append_assoc, List.singleton_append]

/-- Without an overflow the search ends with the bounded shortest distances. -/
theorem dijkstraBoundedShortestPaths_spec
    (fit : graph.SumsFit src maxDist)
    (isNode : src < graph.neighbours.length)
    (sized : distMap.length = graph.neighbours.length)
    (isSize : maxDist ≤ sizeMax) :
    ∃ final,
      graph.dijkstraBoundedShortestPaths src distMap maxDist = some final ∧
        final.length = graph.neighbours.length ∧
        ∀ u < graph.neighbours.length,
          ∃ dist,
            final[u]? = some dist ∧
              graph.IsBoundedDistance src maxDist u dist := by
  unfold dijkstraBoundedShortestPaths
  dsimp only
  rw [foldl_set_range distMap _ (Nat.le_of_eq sized.symm), ← sized,
    List.drop_length, List.append_nil]
  have start :
      ∀ u,
        labels ((List.replicate distMap.length sizeMax).set src 0) u =
          if u = src then 0 else sizeMax := by
    intro u
    rw [labels_set (by rw [List.length_replicate, sized]; exact isNode),
      Function.update_apply]
    split
    · rfl
    · rw [labels, List.getElem?_replicate]
      split <;> rfl
  have initially :
      Searching graph src maxDist (fun _ _ _ => False)
        ((List.replicate distMap.length sizeMax).set src 0)
        ((∅ : OrderedSet QueueEntry).insert (toLex (0, src))) ∅ := by
    refine ⟨?_, ⟨?_, ?_, ?_, ?_⟩, ?_, ?_, ?_⟩
    · rw [List.length_set, List.length_replicate, sized]
    · intro u
      rw [start u]
      split
      · exact Nat.zero_le _
      · exact Nat.le_refl _
    · intro u isNear
      rw [start u] at isNear ⊢
      split
      · next isSource =>
          exact ⟨Nat.zero_le _, .source isSource⟩
      · next notSource =>
          rw [if_neg notSource] at isNear
          exact absurd isNear (Nat.lt_irrefl _)
    · intro u isSource
      rw [start u, if_pos isSource]
    · intro v _ _ _ _ _
      exact Or.inl (Or.inl Std.ExtTreeSet.not_mem_empty)
    · intro dist u
      rw [mem_insert_iff, start u, toLex.injective.eq_iff, Prod.mk.injEq]
      constructor
      · rintro (⟨rfl, rfl⟩ | impossible)
        · exact ⟨Std.ExtTreeSet.not_mem_empty, if_pos rfl, by decide⟩
        · exact absurd impossible Std.ExtTreeSet.not_mem_empty
      · rintro ⟨_, isLabel, isNear⟩
        split at isLabel
        · next isSource =>
            exact Or.inl ⟨isLabel.symm, isSource⟩
        · rw [← isLabel] at isNear
          exact absurd isNear (Nat.lt_irrefl _)
    · intro v impossible
      exact absurd impossible Std.ExtTreeSet.not_mem_empty
    · intro u isNear
      rw [start u] at isNear ⊢
      split
      · next isSource =>
          subst isSource
          refine ⟨[u], .start, ?_⟩
          intro x member different
          exact absurd (List.mem_singleton.mp member) different
      · next notSource =>
          rw [if_neg notSource] at isNear
          exact absurd isNear (Nat.lt_irrefl _)
  have enough :
      (graph.unfinished ∅).card < distMap.length + 1 := by
    rw [sized]
    refine Nat.lt_succ_of_le (Nat.le_trans (Finset.card_filter_le _ _) ?_)
    rw [Finset.card_range]
  obtain ⟨final, ran, finalSized, distances⟩ :=
    processQueue_spec fit isSize _ initially enough
  refine ⟨final, ran, finalSized.trans sized.symm, ?_⟩
  intro u inRange
  refine ⟨_, getElem?_labels ?_, distances u⟩
  rw [finalSized, ← sized]
  exact inRange

end Search

end CfgGraph

end Compi
