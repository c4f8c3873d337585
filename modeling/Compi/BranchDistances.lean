import Compi.BranchSets
import Compi.CfgDistance
import Compi.PartialRun
import Compi.ShortestDistance
import Mathlib.Algebra.Order.BigOperators.Group.Finset

/-!
# Distances to uncovered branches

The constructor of the heuristic search reverses the graph of branches, and
`UpdateBranchDistances` walks it from the uncovered branches on.  The queue
holds the branches whose predecessors may still be lowered.
-/

namespace Compi

namespace CfgDistance

open BranchTables ShortestDistance

/-- Enter a branch among the predecessors of its targets. -/
def reverseEdges
    (i : BranchId)
    (cfgRev : List (List BranchId))
    (targets : List BranchId) : Option (List (List BranchId)) :=
  targets.foldlM (fun cfgRev j => do
    let sources ← lookup? cfgRev j
    return update cfgRev j (sources ++ [i])) cfgRev

/-- The vector `cfg_rev_` that the constructor of the search builds. -/
def reverseCfg
    (maxBranch : Nat)
    (branches : List BranchId)
    (cfg : List (List BranchId)) : Option (List (List BranchId)) :=
  branches.foldlM (fun cfgRev i => do
    let targets ← lookup? cfg i
    reverseEdges i cfgRev targets) (List.replicate maxBranch [])

end CfgDistance

/-- A vector `cfg_` whose edges stay among the branches. -/
structure BranchGraph where
  maxBranch : Nat
  branches : List BranchId
  cfg : List (List BranchId)
  inRange : ∀ bid ∈ branches, 0 ≤ bid ∧ bid < maxBranch
  sized : cfg.length = maxBranch
  closed :
    ∀ bid ∈ branches,
      ∀ targets,
        BranchTables.lookup? cfg bid = some targets →
        ∀ next ∈ targets, next ∈ branches

namespace BranchGraph

open BranchTables CfgDistance ShortestDistance

variable (graph : BranchGraph)

/-- The edges of the graph. -/
def Edge (bid next : BranchId) : Prop :=
  bid ∈ graph.branches ∧
    ∃ targets, lookup? graph.cfg bid = some targets ∧ next ∈ targets

/-- The uncovered branches of the graph. -/
def Uncovered (covered : List Bool) (bid : BranchId) : Prop :=
  bid ∈ graph.branches ∧ lookup? covered bid = some false

/-- A path of a number of edges from a branch to an uncovered one. -/
inductive StepsToUncovered (covered : List Bool) : BranchId → Nat → Prop where
  | here
      {bid : BranchId}
      (uncovered : graph.Uncovered covered bid) :
      StepsToUncovered covered bid 0
  | step
      {bid next : BranchId}
      {edges : Nat}
      (isEdge : graph.Edge bid next)
      (rest : StepsToUncovered covered next edges) :
      StepsToUncovered covered bid (edges + 1)

/--
The least number of edges to an uncovered branch if it is below the infinite
distance, and the infinite distance otherwise.
-/
def IsDistance
    (covered : List Bool)
    (bid : BranchId)
    (dist : Nat) : Prop :=
  (dist < kInfiniteDistance ∧
      IsLeast {edges | graph.StepsToUncovered covered bid edges} dist) ∨
    ((∀ edges,
        graph.StepsToUncovered covered bid edges →
        kInfiniteDistance ≤ edges) ∧
      dist = kInfiniteDistance)

/-- The edges in the direction in which the distances spread. -/
def Backward (bid : BranchId) (weight : Nat) (source : BranchId) : Prop :=
  weight = 1 ∧ graph.Edge source bid

variable {graph} {covered : List Bool} {bid : BranchId} {dist : List Nat}

theorem Edge.source_mem
    {source target : BranchId}
    (isEdge : graph.Edge source target) :
    source ∈ graph.branches :=
  isEdge.1

/-- Walks from the uncovered branches are paths to them. -/
theorem reaches_iff {edges : Nat} :
    Reaches (graph.Uncovered covered) graph.Backward bid edges ↔
      graph.StepsToUncovered covered bid edges := by
  constructor
  · intro walk
    induction walk with
    | source isSource =>
        exact .here isSource
    | edge _ isEdge inductionHypothesis =>
        obtain ⟨rfl, forward⟩ := isEdge
        exact .step forward inductionHypothesis
  · intro path
    induction path with
    | here uncovered =>
        exact .source uncovered
    | step isEdge _ inductionHypothesis =>
        exact .edge inductionHypothesis ⟨rfl, isEdge⟩

/-- Bounded shortest distances are the distances of the graph. -/
theorem isDistance_of_isBounded
    {far : Nat}
    (isBounded :
      IsBounded (graph.Uncovered covered) graph.Backward
        (kInfiniteDistance - 1) kInfiniteDistance bid far) :
    graph.IsDistance covered bid far := by
  unfold IsBounded at isBounded
  simp only [reaches_iff] at isBounded
  rcases isBounded with ⟨isShort, isLeast⟩ | ⟨isFar, isInfinite⟩
  · exact Or.inl ⟨Nat.lt_of_le_pred (by decide) isShort, isLeast⟩
  · refine Or.inr ⟨?_, isInfinite⟩
    intro edges path
    exact Nat.le_of_pred_lt (isFar edges path)

section Reversal

/-- A vector that lists the sources of some edges, in any order. -/
structure Lists
    (graph : BranchGraph)
    (isSource : BranchId → BranchId → Prop)
    (cfgRev : List (List BranchId)) : Prop where
  sized : cfgRev.length = graph.maxBranch
  sources :
    ∀ bid sources,
      lookup? cfgRev bid = some sources →
      ∀ source, source ∈ sources ↔ isSource source bid

/-- The edges of a branch are entered for each of its targets. -/
theorem reverseEdges_spec
    {isSource : BranchId → BranchId → Prop}
    {cfgRev : List (List BranchId)}
    (lists : Lists graph isSource cfgRev)
    (i : BranchId)
    (targets : List BranchId)
    (listed : ∀ target ∈ targets, target ∈ graph.branches) :
    ∃ final,
      reverseEdges i cfgRev targets = some final ∧
        Lists graph
          (fun source bid =>
            isSource source bid ∨ (source = i ∧ bid ∈ targets)) final := by
  unfold reverseEdges
  refine PartialRun.foldlM_of_all_steps _ _ _
    (fun before cfgRev =>
      Lists graph
        (fun source bid =>
          isSource source bid ∨ (source = i ∧ bid ∈ before)) cfgRev)
    ?_ ?_
  · intro before cfgRev j member lists
    have inRange := graph.inRange j (listed j member)
    rw [← lists.sized] at inRange
    obtain ⟨sources, found⟩ := lookup?_of_inRange inRange
    refine ⟨update cfgRev j (sources ++ [i]), by simp [found], ?_, ?_⟩
    · rw [length_update]
      exact lists.sized
    · intro bid sources' found' source
      rw [lookup?_update inRange] at found'
      split at found'
      · next isTarget =>
          cases found'
          rw [List.mem_append, lists.sources j sources found, isTarget,
            List.mem_append, or_assoc]
          refine or_congr Iff.rfl ?_
          constructor
          · rintro (⟨same, earlier⟩ | isNew)
            · exact ⟨same, Or.inl earlier⟩
            · exact ⟨List.mem_singleton.mp isNew,
                Or.inr (List.mem_singleton_self j)⟩
          · rintro ⟨same, _⟩
            exact Or.inr (List.mem_singleton.mpr same)
      · next notTarget =>
          rw [lists.sources bid sources' found', List.mem_append,
            List.mem_singleton, or_iff_left notTarget]
  · refine ⟨lists.sized, ?_⟩
    intro bid sources found source
    rw [lists.sources bid sources found source]
    simp

/-- The reversed graph lists the sources of the edges. -/
theorem reverseCfg_spec (graph : BranchGraph) :
    ∃ cfgRev,
      reverseCfg graph.maxBranch graph.branches graph.cfg = some cfgRev ∧
        Lists graph graph.Edge cfgRev := by
  have processed :=
    PartialRun.foldlM_of_all_steps
      (fun cfgRev i => do
        let targets ← lookup? graph.cfg i
        reverseEdges i cfgRev targets)
      graph.branches
      (List.replicate graph.maxBranch [])
      (fun before cfgRev =>
        Lists graph
          (fun source bid =>
            source ∈ before ∧
              ∃ targets,
                lookup? graph.cfg source = some targets ∧ bid ∈ targets)
          cfgRev)
      ?_ ?_
  · exact processed
  · intro before cfgRev i member lists
    have inRange := graph.inRange i member
    rw [← graph.sized] at inRange
    obtain ⟨targets, found⟩ := lookup?_of_inRange inRange
    obtain ⟨final, reversed, finalLists⟩ :=
      reverseEdges_spec lists i targets (graph.closed i member targets found)
    refine ⟨final, ?_, finalLists.sized, ?_⟩
    · rw [found]
      exact reversed
    · intro bid sources isEntry source
      rw [finalLists.sources bid sources isEntry source, List.mem_append,
        List.mem_singleton]
      constructor
      · rintro (⟨earlier, isTarget⟩ | ⟨rfl, isTarget⟩)
        · exact ⟨Or.inl earlier, isTarget⟩
        · exact ⟨Or.inr rfl, targets, found, isTarget⟩
      · rintro ⟨earlier | rfl, others, foundOthers, isTarget⟩
        · exact Or.inl ⟨earlier, others, foundOthers, isTarget⟩
        · rw [found] at foundOthers
          cases foundOthers
          exact Or.inr ⟨rfl, isTarget⟩
  · refine ⟨List.length_replicate, ?_⟩
    intro bid sources found source
    have isEmpty : sources = [] := by
      unfold lookup? at found
      split at found
      · exact List.eq_of_mem_replicate (List.mem_of_getElem? found)
      · cases found
    rw [isEmpty]
    simp

end Reversal

section Relaxation

/-- The distances in a vector as labels; other numbers are infinitely far. -/
def labels
    (graph : BranchGraph)
    (dist : List Nat)
    (bid : BranchId) : Nat :=
  if bid ∈ graph.branches then (lookup? dist bid).getD 0
  else kInfiniteDistance

theorem lookup?_labels
    (sized : dist.length = graph.maxBranch)
    (member : bid ∈ graph.branches) :
    lookup? dist bid = some (graph.labels dist bid) := by
  have inRange := graph.inRange bid member
  rw [← sized] at inRange
  obtain ⟨far, found⟩ := lookup?_of_inRange inRange
  rw [labels, if_pos member, found]
  rfl

theorem labels_update
    (sized : dist.length = graph.maxBranch)
    (member : bid ∈ graph.branches)
    (far : Nat) :
    graph.labels (update dist bid far) =
      Function.update (graph.labels dist) bid far := by
  have inRange := graph.inRange bid member
  rw [← sized] at inRange
  funext other
  rw [Function.update_apply, labels, lookup?_update inRange]
  split
  · next otherMember =>
      split
      · rfl
      · rw [labels, if_pos otherMember]
  · next notMember =>
      have different : other ≠ bid := by
        rintro rfl
        exact notMember member
      rw [if_neg different, labels, if_neg notMember]

/-- The sum of the distances of all branches. -/
def total (graph : BranchGraph) (dist : List Nat) : Nat :=
  ∑ bid ∈ graph.branches.toFinset, graph.labels dist bid

/-- Lowering one distance lowers the sum. -/
theorem total_update_lt
    (sized : dist.length = graph.maxBranch)
    (member : bid ∈ graph.branches)
    {far : Nat}
    (lowers : far < graph.labels dist bid) :
    graph.total (update dist bid far) < graph.total dist := by
  unfold total
  rw [labels_update sized member]
  refine Finset.sum_lt_sum ?_ ⟨bid, List.mem_toFinset.mpr member, ?_⟩
  · intro other _
    rw [Function.update_apply]
    split
    · next same =>
        rw [same]
        exact Nat.le_of_lt lowers
    · exact Nat.le_refl _
  · rw [Function.update_self]
    exact lowers

/--
What the loop keeps: the distances are labels, and besides some pending edges
only those of queued branches are still to be looked at.
-/
structure Relaxing
    (graph : BranchGraph)
    (covered : List Bool)
    (pending : BranchId → BranchId → Prop)
    (dist : List Nat)
    (queue : List BranchId) : Prop where
  sized : dist.length = graph.maxBranch
  queued : ∀ bid ∈ queue, bid ∈ graph.branches
  labelled :
    Labelled (graph.Uncovered covered) graph.Backward
      (kInfiniteDistance - 1) kInfiniteDistance
      (fun bid _ source => bid ∈ queue ∨ pending bid source)
      (graph.labels dist)

variable {queue : List BranchId} {todo : List BranchId}

/-- One predecessor of a branch is looked at. -/
theorem relax_spec
    {source : BranchId}
    (isEdge : graph.Edge source bid)
    (relaxing :
      Relaxing graph covered
        (fun node target => node = bid ∧ target ∈ source :: todo) dist queue) :
    ∃ next nextQueue,
      relax (graph.labels dist bid + 1) (dist, queue) source =
          some (next, nextQueue) ∧
        Relaxing graph covered
          (fun node target => node = bid ∧ target ∈ todo) next nextQueue ∧
        graph.labels next bid = graph.labels dist bid ∧
        graph.total next + nextQueue.length ≤
          graph.total dist + queue.length := by
  have sized := relaxing.sized
  have member := isEdge.source_mem
  unfold relax
  dsimp only
  rw [lookup?_labels sized member]
  by_cases lowers : graph.labels dist bid + 1 < graph.labels dist source
  · have inBound :
        graph.labels dist bid + 1 ≤ kInfiniteDistance - 1 :=
      Nat.le_pred_of_lt
        (Nat.lt_of_lt_of_le lowers (relaxing.labelled.bounded source))
    have different : bid ≠ source := by
      rintro rfl
      exact absurd lowers (by omega)
    refine ⟨update dist source (graph.labels dist bid + 1),
      queue ++ [source], by simp [lowers], ⟨?_, ?_, ?_⟩, ?_, ?_⟩
    · rw [length_update]
      exact sized
    · intro other isQueued
      rcases List.mem_append.mp isQueued with earlier | isNew
      · exact relaxing.queued other earlier
      · rw [List.mem_singleton.mp isNew]
        exact member
    · rw [labels_update sized member]
      have isReversed : graph.Backward bid 1 source := ⟨rfl, isEdge⟩
      refine (relaxing.labelled.lower isReversed inBound lowers).settle ?_
      rintro node weight target ⟨_, _⟩ (rfl | isQueued | ⟨rfl, isTodo⟩) _ _
      · exact Or.inl (Or.inl
          (List.mem_append_right _ (List.mem_singleton_self _)))
      · exact Or.inl (Or.inl (List.mem_append_left _ isQueued))
      · rcases List.mem_cons.mp isTodo with rfl | isLater
        · refine Or.inr ?_
          rw [Function.update_self, Function.update_of_ne different]
          omega
        · exact Or.inl (Or.inr ⟨rfl, isLater⟩)
    · rw [labels_update sized member, Function.update_of_ne different]
    · have less := total_update_lt sized member lowers
      rw [List.length_append, List.length_singleton]
      omega
  · refine ⟨dist, queue, by simp [lowers], ⟨sized, relaxing.queued, ?_⟩,
      rfl, Nat.le_refl _⟩
    refine relaxing.labelled.settle ?_
    rintro node weight target ⟨rfl, _⟩ (isQueued | ⟨rfl, isTodo⟩) _ _
    · exact Or.inl (Or.inl isQueued)
    · rcases List.mem_cons.mp isTodo with rfl | isLater
      · exact Or.inr (Nat.le_of_not_lt lowers)
      · exact Or.inl (Or.inr ⟨rfl, isLater⟩)

/-- All predecessors of a branch are looked at. -/
theorem foldlM_relax_spec
    (edges : ∀ source ∈ todo, graph.Edge source bid)
    (relaxing :
      Relaxing graph covered
        (fun node target => node = bid ∧ target ∈ todo) dist queue) :
    ∃ next nextQueue,
      todo.foldlM (relax (graph.labels dist bid + 1)) (dist, queue) =
          some (next, nextQueue) ∧
        Relaxing graph covered (fun _ _ => False) next nextQueue ∧
        graph.total next + nextQueue.length ≤
          graph.total dist + queue.length := by
  induction todo generalizing dist queue with
  | nil =>
      refine ⟨dist, queue, rfl, ⟨relaxing.sized, relaxing.queued, ?_⟩,
        Nat.le_refl _⟩
      refine relaxing.labelled.settle ?_
      rintro node weight target _ (isQueued | ⟨_, impossible⟩) _ _
      · exact Or.inl (Or.inl isQueued)
      · cases impossible
  | cons source todo inductionHypothesis =>
      obtain ⟨next, nextQueue, relaxed, nextRelaxing, same, less⟩ :=
        relax_spec (edges source List.mem_cons_self) relaxing
      obtain ⟨final, finalQueue, folded, finalRelaxing, finalLess⟩ :=
        inductionHypothesis
          (fun source member =>
            edges source (List.mem_cons_of_mem _ member)) nextRelaxing
      refine ⟨final, finalQueue, ?_, finalRelaxing,
        Nat.le_trans finalLess less⟩
      rw [List.foldlM_cons, relaxed, ← same]
      exact folded

/-- The loop ends, and then no edge is left. -/
theorem relaxAll_spec
    {cfgRev : List (List BranchId)}
    (lists : Lists graph graph.Edge cfgRev)
    (fuel : Nat)
    (relaxing : Relaxing graph covered (fun _ _ => False) dist queue)
    (enough : graph.total dist + queue.length < fuel) :
    ∃ final,
      relaxAll cfgRev fuel (dist, queue) = some final ∧
        Relaxing graph covered (fun _ _ => False) final [] := by
  induction fuel generalizing dist queue with
  | zero =>
      exact absurd enough (Nat.not_lt_zero _)
  | succ fuel inductionHypothesis =>
      cases queue with
      | nil =>
          exact ⟨dist, rfl, relaxing⟩
      | cons bid queue =>
          have member := relaxing.queued bid List.mem_cons_self
          have inRange := graph.inRange bid member
          rw [← lists.sized] at inRange
          obtain ⟨sources, found⟩ := lookup?_of_inRange inRange
          have edges := lists.sources bid sources found
          have popped :
              Relaxing graph covered
                (fun node target => node = bid ∧ target ∈ sources) dist queue := by
            refine ⟨relaxing.sized, fun other isQueued =>
              relaxing.queued other (List.mem_cons_of_mem _ isQueued), ?_⟩
            refine relaxing.labelled.settle ?_
            rintro node weight target ⟨_, isEdge⟩ (isQueued | impossible) _ _
            · rcases List.mem_cons.mp isQueued with rfl | isLater
              · exact Or.inl (Or.inr ⟨rfl, (edges target).mpr isEdge⟩)
              · exact Or.inl (Or.inl isLater)
            · exact absurd impossible not_false
          obtain ⟨next, nextQueue, folded, nextRelaxing, less⟩ :=
            foldlM_relax_spec (fun source => (edges source).mp) popped
          rw [List.length_cons] at enough
          obtain ⟨final, ran, finalRelaxing⟩ :=
            inductionHypothesis nextRelaxing (by omega)
          refine ⟨final, ?_, finalRelaxing⟩
          rw [relaxAll, lookup?_labels relaxing.sized member, found]
          simp only [Option.bind_eq_bind, Option.bind_some, folded]
          exact ran

end Relaxation

section Update

/-- What the loop before the search has done for some branches. -/
structure Reset
    (graph : BranchGraph)
    (covered : List Bool)
    (before : List BranchId)
    (state : List Nat × List BranchId) : Prop where
  sized : state.1.length = graph.maxBranch
  entries :
    ∀ bid ∈ before,
      ∃ isCovered,
        lookup? covered bid = some isCovered ∧
          lookup? state.1 bid =
            some (if isCovered then kInfiniteDistance else 0)
  queued :
    ∀ bid,
      bid ∈ state.2 ↔ bid ∈ before ∧ lookup? covered bid = some false
  short : state.2.length ≤ before.length

theorem Reset.step
    {before : List BranchId}
    {state : List Nat × List BranchId}
    (reset : Reset graph covered before state)
    (member : bid ∈ graph.branches)
    {isCovered : Bool}
    (found : lookup? covered bid = some isCovered) :
    Reset graph covered (before ++ [bid])
      (update state.1 bid (if isCovered then kInfiniteDistance else 0),
        if isCovered then state.2 else state.2 ++ [bid]) := by
  have inRange := graph.inRange bid member
  rw [← reset.sized] at inRange
  refine ⟨?_, ?_, ?_, ?_⟩
  · rw [length_update]
    exact reset.sized
  · intro other isBefore
    rw [lookup?_update inRange]
    split
    · next same =>
        rw [same]
        exact ⟨isCovered, found, rfl⟩
    · next different =>
        rcases List.mem_append.mp isBefore with earlier | isLast
        · exact reset.entries other earlier
        · exact absurd (List.mem_singleton.mp isLast) different
  · intro other
    cases isCovered with
    | true =>
        simp only [↓reduceIte]
        rw [reset.queued other, List.mem_append, List.mem_singleton]
        constructor
        · rintro ⟨earlier, uncovered⟩
          exact ⟨Or.inl earlier, uncovered⟩
        · rintro ⟨earlier | rfl, uncovered⟩
          · exact ⟨earlier, uncovered⟩
          · rw [found] at uncovered
            cases uncovered
    | false =>
        simp only [Bool.false_eq_true, ↓reduceIte]
        rw [List.mem_append, List.mem_append, List.mem_singleton,
          reset.queued other]
        constructor
        · rintro (⟨earlier, uncovered⟩ | rfl)
          · exact ⟨Or.inl earlier, uncovered⟩
          · exact ⟨Or.inr rfl, found⟩
        · rintro ⟨earlier | rfl, uncovered⟩
          · exact Or.inl ⟨earlier, uncovered⟩
          · exact Or.inr rfl
  · have short := reset.short
    cases isCovered with
    | true =>
        simp only [↓reduceIte, List.length_append]
        exact Nat.le_trans short (Nat.le_add_right _ _)
    | false =>
        simp only [Bool.false_eq_true, ↓reduceIte, List.length_append]
        exact Nat.add_le_add_right short 1

theorem resetDistances_spec
    (coveredSized : covered.length = graph.maxBranch)
    (sized : dist.length = graph.maxBranch) :
    ∃ state,
      resetDistances covered graph.branches dist = some state ∧
        Reset graph covered graph.branches state := by
  unfold resetDistances
  refine PartialRun.foldlM_of_all_steps _ _ _ (Reset graph covered) ?_ ?_
  · rintro before ⟨dist, queue⟩ bid member reset
    have inRange := graph.inRange bid member
    rw [← coveredSized] at inRange
    obtain ⟨isCovered, found⟩ := lookup?_of_inRange inRange
    refine ⟨_, ?_, reset.step member found⟩
    cases isCovered <;> simp [found]
  · exact ⟨sized, by simp, by simp, Nat.le_refl _⟩

/-- The loop starts with labels, and only edges of queued branches left. -/
theorem Reset.relaxing
    {state : List Nat × List BranchId}
    (reset : Reset graph covered graph.branches state) :
    Relaxing graph covered (fun _ _ => False) state.1 state.2 := by
  have label :
      ∀ bid,
        bid ∉ state.2 → graph.labels state.1 bid = kInfiniteDistance := by
    intro bid notQueued
    unfold labels
    split
    · next member =>
        obtain ⟨isCovered, found, entry⟩ := reset.entries bid member
        cases isCovered with
        | true =>
            rw [entry]
            rfl
        | false =>
            exact absurd ((reset.queued bid).mpr ⟨member, found⟩) notQueued
    · rfl
  have start : ∀ bid ∈ state.2, graph.labels state.1 bid = 0 := by
    intro bid isQueued
    obtain ⟨member, uncovered⟩ := (reset.queued bid).mp isQueued
    obtain ⟨isCovered, found, entry⟩ := reset.entries bid member
    rw [uncovered] at found
    cases found
    rw [labels, if_pos member, entry]
    rfl
  refine ⟨reset.sized, fun bid isQueued =>
    ((reset.queued bid).mp isQueued).1, ?_, ?_, ?_, ?_⟩
  · intro bid
    by_cases isQueued : bid ∈ state.2
    · rw [start bid isQueued]
      exact Nat.zero_le _
    · exact Nat.le_of_eq (label bid isQueued)
  · intro bid isFinite
    by_cases isQueued : bid ∈ state.2
    · rw [start bid isQueued]
      exact ⟨Nat.zero_le _, .source ((reset.queued bid).mp isQueued)⟩
    · rw [label bid isQueued] at isFinite
      exact absurd isFinite (Nat.lt_irrefl _)
  · intro bid uncovered
    exact start bid ((reset.queued bid).mpr uncovered)
  · intro bid _ _ _ isFinite _
    by_cases isQueued : bid ∈ state.2
    · exact Or.inl (Or.inl isQueued)
    · rw [label bid isQueued] at isFinite
      exact absurd isFinite (Nat.lt_irrefl _)

/-- The distances of all branches are bounded by those of infinitely far ones. -/
theorem Relaxing.total_le
    {pending : BranchId → BranchId → Prop}
    {queue : List BranchId}
    (relaxing : Relaxing graph covered pending dist queue) :
    graph.total dist ≤ kInfiniteDistance * dist.length := by
  have within :
      graph.branches.toFinset ⊆
        (Finset.range dist.length).image (Nat.cast : Nat → Int) := by
    intro bid member
    have inRange := graph.inRange bid (List.mem_toFinset.mp member)
    rw [← relaxing.sized] at inRange
    exact Finset.mem_image.mpr
      ⟨bid.toNat, Finset.mem_range.mpr ((Int.toNat_lt inRange.1).mpr inRange.2),
        Int.toNat_of_nonneg inRange.1⟩
  have few : graph.branches.toFinset.card ≤ dist.length :=
    calc
      graph.branches.toFinset.card
        ≤ ((Finset.range dist.length).image
            (Nat.cast : Nat → Int)).card := Finset.card_le_card within
      _ ≤ (Finset.range dist.length).card := Finset.card_image_le
      _ = dist.length := Finset.card_range _
  calc
    graph.total dist
      ≤ graph.branches.toFinset.card • kInfiniteDistance :=
        Finset.sum_le_card_nsmul _ _ _ fun bid _ =>
          relaxing.labelled.bounded bid
    _ = kInfiniteDistance * graph.branches.toFinset.card :=
        Nat.mul_comm _ _
    _ ≤ kInfiniteDistance * dist.length :=
        Nat.mul_le_mul_left _ few

/--
With any vector that lists the predecessors, `UpdateBranchDistances` ends with
the distances of the branches.
-/
theorem isDistance_updateBranchDistances
    {cfgRev : List (List BranchId)}
    (lists : Lists graph graph.Edge cfgRev)
    (coveredSized : covered.length = graph.maxBranch)
    (sized : dist.length = graph.maxBranch) :
    ∃ final,
      updateBranchDistances cfgRev covered graph.branches dist = some final ∧
        ∀ bid ∈ graph.branches,
          ∃ far,
            lookup? final bid = some far ∧
              graph.IsDistance covered bid far := by
  obtain ⟨state, isReset, reset⟩ := resetDistances_spec coveredSized sized
  have enough :
      graph.total state.1 + state.2.length <
        kInfiniteDistance * dist.length + graph.branches.length + 1 := by
    have most := reset.relaxing.total_le
    rw [reset.sized, ← sized] at most
    exact Nat.lt_succ_of_le (Nat.add_le_add most reset.short)
  obtain ⟨final, ran, relaxing⟩ := relaxAll_spec lists _ reset.relaxing enough
  refine ⟨final, ?_, fun bid member => ?_⟩
  · rw [updateBranchDistances, isReset]
    exact ran
  · have done :
        Labelled (graph.Uncovered covered) graph.Backward
          (kInfiniteDistance - 1) kInfiniteDistance (fun _ _ _ => False)
          (graph.labels final) := by
      refine relaxing.labelled.settle ?_
      rintro node weight target _ (impossible | impossible) _ _
      · cases impossible
      · exact absurd impossible not_false
    exact
      ⟨_, lookup?_labels relaxing.sized member,
        isDistance_of_isBounded (done.isBounded (Nat.sub_le _ _) bid)⟩

/--
With the reversed graph of the constructor, `UpdateBranchDistances` ends with
the distance of every branch to the uncovered ones.
-/
theorem updateBranchDistances_spec
    (graph : BranchGraph)
    (covered : List Bool)
    (dist : List Nat)
    (coveredSized : covered.length = graph.maxBranch)
    (sized : dist.length = graph.maxBranch) :
    ∃ cfgRev final,
      reverseCfg graph.maxBranch graph.branches graph.cfg = some cfgRev ∧
        updateBranchDistances cfgRev covered graph.branches dist =
          some final ∧
        ∀ bid ∈ graph.branches,
          ∃ far,
            lookup? final bid = some far ∧
              graph.IsDistance covered bid far := by
  obtain ⟨cfgRev, reversed, lists⟩ := reverseCfg_spec graph
  obtain ⟨final, ran, distances⟩ :=
    isDistance_updateBranchDistances lists coveredSized sized
  exact ⟨cfgRev, final, reversed, ran, distances⟩

/-- Two covered branches, each the successor of the other, and a third. -/
def loopAndExit : BranchGraph where
  maxBranch := 4
  branches := [1, 2, 3]
  cfg := [[], [2], [1, 3], []]
  inRange := by decide
  sized := rfl
  closed := by
    intro bid member targets found next isNext
    rcases List.mem_cons.mp member with rfl | member
    · cases found
      rcases List.mem_singleton.mp isNext with rfl
      decide
    · rcases List.mem_cons.mp member with rfl | member
      · cases found
        rcases List.mem_cons.mp isNext with rfl | isNext
        · decide
        · rcases List.mem_singleton.mp isNext with rfl
          decide
      · rcases List.mem_singleton.mp member with rfl
        cases found
        cases isNext

theorem updateBranchDistances_loopAndExit :
    ∃ cfgRev final,
      reverseCfg 4 [1, 2, 3] [[], [2], [1, 3], []] = some cfgRev ∧
        updateBranchDistances cfgRev [false, true, true, false] [1, 2, 3]
            [0, 0, 0, 0] =
          some final ∧
        ∀ bid ∈ ([1, 2, 3] : List BranchId),
          ∃ far,
            lookup? final bid = some far ∧
              loopAndExit.IsDistance [false, true, true, false] bid far :=
  updateBranchDistances_spec loopAndExit [false, true, true, false]
    [0, 0, 0, 0] rfl rfl

end Update

end BranchGraph

end Compi
