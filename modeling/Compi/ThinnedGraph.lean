import Mathlib.Order.Bounds.Basic

/-!
# Thinned graphs

Some nodes of a graph are marked.  The thinned graph has the marked nodes, and
an edge where a path leads from one to another without passing a third.  A goal
is then as many edges away as marked nodes have to be entered on a path to it.
-/

namespace Compi.ThinnedGraph

variable {Node : Type}

section Definitions

variable
  (Step : Node → Node → Prop)
  (Marked : Node → Prop)

/-- A path whose inner nodes are not marked. -/
inductive LeadsTo (node : Node) : Node → Prop where
  | first {next : Node} (step : Step node next) : LeadsTo node next
  | through
      {inner next : Node}
      (path : LeadsTo node inner)
      (notMarked : ¬Marked inner)
      (step : Step inner next) :
      LeadsTo node next

/-- The edges of the thinned graph. -/
def Next (node next : Node) : Prop :=
  Marked next ∧ next ≠ node ∧ LeadsTo Step Marked node next

variable (Goal : Node → Prop)

/-- A path to a goal that enters a number of marked nodes. -/
inductive Entries : Node → Nat → Prop where
  | here {node : Node} (isGoal : Goal node) : Entries node 0
  | pass
      {node next : Node}
      {entered : Nat}
      (step : Step node next)
      (notMarked : ¬Marked next)
      (rest : Entries next entered) :
      Entries node entered
  | enter
      {node next : Node}
      {entered : Nat}
      (step : Step node next)
      (isMarked : Marked next)
      (rest : Entries next entered) :
      Entries node (entered + 1)

/-- A path from a start that has entered a number of marked nodes. -/
inductive Way (start : Node) : Node → Nat → Prop where
  | here : Way start start 0
  | pass
      {node next : Node}
      {entered : Nat}
      (way : Way start node entered)
      (step : Step node next)
      (notMarked : ¬Marked next) :
      Way start next entered
  | enter
      {node next : Node}
      {entered : Nat}
      (way : Way start node entered)
      (step : Step node next)
      (isMarked : Marked next) :
      Way start next (entered + 1)

/-- A path to a goal of a number of edges of the thinned graph. -/
inductive Hops : Node → Nat → Prop where
  | here {node : Node} (isGoal : Goal node) : Hops node 0
  | hop
      {node next : Node}
      {hops : Nat}
      (isNext : Next Step Marked node next)
      (rest : Hops next hops) :
      Hops node (hops + 1)

end Definitions

section Distances

variable
  {Step : Node → Node → Prop}
  {Marked Goal : Node → Prop}
  {node next inner : Node}
  {count : Nat}

/-- A way goes on to a goal. -/
theorem Way.entries
    {start : Node}
    {entered : Nat}
    (way : Way Step Marked start node entered)
    (rest : Entries Step Marked Goal node count) :
    Entries Step Marked Goal start (entered + count) := by
  induction way generalizing count with
  | here =>
      rw [Nat.zero_add]
      exact rest
  | pass _ step notMarked inductionHypothesis =>
      exact inductionHypothesis (.pass step notMarked rest)
  | enter _ step isMarked inductionHypothesis =>
      rw [Nat.add_assoc, Nat.add_comm 1]
      exact inductionHypothesis (.enter step isMarked rest)

/-- What can be done after a last step can be done after a path. -/
theorem LeadsTo.entries
    (path : LeadsTo Step Marked node next)
    (onward : ∀ last, Step last next → Entries Step Marked Goal last count) :
    Entries Step Marked Goal node count := by
  induction path with
  | first step =>
      exact onward node step
  | through _ notMarked step inductionHypothesis =>
      have fromInner := onward _ step
      exact
        inductionHypothesis fun last stepIn =>
          .pass stepIn notMarked fromInner

/-- Every edge of the thinned graph enters one marked node. -/
theorem Hops.entries
    (path : Hops Step Marked Goal node count) :
    Entries Step Marked Goal node count := by
  induction path with
  | here isGoal =>
      exact .here isGoal
  | hop isNext _ inductionHypothesis =>
      obtain ⟨isMarked, _, path⟩ := isNext
      exact path.entries fun last step => .enter step isMarked inductionHypothesis

/-- What has been passed since the last marked node. -/
def Since
    (Step : Node → Node → Prop)
    (Marked : Node → Prop)
    (node inner : Node) : Prop :=
  inner = node ∨ ¬Marked inner ∧ LeadsTo Step Marked node inner

theorem Since.step
    (since : Since Step Marked node inner)
    (step : Step inner next) :
    LeadsTo Step Marked node next := by
  rcases since with rfl | ⟨notMarked, path⟩
  · exact .first step
  · exact .through path notMarked step

/-- Where only marked nodes are goals, no more edges are needed than entries. -/
theorem Entries.hops_of_since
    (goalsMarked : ∀ goal, Goal goal → Marked goal)
    (path : Entries Step Marked Goal inner count)
    (since : Since Step Marked node inner) :
    ∃ hops ≤ count, Hops Step Marked Goal node hops := by
  induction path generalizing node with
  | here isGoal =>
      rcases since with rfl | ⟨notMarked, _⟩
      · exact ⟨0, Nat.le_refl 0, .here isGoal⟩
      · exact absurd (goalsMarked _ isGoal) notMarked
  | pass step notMarked _ inductionHypothesis =>
      exact inductionHypothesis (.inr ⟨notMarked, since.step step⟩)
  | @enter _ next entered step isMarked _ inductionHypothesis =>
      obtain ⟨hops, few, rest⟩ := inductionHypothesis (.inl rfl)
      by_cases same : next = node
      · -- An edge from a node to itself is not kept, and not needed.
        rw [same] at rest
        exact ⟨hops, Nat.le_succ_of_le few, rest⟩
      · have isNext : Next Step Marked node next :=
          ⟨isMarked, same, since.step step⟩
        exact ⟨hops + 1, Nat.succ_le_succ few, .hop isNext rest⟩

/-- Thinning keeps the bounds on the distances to goals. -/
theorem mem_lowerBounds_iff
    (goalsMarked : ∀ goal, Goal goal → Marked goal)
    {bound : Nat} :
    (∀ hops, Hops Step Marked Goal node hops → bound ≤ hops) ↔
      ∀ entered, Entries Step Marked Goal node entered → bound ≤ entered := by
  constructor
  · intro isBound entered path
    obtain ⟨hops, few, inThinned⟩ := path.hops_of_since goalsMarked (.inl rfl)
    exact Nat.le_trans (isBound hops inThinned) few
  · intro isBound hops path
    exact isBound hops path.entries

/-- Thinning keeps the distances to goals. -/
theorem isLeast_iff
    (goalsMarked : ∀ goal, Goal goal → Marked goal)
    {dist : Nat} :
    IsLeast {hops | Hops Step Marked Goal node hops} dist ↔
      IsLeast {entered | Entries Step Marked Goal node entered} dist := by
  constructor
  · rintro ⟨path, isBound⟩
    exact ⟨path.entries, (mem_lowerBounds_iff goalsMarked).mp isBound⟩
  · rintro ⟨path, isBound⟩
    have isLower := (mem_lowerBounds_iff goalsMarked).mpr isBound
    obtain ⟨hops, few, inThinned⟩ := path.hops_of_since goalsMarked (.inl rfl)
    have same : hops = dist := Nat.le_antisymm few (isLower hops inThinned)
    rw [same] at inThinned
    exact ⟨inThinned, isLower⟩

end Distances

end Compi.ThinnedGraph
