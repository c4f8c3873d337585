import Mathlib.Logic.Function.Basic
import Mathlib.Order.Bounds.Basic

/-!
# Shortest distances

Nodes are labelled with their distances from some sources along weighted
edges, as far as these are within a bound.  Labels only get smaller, and each
of them is the length of a walk; they are right once no edge can lower one.
While a search runs, the edges it still has to look at are waived.
-/

namespace Compi.ShortestDistance

variable {Node : Type}

/-- There is a walk of a length from a source. -/
inductive Reaches
    (Source : Node → Prop)
    (Edge : Node → Nat → Node → Prop) : Node → Nat → Prop where
  | source {node : Node} (isSource : Source node) : Reaches Source Edge node 0
  | edge
      {node next : Node}
      {length weight : Nat}
      (walk : Reaches Source Edge node length)
      (isEdge : Edge node weight next) :
      Reaches Source Edge next (length + weight)

/-- The shortest distance within a bound, or a value for none. -/
def IsBounded
    (Source : Node → Prop)
    (Edge : Node → Nat → Node → Prop)
    (bound infinite : Nat)
    (node : Node)
    (dist : Nat) : Prop :=
  (dist ≤ bound ∧ IsLeast {length | Reaches Source Edge node length} dist) ∨
    ((∀ length, Reaches Source Edge node length → bound < length) ∧
      dist = infinite)

/-- Labels of a search that has some edges left. -/
structure Labelled
    (Source : Node → Prop)
    (Edge : Node → Nat → Node → Prop)
    (bound infinite : Nat)
    (waived : Node → Nat → Node → Prop)
    (label : Node → Nat) : Prop where
  bounded : ∀ node, label node ≤ infinite
  walked :
    ∀ node,
      label node < infinite →
      label node ≤ bound ∧ Reaches Source Edge node (label node)
  sources : ∀ node, Source node → label node = 0
  relaxed :
    ∀ node weight next,
      Edge node weight next →
      label node < infinite →
      label node + weight ≤ bound →
      waived node weight next ∨ label next ≤ label node + weight

variable
  {Source : Node → Prop}
  {Edge : Node → Nat → Node → Prop}
  {bound infinite : Nat}
  {waived fewer : Node → Nat → Node → Prop}
  {label : Node → Nat}

namespace Labelled

/-- An edge that cannot lower a label need not be waived. -/
theorem settle
    (labelled : Labelled Source Edge bound infinite waived label)
    (settled :
      ∀ node weight next,
        Edge node weight next →
        waived node weight next →
        label node < infinite →
        label node + weight ≤ bound →
        fewer node weight next ∨ label next ≤ label node + weight) :
    Labelled Source Edge bound infinite fewer label where
  bounded := labelled.bounded
  walked := labelled.walked
  sources := labelled.sources
  relaxed := by
    intro node weight next isEdge isFinite inBound
    rcases labelled.relaxed node weight next isEdge isFinite inBound with
      isWaived | isRelaxed
    · exact settled node weight next isEdge isWaived isFinite inBound
    · exact Or.inr isRelaxed

variable [DecidableEq Node]

/-- Lowering a label along an edge waives the edges that leave its node. -/
theorem lower
    (labelled : Labelled Source Edge bound infinite waived label)
    {node next : Node}
    {weight : Nat}
    (isEdge : Edge node weight next)
    (inBound : label node + weight ≤ bound)
    (lowers : label node + weight < label next) :
    Labelled Source Edge bound infinite
      (fun source weight target =>
        source = next ∨ waived source weight target)
      (Function.update label next (label node + weight)) where
  bounded := by
    intro other
    rw [Function.update_apply]
    split
    · exact Nat.le_trans (Nat.le_of_lt lowers) (labelled.bounded next)
    · exact labelled.bounded other
  walked := by
    intro other
    rw [Function.update_apply]
    split
    · next isNext =>
        intro _
        subst isNext
        have isFinite : label node < infinite :=
          Nat.lt_of_le_of_lt (Nat.le_add_right _ _)
            (Nat.lt_of_lt_of_le lowers (labelled.bounded other))
        obtain ⟨_, walk⟩ := labelled.walked node isFinite
        exact ⟨inBound, Reaches.edge walk isEdge⟩
    · exact labelled.walked other
  sources := by
    intro other isSource
    rw [Function.update_apply]
    split
    · next isNext =>
        have isZero := labelled.sources other isSource
        rw [← isNext, isZero] at lowers
        exact absurd lowers (Nat.not_lt_zero _)
    · exact labelled.sources other isSource
  relaxed := by
    intro source otherWeight target isOtherEdge isFinite otherInBound
    by_cases isNext : source = next
    · exact Or.inl (Or.inl isNext)
    · rw [Function.update_of_ne isNext] at isFinite otherInBound ⊢
      rcases labelled.relaxed source otherWeight target isOtherEdge isFinite
        otherInBound with isWaived | isRelaxed
      · exact Or.inl (Or.inr isWaived)
      · refine Or.inr ?_
        rw [Function.update_apply]
        split
        · next isTarget =>
            rw [isTarget] at isRelaxed
            exact Nat.le_trans (Nat.le_of_lt lowers) isRelaxed
        · exact isRelaxed

end Labelled

/-- Without waived edges no walk within the bound is shorter than a label. -/
theorem Labelled.label_le
    (labelled :
      Labelled Source Edge bound infinite (fun _ _ _ => False) label)
    {node : Node}
    {length : Nat}
    (walk : Reaches Source Edge node length)
    (inBound : length ≤ bound) :
    label node ≤ length := by
  induction walk with
  | source isSource =>
      exact Nat.le_of_eq (labelled.sources _ isSource)
  | @edge node next length weight walk isEdge inductionHypothesis =>
      have before : label node ≤ length :=
        inductionHypothesis (Nat.le_trans (Nat.le_add_right _ _) inBound)
      rcases Nat.lt_or_eq_of_le (labelled.bounded node) with
        isFinite | isInfinite
      · have alongEdge : label node + weight ≤ length + weight :=
          Nat.add_le_add_right before weight
        rcases labelled.relaxed node weight next isEdge isFinite
          (Nat.le_trans alongEdge inBound) with impossible | isRelaxed
        · exact absurd impossible not_false
        · exact Nat.le_trans isRelaxed alongEdge
      · calc
          label next ≤ infinite := labelled.bounded next
          _ = label node := isInfinite.symm
          _ ≤ length := before
          _ ≤ length + weight := Nat.le_add_right _ _

/-- Without waived edges the labels are the bounded shortest distances. -/
theorem Labelled.isBounded
    (labelled :
      Labelled Source Edge bound infinite (fun _ _ _ => False) label)
    (finite : bound ≤ infinite)
    (node : Node) :
    IsBounded Source Edge bound infinite node (label node) := by
  by_cases inBound : ∃ length ≤ bound, Reaches Source Edge node length
  · obtain ⟨length, isShort, walk⟩ := inBound
    have labelLe := labelled.label_le walk isShort
    refine Or.inl ⟨Nat.le_trans labelLe isShort, ?_, ?_⟩
    · rcases Nat.lt_or_eq_of_le (labelled.bounded node) with
        isFinite | isInfinite
      · exact (labelled.walked node isFinite).2
      · have same : length = label node := by
          rw [isInfinite] at labelLe ⊢
          exact Nat.le_antisymm (Nat.le_trans isShort finite) labelLe
        rw [← same]
        exact walk
    · intro other otherWalk
      rcases Nat.lt_or_ge bound other with isLong | isShort'
      · exact Nat.le_of_lt
          (Nat.lt_of_le_of_lt (Nat.le_trans labelLe isShort) isLong)
      · exact labelled.label_le otherWalk isShort'
  · have isFar :
        ∀ length, Reaches Source Edge node length → bound < length := by
      intro length walk
      by_contra isShort
      exact inBound ⟨length, Nat.le_of_not_lt isShort, walk⟩
    rcases Nat.lt_or_eq_of_le (labelled.bounded node) with
      isFinite | isInfinite
    · obtain ⟨isShort, walk⟩ := labelled.walked node isFinite
      exact absurd ⟨_, isShort, walk⟩ inBound
    · exact Or.inr ⟨isFar, isInfinite⟩

end Compi.ShortestDistance
