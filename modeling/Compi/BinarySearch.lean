import Mathlib.Order.Lattice

/-!
# Binary search

A search of a sorted list for the first entry that is not less than a value.
The range still to be searched is halved; everything before it is less than
the value, and everything after it is not.
-/

namespace Compi.BinarySearch

variable {Value : Type} [LinearOrder Value]

/-- Search a number of entries from a position on; fuel for each of them. -/
def lowerBoundFrom
    (values : List Value)
    (value : Value) : Nat → Nat → Nat → Nat
  | 0, first, _ => first
  | _ + 1, first, 0 => first
  | fuel + 1, first, len + 1 =>
      let half := (len + 1) / 2
      match values[first + half]? with
      | none => first
      | some middle =>
          if middle < value then
            lowerBoundFrom values value fuel (first + half + 1) (len - half)
          else
            lowerBoundFrom values value fuel first half

/-- `lower_bound` over a whole list. -/
def lowerBound (values : List Value) (value : Value) : Nat :=
  lowerBoundFrom values value values.length 0 values.length

/-- The first position from which on no entry is less than a value. -/
structure IsLowerBound
    (values : List Value)
    (value : Value)
    (bound : Nat) : Prop where
  less : ∀ i < bound, ∃ entry, values[i]? = some entry ∧ entry < value
  notLess : ∀ i entry, bound ≤ i → values[i]? = some entry → value ≤ entry

variable {values : List Value} {value : Value}

/-- Up to an entry that is less than the value all entries are. -/
theorem less_of_sorted
    (sorted : values.Pairwise (· ≤ ·))
    {i j : Nat}
    {entry : Value}
    (present : values[j]? = some entry)
    (isLess : entry < value)
    (upTo : i ≤ j) :
    ∃ earlier, values[i]? = some earlier ∧ earlier < value := by
  obtain ⟨jInBounds, isEntry⟩ := List.getElem?_eq_some_iff.mp present
  have iInBounds : i < values.length := Nat.lt_of_le_of_lt upTo jInBounds
  refine ⟨values[i], List.getElem?_eq_getElem iInBounds, ?_⟩
  rcases Nat.lt_or_eq_of_le upTo with isBefore | rfl
  · have ordered := List.pairwise_iff_getElem.mp sorted i j iInBounds
      jInBounds isBefore
    rw [isEntry] at ordered
    exact lt_of_le_of_lt ordered isLess
  · rw [isEntry]
    exact isLess

/-- From an entry on that is not less than the value no entry is. -/
theorem notLess_of_sorted
    (sorted : values.Pairwise (· ≤ ·))
    {i j : Nat}
    {entry later : Value}
    (present : values[i]? = some entry)
    (isNotLess : ¬entry < value)
    (fromOn : i ≤ j)
    (found : values[j]? = some later) :
    value ≤ later := by
  by_contra isLess
  obtain ⟨earlier, same, earlierLess⟩ :=
    less_of_sorted sorted found (not_le.mp isLess) fromOn
  rw [present] at same
  cases same
  exact isNotLess earlierLess

/-- Halving keeps the bound inside the range. -/
theorem lowerBoundFrom_isLowerBound
    (sorted : values.Pairwise (· ≤ ·))
    (fuel first len : Nat)
    (enough : len ≤ fuel)
    (inRange : first + len ≤ values.length)
    (before : ∀ i < first, ∃ entry, values[i]? = some entry ∧ entry < value)
    (after :
      ∀ i entry,
        first + len ≤ i → values[i]? = some entry → value ≤ entry) :
    IsLowerBound values value
      (lowerBoundFrom values value fuel first len) := by
  induction fuel generalizing first len with
  | zero =>
      obtain rfl := Nat.le_zero.mp enough
      exact ⟨before, after⟩
  | succ fuel inductionHypothesis =>
      cases len with
      | zero =>
          exact ⟨before, after⟩
      | succ len =>
          unfold lowerBoundFrom
          dsimp only
          have isInside : (len + 1) / 2 ≤ len := by
            omega
          generalize (len + 1) / 2 = half at isInside ⊢
          have inBounds : first + half < values.length := by
            omega
          rw [List.getElem?_eq_getElem inBounds]
          have present := List.getElem?_eq_getElem inBounds
          generalize values[first + half] = middle at present ⊢
          dsimp only
          split
          · next isLess =>
              refine inductionHypothesis (first + half + 1) (len - half)
                (by omega) (by omega) ?_ ?_
              · intro i isBefore
                exact less_of_sorted sorted present isLess
                  (Nat.le_of_lt_succ isBefore)
              · intro i entry isAfter found
                exact after i entry (by omega) found
          · next isNotLess =>
              refine inductionHypothesis first half (by omega) (by omega)
                before ?_
              intro i entry isAfter found
              exact notLess_of_sorted sorted present isNotLess isAfter found

theorem lowerBound_isLowerBound (sorted : values.Pairwise (· ≤ ·)) :
    IsLowerBound values value (lowerBound values value) := by
  refine lowerBoundFrom_isLowerBound sorted values.length 0 values.length
    (Nat.le_refl _) (Nat.le_of_eq (Nat.zero_add _)) ?_ ?_
  · intro i impossible
    exact absurd impossible (Nat.not_lt_zero i)
  · intro i entry isAfter found
    rw [List.getElem?_eq_none (by omega)] at found
    cases found

/-- There is only one such position inside the list. -/
theorem IsLowerBound.unique
    {bound other : Nat}
    (isBound : IsLowerBound values value bound)
    (isOther : IsLowerBound values value other) :
    bound = other := by
  rcases Nat.lt_trichotomy bound other with isBefore | same | isAfter
  · obtain ⟨entry, present, isLess⟩ := isOther.less bound isBefore
    have isNotLess := isBound.notLess bound entry (Nat.le_refl _) present
    exact absurd isLess (not_lt.mpr isNotLess)
  · exact same
  · obtain ⟨entry, present, isLess⟩ := isBound.less other isAfter
    have isNotLess := isOther.notLess other entry (Nat.le_refl _) present
    exact absurd isLess (not_lt.mpr isNotLess)

/-- The search stops where a search from the front stops. -/
theorem lowerBound_eq_takeWhile (sorted : values.Pairwise (· ≤ ·)) :
    lowerBound values value =
      (values.takeWhile fun entry => decide (entry < value)).length := by
  apply (lowerBound_isLowerBound sorted).unique
  induction values with
  | nil =>
      refine ⟨?_, ?_⟩
      · intro i impossible
        exact absurd impossible (Nat.not_lt_zero i)
      · intro i entry _ found
        cases found
  | cons head rest inductionHypothesis =>
      by_cases isLess : head < value
      · rw [List.takeWhile_cons, decide_eq_true isLess]
        have tail := inductionHypothesis (List.pairwise_cons.mp sorted).2
        refine ⟨?_, ?_⟩
        · intro i isBefore
          cases i with
          | zero =>
              exact ⟨head, rfl, isLess⟩
          | succ i =>
              exact tail.less i (Nat.lt_of_succ_lt_succ isBefore)
        · intro i entry isAfter found
          cases i with
          | zero =>
              exact absurd isAfter (Nat.not_succ_le_zero _)
          | succ i =>
              exact tail.notLess i entry (Nat.le_of_succ_le_succ isAfter)
                found
      · rw [List.takeWhile_cons, decide_eq_false isLess]
        refine ⟨?_, ?_⟩
        · intro i impossible
          exact absurd impossible (Nat.not_lt_zero i)
        · intro i entry _ found
          exact notLess_of_sorted sorted (i := 0) rfl isLess (Nat.zero_le i)
            found

/-- In a strictly sorted list the search finds the entry's own position. -/
theorem lowerBound_eq_of_getElem?
    (increasing : values.Pairwise (· < ·))
    {i : Nat}
    (present : values[i]? = some value) :
    lowerBound values value = i := by
  have sorted : values.Pairwise (· ≤ ·) := increasing.imp le_of_lt
  apply (lowerBound_isLowerBound sorted).unique
  refine ⟨?_, ?_⟩
  · intro j isBefore
    obtain ⟨iInBounds, isValue⟩ := List.getElem?_eq_some_iff.mp present
    have jInBounds := Nat.lt_trans isBefore iInBounds
    refine ⟨values[j], List.getElem?_eq_getElem jInBounds, ?_⟩
    rw [← isValue]
    exact List.pairwise_iff_getElem.mp increasing j i jInBounds iInBounds
      isBefore
  · intro j entry isAfter found
    exact notLess_of_sorted sorted present (lt_irrefl value) isAfter found

/-- The entry at the bound is the value exactly if the value is an entry. -/
theorem getElem?_lowerBound_iff (increasing : values.Pairwise (· < ·)) :
    values[lowerBound values value]? = some value ↔ value ∈ values := by
  constructor
  · exact List.mem_of_getElem?
  · intro member
    obtain ⟨i, present⟩ := List.mem_iff_getElem?.mp member
    rw [lowerBound_eq_of_getElem? increasing present]
    exact present

end Compi.BinarySearch
