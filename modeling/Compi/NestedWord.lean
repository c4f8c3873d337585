import Mathlib.Algebra.Ring.Int.Defs
import Mathlib.Data.Int.Basic
import Mathlib.Data.List.Basic
import Mathlib.Order.Lattice

/-!
# Nested words

Some letters of a word open brackets and some close them.  The level of a
position counts the brackets that are open there; a bracket is closed where the
level first returns to what it was before the bracket.  Neither need all
brackets be closed, nor all closing letters close one.
-/

namespace Compi

/-- What a letter does to the level. -/
inductive Bracket where
  | opening
  | closing
  | plain
  deriving DecidableEq

/-- The change of the level. -/
def Bracket.weight : Bracket → Int
  | opening => 1
  | closing => -1
  | plain => 0

namespace NestedWord

variable {Letter : Type}

section Levels

variable (kind : Letter → Bracket) (word : List Letter)

/-- What the letter at a position does. -/
def bracketAt (i : Nat) : Option Bracket :=
  word[i]?.map kind

/-- How many more brackets are opened than closed before a position. -/
def level (i : Nat) : Int :=
  ((word.take i).map fun letter => (kind letter).weight).sum

/-- The bracket at a position is closed at another one. -/
structure Matched (i j : Nat) : Prop where
  opens : bracketAt kind word i = some .opening
  closes : bracketAt kind word j = some .closing
  before : i < j
  returns : level kind word (j + 1) = level kind word i
  above : ∀ k, i < k → k ≤ j → level kind word i < level kind word k

/-- Between two positions the level is never lower than at the first one. -/
def Covered (start stop : Nat) : Prop :=
  ∀ k, start ≤ k → k ≤ stop → level kind word start ≤ level kind word k

end Levels

variable {kind : Letter → Bracket} {word : List Letter} {i j k : Nat}

section Steps

theorem level_succ (i : Nat) :
    level kind word (i + 1) =
      level kind word i +
        ((bracketAt kind word i).map Bracket.weight).getD 0 := by
  rw [level, List.take_add_one, List.map_append, List.sum_append, ← level,
    bracketAt]
  cases word[i]? with
  | none =>
      rfl
  | some letter =>
      simp

theorem level_of_opening (opens : bracketAt kind word i = some .opening) :
    level kind word (i + 1) = level kind word i + 1 := by
  rw [level_succ, opens]
  rfl

theorem level_of_closing (closes : bracketAt kind word i = some .closing) :
    level kind word (i + 1) = level kind word i - 1 := by
  rw [level_succ, closes]
  rfl

theorem level_of_plain (isPlain : bracketAt kind word i = some .plain) :
    level kind word (i + 1) = level kind word i := by
  rw [level_succ, isPlain]
  exact Int.add_zero _

/-- Only a closing letter lowers the level. -/
theorem level_le_of_ne_closing
    (notClosing : bracketAt kind word i ≠ some .closing) :
    level kind word i ≤ level kind word (i + 1) := by
  rw [level_succ]
  cases here : bracketAt kind word i with
  | none =>
      exact Int.le_of_eq (Int.add_zero _).symm
  | some bracket =>
      cases bracket with
      | opening =>
          exact Int.le_add_one (Int.le_refl _)
      | closing =>
          exact absurd here notClosing
      | plain =>
          exact Int.le_of_eq (Int.add_zero _).symm

/-- Only an opening letter raises the level. -/
theorem level_ge_of_ne_opening
    (notOpening : bracketAt kind word i ≠ some .opening) :
    level kind word (i + 1) ≤ level kind word i := by
  rw [level_succ]
  cases here : bracketAt kind word i with
  | none =>
      exact Int.le_of_eq (Int.add_zero _)
  | some bracket =>
      cases bracket with
      | opening =>
          exact absurd here notOpening
      | closing =>
          exact Int.sub_le_self _ (by decide)
      | plain =>
          exact Int.le_of_eq (Int.add_zero _)

end Steps

section Covering

theorem Covered.refl (i : Nat) : Covered kind word i i := by
  intro k fromStart toStop
  obtain rfl := Nat.le_antisymm fromStart toStop
  exact Int.le_refl _

theorem Covered.trans
    (isBefore : i ≤ j)
    (first : Covered kind word i j)
    (second : Covered kind word j k) :
    Covered kind word i k := by
  intro m fromStart toStop
  rcases Nat.le_total m j with inFirst | inSecond
  · exact first m fromStart inFirst
  · exact
      Int.le_trans (first j isBefore (Nat.le_refl j)) (second m inSecond toStop)

theorem covered_succ
    (notClosing : bracketAt kind word i ≠ some .closing) :
    Covered kind word i (i + 1) := by
  intro k fromStart toStop
  rcases Nat.lt_or_eq_of_le toStop with isHere | rfl
  · obtain rfl := Nat.le_antisymm fromStart (Nat.le_of_lt_succ isHere)
    exact Int.le_refl _
  · exact level_le_of_ne_closing notClosing

/-- A bracket is closed after a part that leads back to its level. -/
theorem matched_of_covered
    (opens : bracketAt kind word i = some .opening)
    (closes : bracketAt kind word j = some .closing)
    (before : i < j)
    (covered : Covered kind word (i + 1) j)
    (balanced : level kind word j = level kind word (i + 1)) :
    Matched kind word i j := by
  have up := level_of_opening opens
  have down := level_of_closing closes
  refine ⟨opens, closes, before, by omega, ?_⟩
  intro k isAfter upTo
  have notBelow := covered k isAfter upTo
  omega

theorem Matched.covered (isMatched : Matched kind word i j) :
    Covered kind word i (j + 1) := by
  intro k fromStart toStop
  rcases Nat.lt_or_eq_of_le fromStart with isAfter | rfl
  · rcases Nat.lt_or_eq_of_le toStop with isEarlier | rfl
    · exact
        Int.le_of_lt (isMatched.above k isAfter (Nat.le_of_lt_succ isEarlier))
    · exact Int.le_of_eq isMatched.returns.symm
  · exact Int.le_refl _

end Covering

section Matching

/-- A bracket is closed only once. -/
theorem Matched.unique
    (first : Matched kind word i j)
    (second : Matched kind word i k) :
    j = k := by
  rcases Nat.lt_trichotomy j k with isLess | same | isGreater
  · have higher := second.above (j + 1) (by have := first.before; omega) isLess
    rw [first.returns] at higher
    exact absurd higher (Int.lt_irrefl _)
  · exact same
  · have higher :=
      first.above (k + 1) (by have := second.before; omega) isGreater
    rw [second.returns] at higher
    exact absurd higher (Int.lt_irrefl _)

/-- The last position before another one whose level is not above a bound. -/
theorem exists_last_not_above
    {start stop : Nat}
    {bound : Int}
    (isBefore : start ≤ stop)
    (notAbove : level kind word start ≤ bound)
    (above : bound < level kind word stop) :
    ∃ i,
      start ≤ i ∧ i < stop ∧ level kind word i ≤ bound ∧
        ∀ k, i < k → k ≤ stop → bound < level kind word k := by
  induction stop, isBefore using Nat.le_induction with
  | base =>
      exact absurd above (Int.not_lt.mpr notAbove)
  | succ stop isBefore inductionHypothesis =>
      by_cases isLast : level kind word stop ≤ bound
      · refine ⟨stop, isBefore, Nat.lt_succ_self stop, isLast, ?_⟩
        intro k isAfter upTo
        obtain rfl : k = stop + 1 := by omega
        exact above
      · obtain ⟨i, fromStart, toStop, low, later⟩ :=
          inductionHypothesis (Int.not_le.mp isLast)
        refine ⟨i, fromStart, Nat.lt_succ_of_lt toStop, low, ?_⟩
        intro k isAfter upTo
        rcases Nat.lt_or_eq_of_le upTo with isEarlier | rfl
        · exact later k isAfter (Nat.le_of_lt_succ isEarlier)
        · exact above

/--
A closing letter closes a bracket that is not before a position, if it does not
lead below the level of the position.
-/
theorem exists_matched
    (closes : bracketAt kind word j = some .closing)
    {start : Nat}
    (isBefore : start ≤ j)
    (notAbove : level kind word start ≤ level kind word (j + 1)) :
    ∃ i, start ≤ i ∧ Matched kind word i j := by
  have down := level_of_closing closes
  obtain ⟨i, fromStart, before, low, above⟩ :=
    exists_last_not_above isBefore notAbove (by omega)
  have higher := above (i + 1) (Nat.lt_succ_self i) before
  have opens : bracketAt kind word i = some .opening := by
    by_contra notOpening
    have notHigher := level_ge_of_ne_opening notOpening
    omega
  have up := level_of_opening opens
  have returns : level kind word (j + 1) = level kind word i := by omega
  refine ⟨i, fromStart, opens, closes, before, returns, ?_⟩
  intro k isAfter upTo
  rw [← returns]
  exact above k isAfter upTo

/-- A closing letter that leads below the level of a position closes nothing. -/
theorem not_matched_of_below
    {start : Nat}
    (covered : Covered kind word start j)
    (below : level kind word (j + 1) < level kind word start)
    (fromStart : start ≤ i) :
    ¬Matched kind word i j := by
  intro isMatched
  have notBelow := covered i fromStart (Nat.le_of_lt isMatched.before)
  have returns := isMatched.returns
  omega

/--
The level does not fall below that of a position exactly as long as all closing
letters close brackets that are not before it.
-/
theorem covered_iff (start stop : Nat) :
    Covered kind word start stop ↔
      ∀ j, start ≤ j → j < stop → bracketAt kind word j = some .closing →
        ∃ i, start ≤ i ∧ Matched kind word i j := by
  constructor
  · intro covered j fromStart toStop closes
    exact
      exists_matched closes fromStart
        (covered (j + 1) (Nat.le_succ_of_le fromStart) toStop)
  · intro allMatched k fromStart
    induction k using Nat.strongRecOn with
    | _ k inductionHypothesis =>
        intro toStop
        rcases Nat.lt_or_eq_of_le fromStart with isAfter | rfl
        · obtain ⟨k, rfl⟩ := Nat.exists_eq_succ_of_ne_zero
            (Nat.ne_of_gt (Nat.lt_of_le_of_lt (Nat.zero_le start) isAfter))
          have fromStart : start ≤ k := Nat.le_of_lt_succ isAfter
          by_cases closes : bracketAt kind word k = some .closing
          · obtain ⟨i, isInside, isMatched⟩ :=
              allMatched k fromStart toStop closes
            have before := isMatched.before
            rw [isMatched.returns]
            exact inductionHypothesis i (by omega) isInside (by omega)
          · have notBelow :=
              inductionHypothesis k (Nat.lt_succ_self k) fromStart
                (Nat.le_of_succ_le toStop)
            exact Int.le_trans notBelow (level_le_of_ne_closing closes)
        · exact Int.le_refl _

/-- The level stays, or there is a first letter that leads below it. -/
theorem covered_or_exists_below
    {start stop : Nat}
    (isBefore : start ≤ stop) :
    Covered kind word start stop ∨
      ∃ j,
        start ≤ j ∧ j < stop ∧ Covered kind word start j ∧
          level kind word (j + 1) < level kind word start := by
  induction stop, isBefore using Nat.le_induction with
  | base =>
      exact Or.inl (Covered.refl start)
  | succ stop isBefore inductionHypothesis =>
      rcases inductionHypothesis with
        covered | ⟨j, fromStart, toStop, covered, below⟩
      · by_cases below : level kind word (stop + 1) < level kind word start
        · exact
            Or.inr ⟨stop, isBefore, Nat.lt_succ_self stop, covered, below⟩
        · refine Or.inl fun k fromStart toStop => ?_
          rcases Nat.lt_or_eq_of_le toStop with isEarlier | rfl
          · exact covered k fromStart (Nat.le_of_lt_succ isEarlier)
          · exact Int.not_lt.mp below
      · exact
          Or.inr ⟨j, fromStart, Nat.lt_succ_of_lt toStop, covered, below⟩

/--
After a plain letter the level falls below its own exactly where a bracket
around it has been closed.
-/
theorem exists_below_iff
    {start stop : Nat}
    (covered : Covered kind word start stop)
    (fromStart : start ≤ k)
    (isPlain : bracketAt kind word k = some .plain) :
    (∃ i, k < i ∧ i ≤ stop ∧ level kind word i < level kind word k) ↔
      ∃ i j,
        start ≤ i ∧ i < k ∧ k < j ∧ j < stop ∧ Matched kind word i j := by
  constructor
  · rintro ⟨last, isAfter, toStop, below⟩
    rcases covered_or_exists_below (Nat.le_of_lt isAfter) with
      stays | ⟨j, notBefore, isEarlier, stays, falls⟩
    · exact absurd below (Int.not_lt.mpr (stays last (Nat.le_of_lt isAfter)
        (Nat.le_refl last)))
    · have atLevel := stays j notBefore (Nat.le_refl j)
      have closes : bracketAt kind word j = some .closing := by
        by_contra notClosing
        have notBelow := level_le_of_ne_closing notClosing
        omega
      have different : k ≠ j := by
        rintro rfl
        rw [isPlain] at closes
        cases closes
      obtain ⟨i, isInside, isMatched⟩ :=
        exists_matched closes (Nat.le_trans fromStart notBefore)
          (covered (j + 1) (by omega) (by omega))
      have isAround : i < k := by
        by_contra notAround
        have notBelow :=
          stays i (Nat.le_of_not_lt notAround) (Nat.le_of_lt isMatched.before)
        have returns := isMatched.returns
        omega
      exact ⟨i, j, isInside, isAround, by omega, by omega, isMatched⟩
  · rintro ⟨i, j, _, isBefore, isAfter, toStop, isMatched⟩
    refine ⟨j + 1, Nat.lt_succ_of_lt isAfter, toStop, ?_⟩
    rw [isMatched.returns]
    exact isMatched.above k isBefore (Nat.le_of_lt isAfter)

end Matching

end NestedWord

end Compi
