import Mathlib.Data.List.Nodup
import Mathlib.Logic.Function.Basic
import Compi.TextStream

/-!
# New names

A table remembers, for each prefix of the names seen so far, their suffixes and
the largest number among these.  A name that has been seen gets the next number
of its prefix.  The data attached to names is left out, and so is the list of
changes to undo.
-/

namespace Compi.Cil

/-- `alphaSeparator`. -/
def alphaSeparator : List Char :=
  ['_', '_', '_']

/-- `alphaSeparatorLen`. -/
def alphaSeparatorLen : Nat :=
  alphaSeparator.length

/-- `maxSuffixLength`. -/
def maxSuffixLength : Nat :=
  9

/-- `maxSuffix`. -/
def maxSuffix : Int :=
  10 ^ maxSuffixLength - 1

/-- A name as its prefix, its suffix and the number of the suffix. -/
structure AlphaSplit where
  pre : List Char
  suffix : List Char
  numsuffix : Int
  deriving DecidableEq

/-- The digits at the end of a name. -/
def endDigits (lookupname : List Char) : List Char :=
  (lookupname.reverse.takeWhile Char.isDigit).reverse

/--
`skipSuffix` from the end: the first digit of the suffix.  The source answers
`-1` instead of `0` if there is nothing but digits, which is no suffix either
way.
-/
def startSuffix (lookupname : List Char) : Nat :=
  lookupname.length - (endDigits lookupname).length

/-- There is no valid suffix in a name. -/
def noSuffix (lookupname : List Char) : Bool :=
  (endDigits lookupname).isEmpty ||
    (endDigits lookupname).length > maxSuffixLength ||
    startSuffix lookupname ≤ alphaSeparatorLen ||
    ((endDigits lookupname).length > 1 &&
      (endDigits lookupname).head? = some '0') ||
    alphaSeparator ≠
      (lookupname.drop (startSuffix lookupname - alphaSeparatorLen)).take
        alphaSeparatorLen

/-- `splitNameForAlpha`. -/
def splitNameForAlpha (lookupname : List Char) : AlphaSplit :=
  if noSuffix lookupname then
    { pre := lookupname, suffix := [], numsuffix := -1 }
  else
    { pre := lookupname.take (startSuffix lookupname - alphaSeparatorLen)
      suffix := lookupname.drop (startSuffix lookupname - alphaSeparatorLen)
      numsuffix := Nat.ofDigitChars 10 (endDigits lookupname) 0 }

/-- `alphaTable`: the largest number and the suffixes of each prefix. -/
abbrev AlphaTable : Type :=
  List Char → Option (Int × List (List Char))

namespace AlphaTable

/-- A table without names. -/
def empty : AlphaTable :=
  fun _ => none

/--
`alphaWorker`.  There is no result where a number would be too large, or where
a suffix is listed twice.
-/
def alphaWorker
    (table : AlphaTable)
    (lookupname : List Char)
    (makeNew : Bool) : Option (List Char × AlphaTable) :=
  let name := splitNameForAlpha lookupname
  match table name.pre with
  | none =>
      some
        (lookupname,
          Function.update table name.pre
            (some (name.numsuffix, [name.suffix])))
  | some (max, suffixes) =>
      let stored (newmax : Int) (newsuffix : List Char)
          (newsuffixes : List (List Char)) :=
        (name.pre ++ newsuffix,
          Function.update table name.pre (some (newmax, newsuffixes)))
      if name.numsuffix > max then
        some (stored name.numsuffix name.suffix (name.suffix :: suffixes))
      else
        match suffixes.filter (· = name.suffix) with
        | [] => some (stored max name.suffix (name.suffix :: suffixes))
        | [_] =>
            if makeNew then
              if max ≥ maxSuffix then
                none
              else
                let newsuffix := alphaSeparator ++ TextStream.decimal (max + 1)
                some (stored (max + 1) newsuffix (newsuffix :: suffixes))
            else
              some (stored max name.suffix suffixes)
        | _ => none

/-- `newAlphaName`. -/
def newAlphaName
    (table : AlphaTable)
    (lookupname : List Char) : Option (List Char × AlphaTable) :=
  table.alphaWorker lookupname true

/-- `registerAlphaName`. -/
def registerAlphaName
    (table : AlphaTable)
    (lookupname : List Char) : Option AlphaTable :=
  (table.alphaWorker lookupname false).map Prod.snd

end AlphaTable

section Splitting

/-- A number that is not zero does not start with the digit zero. -/
theorem head?_toDigits
    {n : Nat}
    (positive : 0 < n) :
    (Nat.toDigits 10 n).head? ≠ some '0' := by
  induction n using Nat.strongRecOn with
  | ind n inductionHypothesis =>
      rcases Nat.lt_or_ge n 10 with below | atLeast
      · have oneDigit : ∀ d < 10, 0 < d → [d.digitChar].head? ≠ some '0' := by
          decide
        rw [Nat.toDigits_of_lt_base below]
        exact oneDigit n below positive
      · have quotientPositive : 0 < n / 10 := Nat.div_pos atLeast (by decide)
        have smaller : n / 10 < n := Nat.div_lt_self positive (by decide)
        rw [Nat.toDigits_of_base_le (by decide) atLeast,
          List.head?_append_of_ne_nil _ Nat.toDigits_ne_nil]
        exact inductionHypothesis _ smaller quotientPositive

/-- The parts of a name make up the name. -/
theorem pre_append_suffix (lookupname : List Char) :
    (splitNameForAlpha lookupname).pre ++
        (splitNameForAlpha lookupname).suffix =
      lookupname := by
  unfold splitNameForAlpha
  split
  · exact List.append_nil lookupname
  · exact List.take_append_drop _ lookupname

/-- The number of a suffix is `-1` if there is no suffix. -/
theorem neg_one_le_numsuffix (lookupname : List Char) :
    -1 ≤ (splitNameForAlpha lookupname).numsuffix := by
  unfold splitNameForAlpha
  split
  · exact Int.le_refl (-1)
  · exact Int.le_trans (by decide) (Int.natCast_nonneg _)

/-- The prefix of a name is empty only if the name is. -/
theorem pre_ne_nil
    {lookupname : List Char}
    (notEmpty : lookupname ≠ []) :
    (splitNameForAlpha lookupname).pre ≠ [] := by
  unfold splitNameForAlpha
  split
  · exact notEmpty
  · next hasSuffix =>
      simp only [noSuffix, Bool.or_eq_true, decide_eq_true_eq, not_or,
        not_le] at hasSuffix
      have afterPrefix := hasSuffix.1.1.2
      have inside : startSuffix lookupname ≤ lookupname.length :=
        Nat.sub_le _ _
      rw [← List.length_pos_iff, List.length_take]
      omega

variable {pre : List Char} {n : Nat}

/-- The digits at the end of a name that ends in a number. -/
theorem endDigits_numbered :
    endDigits (pre ++ (alphaSeparator ++ TextStream.decimal n)) =
      TextStream.decimal n := by
  have digits :
      ∀ c ∈ (TextStream.decimal n).reverse, c.isDigit = true := by
    intro c member
    exact TextStream.isDigit_of_mem_decimal (List.mem_reverse.mp member)
  unfold endDigits
  rw [List.reverse_append, List.reverse_append, List.append_assoc,
    List.takeWhile_append_of_pos digits]
  simp [alphaSeparator]

theorem startSuffix_numbered :
    startSuffix (pre ++ (alphaSeparator ++ TextStream.decimal n)) =
      pre.length + alphaSeparatorLen := by
  unfold startSuffix
  rw [endDigits_numbered, List.length_append, List.length_append,
    alphaSeparatorLen]
  omega

/-- A number that is not too large is a suffix of a name. -/
theorem noSuffix_numbered
    (notEmpty : pre ≠ [])
    (fits : (n : Int) ≤ maxSuffix) :
    noSuffix (pre ++ (alphaSeparator ++ TextStream.decimal n)) = false := by
  have hasPrefix := List.length_pos_iff.mpr notEmpty
  have short : (TextStream.decimal n).length ≤ maxSuffixLength := by
    refine (Nat.length_toDigits_le_iff (by decide) (by decide)).mpr ?_
    have bound : maxSuffix = 999999999 := rfl
    rw [bound] at fits
    unfold maxSuffixLength
    omega
  have noLeadingZero :
      ¬ ((TextStream.decimal n).length > 1 ∧
        (TextStream.decimal n).head? = some '0') := by
    rintro ⟨long, zero⟩
    cases n with
    | zero =>
        exact absurd long (by decide)
    | succ n =>
        exact head?_toDigits (Nat.succ_pos n) zero
  have afterPrefix : ¬ pre.length + alphaSeparatorLen ≤ alphaSeparatorLen := by
    omega
  have isSeparator :
      List.take alphaSeparatorLen (alphaSeparator ++ TextStream.decimal n) =
        alphaSeparator :=
    List.take_left
  rw [← Bool.not_eq_true]
  simp only [noSuffix, endDigits_numbered, startSuffix_numbered,
    Nat.add_sub_cancel, List.drop_left, isSeparator, Bool.or_eq_true,
    decide_eq_true_eq, Bool.and_eq_true, not_or, List.isEmpty_iff]
  exact
    ⟨⟨⟨⟨TextStream.decimal_ne_nil n, Nat.not_lt.mpr short⟩, afterPrefix⟩,
      noLeadingZero⟩, fun differs => differs rfl⟩

/-- A new name is split into its prefix and its number again. -/
theorem splitNameForAlpha_numbered
    (notEmpty : pre ≠ [])
    (fits : (n : Int) ≤ maxSuffix) :
    splitNameForAlpha (pre ++ (alphaSeparator ++ TextStream.decimal n)) =
      { pre := pre
        suffix := alphaSeparator ++ TextStream.decimal n
        numsuffix := n } := by
  have isNumber :
      Nat.ofDigitChars 10 (TextStream.decimal n) 0 = n :=
    Nat.ofDigitChars_ten_toDigits
  unfold splitNameForAlpha
  rw [noSuffix_numbered notEmpty fits, if_neg Bool.false_ne_true,
    endDigits_numbered, startSuffix_numbered, Nat.add_sub_cancel,
    List.take_left, List.drop_left, isNumber]

end Splitting

namespace AlphaTable

/-- A name has been seen. -/
def Known (table : AlphaTable) (name : List Char) : Prop :=
  ∃ max suffixes,
    table (splitNameForAlpha name).pre = some (max, suffixes) ∧
      (splitNameForAlpha name).suffix ∈ suffixes

/--
The suffixes of a prefix are those of different names, and no number among them
is larger than the one that is kept.
-/
structure WellFormed (table : AlphaTable) : Prop where
  atLeast :
    ∀ pre max suffixes, table pre = some (max, suffixes) → -1 ≤ max
  nodup :
    ∀ pre max suffixes, table pre = some (max, suffixes) → suffixes.Nodup
  numbers :
    ∀ pre max suffixes, table pre = some (max, suffixes) →
      ∀ suffix ∈ suffixes,
        (splitNameForAlpha (pre ++ suffix)).pre = pre ∧
          (splitNameForAlpha (pre ++ suffix)).numsuffix ≤ max

/-- A table that remembers a new name. -/
structure Remembers
    (table : AlphaTable)
    (name : List Char)
    (next : AlphaTable)
    (max : Int)
    (suffixes : List (List Char)) : Prop where
  before :
    table (splitNameForAlpha name).pre = none ∧ suffixes = [] ∨
      ∃ old, table (splitNameForAlpha name).pre = some (old, suffixes) ∧ old ≤ max
  number : (splitNameForAlpha name).numsuffix ≤ max
  unseen : (splitNameForAlpha name).suffix ∉ suffixes
  after :
    next =
      Function.update table (splitNameForAlpha name).pre
        (some (max, (splitNameForAlpha name).suffix :: suffixes))

namespace Remembers

variable
  {table next : AlphaTable}
  {name other : List Char}
  {max : Int}
  {suffixes : List (List Char)}

/-- A name that is remembered has not been seen before. -/
theorem not_known (remembers : Remembers table name next max suffixes) :
    ¬ table.Known name := by
  rintro ⟨oldMax, oldSuffixes, listed, member⟩
  rcases remembers.before with ⟨absent, -⟩ | ⟨old, present, -⟩
  · rw [absent] at listed
    cases listed
  · rw [present] at listed
    obtain ⟨-, rfl⟩ := Prod.mk.inj (Option.some.inj listed)
    exact remembers.unseen member

/-- One name more is known. -/
theorem known_iff (remembers : Remembers table name next max suffixes) :
    next.Known other ↔ other = name ∨ table.Known other := by
  unfold Known
  rw [remembers.after]
  by_cases samePre :
      (splitNameForAlpha other).pre = (splitNameForAlpha name).pre
  · have same :
        (splitNameForAlpha other).suffix = (splitNameForAlpha name).suffix ↔
          other = name := by
      constructor
      · intro sameSuffix
        rw [← pre_append_suffix other, ← pre_append_suffix name, samePre,
          sameSuffix]
      · rintro rfl
        rfl
    rw [samePre, Function.update_self]
    constructor
    · rintro ⟨max, suffixes, listed, member⟩
      obtain ⟨-, rfl⟩ := Prod.mk.inj (Option.some.inj listed)
      rcases List.mem_cons.mp member with isNew | isOld
      · exact Or.inl (same.mp isNew)
      · rcases remembers.before with ⟨-, none⟩ | ⟨old, present, -⟩
        · rw [none] at isOld
          cases isOld
        · exact Or.inr ⟨_, _, present, isOld⟩
    · rintro (isNew | ⟨max, suffixes, listed, member⟩)
      · refine ⟨_, _, rfl, ?_⟩
        rw [same.mpr isNew]
        exact List.mem_cons_self
      · refine ⟨_, _, rfl, List.mem_cons_of_mem _ ?_⟩
        rcases remembers.before with ⟨absent, -⟩ | ⟨old, present, -⟩
        · rw [absent] at listed
          cases listed
        · rw [present] at listed
          obtain ⟨-, rfl⟩ := Prod.mk.inj (Option.some.inj listed)
          exact member
  · have differs : other ≠ name := by
      rintro rfl
      exact samePre rfl
    rw [Function.update_of_ne samePre]
    exact (or_iff_right differs).symm

/-- The table stays well formed. -/
theorem wellFormed
    (remembers : Remembers table name next max suffixes)
    (wellFormed : table.WellFormed) :
    next.WellFormed := by
  rw [remembers.after]
  constructor
  · intro pre max suffixes listed
    by_cases samePre : pre = (splitNameForAlpha name).pre
    · rw [samePre, Function.update_self] at listed
      obtain ⟨rfl, -⟩ := Prod.mk.inj (Option.some.inj listed)
      exact Int.le_trans (neg_one_le_numsuffix name) remembers.number
    · rw [Function.update_of_ne samePre] at listed
      exact wellFormed.atLeast pre max suffixes listed
  · intro pre max suffixes listed
    by_cases samePre : pre = (splitNameForAlpha name).pre
    · rw [samePre, Function.update_self] at listed
      obtain ⟨-, rfl⟩ := Prod.mk.inj (Option.some.inj listed)
      refine List.nodup_cons.mpr ⟨remembers.unseen, ?_⟩
      rcases remembers.before with ⟨-, none⟩ | ⟨old, present, -⟩
      · rw [none]
        exact List.nodup_nil
      · exact wellFormed.nodup _ _ _ present
    · rw [Function.update_of_ne samePre] at listed
      exact wellFormed.nodup pre max suffixes listed
  · intro pre max suffixes listed suffix member
    by_cases samePre : pre = (splitNameForAlpha name).pre
    · rw [samePre, Function.update_self] at listed
      obtain ⟨rfl, rfl⟩ := Prod.mk.inj (Option.some.inj listed)
      rw [samePre]
      rcases List.mem_cons.mp member with rfl | isOld
      · rw [pre_append_suffix]
        exact ⟨rfl, remembers.number⟩
      · rcases remembers.before with ⟨-, none⟩ | ⟨old, present, atMost⟩
        · rw [none] at isOld
          cases isOld
        · have numbered := wellFormed.numbers _ _ _ present suffix isOld
          exact ⟨numbered.1, Int.le_trans numbered.2 atMost⟩
    · rw [Function.update_of_ne samePre] at listed
      exact wellFormed.numbers pre max suffixes listed suffix member

end Remembers

variable
  {table next : AlphaTable}
  {lookupname name : List Char}
  {makeNew : Bool}

/-- A suffix whose number is larger than those listed is not listed. -/
theorem WellFormed.not_mem_of_lt
    (wellFormed : table.WellFormed)
    {max : Int}
    {suffixes : List (List Char)}
    (listed : table (splitNameForAlpha name).pre = some (max, suffixes))
    (larger : max < (splitNameForAlpha name).numsuffix) :
    (splitNameForAlpha name).suffix ∉ suffixes := by
  intro member
  have numbered := wellFormed.numbers _ _ _ listed _ member
  rw [pre_append_suffix] at numbered
  exact absurd numbered.2 (Int.not_le.mpr larger)

/-- The next number of a prefix gives a new name. -/
theorem WellFormed.remembers_numbered
    (wellFormed : table.WellFormed)
    (notEmpty : lookupname ≠ [])
    {max : Int}
    {suffixes : List (List Char)}
    (listed : table (splitNameForAlpha lookupname).pre = some (max, suffixes))
    (fits : max < maxSuffix) :
    Remembers table
      ((splitNameForAlpha lookupname).pre ++
        (alphaSeparator ++ TextStream.decimal (max + 1)))
      (Function.update table (splitNameForAlpha lookupname).pre
        (some
          (max + 1,
            (alphaSeparator ++ TextStream.decimal (max + 1)) :: suffixes)))
      (max + 1)
      suffixes := by
  obtain ⟨n, isNext⟩ :=
    Int.eq_ofNat_of_zero_le
      (Int.add_le_add_right (wellFormed.atLeast _ _ _ listed) 1)
  have number : (n : Int) ≤ maxSuffix := by
    rw [← isNext]
    exact fits
  have split :=
    splitNameForAlpha_numbered (pre_ne_nil notEmpty) number
  have larger : max < n := by
    rw [← isNext]
    exact Int.lt_add_one_iff.mpr (Int.le_refl max)
  rw [isNext]
  constructor
  · rw [split]
    exact Or.inr ⟨max, listed, Int.le_of_lt larger⟩
  · exact Int.le_of_eq (congrArg AlphaSplit.numsuffix split)
  · have sameEntry :
        table
            (splitNameForAlpha
              ((splitNameForAlpha lookupname).pre ++
                (alphaSeparator ++ TextStream.decimal n))).pre =
          some (max, suffixes) := by
      rw [split]
      exact listed
    refine wellFormed.not_mem_of_lt sameEntry ?_
    rw [split]
    exact larger
  · rw [split]

/-- What a call of `alphaWorker` does to a table. -/
inductive Named
    (table : AlphaTable)
    (lookupname : List Char)
    (makeNew : Bool)
    (name : List Char)
    (next : AlphaTable) : Prop where
  | kept
      {max : Int}
      {suffixes : List (List Char)}
      (same : name = lookupname)
      (remembers : Remembers table name next max suffixes)
  | seen
      (same : name = lookupname)
      (registered : makeNew = false)
      (known : table.Known name)
      (unchanged : next = table)
  | renamed
      {max : Int}
      {suffixes : List (List Char)}
      (isNew : makeNew = true)
      (known : table.Known lookupname)
      (remembers : Remembers table name next max suffixes)
      (starts :
        ∃ suffix, name = (splitNameForAlpha lookupname).pre ++ suffix)

/-- `alphaWorker` keeps a name that is new, and gives others a new number. -/
theorem named_alphaWorker
    (wellFormed : table.WellFormed)
    (notEmpty : lookupname ≠ [])
    (done : table.alphaWorker lookupname makeNew = some (name, next)) :
    Named table lookupname makeNew name next := by
  unfold alphaWorker at done
  cases listed : table (splitNameForAlpha lookupname).pre with
  | none =>
      simp only [listed, Option.some.injEq, Prod.mk.injEq] at done
      obtain ⟨rfl, rfl⟩ := done
      exact
        .kept rfl
          { before := Or.inl ⟨listed, rfl⟩
            number := Int.le_refl _
            unseen := List.not_mem_nil
            after := rfl }
  | some entry =>
      obtain ⟨max, suffixes⟩ := entry
      have mem_filter (suffix : List Char) :
          suffix ∈ suffixes.filter
              (· = (splitNameForAlpha lookupname).suffix) ↔
            suffix ∈ suffixes ∧
              suffix = (splitNameForAlpha lookupname).suffix := by
        rw [List.mem_filter, decide_eq_true_eq]
      simp only [listed, pre_append_suffix] at done
      split at done
      · next larger =>
          simp only [Option.some.injEq, Prod.mk.injEq] at done
          obtain ⟨rfl, rfl⟩ := done
          exact
            .kept rfl
              { before := Or.inr ⟨max, listed, Int.le_of_lt larger⟩
                number := Int.le_refl _
                unseen := wellFormed.not_mem_of_lt listed larger
                after := rfl }
      · next notLarger =>
          split at done
          · next unseen =>
              simp only [Option.some.injEq, Prod.mk.injEq] at done
              obtain ⟨rfl, rfl⟩ := done
              have isUnseen :
                  (splitNameForAlpha lookupname).suffix ∉ suffixes := by
                intro member
                have present := (mem_filter _).mpr ⟨member, rfl⟩
                rw [unseen] at present
                cases present
              exact
                .kept rfl
                  { before := Or.inr ⟨max, listed, Int.le_refl max⟩
                    number := Int.not_lt.mp notLarger
                    unseen := isUnseen
                    after := rfl }
          · next seen filtered =>
              have isSeen : seen ∈ suffixes.filter
                  (· = (splitNameForAlpha lookupname).suffix) := by
                rw [filtered]
                exact List.mem_singleton_self seen
              obtain ⟨member, rfl⟩ := (mem_filter seen).mp isSeen
              have known : table.Known lookupname :=
                ⟨max, suffixes, listed, member⟩
              cases makeNew with
              | false =>
                  simp only [Bool.false_eq_true, if_false, Option.some.injEq,
                    Prod.mk.injEq] at done
                  obtain ⟨rfl, rfl⟩ := done
                  refine .seen rfl rfl known ?_
                  rw [← listed, Function.update_eq_self]
              | true =>
                  simp only [if_true] at done
                  split at done
                  · cases done
                  · next notTooLarge =>
                      simp only [Option.some.injEq, Prod.mk.injEq] at done
                      obtain ⟨rfl, rfl⟩ := done
                      exact
                        .renamed rfl known
                          (wellFormed.remembers_numbered notEmpty listed
                            (Int.not_le.mp notTooLarge))
                          ⟨_, rfl⟩
          · cases done

namespace Named

variable {other : List Char}

/-- The table stays well formed. -/
theorem wellFormed
    (named : Named table lookupname makeNew name next)
    (wellFormed : table.WellFormed) :
    next.WellFormed := by
  cases named with
  | kept same remembers =>
      exact remembers.wellFormed wellFormed
  | seen same registered known unchanged =>
      rw [unchanged]
      exact wellFormed
  | renamed isNew known remembers =>
      exact remembers.wellFormed wellFormed

/-- The name that is answered is known afterwards, and no other new one. -/
theorem known_iff (named : Named table lookupname makeNew name next) :
    next.Known other ↔ other = name ∨ table.Known other := by
  cases named with
  | kept same remembers =>
      exact remembers.known_iff
  | seen same registered known unchanged =>
      rw [unchanged]
      constructor
      · exact Or.inr
      · rintro (rfl | before)
        · exact known
        · exact before
  | renamed isNew known remembers =>
      exact remembers.known_iff

/-- A name that is made is new. -/
theorem not_known
    (named : Named table lookupname makeNew name next)
    (isNew : makeNew = true) :
    ¬ table.Known name := by
  cases named with
  | kept same remembers =>
      exact remembers.not_known
  | seen same registered known unchanged =>
      rw [registered] at isNew
      cases isNew
  | renamed isNew known remembers =>
      exact remembers.not_known

/-- A name is kept if it is registered, or if it has not been seen. -/
theorem eq_lookupname
    (named : Named table lookupname makeNew name next)
    (keeps : makeNew = true → ¬ table.Known lookupname) :
    name = lookupname := by
  cases named with
  | kept same remembers =>
      exact same
  | seen same registered known unchanged =>
      exact same
  | renamed isNew known remembers =>
      exact absurd known (keeps isNew)

/-- A name starts as the one that was asked for. -/
theorem head?_eq
    (named : Named table lookupname makeNew name next)
    (notEmpty : lookupname ≠ []) :
    name.head? = lookupname.head? := by
  cases named with
  | kept same remembers =>
      rw [same]
  | seen same registered known unchanged =>
      rw [same]
  | renamed isNew known remembers starts =>
      obtain ⟨suffix, rfl⟩ := starts
      rw [← pre_append_suffix lookupname,
        List.head?_append_of_ne_nil _ (pre_ne_nil notEmpty),
        pre_append_suffix, List.head?_append_of_ne_nil _ (pre_ne_nil notEmpty)]

end Named

/-- A call that registers a name, or asks for a new one. -/
structure Call where
  lookupname : List Char
  makeNew : Bool

/-- Perform calls in a row, and list them with the names they answer. -/
def answers?
    (table : AlphaTable) :
    List Call → Option (List (Call × List Char) × AlphaTable)
  | [] => some ([], table)
  | call :: rest =>
      (table.alphaWorker call.lookupname call.makeNew).bind fun answer =>
        (answers? answer.2 rest).map fun later =>
          ((call, answer.1) :: later.1, later.2)

theorem wellFormed_empty : empty.WellFormed := by
  constructor
  all_goals
    intro pre max suffixes listed
    cases listed

/--
A call that asks for a new name gets one that is different from all the names
of the table and of the calls before it.  It is the name that it asks for,
unless this one is among them.
-/
structure Answered
    (table : AlphaTable)
    (answers : List (Call × List Char)) : Prop where
  registered :
    ∀ answer ∈ answers, answer.1.makeNew = false →
      answer.2 = answer.1.lookupname
  unknown :
    ∀ answer ∈ answers, answer.1.makeNew = true → ¬ table.Known answer.2
  distinct :
    answers.Pairwise fun earlier later =>
      later.1.makeNew = true → earlier.2 ≠ later.2
  kept :
    ∀ before answer after, answers = before ++ answer :: after →
      ¬ table.Known answer.1.lookupname →
      answer.1.lookupname ∉ before.map Prod.snd →
        answer.2 = answer.1.lookupname

/-- The answers to a run of calls. -/
theorem answered_of_answers?
    {calls : List Call}
    {answers : List (Call × List Char)}
    (wellFormed : table.WellFormed)
    (notEmpty : ∀ call ∈ calls, call.lookupname ≠ [])
    (done : table.answers? calls = some (answers, next)) :
    Answered table answers := by
  induction calls generalizing table answers with
  | nil =>
      obtain ⟨rfl, -⟩ := Prod.mk.inj (Option.some.inj done)
      constructor
      · simp
      · simp
      · exact List.Pairwise.nil
      · intro before answer after split
        simp at split
  | cons call rest inductionHypothesis =>
      obtain ⟨answer, first, done⟩ := Option.bind_eq_some_iff.mp done
      obtain ⟨later, restDone, isAnswers⟩ := Option.map_eq_some_iff.mp done
      obtain ⟨rfl, rfl⟩ := Prod.mk.inj isAnswers
      have named :=
        named_alphaWorker wellFormed (notEmpty call List.mem_cons_self) first
      have restAnswered :=
        inductionHypothesis (named.wellFormed wellFormed)
          (fun call member => notEmpty call (List.mem_cons_of_mem _ member))
          restDone
      constructor
      · intro named' member registered
        rcases List.mem_cons.mp member with rfl | isLater
        · exact named.eq_lookupname fun isNew =>
            absurd (registered.symm.trans isNew) Bool.false_ne_true
        · exact restAnswered.registered named' isLater registered
      · intro named' member isNew
        rcases List.mem_cons.mp member with rfl | isLater
        · exact named.not_known isNew
        · exact fun known =>
            restAnswered.unknown named' isLater isNew
              (named.known_iff.mpr (Or.inr known))
      · refine List.pairwise_cons.mpr ⟨?_, restAnswered.distinct⟩
        intro named' isLater isNew same
        exact restAnswered.unknown named' isLater isNew
          (named.known_iff.mpr (Or.inl same.symm))
      · intro before named' after split unknown fresh
        cases before with
        | nil =>
            obtain ⟨rfl, -⟩ := List.cons.inj split
            exact named.eq_lookupname fun _ => unknown
        | cons head before =>
            obtain ⟨rfl, restSplit⟩ := List.cons.inj split
            rw [List.map_cons, List.mem_cons, not_or] at fresh
            refine restAnswered.kept before named' after restSplit ?_ fresh.2
            rw [named.known_iff, not_or]
            exact ⟨fresh.1, unknown⟩

/--
Whatever names are registered and asked for in a new table, a new name is
different from every name before it.
-/
theorem newNames_distinct
    {calls : List Call}
    {answers : List (Call × List Char)}
    (notEmpty : ∀ call ∈ calls, call.lookupname ≠ [])
    (done : empty.answers? calls = some (answers, next)) :
    Answered empty answers :=
  answered_of_answers? wellFormed_empty notEmpty done

/-- A name that is asked for twice. -/
def askedTwice : List Call :=
  [{ lookupname := ['x'], makeNew := true },
    { lookupname := ['x'], makeNew := true }]

/-- The second one gets a number. -/
theorem newNames_distinct_askedTwice :
    Answered empty
      [({ lookupname := ['x'], makeNew := true }, ['x']),
        ({ lookupname := ['x'], makeNew := true },
          ['x', '_', '_', '_', '0'])] := by
  have notEmpty : ∀ call ∈ askedTwice, call.lookupname ≠ [] := by
    intro call member
    rcases List.mem_pair.mp member with rfl | rfl
    · exact List.cons_ne_nil _ _
    · exact List.cons_ne_nil _ _
  exact newNames_distinct notEmpty rfl

end AlphaTable

section Labels

/-- `labelAlphaTable`, whose names are labels. -/
abbrev LabelTable : Type :=
  AlphaTable

namespace LabelTable

/-- A label is in use. -/
def Used (table : LabelTable) (label : String) : Prop :=
  AlphaTable.Known table label.toList

/-- `freshLabel`. -/
def freshLabel (table : LabelTable) (base : String) : Option (String × LabelTable) :=
  (AlphaTable.newAlphaName table base.toList).map fun made =>
    (String.ofList made.1, made.2)

end LabelTable

end Labels

end Compi.Cil
