import Compi.PathRepresentation
import Compi.SymbolicInterpreter

/-!
# Retention of flips

A test of the program reports one branch id when it is true and another when
it is false.  Recording compares the outcome of an event with the last outcome
of the same branch id, so it sees a test flip to an outcome it has not had
before, and never sees it flip back.
-/

namespace Compi

/-- The branch ids of the tests of a program, all of them different. -/
structure BranchIds (Test : Type) where
  thenId : Test → BranchId
  elseId : Test → BranchId
  then_injective : Function.Injective thenId
  else_injective : Function.Injective elseId
  different : ∀ test other, thenId test ≠ elseId other

/-- A call of `Branch`, with what the predicate register holds then. -/
structure BranchReport (Test : Type) where
  test : Test
  outcome : Bool
  pred : Option SymbolicPred

namespace BranchIds

open SymbolicPath

variable {Test : Type}

/-- The id that a test reports with an outcome. -/
def idOf (ids : BranchIds Test) (test : Test) (outcome : Bool) : BranchId :=
  if outcome then ids.thenId test else ids.elseId test

/-- The state that is reported with an outcome. -/
def stateOf (outcome : Bool) : BranchState :=
  if outcome then .true else .false

/-- The interpreter after a report. -/
def report
    (ids : BranchIds Test)
    (si : SymbolicInterpreter)
    (reported : BranchReport Test) : SymbolicInterpreter :=
  { si with pred := reported.pred }.branch
    (ids.idOf reported.test reported.outcome) reported.outcome

/-- The path that a sequence of reports leaves in a fresh interpreter. -/
def reportedPath
    (ids : BranchIds Test)
    (reports : List (BranchReport Test)) : SymbolicPath :=
  (reports.foldl ids.report (.fresh [] 0 0 0 1)).ex.path

/-- The branch event of a report. -/
def eventOf
    (ids : BranchIds Test)
    (reported : BranchReport Test) : BranchEvent where
  bid := ids.idOf reported.test reported.outcome
  constraint :=
    reported.pred.map fun pred =>
      if reported.outcome then pred else pred.negate
  state := stateOf reported.outcome

theorem idOf_eq_iff
    (ids : BranchIds Test)
    {test other : Test}
    {outcome otherOutcome : Bool} :
    ids.idOf test outcome = ids.idOf other otherOutcome ↔
      test = other ∧ outcome = otherOutcome := by
  unfold idOf
  cases outcome with
  | false =>
      cases otherOutcome with
      | false =>
          simp [ids.else_injective.eq_iff]
      | true =>
          simp [(ids.different other test).symm]
  | true =>
      cases otherOutcome with
      | false =>
          simp [ids.different test other]
      | true =>
          simp [ids.then_injective.eq_iff]

@[simp] theorem isSome_constraint_eventOf
    (ids : BranchIds Test)
    (reported : BranchReport Test) :
    (ids.eventOf reported).constraint.isSome = reported.pred.isSome :=
  Option.isSome_map

/-- Reports are recorded as their events. -/
theorem reportedPath_eq_record
    (ids : BranchIds Test)
    (reports : List (BranchReport Test)) :
    ids.reportedPath reports = record (reports.map ids.eventOf) := by
  induction reports using List.reverseRecOn with
  | nil =>
      rfl
  | append_singleton before reported inductionHypothesis =>
      rw [List.map_append, List.map_singleton, record_concat,
        ← inductionHypothesis, reportedPath, List.foldl_append]
      rfl

section Rule

variable [DecidableEq Test]

/-- The outcomes of the symbolic reports of a test, in order. -/
def outcomesOf
    (test : Test)
    (reports : List (BranchReport Test)) : List Bool :=
  reports.filterMap fun reported =>
    if reported.test = test ∧ reported.pred.isSome = true then
      some reported.outcome
    else
      none

/--
The constraint of a symbolic report is retained exactly if the report is the
first symbolic one of its test or its outcome differs from the previous one.
-/
def KeepsFlips
    (ids : BranchIds Test)
    (reports : List (BranchReport Test)) : Prop :=
  ∀ p reported,
    reports[p]? = some reported →
    reported.pred.isSome = true →
    (p ∈ (ids.reportedPath reports).constraintsIdx ↔
      outcomesOf reported.test (reports.take p) = [] ∨
      ∃ previous,
        (outcomesOf reported.test (reports.take p)).getLast? =
            some previous ∧
          previous ≠ reported.outcome)

/-- No test flips back to an outcome it has had. -/
def FlipsOnce (reports : List (BranchReport Test)) : Prop :=
  ∀ test outcome,
    ¬[outcome, !outcome, outcome].Sublist (outcomesOf test reports)

/-- An outcome that a test has had is the previous one. -/
def RepeatsLast
    (before : List (BranchReport Test))
    (reported : BranchReport Test) : Prop :=
  reported.pred.isSome = true →
    reported.outcome ∈ outcomesOf reported.test before →
    (outcomesOf reported.test before).getLast? = some reported.outcome

variable {before reports : List (BranchReport Test)}

theorem outcomesOf_concat
    (test : Test)
    (reported : BranchReport Test) :
    outcomesOf test (before ++ [reported]) =
      outcomesOf test before ++
        if reported.test = test ∧ reported.pred.isSome = true then
          [reported.outcome]
        else
          [] := by
  unfold outcomesOf
  rw [List.filterMap_append, List.filterMap_cons, List.filterMap_nil]
  split
  · next notReported =>
      rw [if_neg]
      intro isReported
      rw [if_pos isReported] at notReported
      cases notReported
  · next outcome isOutcome =>
      split at isOutcome
      · next isReported =>
          cases isOutcome
          rw [if_pos isReported]
      · cases isOutcome

/-- The table of the path holds the outcomes that the tests have had. -/
theorem lastOutcome_eventOf
    (ids : BranchIds Test)
    (before : List (BranchReport Test))
    (test : Test)
    (outcome : Bool) :
    lastOutcome (before.map ids.eventOf) (ids.idOf test outcome) =
      if outcome ∈ outcomesOf test before then
        some (stateOf outcome)
      else
        none := by
  induction before using List.reverseRecOn with
  | nil =>
      rfl
  | append_singleton before reported inductionHypothesis =>
      rw [List.map_append, List.map_singleton, lastOutcome_concat,
        outcomesOf_concat, inductionHypothesis, isSome_constraint_eventOf]
      have sameId :
          (ids.eventOf reported).bid = ids.idOf test outcome ↔
            reported.test = test ∧ reported.outcome = outcome :=
        ids.idOf_eq_iff
      by_cases isReported :
          reported.test = test ∧ reported.pred.isSome = true
      · by_cases same : reported.outcome = outcome
        · rw [if_pos ⟨sameId.mpr ⟨isReported.1, same⟩, isReported.2⟩,
            if_pos isReported, if_pos (by simp [same])]
          exact congrArg (some ∘ stateOf) same
        · rw [if_neg fun found => same (sameId.mp found.1).2,
            if_pos isReported]
          simp [Ne.symm same]
      · rw [if_neg fun found =>
            isReported ⟨(sameId.mp found.1).1, found.2⟩,
          if_neg isReported, List.append_nil]

/-- A report is retained if its test has not had its outcome. -/
theorem mem_constraintsIdx_reportedPath
    (ids : BranchIds Test)
    {p : Nat}
    {reported : BranchReport Test}
    (present : reports[p]? = some reported)
    (symbolic : reported.pred.isSome = true) :
    p ∈ (ids.reportedPath reports).constraintsIdx ↔
      reported.outcome ∉ outcomesOf reported.test (reports.take p) := by
  have eventPresent :
      (reports.map ids.eventOf)[p]? = some (ids.eventOf reported) := by
    rw [List.getElem?_map, present]
    rfl
  have isKept :
      Kept ((reports.map ids.eventOf).take p) (ids.eventOf reported) ↔
        reported.outcome ∉ outcomesOf reported.test (reports.take p) := by
    have outcomes := ids.lastOutcome_eventOf (reports.take p) reported.test
      reported.outcome
    have isSymbolic :
        (ids.eventOf reported).constraint.isSome = true := by
      rw [isSome_constraint_eventOf]
      exact symbolic
    unfold Kept
    rw [and_iff_right isSymbolic, ← List.map_take]
    constructor
    · intro differs member
      rw [if_pos member] at outcomes
      exact differs outcomes
    · intro notMember same
      rw [if_neg notMember] at outcomes
      cases outcomes.symm.trans same
  obtain ⟨later, positions, areLater⟩ :=
    constraintsIdx_record_split eventPresent
  have earlier := position_lt_of_take (reports.map ids.eventOf) p
  rw [reportedPath_eq_record, positions, ← isKept,
    List.mem_iff_getElem?]
  simp only [getElem?_eq_position_iff earlier areLater]
  exact ⟨fun ⟨_, kept, _⟩ => kept, fun kept => ⟨_, kept, rfl⟩⟩

/-- The rule says that outcomes which a test has had are repeated ones. -/
theorem keepsFlips_iff_repeatsLast
    (ids : BranchIds Test)
    (reports : List (BranchReport Test)) :
    KeepsFlips ids reports ↔
      ∀ p reported,
        reports[p]? = some reported →
        RepeatsLast (reports.take p) reported := by
  refine forall_congr' fun p => forall_congr' fun reported =>
    forall_congr' fun present => forall_congr' fun symbolic => ?_
  rw [ids.mem_constraintsIdx_reportedPath present symbolic]
  generalize outcomesOf reported.test (reports.take p) = outcomes
  constructor
  · intro rule member
    by_contra notLast
    have nonempty : outcomes ≠ [] := List.ne_nil_of_mem member
    refine rule.mpr (Or.inr ⟨outcomes.getLast nonempty, ?_, ?_⟩) member
    · exact List.getLast?_eq_some_getLast nonempty
    · intro same
      rw [List.getLast?_eq_some_getLast nonempty, same] at notLast
      exact notLast rfl
  · intro repeats
    constructor
    · intro isNew
      cases last : outcomes.getLast? with
      | none =>
          exact Or.inl (List.getLast?_eq_none_iff.mp last)
      | some previous =>
          refine Or.inr ⟨previous, rfl, ?_⟩
          rintro rfl
          exact isNew (List.mem_of_getLast? last)
    · rintro (isEmpty | ⟨previous, last, differs⟩) member
      · rw [isEmpty] at member
        cases member
      · rw [repeats member] at last
        exact differs (Option.some.inj last).symm

end Rule

section Alternation

/-- A list ends with the last entry of the other or lies before it. -/
theorem concat_sublist_concat_iff
    {Entry : Type}
    (items others : List Entry)
    (last otherLast : Entry) :
    (items ++ [last]).Sublist (others ++ [otherLast]) ↔
      (items ++ [last]).Sublist others ∨
        (last = otherLast ∧ items.Sublist others) := by
  rw [← List.reverse_sublist, List.reverse_append, List.reverse_append,
    List.reverse_singleton, List.reverse_singleton, List.singleton_append,
    List.singleton_append, List.sublist_cons_iff]
  have inFront :
      (last :: items.reverse).Sublist others.reverse ↔
        (items ++ [last]).Sublist others := by
    rw [← List.reverse_sublist, List.reverse_reverse, List.reverse_cons,
      List.reverse_reverse]
  apply or_congr inFront
  constructor
  · rintro ⟨rest, same, isSublist⟩
    obtain ⟨sameLast, rfl⟩ := List.cons.inj same
    exact ⟨sameLast, List.reverse_sublist.mp isSublist⟩
  · rintro ⟨rfl, isSublist⟩
    exact ⟨_, rfl, List.reverse_sublist.mpr isSublist⟩

/-- Unless an outcome came back, its flip is seen at the end. -/
theorem flip_sublist_iff
    {outcomes : List Bool}
    {outcome : Bool}
    (once : ¬[outcome, !outcome, outcome].Sublist outcomes) :
    [outcome, !outcome].Sublist outcomes ↔
      outcome ∈ outcomes ∧ outcomes.getLast? ≠ some outcome := by
  induction outcomes using List.reverseRecOn with
  | nil =>
      simp
  | append_singleton before last _ =>
      have splitPair := concat_sublist_concat_iff [outcome] before
        (!outcome) last
      have splitTriple := concat_sublist_concat_iff [outcome, !outcome]
        before outcome last
      rw [List.getLast?_concat]
      constructor
      · intro isPair
        refine ⟨isPair.subset List.mem_cons_self, ?_⟩
        intro same
        obtain rfl := Option.some.inj same
        rcases splitPair.mp isPair with earlier | ⟨impossible, _⟩
        · exact once (splitTriple.mpr (Or.inr ⟨rfl, earlier⟩))
        · cases last <;> cases impossible
      · rintro ⟨member, differs⟩
        have isFlip : (!outcome) = last := by
          cases outcome <;> cases last <;> simp_all
        refine splitPair.mpr (Or.inr ⟨isFlip, ?_⟩)
        rw [List.singleton_sublist]
        rcases List.mem_append.mp member with earlier | isLast
        · exact earlier
        · rw [List.mem_singleton.mp isLast] at differs
          exact absurd rfl differs

end Alternation

section Exact

variable [DecidableEq Test] {before : List (BranchReport Test)}

/-- One more report keeps to one flip if it repeats or is new. -/
theorem flipsOnce_concat
    (reported : BranchReport Test)
    (once : FlipsOnce before) :
    FlipsOnce (before ++ [reported]) ↔ RepeatsLast before reported := by
  constructor
  · intro flipsOnce symbolic member
    by_contra notLast
    apply flipsOnce reported.test reported.outcome
    rw [outcomesOf_concat, if_pos ⟨rfl, symbolic⟩]
    refine (concat_sublist_concat_iff
      [reported.outcome, !reported.outcome] _ _ _).mpr (Or.inr ⟨rfl, ?_⟩)
    exact (flip_sublist_iff (once _ _)).mpr ⟨member, notLast⟩
  · intro repeats test outcome
    rw [outcomesOf_concat]
    split
    · next isReported =>
        obtain ⟨rfl, symbolic⟩ := isReported
        intro isTriple
        rcases (concat_sublist_concat_iff [outcome, !outcome] _ _ _).mp
          isTriple with earlier | ⟨rfl, flip⟩
        · exact once reported.test outcome earlier
        · obtain ⟨member, notLast⟩ := (flip_sublist_iff (once _ _)).mp flip
          exact notLast (repeats symbolic member)
    · rw [List.append_nil]
      exact once test outcome

theorem FlipsOnce.of_concat
    {reported : BranchReport Test}
    (once : FlipsOnce (before ++ [reported])) :
    FlipsOnce before := by
  intro test outcome isTriple
  apply once test outcome
  rw [outcomesOf_concat]
  exact List.sublist_append_of_sublist_left isTriple

/-- Every report repeats or is new exactly if all tests flip once. -/
theorem repeatsLast_iff_flipsOnce (reports : List (BranchReport Test)) :
    (∀ p reported,
        reports[p]? = some reported →
        RepeatsLast (reports.take p) reported) ↔
      FlipsOnce reports := by
  induction reports using List.reverseRecOn with
  | nil =>
      simp [FlipsOnce, outcomesOf]
  | append_singleton before last inductionHypothesis =>
      constructor
      · intro repeats
        have earlier : FlipsOnce before := by
          apply inductionHypothesis.mp
          intro p reported present
          have inBounds := (List.getElem?_eq_some_iff.mp present).1
          have repeated := repeats p reported
            (by rw [List.getElem?_append_left inBounds, present])
          rwa [List.take_append_of_le_length (Nat.le_of_lt inBounds)]
            at repeated
        apply (flipsOnce_concat last earlier).mpr
        have repeated := repeats before.length last
          List.getElem?_concat_length
        rwa [List.take_left] at repeated
      · intro once p reported present
        have earlier := once.of_concat
        rcases Nat.lt_trichotomy p before.length with
          isBefore | rfl | isAfter
        · rw [List.getElem?_append_left isBefore] at present
          rw [List.take_append_of_le_length (Nat.le_of_lt isBefore)]
          exact inductionHypothesis.mpr earlier p reported present
        · rw [List.getElem?_concat_length] at present
          cases present
          rw [List.take_left]
          exact (flipsOnce_concat last earlier).mp once
        · rw [List.getElem?_eq_none (by simp; omega)] at present
          cases present

/-- Recording keeps the flips of the tests exactly if no test flips back. -/
theorem keepsFlips_iff
    (ids : BranchIds Test)
    (reports : List (BranchReport Test)) :
    KeepsFlips ids reports ↔ FlipsOnce reports :=
  (ids.keepsFlips_iff_repeatsLast reports).trans
    (repeatsLast_iff_flipsOnce reports)

end Exact

/-- The branch ids of one test. -/
def ofOneTest : BranchIds Unit where
  thenId := fun _ => 1
  elseId := fun _ => 2
  then_injective := fun _ _ _ => rfl
  else_injective := fun _ _ _ => rfl
  different := fun _ _ => by decide

/-- A test of an input. -/
def positiveReport (x : Var) (outcome : Bool) : BranchReport Unit where
  test := ()
  outcome := outcome
  pred := some { op := .gt, expr := .ofTerm 1 x }

/-- The third of three alternating outcomes is dropped. -/
theorem not_keepsFlips_back :
    ¬KeepsFlips ofOneTest
      [positiveReport 0 true, positiveReport 1 false,
        positiveReport 2 true] := by
  intro rule
  have isKept := (rule 2 _ rfl rfl).mpr (Or.inr ⟨false, rfl, by decide⟩)
  exact absurd isKept (by decide)

end BranchIds

end Compi
