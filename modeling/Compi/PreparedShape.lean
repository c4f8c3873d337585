import Compi.PrepareCfg

/-!
# What breaks, continues and switches become

The statements that `prepareCFG` answers are related to the parsed ones without
the table of labels: what matters of the new labels is that no label is there
twice.
-/

namespace Compi.Cil

/-- A name that a label may become: a plain label keeps its name. -/
def RenamedTo (label : ParsedLabel) (name : String) : Prop :=
  ∀ plain, label = .label plain → name = plain

mutual

/--
What a statement becomes where a `break` and a `continue` go to some labels, and
the case statements in it.
-/
inductive PreparedStmt :
    Option String → Option String → ParsedStmt → Stmt Instr →
      List CaseStmt → Prop where
  | instr
      {breakDest contDest : Option String}
      {labels : List ParsedLabel}
      {names : List String}
      {is : List Instr}
      (named : List.Forall₂ RenamedTo labels names) :
      PreparedStmt breakDest contDest (.instr labels is)
        (.instr (-1) names is) (caseStmts labels names)
  | ret
      {breakDest contDest : Option String}
      {labels : List ParsedLabel}
      {names : List String}
      {value : Option Exp}
      (named : List.Forall₂ RenamedTo labels names) :
      PreparedStmt breakDest contDest (.ret labels value)
        (.ret (-1) names value) (caseStmts labels names)
  | goto
      {breakDest contDest : Option String}
      {labels : List ParsedLabel}
      {names : List String}
      {target : String}
      (named : List.Forall₂ RenamedTo labels names) :
      PreparedStmt breakDest contDest (.goto labels target)
        (.goto (-1) names target) (caseStmts labels names)
  | computedGoto
      {breakDest contDest : Option String}
      {labels : List ParsedLabel}
      {names : List String}
      {target : Exp}
      (named : List.Forall₂ RenamedTo labels names) :
      PreparedStmt breakDest contDest (.computedGoto labels target)
        (.computedGoto (-1) names target) (caseStmts labels names)
  | brk
      {contDest : Option String}
      {dest : String}
      {labels : List ParsedLabel}
      {names : List String}
      (named : List.Forall₂ RenamedTo labels names) :
      PreparedStmt (some dest) contDest (.brk labels)
        (.goto (-1) names dest) (caseStmts labels names)
  | cont
      {breakDest : Option String}
      {dest : String}
      {labels : List ParsedLabel}
      {names : List String}
      (named : List.Forall₂ RenamedTo labels names) :
      PreparedStmt breakDest (some dest) (.cont labels)
        (.goto (-1) names dest) (caseStmts labels names)
  | ite
      {breakDest contDest : Option String}
      {labels : List ParsedLabel}
      {names : List String}
      {condition : Exp}
      {thenBlock elseBlock : ParsedBlock}
      {thenText elseText : Block Instr}
      {thenCases elseCases : List CaseStmt}
      (named : List.Forall₂ RenamedTo labels names)
      (first : PreparedBlock breakDest contDest thenBlock thenText thenCases)
      (second : PreparedBlock breakDest contDest elseBlock elseText elseCases) :
      PreparedStmt breakDest contDest (.ite labels condition thenBlock elseBlock)
        (.ite (-1) names condition thenText elseText)
        (caseStmts labels names ++ (thenCases ++ elseCases))
  | switch
      {breakDest contDest : Option String}
      {breakLabel : String}
      {labels : List ParsedLabel}
      {names : List String}
      {e : Exp}
      {body : ParsedBlock}
      {text : Block Instr}
      {cases : List CaseStmt}
      (named : List.Forall₂ RenamedTo labels names)
      (inner : PreparedBlock (some breakLabel) contDest body text cases) :
      PreparedStmt breakDest contDest (.switch labels e body)
        (switchBlock names e cases text breakLabel) (caseStmts labels names)
  | loop
      {breakDest contDest : Option String}
      {breakLabel contLabel : String}
      {labels : List ParsedLabel}
      {names : List String}
      {body : ParsedBlock}
      {text : Block Instr}
      {cases : List CaseStmt}
      (named : List.Forall₂ RenamedTo labels names)
      (inner :
        PreparedBlock (some breakLabel) (some contLabel) body text cases) :
      PreparedStmt breakDest contDest (.loop labels body)
        (loopBlock names contLabel breakLabel text)
        (caseStmts labels names ++ cases)
  | block
      {breakDest contDest : Option String}
      {labels : List ParsedLabel}
      {names : List String}
      {body : ParsedBlock}
      {text : Block Instr}
      {cases : List CaseStmt}
      (named : List.Forall₂ RenamedTo labels names)
      (inner : PreparedBlock breakDest contDest body text cases) :
      PreparedStmt breakDest contDest (.block labels body)
        (.block (-1) names text) (caseStmts labels names ++ cases)

/-- What a block becomes. -/
inductive PreparedBlock :
    Option String → Option String → ParsedBlock → Block Instr →
      List CaseStmt → Prop where
  | nil
      {breakDest contDest : Option String} :
      PreparedBlock breakDest contDest .nil .nil []
  | cons
      {breakDest contDest : Option String}
      {s : ParsedStmt}
      {rest : ParsedBlock}
      {text : Stmt Instr}
      {restText : Block Instr}
      {cases restCases : List CaseStmt}
      (first : PreparedStmt breakDest contDest s text cases)
      (later : PreparedBlock breakDest contDest rest restText restCases) :
      PreparedBlock breakDest contDest (.cons s rest) (.cons text restText)
        (cases ++ restCases)

end

/-- A label that starts as one of the new ones. -/
def MadeUp (label : String) : Prop :=
  ∃ c ∈ ['c', 's', 'w'], label.toList.head? = some c

/--
The labels of a text: the names that were there before, and new ones, which the
table did not have before.
-/
structure Labelled
    (table next : LabelTable)
    (names all : List String) : Prop where
  wellFormed : AlphaTable.WellFormed next
  used : ∀ label, table.Used label → next.Used label
  origin :
    ∀ label ∈ all, label ∈ names ∨ ¬ table.Used label ∧ next.Used label
  nodup :
    names.Nodup → (∀ name ∈ names, table.Used name) → all.Nodup
  madeUp : ∀ label ∈ all, label ∈ names ∨ MadeUp label
  kept : ∀ name ∈ names, name ∈ all

namespace Labelled

variable
  {table between next : LabelTable}
  {names names' all all' : List String}

/-- No label. -/
theorem nil (wellFormed : AlphaTable.WellFormed table) :
    Labelled table table [] [] where
  wellFormed := wellFormed
  used := fun _ used => used
  origin := by simp
  nodup := fun nodup _ => nodup
  madeUp := by simp
  kept := by simp

/-- A label that keeps its name. -/
theorem plain (wellFormed : AlphaTable.WellFormed table) (name : String) :
    Labelled table table [name] [name] where
  wellFormed := wellFormed
  used := fun _ used => used
  origin := fun _ member => Or.inl member
  nodup := fun nodup _ => nodup
  madeUp := fun _ member => Or.inl member
  kept := fun _ member => member

/-- A new label. -/
theorem fresh
    (wellFormed : AlphaTable.WellFormed table)
    {base label : String}
    (starts : MadeUp base)
    (made : table.freshLabel base = some (label, next)) :
    Labelled table next [] [label] := by
  obtain ⟨c, isStart, starts⟩ := starts
  have notEmpty : base.toList ≠ [] := by
    intro isEmpty
    rw [isEmpty] at starts
    cases starts
  obtain ⟨answer, isAnswer, isLabel⟩ := Option.map_eq_some_iff.mp made
  obtain ⟨rfl, rfl⟩ := Prod.mk.inj isLabel
  have named := AlphaTable.named_alphaWorker wellFormed notEmpty isAnswer
  constructor
  · exact named.wellFormed wellFormed
  · intro label used
    exact named.known_iff.mpr (Or.inr used)
  · intro label member
    rw [List.mem_singleton] at member
    subst member
    refine Or.inr ⟨?_, ?_⟩
    · unfold LabelTable.Used
      rw [String.toList_ofList]
      exact named.not_known rfl
    · unfold LabelTable.Used
      rw [String.toList_ofList]
      exact named.known_iff.mpr (Or.inl rfl)
  · intro _ _
    exact List.nodup_singleton _
  · intro label member
    rw [List.mem_singleton] at member
    subst member
    refine Or.inr ⟨c, isStart, ?_⟩
    rw [String.toList_ofList, named.head?_eq notEmpty]
    exact starts
  · intro name member
    cases member

/-- Texts in a row. -/
theorem append
    (first : Labelled table between names all)
    (second : Labelled between next names' all') :
    Labelled table next (names ++ names') (all ++ all') := by
  constructor
  · exact second.wellFormed
  · exact fun label used => second.used label (first.used label used)
  · intro label member
    rcases List.mem_append.mp member with inFirst | inSecond
    · rcases first.origin label inFirst with old | ⟨unused, used⟩
      · exact Or.inl (List.mem_append_left _ old)
      · exact Or.inr ⟨unused, second.used label used⟩
    · rcases second.origin label inSecond with old | ⟨unused, used⟩
      · exact Or.inl (List.mem_append_right _ old)
      · exact Or.inr ⟨fun before => unused (first.used label before), used⟩
  · intro nodup inUse
    obtain ⟨nodupFirst, nodupSecond, apart⟩ := List.nodup_append.mp nodup
    have inUseFirst : ∀ name ∈ names, table.Used name := fun name member =>
      inUse name (List.mem_append_left _ member)
    have inUseSecond : ∀ name ∈ names', between.Used name :=
      fun name member =>
        first.used name (inUse name (List.mem_append_right _ member))
    refine List.nodup_append.mpr
      ⟨first.nodup nodupFirst inUseFirst,
        second.nodup nodupSecond inUseSecond, ?_⟩
    rintro label inFirst _ inSecond rfl
    -- A label of both would be old in one of them and new in the other.
    rcases first.origin label inFirst with old | ⟨unused, used⟩
    · rcases second.origin label inSecond with old' | ⟨unused', -⟩
      · exact apart label old label old' rfl
      · exact unused' (first.used label (inUseFirst label old))
    · rcases second.origin label inSecond with old' | ⟨unused', -⟩
      · exact unused (inUse label (List.mem_append_right _ old'))
      · exact unused' used
  · intro label member
    rcases List.mem_append.mp member with inFirst | inSecond
    · exact
        (first.madeUp label inFirst).imp_left (List.mem_append_left names')
    · exact
        (second.madeUp label inSecond).imp_left (List.mem_append_right names)
  · intro name member
    rcases List.mem_append.mp member with inFirst | inSecond
    · exact List.mem_append_left all' (first.kept name inFirst)
    · exact List.mem_append_right all (second.kept name inSecond)

/-- The order of the labels does not matter. -/
theorem perm
    (labelled : Labelled table next names all)
    (isPerm : all.Perm all') :
    Labelled table next names all' where
  wellFormed := labelled.wellFormed
  used := labelled.used
  origin := fun label member =>
    labelled.origin label (isPerm.mem_iff.mpr member)
  nodup := fun nodup inUse => isPerm.nodup (labelled.nodup nodup inUse)
  madeUp := fun label member =>
    labelled.madeUp label (isPerm.mem_iff.mpr member)
  kept := fun name member => isPerm.mem_iff.mp (labelled.kept name member)

end Labelled

section Shape

variable
  (getInteger : Exp → Option Int)
  {table next : LabelTable}
  {labels : List ParsedLabel}
  {names : List String}

theorem renameLabel_spec
    (wellFormed : AlphaTable.WellFormed table)
    {label : ParsedLabel}
    {name : String}
    (done : renameLabel getInteger table label = some (name, next)) :
    RenamedTo label name ∧
      Labelled table next (label.name?.toList) [name] := by
  have renamed
      {base : String}
      (starts : MadeUp base)
      (notPlain : ∀ plain, label ≠ .label plain)
      (isFresh : table.freshLabel base = some (name, next)) :
      RenamedTo label name ∧ Labelled table next [] [name] :=
    ⟨fun plain isPlain => absurd isPlain (notPlain plain),
      .fresh wellFormed starts isFresh⟩
  cases label with
  | label plain =>
      obtain ⟨rfl, rfl⟩ := Prod.mk.inj (Option.some.inj done)
      exact
        ⟨fun other same => ParsedLabel.label.inj same,
          .plain wellFormed plain⟩
  | caseExp e =>
      refine renamed ⟨'c', ?_, ?_⟩ (fun plain same => by cases same) done
      · simp
      · simp
  | caseRange low high =>
      refine renamed ⟨'c', ?_, ?_⟩ (fun plain same => by cases same) done
      · simp
      · simp
  | default =>
      refine renamed ⟨'s', ?_, ?_⟩ (fun plain same => by cases same) done
      · simp
      · simp

/-- What the labels of a statement become. -/
theorem renameLabels_spec
    (wellFormed : AlphaTable.WellFormed table)
    (done : renameLabels getInteger table labels = some (names, next)) :
    List.Forall₂ RenamedTo labels names ∧
      Labelled table next (labels.filterMap ParsedLabel.name?) names := by
  induction labels generalizing table names with
  | nil =>
      obtain ⟨rfl, rfl⟩ := Prod.mk.inj (Option.some.inj done)
      exact ⟨.nil, .nil wellFormed⟩
  | cons label rest inductionHypothesis =>
      obtain ⟨first, isFirst, done⟩ := Option.bind_eq_some_iff.mp done
      obtain ⟨later, isLater, isNames⟩ := Option.map_eq_some_iff.mp done
      obtain ⟨rfl, rfl⟩ := Prod.mk.inj isNames
      have head := renameLabel_spec getInteger wellFormed isFirst
      have tail := inductionHypothesis head.2.wellFormed isLater
      refine ⟨.cons head.1 tail.1, ?_⟩
      have both := head.2.append tail.2
      rw [List.filterMap_cons]
      cases plain : label.name? with
      | none =>
          rw [plain] at both
          exact both
      | some name =>
          rw [plain] at both
          exact both

/-- The tests of a `switch` have no labels. -/
theorem allLabels_xformChoice
    (e : Exp)
    (c : CaseStmt) :
    (xformChoice e c).flatMap Stmt.allLabels = [] := by
  unfold xformChoice
  split
  · rfl
  · rw [List.flatMap_eq_nil_iff]
    intro test member
    obtain ⟨label, -, isTest⟩ := List.mem_flatMap.mp member
    cases label with
    | caseExp value =>
        obtain rfl := List.mem_singleton.mp isTest
        rfl
    | caseRange low high =>
        obtain rfl := List.mem_singleton.mp isTest
        rfl
    | label | default =>
        cases isTest

theorem allLabels_switchBlock
    (names : List String)
    (e : Exp)
    (cases : List CaseStmt)
    (body : Block Instr)
    (breakLabel : String) :
    (switchBlock names e cases body breakLabel).allLabels =
      names ++ (body.allLabels ++ [breakLabel]) := by
  have tests :
      (cases.flatMap (xformChoice e)).flatMap Stmt.allLabels = [] := by
    rw [List.flatMap_assoc, List.flatMap_eq_nil_iff]
    exact fun c _ => allLabels_xformChoice e c
  unfold switchBlock
  rw [Stmt.allLabels, Block.allLabels_ofList, List.flatMap_append, tests,
    List.nil_append, List.flatMap_cons, List.flatMap_append,
    ← Block.allLabels_eq]
  rfl

theorem allLabels_loopBlock
    (names : List String)
    (contLabel breakLabel : String)
    (body : Block Instr) :
    (loopBlock names contLabel breakLabel body).allLabels =
      names ++ (contLabel :: (body.allLabels ++ [breakLabel])) := by
  simp [loopBlock, thisStmt, landing, Stmt.allLabels, Block.allLabels]

mutual

/-- What a statement becomes, and its labels. -/
theorem xformSwitchStmt_spec
    {breakDest contDest : Option String}
    {table : LabelTable}
    (wellFormed : AlphaTable.WellFormed table)
    (s : ParsedStmt)
    {prepared : Prepared (Stmt Instr)}
    (done :
      s.xformSwitchStmt getInteger breakDest contDest table =
        some prepared) :
    PreparedStmt breakDest contDest s prepared.text prepared.cases ∧
      Labelled table prepared.table s.labelNames prepared.text.allLabels := by
  cases s with
  | instr labels is =>
      obtain ⟨named, isNamed, rfl⟩ := Option.map_eq_some_iff.mp done
      have own := renameLabels_spec getInteger wellFormed isNamed
      exact ⟨.instr own.1, own.2⟩
  | ret labels value =>
      obtain ⟨named, isNamed, rfl⟩ := Option.map_eq_some_iff.mp done
      have own := renameLabels_spec getInteger wellFormed isNamed
      exact ⟨.ret own.1, own.2⟩
  | goto labels target =>
      obtain ⟨named, isNamed, rfl⟩ := Option.map_eq_some_iff.mp done
      have own := renameLabels_spec getInteger wellFormed isNamed
      exact ⟨.goto own.1, own.2⟩
  | computedGoto labels target =>
      obtain ⟨named, isNamed, rfl⟩ := Option.map_eq_some_iff.mp done
      have own := renameLabels_spec getInteger wellFormed isNamed
      exact ⟨.computedGoto own.1, own.2⟩
  | brk labels =>
      obtain ⟨named, isNamed, done⟩ := Option.bind_eq_some_iff.mp done
      obtain ⟨dest, rfl, rfl⟩ := Option.map_eq_some_iff.mp done
      have own := renameLabels_spec getInteger wellFormed isNamed
      exact ⟨.brk own.1, own.2⟩
  | cont labels =>
      obtain ⟨named, isNamed, done⟩ := Option.bind_eq_some_iff.mp done
      obtain ⟨dest, rfl, rfl⟩ := Option.map_eq_some_iff.mp done
      have own := renameLabels_spec getInteger wellFormed isNamed
      exact ⟨.cont own.1, own.2⟩
  | ite labels condition thenBlock elseBlock =>
      obtain ⟨named, isNamed, done⟩ := Option.bind_eq_some_iff.mp done
      obtain ⟨first, isFirst, done⟩ := Option.bind_eq_some_iff.mp done
      obtain ⟨second, isSecond, rfl⟩ := Option.map_eq_some_iff.mp done
      have own := renameLabels_spec getInteger wellFormed isNamed
      have inThen := xformSwitchBlock_spec own.2.wellFormed thenBlock isFirst
      have inElse :=
        xformSwitchBlock_spec inThen.2.wellFormed elseBlock isSecond
      exact
        ⟨.ite own.1 inThen.1 inElse.1, own.2.append (inThen.2.append inElse.2)⟩
  | switch labels e body =>
      obtain ⟨named, isNamed, done⟩ := Option.bind_eq_some_iff.mp done
      obtain ⟨breakLabel, isBreak, done⟩ := Option.bind_eq_some_iff.mp done
      obtain ⟨inner, isInner, rfl⟩ := Option.map_eq_some_iff.mp done
      have own := renameLabels_spec getInteger wellFormed isNamed
      have starts : MadeUp "switch_break" := ⟨'s', by simp, by simp⟩
      have atBreak := Labelled.fresh own.2.wellFormed starts isBreak
      have inBody := xformSwitchBlock_spec atBreak.wellFormed body isInner
      refine ⟨.switch own.1 inBody.1, ?_⟩
      rw [allLabels_switchBlock]
      exact
        (own.2.append (atBreak.append inBody.2)).perm
          (List.Perm.append_left _ (List.perm_append_comm))
  | loop labels body =>
      obtain ⟨named, isNamed, done⟩ := Option.bind_eq_some_iff.mp done
      obtain ⟨breakLabel, isBreak, done⟩ := Option.bind_eq_some_iff.mp done
      obtain ⟨contLabel, isCont, done⟩ := Option.bind_eq_some_iff.mp done
      obtain ⟨inner, isInner, rfl⟩ := Option.map_eq_some_iff.mp done
      have own := renameLabels_spec getInteger wellFormed isNamed
      have startsBreak : MadeUp "while_break" := ⟨'w', by simp, by simp⟩
      have startsCont : MadeUp "while_continue" := ⟨'w', by simp, by simp⟩
      have atBreak := Labelled.fresh own.2.wellFormed startsBreak isBreak
      have atCont := Labelled.fresh atBreak.wellFormed startsCont isCont
      have inBody := xformSwitchBlock_spec atCont.wellFormed body isInner
      refine ⟨.loop own.1 inBody.1, ?_⟩
      rw [allLabels_loopBlock]
      exact
        (own.2.append (atBreak.append (atCont.append inBody.2))).perm
          (List.Perm.append_left _ (List.perm_append_comm))
  | block labels body =>
      obtain ⟨named, isNamed, done⟩ := Option.bind_eq_some_iff.mp done
      obtain ⟨inner, isInner, rfl⟩ := Option.map_eq_some_iff.mp done
      have own := renameLabels_spec getInteger wellFormed isNamed
      have inBody := xformSwitchBlock_spec own.2.wellFormed body isInner
      exact ⟨.block own.1 inBody.1, own.2.append inBody.2⟩

/-- What a block becomes, and its labels. -/
theorem xformSwitchBlock_spec
    {breakDest contDest : Option String}
    {table : LabelTable}
    (wellFormed : AlphaTable.WellFormed table)
    (b : ParsedBlock)
    {prepared : Prepared (Block Instr)}
    (done :
      b.xformSwitchBlock getInteger breakDest contDest table =
        some prepared) :
    PreparedBlock breakDest contDest b prepared.text prepared.cases ∧
      Labelled table prepared.table b.labelNames prepared.text.allLabels := by
  cases b with
  | nil =>
      obtain rfl := Option.some.inj done
      exact ⟨.nil, .nil wellFormed⟩
  | cons s rest =>
      obtain ⟨first, isFirst, done⟩ := Option.bind_eq_some_iff.mp done
      obtain ⟨later, isLater, rfl⟩ := Option.map_eq_some_iff.mp done
      have head := xformSwitchStmt_spec wellFormed s isFirst
      have tail := xformSwitchBlock_spec head.2.wellFormed rest isLater
      exact ⟨.cons head.1 tail.1, head.2.append tail.2⟩

end

/-- Registering labels puts them in use. -/
theorem registerLabels_spec
    {names : List String}
    (wellFormed : AlphaTable.WellFormed table)
    (notEmpty : ∀ name ∈ names, name ≠ "")
    (done : registerLabels table names = some next) :
    AlphaTable.WellFormed next ∧
      (∀ label, table.Used label → next.Used label) ∧
      ∀ name ∈ names, next.Used name := by
  induction names generalizing table with
  | nil =>
      obtain rfl := Option.some.inj done
      exact ⟨wellFormed, fun _ used => used, by simp⟩
  | cons name rest inductionHypothesis =>
      obtain ⟨between, registered, done⟩ := Option.bind_eq_some_iff.mp done
      obtain ⟨answer, isAnswer, rfl⟩ := Option.map_eq_some_iff.mp registered
      have hasChars : name.toList ≠ [] := fun isEmpty =>
        notEmpty name List.mem_cons_self (String.toList_eq_nil_iff.mp isEmpty)
      have named := AlphaTable.named_alphaWorker wellFormed hasChars isAnswer
      have later :=
        inductionHypothesis (named.wellFormed wellFormed)
          (fun other member => notEmpty other (List.mem_cons_of_mem _ member))
          done
      have same : answer.1 = name.toList :=
        named.eq_lookupname fun isNew => by cases isNew
      refine ⟨later.1, fun label used => ?_, fun other member => ?_⟩
      · exact later.2.1 label (named.known_iff.mpr (Or.inr used))
      · rcases List.mem_cons.mp member with rfl | inRest
        · exact later.2.1 _ (named.known_iff.mpr (Or.inl same.symm))
        · exact later.2.2 other inRest

/-- What `prepareCFG` makes of a function with distinct labels. -/
theorem prepareCFG_spec
    {fd : ParsedFundec}
    {prepared : Fundec Instr}
    (nodup : fd.sbody.labelNames.Nodup)
    (notEmpty : ∀ name ∈ fd.sbody.labelNames, name ≠ "")
    (done : prepareCFG getInteger fd = some prepared) :
    (∃ cases, PreparedBlock none none fd.sbody prepared.sbody cases) ∧
      prepared.svar = fd.svar ∧
      prepared.sbody.allLabels.Nodup ∧
      (∀ label ∈ prepared.sbody.allLabels,
        label ∈ fd.sbody.labelNames ∨ MadeUp label) ∧
      ∀ name ∈ fd.sbody.labelNames, name ∈ prepared.sbody.allLabels := by
  obtain ⟨table, registered, done⟩ := Option.bind_eq_some_iff.mp done
  obtain ⟨inner, isInner, rfl⟩ := Option.map_eq_some_iff.mp done
  have registration :=
    registerLabels_spec AlphaTable.wellFormed_empty notEmpty registered
  have shape := xformSwitchBlock_spec getInteger registration.1 _ isInner
  exact
    ⟨⟨_, shape.1⟩, rfl, shape.2.nodup nodup registration.2.2, shape.2.madeUp,
      shape.2.kept⟩

end Shape

end Compi.Cil
