import Compi.PreparedShape

/-!
# Positions in prepared functions

Parsed code is matched with prepared code position by position.  Where a loop or
a `switch` is left, the prepared code has a landing statement, and a `break` or
a `continue` finds this landing by its label.
-/

namespace Compi.Cil

section WellFormedness

mutual

/-- The labels of the case statements of a `switch` with a statement. -/
def ParsedStmt.caseLabels : ParsedStmt → List (List ParsedLabel)
  | .ite labels _ thenBlock elseBlock =>
      [labels].filter (·.any ParsedLabel.isCase) ++
        (thenBlock.caseLabels ++ elseBlock.caseLabels)
  | .loop labels body =>
      [labels].filter (·.any ParsedLabel.isCase) ++ body.caseLabels
  | .block labels body =>
      [labels].filter (·.any ParsedLabel.isCase) ++ body.caseLabels
  | s => [s.labels].filter (·.any ParsedLabel.isCase)

/-- The labels of the case statements of a `switch` with a block. -/
def ParsedBlock.caseLabels : ParsedBlock → List (List ParsedLabel)
  | .nil => []
  | .cons s rest => s.caseLabels ++ rest.caseLabels

end

variable
  {State R : Type}
  [LinearOrder R]
  (machine : Machine Instr State R)

/--
The cases of a `switch` exclude each other: no value matches two statements, and
at most one statement is the default.
-/
def ExclusiveCases (e : Exp) (body : ParsedBlock) : Prop :=
  body.caseLabels.Pairwise fun earlier later =>
    (∀ state,
      earlier.any ((machine.evaluation state).selects e) = true →
        later.any ((machine.evaluation state).selects e) = false) ∧
    (earlier.contains .default = true → later.contains .default = false)

mutual

/--
A statement of a function with some labels: gotos go to these labels, and the
cases of every `switch` exclude each other.
-/
def ParsedStmt.WellFormed (names : List String) : ParsedStmt → Prop
  | .goto _ target => target ∈ names
  | .ite _ _ thenBlock elseBlock =>
      thenBlock.WellFormed names ∧ elseBlock.WellFormed names
  | .switch _ e body => ExclusiveCases machine e body ∧ body.WellFormed names
  | .loop _ body => body.WellFormed names
  | .block _ body => body.WellFormed names
  | _ => True

/-- The same of a block. -/
def ParsedBlock.WellFormed (names : List String) : ParsedBlock → Prop
  | .nil => True
  | .cons s rest => s.WellFormed names ∧ rest.WellFormed names

end

/--
A function as a compiler accepts it: labels are distinct, every `goto` has a
target, also a computed one, and the cases of a `switch` exclude each other.
-/
structure ParsedFundec.WellFormed (fd : ParsedFundec) : Prop where
  nodup : fd.sbody.labelNames.Nodup
  notEmpty : ∀ name ∈ fd.sbody.labelNames, name ≠ ""
  body : fd.sbody.WellFormed machine fd.sbody.labelNames
  jumps :
    ∀ e state label, machine.jump e state = some label →
      label ∈ fd.sbody.labelNames

end WellFormedness

section Matching

variable
  {State R : Type}
  [LinearOrder R]
  (machine : Machine Instr State R)
  (names : List String)
  (body : Block Instr)

/--
Parsed code and the code of a prepared body.  At the end of a loop or of a
`switch` the prepared code is in front of its landing statement.
-/
inductive Matches :
    Option String → Option String → List Pending → List (Stmt Instr) → Prop where
  | nil : Matches none none [] []
  | stmt
      {breakDest contDest : Option String}
      {s : ParsedStmt}
      {text : Stmt Instr}
      {cases : List CaseStmt}
      {code : List Pending}
      {next : List (Stmt Instr)}
      (wellFormed : s.WellFormed machine names)
      (prepared : PreparedStmt breakDest contDest s text cases)
      (isAt : StmtAt body text next)
      (later : Matches breakDest contDest code next) :
      Matches breakDest contDest (.stmt s :: code) (text :: next)
  | leave
      {breakDest contDest : Option String}
      {breakLabel : String}
      {code : List Pending}
      {next : List (Stmt Instr)}
      (atBreak : StmtAt body (landing breakLabel) next)
      (later : Matches breakDest contDest code next) :
      Matches (some breakLabel) contDest (.leave :: code)
        (landing breakLabel :: next)
  | again
      {breakDest contDest : Option String}
      {breakLabel contLabel : String}
      {loopBody : ParsedBlock}
      {text : Block Instr}
      {cases : List CaseStmt}
      {code : List Pending}
      {next : List (Stmt Instr)}
      (wellFormed : loopBody.WellFormed machine names)
      (prepared :
        PreparedBlock (some breakLabel) (some contLabel) loopBody text cases)
      (isAt :
        StmtAt body (thisStmt contLabel text) (landing breakLabel :: next))
      (atBreak : StmtAt body (landing breakLabel) next)
      (later : Matches breakDest contDest code next) :
      Matches (some breakLabel) (some contLabel) (.again loopBody :: code)
        (thisStmt contLabel text :: landing breakLabel :: next)

variable {machine names body}

/-- The statements of a block match its text. -/
theorem Matches.pending
    {breakDest contDest : Option String}
    (b : ParsedBlock)
    {text : Block Instr}
    {cases : List CaseStmt}
    {code : List Pending}
    {next : List (Stmt Instr)}
    (wellFormed : b.WellFormed machine names)
    (prepared : PreparedBlock breakDest contDest b text cases)
    (isAt : BlockAt body text next)
    (later : Matches machine names body breakDest contDest code next) :
    Matches machine names body breakDest contDest (b.pending ++ code)
      (text.toList ++ next) :=
  match b with
  | .nil => by
      cases prepared
      exact later
  | .cons s rest => by
      cases prepared with
      | cons first others =>
          have tail :=
            Matches.pending rest wellFormed.2 others isAt.tail later
          exact .stmt wellFormed.1 first isAt.head tail

/-- Where a `break` goes. -/
theorem Matches.breakTarget
    {breakLabel : String}
    {contDest : Option String}
    {code : List Pending}
    {next : List (Stmt Instr)}
    (isMatch :
      Matches machine names body (some breakLabel) contDest code next) :
    ∃ after rest breakDest contDest,
      Cil.breakTarget code = some after ∧
        body.findLabel breakLabel [] = some (landing breakLabel :: rest) ∧
        Matches machine names body breakDest contDest after rest := by
  generalize isDest : some breakLabel = dest at isMatch
  induction isMatch with
  | nil =>
      cases isDest
  | stmt wellFormed prepared isAt later inductionHypothesis =>
      exact inductionHypothesis isDest
  | leave atBreak later =>
      obtain rfl := Option.some.inj isDest
      exact
        ⟨_, _, _, _, rfl, atBreak.findLabel List.mem_cons_self, later⟩
  | again wellFormed prepared isAt atBreak later =>
      obtain rfl := Option.some.inj isDest
      exact
        ⟨_, _, _, _, rfl, atBreak.findLabel List.mem_cons_self, later⟩

/-- Where a `continue` goes: to the start of the round after the test. -/
theorem Matches.continueTarget
    {contLabel : String}
    {breakDest : Option String}
    {code : List Pending}
    {next : List (Stmt Instr)}
    (isMatch :
      Matches machine names body breakDest (some contLabel) code next) :
    ∃ loopBody after text rest breakDest,
      Cil.continueTarget code = some (.again loopBody :: after) ∧
        body.findLabel contLabel [] =
          some
            (landing contLabel ::
              (text.toList ++ thisStmt contLabel text :: rest)) ∧
        Matches machine names body breakDest (some contLabel)
          (.again loopBody :: after) (thisStmt contLabel text :: rest) := by
  generalize isDest : some contLabel = dest at isMatch
  induction isMatch with
  | nil =>
      cases isDest
  | stmt wellFormed prepared isAt later inductionHypothesis =>
      exact inductionHypothesis isDest
  | leave atBreak later inductionHypothesis =>
      exact inductionHypothesis isDest
  | again wellFormed prepared isAt atBreak later =>
      obtain rfl := Option.some.inj isDest
      exact
        ⟨_, _, _, _, _, rfl,
          isAt.inLoop.head.findLabel List.mem_cons_self,
          .again wellFormed prepared isAt atBreak later⟩

section Search

variable
  {isWanted : List ParsedLabel → Bool}
  {inSwitch : Bool}

theorem labels_of_mem_caseStmts
    {labels : List ParsedLabel}
    {names : List String}
    {c : CaseStmt}
    (member : c ∈ caseStmts labels names) :
    c.labels = labels := by
  unfold caseStmts at member
  split at member
  · rw [List.mem_singleton.mp member]
  · cases member

theorem forall_caseStmts
    {labels : List ParsedLabel}
    {names : List String}
    (notWanted : isWanted labels = false) :
    ∀ c ∈ caseStmts labels names, isWanted c.labels = false := by
  intro c member
  rw [labels_of_mem_caseStmts member]
  exact notWanted

/-- Nothing is found first at a statement whose labels are not wanted. -/
theorem eq_false_of_ite_eq_none
    {wanted : Bool}
    {found : List Pending}
    {inside : Option (List Pending)}
    (nothing : (if wanted then some found else inside) = none) :
    wanted = false ∧ inside = none := by
  cases wanted with
  | true => cases nothing
  | false => exact ⟨rfl, nothing⟩

mutual

/-- Where nothing is found, the cases are not wanted. -/
theorem notWanted_stmt
    {breakDest contDest : Option String}
    (next : List Pending)
    (s : ParsedStmt)
    {text : Stmt Instr}
    {cases : List CaseStmt}
    (prepared : PreparedStmt breakDest contDest s text cases)
    (nothing : s.find inSwitch isWanted next = none) :
    ∀ c ∈ cases, isWanted c.labels = false := by
  cases prepared with
  | ite named first second =>
      obtain ⟨notOwn, inside⟩ := eq_false_of_ite_eq_none nothing
      obtain ⟨notFirst, notSecond⟩ := Option.or_eq_none_iff.mp inside
      intro c member
      rcases List.mem_append.mp member with own | member
      · exact forall_caseStmts notOwn c own
      · rcases List.mem_append.mp member with inThen | inElse
        · exact notWanted_block next _ first notFirst c inThen
        · exact notWanted_block next _ second notSecond c inElse
  | switch named inner =>
      exact forall_caseStmts (eq_false_of_ite_eq_none nothing).1
  | loop named inner =>
      obtain ⟨notOwn, inside⟩ := eq_false_of_ite_eq_none nothing
      intro c member
      rcases List.mem_append.mp member with own | inBody
      · exact forall_caseStmts notOwn c own
      · exact notWanted_block _ _ inner inside c inBody
  | block named inner =>
      obtain ⟨notOwn, inside⟩ := eq_false_of_ite_eq_none nothing
      intro c member
      rcases List.mem_append.mp member with own | inBody
      · exact forall_caseStmts notOwn c own
      · exact notWanted_block _ _ inner inside c inBody
  | _ =>
      exact forall_caseStmts (eq_false_of_ite_eq_none nothing).1

/-- The same in a block. -/
theorem notWanted_block
    {breakDest contDest : Option String}
    (next : List Pending)
    (b : ParsedBlock)
    {text : Block Instr}
    {cases : List CaseStmt}
    (prepared : PreparedBlock breakDest contDest b text cases)
    (nothing : b.find inSwitch isWanted next = none) :
    ∀ c ∈ cases, isWanted c.labels = false := by
  cases prepared with
  | nil =>
      intro c member
      cases member
  | cons first later =>
      obtain ⟨notFirst, notLater⟩ := Option.or_eq_none_iff.mp nothing
      intro c member
      rcases List.mem_append.mp member with inFirst | inLater
      · exact notWanted_stmt _ _ first notFirst c inFirst
      · exact notWanted_block _ _ later notLater c inLater

end

variable (machine names body isWanted inSwitch)

/--
What a search finds: a statement with the labels that are wanted, at a matching
position.  If a `switch` looks for one of its cases, it is the first of them.
-/
inductive Found (cases : List CaseStmt) : List Pending → Prop where
  | intro
      {s : ParsedStmt}
      {after : List Pending}
      {text : Stmt Instr}
      {rest : List (Stmt Instr)}
      {breakDest contDest : Option String}
      (wanted : isWanted s.labels = true)
      (renamed : List.Forall₂ RenamedTo s.labels text.labels)
      (isAt : StmtAt body text rest)
      (isMatch :
        Matches machine names body breakDest contDest (.stmt s :: after)
          (text :: rest))
      (first :
        inSwitch = false →
          ∃ earlier later,
            cases = earlier ++ (caseStmts s.labels text.labels ++ later) ∧
              ∀ c ∈ earlier, isWanted c.labels = false) :
      Found cases (.stmt s :: after)

variable {machine names body isWanted inSwitch}

/-- More cases in front that are not wanted. -/
theorem Found.behind
    {cases front : List CaseStmt}
    {code : List Pending}
    (found : Found machine names body isWanted inSwitch cases code)
    (notWanted : ∀ c ∈ front, isWanted c.labels = false) :
    Found machine names body isWanted inSwitch (front ++ cases) code := by
  cases found with
  | intro wanted renamed isAt isMatch first =>
      refine .intro wanted renamed isAt isMatch fun isSwitch => ?_
      obtain ⟨earlier, later, rfl, notEarlier⟩ := first isSwitch
      refine ⟨front ++ earlier, later, (List.append_assoc _ _ _).symm, ?_⟩
      intro c member
      rcases List.mem_append.mp member with inFront | inEarlier
      · exact notWanted c inFront
      · exact notEarlier c inEarlier

/-- More cases behind. -/
theorem Found.inFront
    {cases back : List CaseStmt}
    {code : List Pending}
    (found : Found machine names body isWanted inSwitch cases code) :
    Found machine names body isWanted inSwitch (cases ++ back) code := by
  cases found with
  | intro wanted renamed isAt isMatch first =>
      refine .intro wanted renamed isAt isMatch fun isSwitch => ?_
      obtain ⟨earlier, later, rfl, notEarlier⟩ := first isSwitch
      refine ⟨earlier, later ++ back, ?_, notEarlier⟩
      rw [List.append_assoc, List.append_assoc]

/-- A statement is found, or something in it. -/
theorem found_of_ite_eq_some
    {wanted : Bool}
    {found code : List Pending}
    {inside : Option (List Pending)}
    (isFound : (if wanted then some found else inside) = some code) :
    wanted = true ∧ found = code ∨ wanted = false ∧ inside = some code := by
  cases wanted with
  | true => exact Or.inl ⟨rfl, Option.some.inj isFound⟩
  | false => exact Or.inr ⟨rfl, isFound⟩

/-- The labels of a statement and the names that they become. -/
theorem PreparedStmt.renamed
    {breakDest contDest : Option String}
    {s : ParsedStmt}
    {text : Stmt Instr}
    {cases : List CaseStmt}
    (prepared : PreparedStmt breakDest contDest s text cases) :
    List.Forall₂ RenamedTo s.labels text.labels ∧
      ∃ inner, cases = caseStmts s.labels text.labels ++ inner := by
  cases prepared with
  | ite named first second => exact ⟨named, _, rfl⟩
  | loop named inner => exact ⟨named, _, rfl⟩
  | block named inner => exact ⟨named, _, rfl⟩
  | instr named => exact ⟨named, [], (List.append_nil _).symm⟩
  | ret named => exact ⟨named, [], (List.append_nil _).symm⟩
  | goto named => exact ⟨named, [], (List.append_nil _).symm⟩
  | computedGoto named => exact ⟨named, [], (List.append_nil _).symm⟩
  | brk named => exact ⟨named, [], (List.append_nil _).symm⟩
  | cont named => exact ⟨named, [], (List.append_nil _).symm⟩
  | switch named inner => exact ⟨named, [], (List.append_nil _).symm⟩

/-- A statement that is wanted is found itself. -/
theorem Found.self
    {breakDest contDest : Option String}
    {s : ParsedStmt}
    {text : Stmt Instr}
    {cases : List CaseStmt}
    {after : List Pending}
    {rest : List (Stmt Instr)}
    (wanted : isWanted s.labels = true)
    (wellFormed : s.WellFormed machine names)
    (prepared : PreparedStmt breakDest contDest s text cases)
    (isAt : StmtAt body text rest)
    (later : Matches machine names body breakDest contDest after rest) :
    Found machine names body isWanted inSwitch cases (.stmt s :: after) := by
  obtain ⟨renamed, inner, isCases⟩ := prepared.renamed
  refine
    .intro wanted renamed isAt (.stmt wellFormed prepared isAt later)
      fun _ => ⟨[], inner, isCases, ?_⟩
  intro c member
  cases member

/-- Where the body of a `switch` and its landing are. -/
theorem positions_switchBlock
    {labels : List String}
    {e : Exp}
    {cases : List CaseStmt}
    {text : Block Instr}
    {breakLabel : String}
    {rest : List (Stmt Instr)}
    (isAt :
      StmtAt body (switchBlock labels e cases text breakLabel) rest) :
    BlockAt body text (landing breakLabel :: rest) ∧
      StmtAt body (landing breakLabel) rest := by
  have afterTests :
      BlockAt body (Block.ofList (text.toList ++ [landing breakLabel])) rest := by
    have inside := isAt.inBlock
    rw [← Block.toList_ofList (text.toList ++ [landing breakLabel])] at inside
    exact (inside.drop (cases.flatMap (xformChoice e))).tail
  refine ⟨afterTests.take, ?_⟩
  have last : BlockAt body (Block.ofList [landing breakLabel]) rest := by
    rw [← Block.toList_ofList [landing breakLabel]] at afterTests
    exact afterTests.drop text.toList
  exact last.head

mutual

/-- What a search in a statement finds. -/
theorem found_stmt
    {breakDest contDest : Option String}
    {next code : List Pending}
    {rest : List (Stmt Instr)}
    (s : ParsedStmt)
    {text : Stmt Instr}
    {cases : List CaseStmt}
    (wellFormed : s.WellFormed machine names)
    (prepared : PreparedStmt breakDest contDest s text cases)
    (isAt : StmtAt body text rest)
    (later : Matches machine names body breakDest contDest next rest)
    (isFound : s.find inSwitch isWanted next = some code) :
    Found machine names body isWanted inSwitch cases code := by
  cases s with
  | ite labels condition thenBlock elseBlock =>
      rcases found_of_ite_eq_some isFound with ⟨wanted, rfl⟩ | ⟨notOwn, inside⟩
      · exact .self wanted wellFormed prepared isAt later
      · cases prepared with
        | ite named first second =>
            rcases Option.or_eq_some_iff.mp inside with
              inThen | ⟨notThen, inElse⟩
            · have found :=
                found_block thenBlock wellFormed.1 first isAt.inThen later
                  inThen
              exact found.inFront.behind (forall_caseStmts notOwn)
            · have found :=
                found_block elseBlock wellFormed.2 second isAt.inElse later
                  inElse
              have notBefore := notWanted_block _ _ first notThen
              exact
                (found.behind notBefore).behind (forall_caseStmts notOwn)
  | switch labels e switchBody =>
      rcases found_of_ite_eq_some isFound with ⟨wanted, rfl⟩ | ⟨notOwn, inside⟩
      · exact .self wanted wellFormed prepared isAt later
      · cases prepared with
        | switch named inner =>
            obtain ⟨inBody, atBreak⟩ := positions_switchBlock isAt
            obtain ⟨goesIn, inside⟩ := Option.ite_none_right_eq_some.mp inside
            have found :=
              found_block switchBody wellFormed.2 inner inBody
                (.leave atBreak later) inside
            cases found with
            | intro wanted renamed isAt isMatch first =>
                refine .intro wanted renamed isAt isMatch fun isSwitch => ?_
                rw [isSwitch] at goesIn
                cases goesIn
  | loop labels loopBody =>
      rcases found_of_ite_eq_some isFound with ⟨wanted, rfl⟩ | ⟨notOwn, inside⟩
      · exact .self wanted wellFormed prepared isAt later
      · cases prepared with
        | loop named inner =>
            have atLoop := isAt.inBlock.head
            have atBreak := isAt.inBlock.tail.head
            have found :=
              found_block loopBody wellFormed inner atLoop.inLoop.tail
                (.again wellFormed inner atLoop atBreak later) inside
            exact found.behind (forall_caseStmts notOwn)
  | block labels block =>
      rcases found_of_ite_eq_some isFound with ⟨wanted, rfl⟩ | ⟨notOwn, inside⟩
      · exact .self wanted wellFormed prepared isAt later
      · cases prepared with
        | block named inner =>
            have found :=
              found_block block wellFormed inner isAt.inBlock later inside
            exact found.behind (forall_caseStmts notOwn)
  | _ =>
      rcases found_of_ite_eq_some isFound with ⟨wanted, rfl⟩ | ⟨-, inside⟩
      · exact .self wanted wellFormed prepared isAt later
      · cases inside

/-- What a search in a block finds. -/
theorem found_block
    {breakDest contDest : Option String}
    {next code : List Pending}
    {rest : List (Stmt Instr)}
    (b : ParsedBlock)
    {text : Block Instr}
    {cases : List CaseStmt}
    (wellFormed : b.WellFormed machine names)
    (prepared : PreparedBlock breakDest contDest b text cases)
    (isAt : BlockAt body text rest)
    (later : Matches machine names body breakDest contDest next rest)
    (isFound : b.find inSwitch isWanted next = some code) :
    Found machine names body isWanted inSwitch cases code := by
  cases b with
  | nil =>
      cases isFound
  | cons s others =>
      cases prepared with
      | cons first second =>
          rcases Option.or_eq_some_iff.mp isFound with
            inFirst | ⟨notFirst, inOthers⟩
          · have behind :=
              Matches.pending others wellFormed.2 second isAt.tail later
            have found :=
              found_stmt s wellFormed.1 first isAt.head behind inFirst
            exact found.inFront
          · have found :=
              found_block others wellFormed.2 second isAt.tail later inOthers
            exact found.behind (notWanted_stmt _ _ first notFirst)

end

end Search

section Jumps

theorem name_mem_of_renamed
    {label : String}
    {labels : List ParsedLabel}
    {names : List String}
    (renamed : List.Forall₂ RenamedTo labels names)
    (member : .label label ∈ labels) :
    label ∈ names := by
  induction renamed with
  | nil =>
      cases member
  | cons first later inductionHypothesis =>
      rcases List.mem_cons.mp member with isFirst | isLater
      · rw [first label isFirst.symm]
        exact List.mem_cons_self
      · exact List.mem_cons_of_mem _ (inductionHypothesis isLater)

/-- The search for a label. -/
abbrev isNamed (label : String) (labels : List ParsedLabel) : Bool :=
  decide (.label label ∈ labels)

theorem name_notMem_of_isNamed
    {label : String}
    {labels : List ParsedLabel}
    (notNamed : isNamed label labels = false) :
    label ∉ labels.filterMap ParsedLabel.name? := by
  intro member
  obtain ⟨own, isOwn, isName⟩ := List.mem_filterMap.mp member
  have isLabel : own = .label label := by
    cases own with
    | label name =>
        rw [Option.some.inj isName]
    | caseExp | caseRange | default =>
        cases isName
  rw [isLabel] at isOwn
  exact of_decide_eq_false notNamed isOwn

mutual

/-- A search that finds nothing is for a label that is not there. -/
theorem notMem_stmt
    {label : String}
    (next : List Pending)
    (s : ParsedStmt)
    (nothing : s.find true (isNamed label) next = none) :
    label ∉ s.labelNames := by
  cases s with
  | ite labels condition thenBlock elseBlock =>
      obtain ⟨notOwn, inside⟩ := eq_false_of_ite_eq_none nothing
      obtain ⟨notThen, notElse⟩ := Option.or_eq_none_iff.mp inside
      have own := name_notMem_of_isNamed notOwn
      have inThen := notMem_block next thenBlock notThen
      have inElse := notMem_block next elseBlock notElse
      simp only [ParsedStmt.labelNames, List.mem_append, not_or]
      exact ⟨own, inThen, inElse⟩
  | switch labels e body =>
      obtain ⟨notOwn, inside⟩ := eq_false_of_ite_eq_none nothing
      have own := name_notMem_of_isNamed notOwn
      have inBody := notMem_block _ body inside
      simp only [ParsedStmt.labelNames, List.mem_append, not_or]
      exact ⟨own, inBody⟩
  | loop labels body =>
      obtain ⟨notOwn, inside⟩ := eq_false_of_ite_eq_none nothing
      have own := name_notMem_of_isNamed notOwn
      have inBody := notMem_block _ body inside
      simp only [ParsedStmt.labelNames, List.mem_append, not_or]
      exact ⟨own, inBody⟩
  | block labels body =>
      obtain ⟨notOwn, inside⟩ := eq_false_of_ite_eq_none nothing
      have own := name_notMem_of_isNamed notOwn
      have inBody := notMem_block _ body inside
      simp only [ParsedStmt.labelNames, List.mem_append, not_or]
      exact ⟨own, inBody⟩
  | _ =>
      exact name_notMem_of_isNamed (eq_false_of_ite_eq_none nothing).1

/-- The same in a block. -/
theorem notMem_block
    {label : String}
    (next : List Pending)
    (b : ParsedBlock)
    (nothing : b.find true (isNamed label) next = none) :
    label ∉ b.labelNames := by
  cases b with
  | nil =>
      intro member
      cases member
  | cons s rest =>
      obtain ⟨notFirst, notLater⟩ := Option.or_eq_none_iff.mp nothing
      have first := notMem_stmt _ s notFirst
      have later := notMem_block _ rest notLater
      simp only [ParsedBlock.labelNames, List.mem_append, not_or]
      exact ⟨first, later⟩

end

/-- A `goto` goes to matching positions. -/
theorem findLabel_matches
    {parsed : ParsedBlock}
    {cases : List CaseStmt}
    {label : String}
    (wellFormed : parsed.WellFormed machine names)
    (prepared : PreparedBlock none none parsed body cases)
    (nodup : body.allLabels.Nodup)
    (member : label ∈ parsed.labelNames) :
    ∃ code rest breakDest contDest,
      parsed.findLabel label = some code ∧
        body.findLabel label [] = some rest ∧
        Matches machine names body breakDest contDest code rest := by
  cases isFound : parsed.findLabel label with
  | none =>
      exact absurd member (notMem_block [] parsed isFound)
  | some code =>
      have found :=
        found_block parsed wellFormed prepared (.self nodup) .nil isFound
      cases found with
      | intro wanted renamed isAt isMatch first =>
          have isLabel :=
            name_mem_of_renamed renamed (of_decide_eq_true wanted)
          exact ⟨_, _, _, _, rfl, isAt.findLabel isLabel, isMatch⟩

end Jumps

section Switches

mutual

/-- The case statements keep their labels. -/
theorem labels_cases_stmt
    {breakDest contDest : Option String}
    (s : ParsedStmt)
    {text : Stmt Instr}
    {cases : List CaseStmt}
    (prepared : PreparedStmt breakDest contDest s text cases) :
    cases.map CaseStmt.labels = s.caseLabels := by
  have own (labels : List ParsedLabel) (names : List String) :
      (caseStmts labels names).map CaseStmt.labels =
        [labels].filter (·.any ParsedLabel.isCase) := by
    unfold caseStmts
    rw [List.filter_singleton]
    cases labels.any ParsedLabel.isCase <;> rfl
  cases prepared with
  | ite named first second =>
      rw [List.map_append, List.map_append, own,
        labels_cases_block _ first, labels_cases_block _ second]
      rfl
  | loop named inner =>
      rw [List.map_append, own, labels_cases_block _ inner]
      rfl
  | block named inner =>
      rw [List.map_append, own, labels_cases_block _ inner]
      rfl
  | _ =>
      exact own _ _

/-- The same in a block. -/
theorem labels_cases_block
    {breakDest contDest : Option String}
    (b : ParsedBlock)
    {text : Block Instr}
    {cases : List CaseStmt}
    (prepared : PreparedBlock breakDest contDest b text cases) :
    cases.map CaseStmt.labels = b.caseLabels := by
  cases prepared with
  | nil =>
      rfl
  | cons first later =>
      rw [List.map_append, labels_cases_stmt _ first,
        labels_cases_block _ later]
      rfl

end

theorem isCase_of_selects
    {evaluation : Evaluation R}
    {e : Exp}
    {label : ParsedLabel}
    (selected : evaluation.selects e label = true) :
    label.isCase = true := by
  cases label with
  | label => cases selected
  | caseExp | caseRange | default => rfl

/-- A statement with a case label and its entry. -/
theorem caseStmts_of_isCase
    {labels : List ParsedLabel}
    {names : List String}
    (renamed : List.Forall₂ RenamedTo labels names)
    (hasCase : labels.any ParsedLabel.isCase = true) :
    ∃ target ∈ names,
      caseStmts labels names = [{ labels := labels, target := target }] := by
  rw [caseStmts, if_pos hasCase]
  cases renamed with
  | nil =>
      cases hasCase
  | cons first later =>
      exact ⟨_, List.mem_cons_self, rfl⟩

variable
  {evaluation : Evaluation R}
  {e : Exp}
  {cases earlier later : List CaseStmt}
  {c : CaseStmt}

/-- The cases of a `switch` exclude each other in a state. -/
def Exclusive
    (evaluation : Evaluation R)
    (e : Exp)
    (cases : List CaseStmt) : Prop :=
  cases.Pairwise fun earlier later =>
    (earlier.labels.any (evaluation.selects e) = true →
      later.labels.any (evaluation.selects e) = false) ∧
    (earlier.labels.contains .default = true →
      later.labels.contains .default = false)

/-- What is apart from the cases around it. -/
theorem Exclusive.around
    (exclusive : Exclusive evaluation e (earlier ++ (c :: later))) :
    (c.labels.any (evaluation.selects e) = true →
      (∀ other ∈ earlier, other.labels.any (evaluation.selects e) = false) ∧
      ∀ other ∈ later, other.labels.any (evaluation.selects e) = false) ∧
    (c.labels.contains .default = true →
      (∀ other ∈ earlier, other.labels.contains .default = false) ∧
      ∀ other ∈ later, other.labels.contains .default = false) := by
  obtain ⟨-, fromHere, across⟩ := List.pairwise_append.mp exclusive
  have behind := (List.pairwise_cons.mp fromHere).1
  have inFront (other : CaseStmt) (member : other ∈ earlier) :=
    across other member c List.mem_cons_self
  refine ⟨fun selected => ⟨?_, ?_⟩, fun isDefault => ⟨?_, ?_⟩⟩
  · intro other member
    by_contra selectedToo
    have apart := (inFront other member).1 ((Bool.not_eq_false _).mp selectedToo)
    rw [selected] at apart
    cases apart
  · exact fun other member => (behind other member).1 selected
  · intro other member
    by_contra defaultToo
    have apart := (inFront other member).2 ((Bool.not_eq_false _).mp defaultToo)
    rw [isDefault] at apart
    cases apart
  · exact fun other member => (behind other member).2 isDefault

/-- The only default case is where a `switch` falls through to. -/
theorem fallThrough_of_default
    (exclusive : Exclusive evaluation e (earlier ++ (c :: later)))
    (isDefault : c.labels.contains .default = true)
    (breakLabel : String) :
    fallThrough (earlier ++ (c :: later)) breakLabel = c.target := by
  obtain ⟨notEarlier, notLater⟩ := exclusive.around.2 isDefault
  have onlyDefault :
      (earlier ++ (c :: later)).filter
          (fun c => c.labels.contains .default) = [c] := by
    rw [List.filter_append, List.filter_cons_of_pos (by simpa using isDefault),
      List.filter_eq_nil_iff.mpr (by simpa using notEarlier),
      List.filter_eq_nil_iff.mpr (by simpa using notLater)]
    rfl
  rw [fallThrough, onlyDefault]
  rfl

/-- A case whose test succeeds. -/
def CaseStmt.isSelected
    (evaluation : Evaluation R)
    (e : Exp)
    (c : CaseStmt) : Bool :=
  !c.labels.contains .default && c.labels.any (evaluation.selects e)

/-- The target that the tests of a `switch` end at. -/
def chosenTarget
    (evaluation : Evaluation R)
    (e : Exp)
    (cases : List CaseStmt)
    (breakLabel : String) : String :=
  match cases.find? (·.isSelected evaluation e) with
  | some c => c.target
  | none => fallThrough cases breakLabel

/-- A statement whose case matches is the target. -/
theorem chosenTarget_of_selected
    (exclusive : Exclusive evaluation e (earlier ++ (c :: later)))
    (selected : c.labels.any (evaluation.selects e) = true)
    (breakLabel : String) :
    chosenTarget evaluation e (earlier ++ (c :: later)) breakLabel =
      c.target := by
  obtain ⟨notEarlier, notLater⟩ := exclusive.around.1 selected
  have skipsEarlier (other : CaseStmt) (member : other ∈ earlier) :
      ¬ other.isSelected evaluation e = true := by
    rw [CaseStmt.isSelected, notEarlier other member, Bool.and_false]
    exact Bool.false_ne_true
  have skipsLater (other : CaseStmt) (member : other ∈ later) :
      ¬ other.isSelected evaluation e = true := by
    rw [CaseStmt.isSelected, notLater other member, Bool.and_false]
    exact Bool.false_ne_true
  unfold chosenTarget
  rw [List.find?_append, List.find?_eq_none.mpr skipsEarlier, Option.none_or]
  cases isDefault : c.labels.contains .default with
  | true =>
      -- The test of the default case is left out, and no other one succeeds.
      have notTested : ¬ c.isSelected evaluation e = true := by
        rw [CaseStmt.isSelected, isDefault]
        exact Bool.false_ne_true
      rw [List.find?_cons_of_neg notTested,
        List.find?_eq_none.mpr skipsLater]
      exact fallThrough_of_default exclusive isDefault breakLabel
  | false =>
      have tested : c.isSelected evaluation e = true := by
        rw [CaseStmt.isSelected, isDefault, selected]
        rfl
      rw [List.find?_cons_of_pos tested]

/-- Without a matching case the target is where a `switch` falls through to. -/
theorem chosenTarget_of_notSelected
    (notSelected :
      ∀ c ∈ cases, c.labels.any (evaluation.selects e) = false)
    (breakLabel : String) :
    chosenTarget evaluation e cases breakLabel =
      fallThrough cases breakLabel := by
  have skips (other : CaseStmt) (member : other ∈ cases) :
      ¬ other.isSelected evaluation e = true := by
    rw [CaseStmt.isSelected, notSelected other member, Bool.and_false]
    exact Bool.false_ne_true
  unfold chosenTarget
  rw [List.find?_eq_none.mpr skips]

/-- Where a parsed `switch` goes, the prepared one goes. -/
theorem switchTarget_matches
    {breakDest contDest : Option String}
    {breakLabel : String}
    {switchBody : ParsedBlock}
    {text : Block Instr}
    {code : List Pending}
    {rest : List (Stmt Instr)}
    (exclusive : Exclusive evaluation e cases)
    (wellFormed : switchBody.WellFormed machine names)
    (inner :
      PreparedBlock (some breakLabel) contDest switchBody text cases)
    (inBody : BlockAt body text (landing breakLabel :: rest))
    (atBreak : StmtAt body (landing breakLabel) rest)
    (later : Matches machine names body breakDest contDest code rest) :
    ∃ target,
      body.findLabel (chosenTarget evaluation e cases breakLabel) [] =
          some target ∧
        (switchBody.switchTarget evaluation e code = code ∧
            target = landing breakLabel :: rest ∨
          ∃ breakDest contDest,
            Matches machine names body breakDest contDest
              (switchBody.switchTarget evaluation e code) target) := by
  have behind := Matches.leave atBreak later
  unfold ParsedBlock.switchTarget
  cases selected :
      switchBody.find false (·.any (evaluation.selects e)) (.leave :: code) with
  | some chosen =>
      have found := found_block switchBody wellFormed inner inBody behind selected
      cases found with
      | intro wanted renamed isAt isMatch first =>
          obtain ⟨earlier, later, rfl, -⟩ := first rfl
          obtain ⟨label, isOwn, isSelected⟩ := List.any_eq_true.mp wanted
          have hasCase :=
            List.any_eq_true.mpr ⟨label, isOwn, isCase_of_selects isSelected⟩
          obtain ⟨target, member, isEntry⟩ := caseStmts_of_isCase renamed hasCase
          rw [isEntry] at exclusive ⊢
          rw [List.singleton_append] at exclusive ⊢
          rw [chosenTarget_of_selected exclusive wanted]
          exact ⟨_, isAt.findLabel member, Or.inr ⟨_, _, isMatch⟩⟩
  | none =>
      have notSelected := notWanted_block _ _ inner selected
      rw [chosenTarget_of_notSelected notSelected, Option.none_or]
      cases isDefault :
          switchBody.find false (·.contains .default) (.leave :: code) with
      | some chosen =>
          have found :=
            found_block switchBody wellFormed inner inBody behind isDefault
          cases found with
          | intro wanted renamed isAt isMatch first =>
              obtain ⟨earlier, later, rfl, -⟩ := first rfl
              have isOwn := List.contains_iff_mem.mp wanted
              have isCase : ParsedLabel.default.isCase = true := rfl
              have hasCase := List.any_eq_true.mpr ⟨_, isOwn, isCase⟩
              obtain ⟨target, member, isEntry⟩ :=
                caseStmts_of_isCase renamed hasCase
              rw [isEntry] at exclusive ⊢
              rw [List.singleton_append] at exclusive ⊢
              rw [fallThrough_of_default exclusive wanted]
              exact ⟨_, isAt.findLabel member, Or.inr ⟨_, _, isMatch⟩⟩
      | none =>
          have notDefault := notWanted_block _ _ inner isDefault
          have noDefault :
              cases.filter (fun c => c.labels.contains .default) = [] :=
            List.filter_eq_nil_iff.mpr (by simpa using notDefault)
          have leaves : fallThrough cases breakLabel = breakLabel := by
            rw [fallThrough, noDefault]
            rfl
          rw [leaves]
          exact
            ⟨_, atBreak.findLabel List.mem_cons_self, Or.inl ⟨rfl, rfl⟩⟩

end Switches

end Matching

end Compi.Cil
