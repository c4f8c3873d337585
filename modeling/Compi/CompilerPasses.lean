import Compi.InstrumentationAgreement
import Compi.InstrumentedMeaning
import Compi.OneReturnMeaning
import Compi.PreparedMeaning

/-!
# The passes of the instrumenter

A file goes through the passes in a row: loops and switches become gotos, each
function gets one return, conditions become predicates, statements are numbered,
and calls of the runtime library are inserted.  What the later passes need of a
function is carried through the earlier ones.

The simplification of memory references in front of these passes is left out.
-/

namespace Compi.Cil

section Contents

mutual

/-- The instructions of a statement. -/
def ParsedStmt.instrs : ParsedStmt → List Instr
  | .instr _ is => is
  | .ite _ _ thenBlock elseBlock => thenBlock.instrs ++ elseBlock.instrs
  | .switch _ _ body => body.instrs
  | .loop _ body => body.instrs
  | .block _ body => body.instrs
  | _ => []

/-- The instructions of a block. -/
def ParsedBlock.instrs : ParsedBlock → List Instr
  | .nil => []
  | .cons s rest => s.instrs ++ rest.instrs

end

mutual

/-- The conditions of a statement. -/
def ParsedStmt.conditions : ParsedStmt → List Exp
  | .ite _ condition thenBlock elseBlock =>
      condition :: (thenBlock.conditions ++ elseBlock.conditions)
  | .switch _ _ body => body.conditions
  | .loop _ body => body.conditions
  | .block _ body => body.conditions
  | _ => []

/-- The conditions of a block. -/
def ParsedBlock.conditions : ParsedBlock → List Exp
  | .nil => []
  | .cons s rest => s.conditions ++ rest.conditions

end

variable
  (isFine : Instr → Prop)
  (isTest : Exp → Prop)

/-- A token whose instruction is fine, or whose condition is a test. -/
def Token.Suits : Token Instr → Prop
  | .instr i => isFine i
  | .ite condition => isTest condition
  | _ => True

/-- A text with fine instructions and tests. -/
def TextSuits (text : List (Token Instr)) : Prop :=
  ∀ token ∈ text, token.Suits isFine isTest

variable {isFine isTest}

@[simp] theorem textSuits_nil : TextSuits isFine isTest [] := by
  intro token member
  cases member

@[simp] theorem textSuits_cons
    {token : Token Instr}
    {text : List (Token Instr)} :
    TextSuits isFine isTest (token :: text) ↔
      token.Suits isFine isTest ∧ TextSuits isFine isTest text :=
  List.forall_mem_cons

@[simp] theorem textSuits_append
    {text others : List (Token Instr)} :
    TextSuits isFine isTest (text ++ others) ↔
      TextSuits isFine isTest text ∧ TextSuits isFine isTest others :=
  List.forall_mem_append

@[simp] theorem textSuits_labels (labels : List String) :
    TextSuits isFine isTest (labels.map Token.label) := by
  intro token member
  obtain ⟨label, -, rfl⟩ := List.mem_map.mp member
  trivial

theorem Block.text_ofList (stmts : List (Stmt Instr)) :
    (Block.ofList stmts).text = stmts.flatMap Stmt.text := by
  induction stmts with
  | nil =>
      rfl
  | cons s rest inductionHypothesis =>
      rw [Block.ofList, Block.text, List.flatMap_cons, inductionHypothesis]

theorem Block.text_eq (b : Block Instr) :
    b.text = b.toList.flatMap Stmt.text := by
  rw [← Block.text_ofList, Block.ofList_toList]

section Prepared

/-- The test for a case is a comparison. -/
theorem textSuits_xformChoice
    (compares :
      ∀ op left right, isTest (.binOp op left right (.int .int)))
    (e : Exp)
    (c : CaseStmt) :
    TextSuits isFine isTest ((xformChoice e c).flatMap Stmt.text) := by
  unfold xformChoice
  split
  · exact textSuits_nil
  · intro token member
    obtain ⟨test, inTests, member⟩ := List.mem_flatMap.mp member
    obtain ⟨label, -, isTestOf⟩ := List.mem_flatMap.mp inTests
    have suits : TextSuits isFine isTest test.text := by
      cases label with
      | caseExp value =>
          obtain rfl := List.mem_singleton.mp isTestOf
          simp [makeIfStmt, Stmt.text, Block.text, Token.Suits, compares]
      | caseRange low high =>
          obtain rfl := List.mem_singleton.mp isTestOf
          simp [makeIfStmt, Stmt.text, Block.text, Token.Suits, compares]
      | label | default =>
          cases isTestOf
    exact suits token member

mutual

/-- What a statement becomes has its instructions and conditions, and tests. -/
theorem textSuits_preparedStmt
    (compares :
      ∀ op left right, isTest (.binOp op left right (.int .int)))
    (s : ParsedStmt)
    {breakDest contDest : Option String}
    {text : Stmt Instr}
    {cases : List CaseStmt}
    (prepared : PreparedStmt breakDest contDest s text cases)
    (fine : ∀ i ∈ s.instrs, isFine i)
    (tests : ∀ condition ∈ s.conditions, isTest condition) :
    TextSuits isFine isTest text.text := by
  cases s with
  | instr labels is =>
      cases prepared with
      | instr named =>
          refine textSuits_append.mpr ⟨textSuits_labels _, ?_⟩
          intro token member
          obtain ⟨i, isMember, rfl⟩ := List.mem_map.mp member
          exact fine i isMember
  | ret labels value =>
      cases prepared with
      | ret named =>
          simp [Stmt.text, Token.Suits]
  | goto labels target =>
      cases prepared with
      | goto named =>
          simp [Stmt.text, Token.Suits]
  | computedGoto labels target =>
      cases prepared with
      | computedGoto named =>
          simp [Stmt.text, Token.Suits]
  | brk labels =>
      cases prepared with
      | brk named =>
          simp [Stmt.text, Token.Suits]
  | cont labels =>
      cases prepared with
      | cont named =>
          simp [Stmt.text, Token.Suits]
  | ite labels condition thenBlock elseBlock =>
      cases prepared with
      | ite named first second =>
          have own := tests condition List.mem_cons_self
          have inThen :=
            textSuits_preparedBlock compares thenBlock first
              (fun i member => fine i (List.mem_append_left _ member))
              (fun test member =>
                tests test
                  (List.mem_cons_of_mem _ (List.mem_append_left _ member)))
          have inElse :=
            textSuits_preparedBlock compares elseBlock second
              (fun i member => fine i (List.mem_append_right _ member))
              (fun test member =>
                tests test
                  (List.mem_cons_of_mem _ (List.mem_append_right _ member)))
          simp [Stmt.text, Token.Suits, own, inThen, inElse]
  | switch labels e body =>
      cases prepared with
      | switch named inner =>
          next breakLabel names text cases =>
          have inBody :=
            textSuits_preparedBlock compares body inner fine tests
          have inTests :
              TextSuits isFine isTest
                ((cases.flatMap (xformChoice e)).flatMap Stmt.text) := by
            rw [List.flatMap_assoc]
            intro token member
            obtain ⟨c, -, member⟩ := List.mem_flatMap.mp member
            exact textSuits_xformChoice compares e c token member
          rw [Block.text_eq] at inBody
          simp [switchBlock, Stmt.text, Block.text_ofList, landing,
            Token.Suits, inTests, inBody]
  | loop labels body =>
      cases prepared with
      | loop named inner =>
          have inBody :=
            textSuits_preparedBlock compares body inner fine tests
          simp [loopBlock, thisStmt, landing, Stmt.text, Block.text,
            Token.Suits, inBody]
  | block labels body =>
      cases prepared with
      | block named inner =>
          have inBody :=
            textSuits_preparedBlock compares body inner fine tests
          simp [Stmt.text, inBody]

/-- The same of a block. -/
theorem textSuits_preparedBlock
    (compares :
      ∀ op left right, isTest (.binOp op left right (.int .int)))
    (b : ParsedBlock)
    {breakDest contDest : Option String}
    {text : Block Instr}
    {cases : List CaseStmt}
    (prepared : PreparedBlock breakDest contDest b text cases)
    (fine : ∀ i ∈ b.instrs, isFine i)
    (tests : ∀ condition ∈ b.conditions, isTest condition) :
    TextSuits isFine isTest text.text := by
  cases b with
  | nil =>
      cases prepared with
      | nil =>
          exact textSuits_nil
  | cons s rest =>
      cases prepared with
      | cons first later =>
          refine textSuits_append.mpr ⟨?_, ?_⟩
          · exact
              textSuits_preparedStmt compares s first
                (fun i member => fine i (List.mem_append_left _ member))
                (fun test member => tests test (List.mem_append_left _ member))
          · exact
              textSuits_preparedBlock compares rest later
                (fun i member => fine i (List.mem_append_right _ member))
                (fun test member => tests test (List.mem_append_right _ member))

end

end Prepared

section Scanned

variable
  {site : ReturnSite}
  {haveGoto : Bool}

/-- The statement that a `return` becomes. -/
theorem textSuits_setReturn
    (stores : ∀ value, isFine (.set (.var site.retVar .noOffset) value))
    (sid : Int)
    (labels : List String)
    (retval : Option Exp) :
    TextSuits isFine isTest (site.setReturn sid labels retval).text := by
  cases retval with
  | none =>
      simp [ReturnSite.setReturn, Stmt.text]
  | some rval =>
      simp [ReturnSite.setReturn, Stmt.text, Token.Suits, stores]

mutual

/-- Apart from storing values, a scanned statement has the same text. -/
theorem textSuits_scannedStmt
    (stores : ∀ value, isFine (.set (.var site.retVar .noOffset) value))
    (s : Stmt Instr)
    {text : Stmt Instr}
    (scanned : ScannedStmt site haveGoto s text)
    (suits : TextSuits isFine isTest s.text) :
    TextSuits isFine isTest text.text := by
  cases scanned with
  | ite first second =>
      simp only [Stmt.text, textSuits_append, textSuits_cons] at suits ⊢
      obtain ⟨⟨⟨named, own, inThen⟩, isElse, inElse⟩, isEnd⟩ := suits
      exact
        ⟨⟨⟨named, own, textSuits_scannedBlock stores _ first inThen⟩, isElse,
          textSuits_scannedBlock stores _ second inElse⟩, isEnd⟩
  | loop inner =>
      simp only [Stmt.text, textSuits_append, textSuits_cons] at suits ⊢
      obtain ⟨⟨named, own, inBody⟩, isEnd⟩ := suits
      exact
        ⟨⟨named, own, textSuits_scannedBlock stores _ inner inBody⟩, isEnd⟩
  | block inner =>
      simp only [Stmt.text, textSuits_append] at suits ⊢
      exact ⟨suits.1, textSuits_scannedBlock stores _ inner suits.2⟩
  | _ =>
      exact suits

/-- The same of a block. -/
theorem textSuits_scannedBlock
    (stores : ∀ value, isFine (.set (.var site.retVar .noOffset) value))
    {mainbody : Bool}
    (b : Block Instr)
    {text : Block Instr}
    (scanned : ScannedBlock site haveGoto mainbody b text)
    (suits : TextSuits isFine isTest b.text) :
    TextSuits isFine isTest text.text := by
  have last :
      TextSuits isFine isTest
        (Block.cons (site.retStmt haveGoto) .nil).text := by
    simp [ReturnSite.retStmt, Block.text, Stmt.text, Token.Suits]
  cases b with
  | nil =>
      cases scanned with
      | nil =>
          exact textSuits_nil
      | last =>
          exact last
  | cons s rests =>
      have inRests := (textSuits_append.mp suits).2
      cases scanned with
      | kept noGoto =>
          exact suits
      | set agrees =>
          exact
            textSuits_append.mpr ⟨textSuits_setReturn stores _ _ _, last⟩
      | jump agrees hasGoto later =>
          refine
            textSuits_append.mpr ⟨textSuits_setReturn stores _ _ _, ?_⟩
          refine textSuits_append.mpr ⟨?_, ?_⟩
          · simp [ReturnSite.gotoReturn, Stmt.text, Token.Suits]
          · exact textSuits_scannedBlock stores rests later inRests
      | cons first later =>
          refine textSuits_append.mpr ⟨?_, ?_⟩
          · exact
              textSuits_scannedStmt stores s first (textSuits_append.mp suits).1
          · exact textSuits_scannedBlock stores rests later inRests

end

end Scanned

end Contents

section Targets

variable
  {State R : Type}
  [LinearOrder R]
  {machine : Machine Instr State R}
  {label : String}

theorem Block.gotoTargets_ofList (stmts : List (Stmt Instr)) :
    (Block.ofList stmts).gotoTargets = stmts.flatMap Stmt.gotoTargets := by
  induction stmts with
  | nil =>
      rfl
  | cons s rest inductionHypothesis =>
      rw [Block.ofList, Block.gotoTargets, List.flatMap_cons,
        inductionHypothesis]

theorem Block.gotoTargets_eq (b : Block Instr) :
    b.gotoTargets = b.toList.flatMap Stmt.gotoTargets := by
  rw [← Block.gotoTargets_ofList, Block.ofList_toList]

/-- The tests of a `switch` go to its cases. -/
theorem gotoTargets_xformChoice
    {e : Exp}
    {c : CaseStmt}
    (member : label ∈ (xformChoice e c).flatMap Stmt.gotoTargets) :
    label = c.target := by
  unfold xformChoice at member
  split at member
  · cases member
  · obtain ⟨test, inTests, member⟩ := List.mem_flatMap.mp member
    obtain ⟨choice, -, isTestOf⟩ := List.mem_flatMap.mp inTests
    cases choice with
    | caseExp value =>
        obtain rfl := List.mem_singleton.mp isTestOf
        exact List.mem_singleton.mp member
    | caseRange low high =>
        obtain rfl := List.mem_singleton.mp isTestOf
        exact List.mem_singleton.mp member
    | label | default =>
        cases isTestOf

/-- The tests of a `switch` fall through to a case, or behind the `switch`. -/
theorem fallThrough_eq
    (cases : List CaseStmt)
    (breakLabel : String) :
    fallThrough cases breakLabel = breakLabel ∨
      ∃ c ∈ cases, fallThrough cases breakLabel = c.target := by
  unfold fallThrough
  cases isLast : (cases.filter fun c => c.labels.contains .default).getLast? with
  | none =>
      exact Or.inl rfl
  | some c =>
      have member := List.mem_of_getLast? isLast
      exact Or.inr ⟨c, (List.mem_filter.mp member).1, rfl⟩

/-- Nothing goes to a label that is not there. -/
theorem target_caseStmts_ne
    {labels : List ParsedLabel}
    {names : List String}
    (absent : label ∉ names)
    (notEmpty : label ≠ "")
    {c : CaseStmt}
    (member : c ∈ caseStmts labels names) :
    c.target ≠ label := by
  unfold caseStmts at member
  split at member
  · obtain rfl := List.mem_singleton.mp member
    rintro rfl
    cases names with
    | nil =>
        exact notEmpty rfl
    | cons name rest =>
        exact absent List.mem_cons_self
  · cases member

mutual

/-- Gotos of a prepared statement go to labels of the function. -/
theorem gotoTargets_preparedStmt
    {names : List String}
    (unnamed : label ∉ names)
    (notEmpty : label ≠ "")
    (s : ParsedStmt)
    (wellFormed : s.WellFormed machine names)
    {breakDest contDest : Option String}
    {text : Stmt Instr}
    {cases : List CaseStmt}
    (prepared : PreparedStmt breakDest contDest s text cases)
    (absent : label ∉ text.allLabels)
    (notBreak : breakDest ≠ some label)
    (notCont : contDest ≠ some label) :
    label ∉ text.gotoTargets ∧ ∀ c ∈ cases, c.target ≠ label := by
  cases s with
  | instr labels is =>
      cases prepared with
      | instr named =>
          exact
            ⟨List.not_mem_nil, fun c => target_caseStmts_ne absent notEmpty⟩
  | ret labels value =>
      cases prepared with
      | ret named =>
          exact
            ⟨List.not_mem_nil, fun c => target_caseStmts_ne absent notEmpty⟩
  | computedGoto labels target =>
      cases prepared with
      | computedGoto named =>
          exact
            ⟨List.not_mem_nil, fun c => target_caseStmts_ne absent notEmpty⟩
  | goto labels target =>
      cases prepared with
      | goto named =>
          refine ⟨?_, fun c => target_caseStmts_ne absent notEmpty⟩
          intro member
          obtain rfl := List.mem_singleton.mp member
          exact unnamed wellFormed
  | brk labels =>
      cases prepared with
      | brk named =>
          refine ⟨?_, fun c => target_caseStmts_ne absent notEmpty⟩
          intro member
          obtain rfl := List.mem_singleton.mp member
          exact notBreak rfl
  | cont labels =>
      cases prepared with
      | cont named =>
          refine ⟨?_, fun c => target_caseStmts_ne absent notEmpty⟩
          intro member
          obtain rfl := List.mem_singleton.mp member
          exact notCont rfl
  | ite labels condition thenBlock elseBlock =>
      cases prepared with
      | ite named first second =>
          simp only [Stmt.allLabels, List.mem_append, not_or] at absent
          obtain ⟨notOwn, notInThen, notInElse⟩ := absent
          have inThen :=
            gotoTargets_preparedBlock unnamed notEmpty thenBlock wellFormed.1
              first notInThen notBreak notCont
          have inElse :=
            gotoTargets_preparedBlock unnamed notEmpty elseBlock wellFormed.2
              second notInElse notBreak notCont
          constructor
          · simp [Stmt.gotoTargets, inThen.1, inElse.1]
          · intro c member
            rcases List.mem_append.mp member with own | inside
            · exact target_caseStmts_ne notOwn notEmpty own
            · rcases List.mem_append.mp inside with isFirst | isSecond
              · exact inThen.2 c isFirst
              · exact inElse.2 c isSecond
  | switch labels e body =>
      cases prepared with
      | switch named inner =>
          next breakLabel names text cases =>
          rw [allLabels_switchBlock] at absent
          simp only [List.mem_append, List.mem_singleton, not_or] at absent
          obtain ⟨notOwn, notInBody, differs⟩ := absent
          have inBody :=
            gotoTargets_preparedBlock unnamed notEmpty body wellFormed.2 inner
              notInBody (fun same => differs (Option.some.inj same).symm)
              notCont
          refine ⟨?_, fun c => target_caseStmts_ne notOwn notEmpty⟩
          have notTested :
              label ∉
                (cases.flatMap (xformChoice e)).flatMap Stmt.gotoTargets := by
            rw [List.flatMap_assoc]
            intro member
            obtain ⟨c, isCase, member⟩ := List.mem_flatMap.mp member
            exact inBody.2 c isCase (gotoTargets_xformChoice member).symm
          have notFallThrough : label ≠ fallThrough cases breakLabel := by
            intro same
            rcases fallThrough_eq cases breakLabel with isBreak | isCase
            · exact differs (same.trans isBreak)
            · obtain ⟨c, isCase, isTarget⟩ := isCase
              exact inBody.2 c isCase (same.trans isTarget).symm
          have notInText := inBody.1
          rw [Block.gotoTargets_eq] at notInText
          unfold switchBlock
          rw [Stmt.gotoTargets, Block.gotoTargets_ofList, List.flatMap_append,
            List.flatMap_cons, List.flatMap_append, List.mem_append,
            List.mem_append, List.mem_append, not_or, not_or, not_or]
          refine ⟨notTested, ?_, notInText, List.not_mem_nil⟩
          intro member
          exact notFallThrough (List.mem_singleton.mp member)
  | loop labels body =>
      cases prepared with
      | loop named inner =>
          rw [allLabels_loopBlock] at absent
          simp only [List.mem_append, List.mem_cons, List.not_mem_nil,
            or_false, not_or] at absent
          obtain ⟨notOwn, notCont, notInBody, notBreak⟩ := absent
          have inBody :=
            gotoTargets_preparedBlock unnamed notEmpty body wellFormed inner
              notInBody (fun same => notBreak (Option.some.inj same).symm)
              (fun same => notCont (Option.some.inj same).symm)
          constructor
          · simp [loopBlock, thisStmt, landing, Stmt.gotoTargets,
              Block.gotoTargets, inBody.1]
          · intro c member
            rcases List.mem_append.mp member with own | inside
            · exact target_caseStmts_ne notOwn notEmpty own
            · exact inBody.2 c inside
  | block labels body =>
      cases prepared with
      | block named inner =>
          simp only [Stmt.allLabels, List.mem_append, not_or] at absent
          have inBody :=
            gotoTargets_preparedBlock unnamed notEmpty body wellFormed inner
              absent.2 notBreak notCont
          refine ⟨inBody.1, ?_⟩
          intro c member
          rcases List.mem_append.mp member with own | inside
          · exact target_caseStmts_ne absent.1 notEmpty own
          · exact inBody.2 c inside

/-- The same of a block. -/
theorem gotoTargets_preparedBlock
    {names : List String}
    (unnamed : label ∉ names)
    (notEmpty : label ≠ "")
    (b : ParsedBlock)
    (wellFormed : b.WellFormed machine names)
    {breakDest contDest : Option String}
    {text : Block Instr}
    {cases : List CaseStmt}
    (prepared : PreparedBlock breakDest contDest b text cases)
    (absent : label ∉ text.allLabels)
    (notBreak : breakDest ≠ some label)
    (notCont : contDest ≠ some label) :
    label ∉ text.gotoTargets ∧ ∀ c ∈ cases, c.target ≠ label := by
  cases b with
  | nil =>
      cases prepared with
      | nil =>
          exact ⟨List.not_mem_nil, fun c member => by cases member⟩
  | cons s rest =>
      cases prepared with
      | cons first later =>
          simp only [Block.allLabels, List.mem_append, not_or] at absent
          have inFirst :=
            gotoTargets_preparedStmt unnamed notEmpty s wellFormed.1 first
              absent.1 notBreak notCont
          have inRest :=
            gotoTargets_preparedBlock unnamed notEmpty rest wellFormed.2 later
              absent.2 notBreak notCont
          constructor
          · simp [Block.gotoTargets, inFirst.1, inRest.1]
          · intro c member
            rcases List.mem_append.mp member with isFirst | isLater
            · exact inFirst.2 c isFirst
            · exact inRest.2 c isLater

end

end Targets

section Passes

variable
  {State Rt R Observed : Type}
  [LinearOrder R]

/-- The passes that make gotos, and one return for each function. -/
def simplifyFile
    (getInteger : Exp → Option Int)
    (makeTempVar : Fundec Instr → Varinfo) :
    List ParsedFundec → Option (List (Fundec Instr))
  | [] => some []
  | fd :: rest =>
      (prepareCFG getInteger fd).bind fun prepared =>
        (oneret (makeTempVar prepared) prepared).bind fun once =>
          (simplifyFile getInteger makeTempVar rest).map fun later =>
            once :: later

/--
A function that keeps its meaning through the passes: a compiler accepts it, it
does not use the label of `oneret`, its conditions do not negate a comparison by
order of unordered operands, and the instrumenters lose none of its calls.
-/
structure Compilable
    (machine : Machine Instr State R)
    (fd : ParsedFundec) : Prop where
  wellFormed : fd.WellFormed machine
  noReturnLabel : ReturnSite.returnLabel ∉ fd.sbody.labelNames
  ordered :
    ∀ condition ∈ fd.sbody.conditions, ∀ state,
      OrderedWhereNegated (machine.evaluation state) condition false
  kept : ∀ i ∈ fd.sbody.instrs, losesCall i = false

/--
Outcomes of a function and of its instrumented code: the program looks the same,
and the value is the same if there was one.
-/
inductive SameProgram
    (hasRet : Bool)
    (observe : State → Observed) :
    Outcome State R → Outcome (State × Rt) R → Prop where
  | returned
      {value value' : Option (CValue R)}
      {state : State}
      {state' : State × Rt}
      (sameValue : value' = value ∨ hasRet = true ∧ value = none)
      (sameState : observe state'.1 = observe state) :
      SameProgram hasRet observe (.returned value state)
        (.returned value' state')
  | exited
      {state : State × Rt} :
      SameProgram hasRet observe (.exited state.1) (.exited state)

/-- What the passes of a file preserve of a function. -/
def KeepsMeaning
    (machine : Machine Instr State R)
    (library : Library State Rt)
    (observe : State → Observed)
    (fd : ParsedFundec)
    (g : Fundec Instrumented) : Prop :=
  ∃ hasRet, hasRet? fd.svar.vtype = some hasRet ∧
    ∀ state rt,
      SameMeaning (SameProgram hasRet observe)
        (parsedStep machine fd.sbody) (parsedStart fd.sbody state)
        (step (machine.withLibrary library) g.sbody)
        (start g.sbody (state, rt))

variable
  {machine : Machine Instr State R}
  {library : Library State Rt}
  {observe : State → Observed}
  {getInteger : Exp → Option Int}
  {makeTempVar : Fundec Instr → Varinfo}

/-- What a function is between the first passes and the last ones. -/
structure Simplified
    (machine : Machine Instr State R)
    (observe : State → Observed)
    (fd : ParsedFundec)
    (once : Fundec Instr) : Prop where
  ordered : OrderedConditions machine once.sbody.text
  kept : ∀ i ∈ once.sbody.instrs, losesCall i = false
  sameMeaning :
    ∃ hasRet, hasRet? fd.svar.vtype = some hasRet ∧
      ∀ state,
        SameMeaning (Relation.Comp Eq (SameReturn hasRet observe))
          (parsedStep machine fd.sbody) (parsedStart fd.sbody state)
          (step machine once.sbody) (start once.sbody state)

/-- A prepared function does not use the label of `oneret` either. -/
theorem freeOfReturnLabel_prepareCFG
    {fd : ParsedFundec}
    {prepared : Fundec Instr}
    (compilable : Compilable machine fd)
    (done : prepareCFG getInteger fd = some prepared) :
    FreeOfReturnLabel machine prepared.sbody := by
  obtain ⟨⟨cases, shape⟩, -, -, madeUp, -⟩ :=
    prepareCFG_spec getInteger compilable.wellFormed.nodup
      compilable.wellFormed.notEmpty done
  have absent : ReturnSite.returnLabel ∉ prepared.sbody.allLabels := by
    intro member
    rcases madeUp _ member with isName | ⟨c, isStart, starts⟩
    · exact compilable.noReturnLabel isName
    · have isR : 'r' = c := Option.some.inj starts
      subst isR
      simp at isStart
  have differs : ReturnSite.returnLabel ≠ "" := by
    decide
  refine ⟨absent, ?_, ?_⟩
  · exact
      (gotoTargets_preparedBlock compilable.noReturnLabel differs _
        compilable.wellFormed.body shape absent (by simp) (by simp)).1
  · intro e state jumped
    exact
      compilable.noReturnLabel
        (compilable.wellFormed.jumps e state _ jumped)

/-- What the first passes make of a function. -/
theorem simplified_of_done
    (isTemp : ∀ f, IsTempVar machine observe (makeTempVar f))
    {fd : ParsedFundec}
    {once : Fundec Instr}
    (compilable : Compilable machine fd)
    {prepared : Fundec Instr}
    (isPrepared : prepareCFG getInteger fd = some prepared)
    (done : oneret (makeTempVar prepared) prepared = some once) :
    Simplified machine observe fd once := by
  obtain ⟨⟨cases, shape⟩, sameVar, -⟩ :=
    prepareCFG_spec getInteger compilable.wellFormed.nodup
      compilable.wellFormed.notEmpty isPrepared
  obtain ⟨hasRet, haveGoto, hasType, isScanned⟩ :=
    isScanned_of_oneret
      (freeOfReturnLabel_prepareCFG compilable isPrepared) done
  have suits :
      TextSuits (fun i => losesCall i = false)
        (fun condition =>
          ∀ state,
            OrderedWhereNegated (machine.evaluation state) condition false)
        once.sbody.text := by
    refine
      textSuits_scannedBlock (fun _ => rfl) prepared.sbody isScanned.scanned ?_
    refine
      textSuits_preparedBlock ?_ fd.sbody shape compilable.kept
        compilable.ordered
    intro op left right state isNegated
    cases isNegated
  rw [sameVar] at hasType
  constructor
  · intro condition member
    exact suits _ member
  · intro i member
    exact suits _ (Block.mem_instrs.mp member)
  · refine ⟨hasRet, hasType, fun state => ?_⟩
    have first :=
      (isPrepared_of_prepareCFG compilable.wellFormed isPrepared).sameMeaning
        state
    exact first.trans (isScanned.sameMeaning (isTemp prepared) state)

omit [LinearOrder R] in
/-- Outcomes that are the same through all passes. -/
theorem sameProgram_of_comp
    {hasRet : Bool}
    {outcome : Outcome State R}
    {outcome' : Outcome (State × Rt) R}
    (same :
      Relation.Comp
        (Relation.Comp (Relation.Comp Eq (SameReturn hasRet observe))
          (SameSeen id))
        (SameSeen Prod.fst) outcome outcome') :
    SameProgram hasRet observe outcome outcome' := by
  obtain ⟨third, ⟨second, ⟨first, rfl, isReturn⟩, isNumbered⟩, isVisited⟩ :=
    same
  cases isVisited with
  | returned =>
      cases isNumbered with
      | returned =>
          cases isReturn with
          | returned sameValue sameState =>
              exact .returned sameValue sameState
  | exited =>
      cases isNumbered with
      | exited =>
          cases isReturn with
          | exited =>
              exact .exited

/-- The last passes keep the meaning of a simplified function. -/
theorem keepsMeaning_of_simplified
    (unobtrusive : Unobtrusive machine library CrestAll.vinst)
    {fd : ParsedFundec}
    {once : Fundec Instr}
    (simplified : Simplified machine observe fd once)
    (seen : CrestAll.Seen)
    (startId : Int) :
    KeepsMeaning machine library observe fd
      (CrestAll.vfunc seen
        { once with sbody := (once.sbody.normalize.number startId).2 }).2 := by
  obtain ⟨hasRet, hasType, toOnce⟩ := simplified.sameMeaning
  refine ⟨hasRet, hasType, fun state rt => ?_⟩
  have numbered :=
    refines_normalizeBlock once.sbody simplified.ordered startId
  have same :
      SameSkeleton once
        { once with sbody := (once.sbody.normalize.number startId).2 } := by
    refine ⟨rfl, rfl, ?_⟩
    rw [text_numberBlock]
    exact skeleton_normalizeBlock once.sbody
  have visited :=
    refines_vfunc unobtrusive seen
      { once with sbody := (once.sbody.normalize.number startId).2 }
      fun _ i member => simplified.kept i (same.mem_instrs.mp member)
  have toNumbered := numbered.sameMeaning (views_id machine) state
  have toVisited :=
    visited.sameMeaning (views_withLibrary machine library) (state, rt)
  exact
    (((toOnce state).trans toNumbered).trans toVisited).mono fun _ _ =>
      sameProgram_of_comp

/-- What the first passes make of the functions of a file. -/
theorem simplified_of_simplifyFile
    (isTemp : ∀ f, IsTempVar machine observe (makeTempVar f))
    {file : List ParsedFundec}
    (compilable : ∀ fd ∈ file, Compilable machine fd)
    {once : List (Fundec Instr)}
    (done : simplifyFile getInteger makeTempVar file = some once) :
    List.Forall₂ (Simplified machine observe) file once := by
  induction file generalizing once with
  | nil =>
      obtain rfl := Option.some.inj done
      exact .nil
  | cons fd rest inductionHypothesis =>
      obtain ⟨prepared, isPrepared, done⟩ := Option.bind_eq_some_iff.mp done
      obtain ⟨first, isFirst, done⟩ := Option.bind_eq_some_iff.mp done
      obtain ⟨later, isLater, rfl⟩ := Option.map_eq_some_iff.mp done
      apply List.Forall₂.cons
      · exact
          simplified_of_done isTemp (compilable fd List.mem_cons_self)
            isPrepared isFirst
      · exact
          inductionHypothesis
            (fun other member =>
              compilable other (List.mem_cons_of_mem fd member))
            isLater

/-- The last passes keep the meaning of the functions of a file. -/
theorem keepsMeaning_visitFile
    (unobtrusive : Unobtrusive machine library CrestAll.vinst)
    {file : List ParsedFundec}
    {once : List (Fundec Instr)}
    (simplified : List.Forall₂ (Simplified machine observe) file once)
    (seen : CrestAll.Seen)
    (startId : Int) :
    List.Forall₂ (KeepsMeaning machine library observe) file
      (CrestAll.visitFile seen (prepareFile startId once)).2 := by
  induction simplified generalizing seen startId with
  | nil =>
      exact .nil
  | cons first later inductionHypothesis =>
      apply List.Forall₂.cons
      · exact keepsMeaning_of_simplified unobtrusive first seen startId
      · exact inductionHypothesis _ _

end Passes

end Compi.Cil
