import Compi.AlphaNames
import Compi.LabelPositions
import Compi.ParsedStatements

/-!
# Replacing breaks, continues and switches

`prepareCFG` turns every `break`, `continue` and case label into labels and
gotos, and a `switch` into tests in front of its body.  The tests are those made
without logical operators, which is the default.  A `goto` is written with the
first label of its target.
-/

namespace Compi.Cil

/-- A statement with case labels, and its first label once they are renamed. -/
structure CaseStmt where
  labels : List ParsedLabel
  target : String

/-- What a statement or block becomes, and the case statements in it. -/
structure Prepared (Text : Type) where
  text : Text
  cases : List CaseStmt
  table : LabelTable

section Pieces

/-- A label that is no plain one. -/
def ParsedLabel.isCase : ParsedLabel → Bool
  | .label _ => false
  | _ => true

/-- The entry of a statement among the cases of its `switch`. -/
def caseStmts (labels : List ParsedLabel) (names : List String) : List CaseStmt :=
  if labels.any ParsedLabel.isCase then
    [{ labels := labels, target := names.headD "" }]
  else
    []

/-- `break_stmt` and `cont_stmt`. -/
def landing (label : String) : Stmt Instr :=
  .instr (-1) [label] []

/-- `make_if_stmt`. -/
def makeIfStmt (pred : Exp) (target : String) : Stmt Instr :=
  .ite (-1) [] pred (.cons (.goto (-1) [] target) .nil) .nil

/-- The test for a label; a range is tested by `make_double_if_stmt`. -/
def testOf (e : Exp) (target : String) : ParsedLabel → List (Stmt Instr)
  | .caseExp value => [makeIfStmt (.binOp .eq e value (.int .int)) target]
  | .caseRange low high =>
      [.ite (-1) [] (.binOp .ge e low (.int .int))
        (.cons (makeIfStmt (.binOp .le e high (.int .int)) target) .nil) .nil]
  | _ => []

/-- `xform_choice`. -/
def xformChoice (e : Exp) (c : CaseStmt) : List (Stmt Instr) :=
  if c.labels.contains .default then [] else c.labels.flatMap (testOf e c.target)

/-- The target of `goto_break`. -/
def fallThrough (cases : List CaseStmt) (breakLabel : String) : String :=
  (((cases.filter fun c => c.labels.contains .default).getLast?).map
    CaseStmt.target).getD breakLabel

/-- What a `switch` becomes. -/
def switchBlock
    (names : List String)
    (e : Exp)
    (cases : List CaseStmt)
    (body : Block Instr)
    (breakLabel : String) : Stmt Instr :=
  .block (-1) names
    (Block.ofList
      (cases.flatMap (xformChoice e) ++
        (.goto (-1) [] (fallThrough cases breakLabel) ::
          (body.toList ++ [landing breakLabel]))))

/-- `this_stmt` of a loop. -/
def thisStmt (contLabel : String) (body : Block Instr) : Stmt Instr :=
  .loop (-1) [] (.cons (landing contLabel) body)

/-- What a loop becomes. -/
def loopBlock
    (names : List String)
    (contLabel breakLabel : String)
    (body : Block Instr) : Stmt Instr :=
  .block (-1) names
    (.cons (thisStmt contLabel body) (.cons (landing breakLabel) .nil))

end Pieces

section Translation

-- The integer that an expression is a constant for, if it is one.
variable (getInteger : Exp → Option Int)

/-- `suffix`. -/
def caseSuffix (e : Exp) : String :=
  match getInteger e with
  | some value =>
      if value < 0 then "neg_" ++ toString (-value) else toString value
  | none => "exp"

/-- The name that a label becomes. -/
def renameLabel
    (table : LabelTable) : ParsedLabel → Option (String × LabelTable)
  | .label name => some (name, table)
  | .caseExp e => table.freshLabel ("case_" ++ caseSuffix getInteger e)
  | .caseRange low high =>
      table.freshLabel
        ("caserange_" ++ caseSuffix getInteger low ++ "_" ++
          caseSuffix getInteger high)
  | .default => table.freshLabel "switch_default"

/-- The names that the labels of a statement become. -/
def renameLabels
    (table : LabelTable) : List ParsedLabel → Option (List String × LabelTable)
  | [] => some ([], table)
  | label :: rest =>
      (renameLabel getInteger table label).bind fun first =>
        (renameLabels first.2 rest).map fun later =>
          (first.1 :: later.1, later.2)

mutual

/--
`xform_switch_stmt`, given where a `break` and a `continue` go to.  There is no
result where one of them has no loop around it.
-/
def ParsedStmt.xformSwitchStmt
    (breakDest contDest : Option String)
    (table : LabelTable) : ParsedStmt → Option (Prepared (Stmt Instr))
  | .instr labels is =>
      (renameLabels getInteger table labels).map fun named =>
        { text := .instr (-1) named.1 is
          cases := caseStmts labels named.1
          table := named.2 }
  | .ret labels value =>
      (renameLabels getInteger table labels).map fun named =>
        { text := .ret (-1) named.1 value
          cases := caseStmts labels named.1
          table := named.2 }
  | .goto labels target =>
      (renameLabels getInteger table labels).map fun named =>
        { text := .goto (-1) named.1 target
          cases := caseStmts labels named.1
          table := named.2 }
  | .computedGoto labels target =>
      (renameLabels getInteger table labels).map fun named =>
        { text := .computedGoto (-1) named.1 target
          cases := caseStmts labels named.1
          table := named.2 }
  | .brk labels =>
      (renameLabels getInteger table labels).bind fun named =>
        breakDest.map fun dest =>
          { text := .goto (-1) named.1 dest
            cases := caseStmts labels named.1
            table := named.2 }
  | .cont labels =>
      (renameLabels getInteger table labels).bind fun named =>
        contDest.map fun dest =>
          { text := .goto (-1) named.1 dest
            cases := caseStmts labels named.1
            table := named.2 }
  | .ite labels condition thenBlock elseBlock =>
      (renameLabels getInteger table labels).bind fun named =>
        (thenBlock.xformSwitchBlock breakDest contDest named.2).bind fun first =>
          (elseBlock.xformSwitchBlock breakDest contDest first.table).map
            fun second =>
              { text := .ite (-1) named.1 condition first.text second.text
                cases :=
                  caseStmts labels named.1 ++ (first.cases ++ second.cases)
                table := second.table }
  | .switch labels e body =>
      (renameLabels getInteger table labels).bind fun named =>
        (named.2.freshLabel "switch_break").bind fun breakLabel =>
          (body.xformSwitchBlock (some breakLabel.1) contDest
            breakLabel.2).map fun inner =>
              { text :=
                  switchBlock named.1 e inner.cases inner.text breakLabel.1
                cases := caseStmts labels named.1
                table := inner.table }
  | .loop labels body =>
      (renameLabels getInteger table labels).bind fun named =>
        (named.2.freshLabel "while_break").bind fun breakLabel =>
          (breakLabel.2.freshLabel "while_continue").bind fun contLabel =>
            (body.xformSwitchBlock (some breakLabel.1) (some contLabel.1)
              contLabel.2).map fun inner =>
                { text :=
                    loopBlock named.1 contLabel.1 breakLabel.1 inner.text
                  cases := caseStmts labels named.1 ++ inner.cases
                  table := inner.table }
  | .block labels body =>
      (renameLabels getInteger table labels).bind fun named =>
        (body.xformSwitchBlock breakDest contDest named.2).map fun inner =>
          { text := .block (-1) named.1 inner.text
            cases := caseStmts labels named.1 ++ inner.cases
            table := inner.table }

/-- `xform_switch_block`. -/
def ParsedBlock.xformSwitchBlock
    (breakDest contDest : Option String)
    (table : LabelTable) : ParsedBlock → Option (Prepared (Block Instr))
  | .nil => some { text := .nil, cases := [], table := table }
  | .cons s rest =>
      (s.xformSwitchStmt breakDest contDest table).bind fun first =>
        (rest.xformSwitchBlock breakDest contDest first.table).map fun later =>
          { text := .cons first.text later.text
            cases := first.cases ++ later.cases
            table := later.table }

end

/-- `registerLabelsVisitor`. -/
def registerLabels (table : LabelTable) : List String → Option LabelTable
  | [] => some table
  | name :: rest =>
      (AlphaTable.registerAlphaName table name.toList).bind fun next =>
        registerLabels next rest

/-- `prepareCFG`. -/
def prepareCFG (fd : ParsedFundec) : Option (Fundec Instr) :=
  (registerLabels AlphaTable.empty fd.sbody.labelNames).bind fun table =>
    (fd.sbody.xformSwitchBlock getInteger none none table).map fun prepared =>
      { svar := fd.svar
        sformals := fd.sformals
        sbody := prepared.text }

end Translation

end Compi.Cil
