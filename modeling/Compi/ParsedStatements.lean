import Compi.StatementMeaning

/-!
# Statements as they are parsed

Loops are left by `break` and gone on with by `continue`, and a `switch` goes
to the statement with a case label that its value matches.  A case label may
stand at any depth of a `switch`, but in no `switch` inside.
-/

namespace Compi.Cil

/-- `label`. -/
inductive ParsedLabel where
  | label (name : String)
  | caseExp (e : Exp)
  | caseRange (low high : Exp)
  | default
  deriving DecidableEq

/-- The name of a label that is no case. -/
def ParsedLabel.name? : ParsedLabel → Option String
  | .label name => some name
  | _ => none

mutual

/-- `stmt` as it is parsed. -/
inductive ParsedStmt where
  | instr (labels : List ParsedLabel) (is : List Instr)
  | ret (labels : List ParsedLabel) (value : Option Exp)
  | goto (labels : List ParsedLabel) (target : String)
  | computedGoto (labels : List ParsedLabel) (target : Exp)
  | brk (labels : List ParsedLabel)
  | cont (labels : List ParsedLabel)
  | ite
      (labels : List ParsedLabel)
      (condition : Exp)
      (thenBlock elseBlock : ParsedBlock)
  | switch (labels : List ParsedLabel) (e : Exp) (body : ParsedBlock)
  | loop (labels : List ParsedLabel) (body : ParsedBlock)
  | block (labels : List ParsedLabel) (body : ParsedBlock)

/-- `block` as it is parsed. -/
inductive ParsedBlock where
  | nil
  | cons (s : ParsedStmt) (rest : ParsedBlock)

end

/-- The labels of a statement. -/
def ParsedStmt.labels : ParsedStmt → List ParsedLabel
  | .instr labels _ => labels
  | .ret labels _ => labels
  | .goto labels _ => labels
  | .computedGoto labels _ => labels
  | .brk labels => labels
  | .cont labels => labels
  | .ite labels _ _ _ => labels
  | .switch labels _ _ => labels
  | .loop labels _ => labels
  | .block labels _ => labels

/-- `fundec` as it is parsed. -/
structure ParsedFundec where
  svar : Varinfo
  sformals : List Varinfo
  sbody : ParsedBlock

mutual

/-- The names of the labels in a statement, as a visitor meets them. -/
def ParsedStmt.labelNames : ParsedStmt → List String
  | .ite labels _ thenBlock elseBlock =>
      labels.filterMap ParsedLabel.name? ++
        (thenBlock.labelNames ++ elseBlock.labelNames)
  | .switch labels _ body =>
      labels.filterMap ParsedLabel.name? ++ body.labelNames
  | .loop labels body => labels.filterMap ParsedLabel.name? ++ body.labelNames
  | .block labels body => labels.filterMap ParsedLabel.name? ++ body.labelNames
  | s => s.labels.filterMap ParsedLabel.name?

/-- The names of the labels in a block. -/
def ParsedBlock.labelNames : ParsedBlock → List String
  | .nil => []
  | .cons s rest => s.labelNames ++ rest.labelNames

end

/--
What is left to run: a statement, the next round of a loop, or nothing more of
a `switch`.
-/
inductive Pending where
  | stmt (s : ParsedStmt)
  | again (body : ParsedBlock)
  | leave

/-- What is left to run of a block. -/
def ParsedBlock.pending : ParsedBlock → List Pending
  | .nil => []
  | .cons s rest => .stmt s :: rest.pending

mutual

/--
What runs from the first statement with labels of a kind, before a
continuation.  The search goes into a `switch` inside only for a `goto`.
-/
def ParsedStmt.find
    (inSwitch : Bool)
    (isWanted : List ParsedLabel → Bool)
    (next : List Pending) : ParsedStmt → Option (List Pending)
  | .ite labels condition thenBlock elseBlock =>
      if isWanted labels then
        some (.stmt (.ite labels condition thenBlock elseBlock) :: next)
      else
        (thenBlock.find inSwitch isWanted next).or
          (elseBlock.find inSwitch isWanted next)
  | .switch labels e body =>
      if isWanted labels then
        some (.stmt (.switch labels e body) :: next)
      else if inSwitch then
        body.find inSwitch isWanted (.leave :: next)
      else
        none
  | .loop labels body =>
      if isWanted labels then
        some (.stmt (.loop labels body) :: next)
      else
        body.find inSwitch isWanted (.again body :: next)
  | .block labels body =>
      if isWanted labels then
        some (.stmt (.block labels body) :: next)
      else
        body.find inSwitch isWanted next
  | s => if isWanted s.labels then some (.stmt s :: next) else none

/-- The same in a block. -/
def ParsedBlock.find
    (inSwitch : Bool)
    (isWanted : List ParsedLabel → Bool)
    (next : List Pending) : ParsedBlock → Option (List Pending)
  | .nil => none
  | .cons s rest =>
      (s.find inSwitch isWanted (rest.pending ++ next)).or
        (rest.find inSwitch isWanted next)

end

/-- What runs from a label in a block. -/
def ParsedBlock.findLabel
    (body : ParsedBlock)
    (label : String) : Option (List Pending) :=
  body.find true (fun labels => decide (.label label ∈ labels)) []

/-- What runs after a `break`. -/
def breakTarget : List Pending → Option (List Pending)
  | [] => none
  | .stmt _ :: rest => breakTarget rest
  | .again _ :: rest => some rest
  | .leave :: rest => some rest

/-- What runs after a `continue`. -/
def continueTarget : List Pending → Option (List Pending)
  | [] => none
  | .stmt _ :: rest => continueTarget rest
  | .again body :: rest => some (.again body :: rest)
  | .leave :: rest => continueTarget rest

section Execution

variable
  {State R : Type}
  [LinearOrder R]

/-- Whether the value of a `switch` matches a label. -/
def Evaluation.selects
    (evaluation : Evaluation R)
    (e : Exp) : ParsedLabel → Bool
  | .caseExp value =>
      holdsOf .eq
        (evaluation.compare? (evaluation.eval e) (evaluation.eval value))
  | .caseRange low high =>
      holdsOf .ge
          (evaluation.compare? (evaluation.eval e) (evaluation.eval low)) &&
        holdsOf .le
          (evaluation.compare? (evaluation.eval e) (evaluation.eval high))
  | _ => false

/--
What runs of a `switch`: from the case that its value matches, else from the
default case, if there is one.
-/
def ParsedBlock.switchTarget
    (body : ParsedBlock)
    (evaluation : Evaluation R)
    (e : Exp)
    (next : List Pending) : List Pending :=
  ((body.find false (·.any (evaluation.selects e)) (.leave :: next)).or
    (body.find false (·.contains .default) (.leave :: next))).getD next

variable (machine : Machine Instr State R)

/-- One step of a function body. -/
def parsedStep
    (body : ParsedBlock) :
    Progress (List Pending) State R →
      Option (Progress (List Pending) State R)
  | .ended _ => none
  | .running [] state => some (.ended (.returned none state))
  | .running (.leave :: code) state => some (.running code state)
  | .running (.again body :: code) state =>
      some (.running (body.pending ++ .again body :: code) state)
  | .running (.stmt s :: code) state =>
      match s with
      | .instr _ [] => some (.running code state)
      | .instr _ (i :: is) =>
          match machine.execute i state with
          | none => some (.ended (.exited state))
          | some next => some (.running (.stmt (.instr [] is) :: code) next)
      | .ret _ value =>
          some
            (.ended
              (.returned (value.map (machine.evaluation state).eval) state))
      | .goto _ target =>
          (body.findLabel target).map fun code => .running code state
      | .computedGoto _ target =>
          (machine.jump target state).bind fun label =>
            (body.findLabel label).map fun code => .running code state
      | .brk _ => (breakTarget code).map fun code => .running code state
      | .cont _ => (continueTarget code).map fun code => .running code state
      | .ite _ condition thenBlock elseBlock =>
          let chosen :=
            if (machine.evaluation state).taken condition then thenBlock
            else elseBlock
          some (.running (chosen.pending ++ code) state)
      | .switch _ e body =>
          some
            (.running
              (body.switchTarget (machine.evaluation state) e code) state)
      | .loop _ body =>
          some (.running (body.pending ++ .again body :: code) state)
      | .block _ body => some (.running (body.pending ++ code) state)

/-- The start of a function body. -/
def parsedStart (body : ParsedBlock) (state : State) :
    Progress (List Pending) State R :=
  .running body.pending state

end Execution

end Compi.Cil
