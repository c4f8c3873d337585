import Compi.BasicTypes
import Compi.CilSyntax

/-!
# Instrumentation

An instrumenter visits a program and inserts calls of the runtime library.
The calls that it queues at an instruction, a condition or a return go before
it, and those for the branches of a condition go to the front of its blocks.

The identifiers that number the inserted calls are left out, as the runtime
library only prints them.
-/

namespace Compi.Cil

/-- The calls that are inserted, with their arguments. -/
inductive RuntimeCall where
  | load (addr value : Exp)
  | store (addr : Exp)
  | clearStack
  | apply1 (op : Int) (value : Exp)
  | apply2 (op : Int) (value : Exp)
  | branch (bid : BranchId) (taken : Bool)
  | branchOnly (bid : BranchId)
  | call (fid : Nat)
  | returns
  | handleReturn (value : Exp)
  | rank (addr : Exp)
  | rankNonDefaultComm1 (addr : Exp)
  | rankNonDefaultComm2 (comm addr : Exp)
  | worldSizeWithLimit (addr : Exp) (limit : Int)
  | getMPIInfo
  deriving DecidableEq

/-- An instruction of an instrumented program: its own or an inserted call. -/
inductive Instrumented where
  | program (i : Instr)
  | runtime (c : RuntimeCall)
  deriving DecidableEq

section Utilities

/-- `noAddr`. -/
def noAddr : Exp :=
  .const (.int64 0 .int)

/-- `shouldSkipFunction`. -/
def shouldSkipFunction (f : Varinfo) : Bool :=
  f.vattr.contains "crest_skip"

/-- `isSymbolicType`. -/
def isSymbolicType (type : Typ) : Bool :=
  type.isIntegralType

/-- Whether the type of an expression is symbolic. -/
def isSymbolicExp (e : Exp) : Bool :=
  (typeOf e).any isSymbolicType

/-- Whether the type of an lvalue is symbolic. -/
def isSymbolicLval (lv : Lval) : Bool :=
  (typeOfLval lv).any isSymbolicType

/-- `addressOf`. -/
def addressOf : Lval → Exp :=
  mkAddrOrStartOf

/-- `containsBitField`. -/
def containsBitField : Offset → Bool
  | .noOffset => false
  | .field fi off => fi.fbitfield.isSome || containsBitField off
  | .index _ off => containsBitField off

/-- `hasAddress`. -/
def hasAddress : Lval → Bool
  | .var _ off => !containsBitField off
  | .mem _ off => !containsBitField off

/-- `valType`. -/
def valType : Typ :=
  .int .longLong

/-- `addrType`. -/
def addrType : Typ :=
  .int .ulong

/-- `toAddr`. -/
def toAddr (e : Exp) : Exp :=
  .castE addrType e

/-- `toValue`. -/
def toValue (e : Exp) : Exp :=
  if (typeOf e).any Typ.isPointerType then
    .castE valType (.castE addrType e)
  else
    .castE valType e

/-- The function that a call names, if its callee is a plain variable. -/
def calledFunction? : Exp → Option Varinfo
  | .lval (.var f .noOffset) => some f
  | _ => none

/-- Whether a call is to a function marked as uninstrumented. -/
def skipsCall (callee : Exp) : Bool :=
  (calledFunction? callee).any shouldSkipFunction

end Utilities

section Markers

/-- The limit of the world size that both instrumenters use. -/
def worldSizeLimit : Int :=
  16

/-- An argument that the markers accept, and the address they mark. -/
def markedAddress? : Exp → Option Exp
  | .lval lv => some (.lval lv)
  | .castE type e => some (.castE type e)
  | .addrOf lv => some (addressOf lv)
  | _ => none

/--
`rankMarker`: the call `i` with arguments `g` and its marking calls.  Without
an accepted second argument the list is empty.  In another communicator the
address is marked as it stands before the call.
-/
def rankMarker (g : List Exp) (i : Instr) : List Instrumented :=
  match g with
  | h :: k :: _ =>
      match markedAddress? k with
      | none => []
      | some marked =>
          if isConstant h then
            [.runtime (.rank (toAddr marked)), .program i]
          else
            [.runtime (.rankNonDefaultComm1 (toAddr k)), .program i,
              .runtime (.rankNonDefaultComm2 (toValue h) (toAddr marked))]
  | _ => []

/-- `worldSizeMarker`: the marking call alone, without the call it is for. -/
def worldSizeMarker (g : List Exp) : List Instrumented :=
  match g with
  | h :: k :: _ =>
      match markedAddress? k with
      | none => []
      | some marked =>
          if isConstant h then
            [.runtime (.worldSizeWithLimit (toAddr marked) worldSizeLimit)]
          else
            []
  | _ => []

end Markers

section Visiting

/-- `prependToBlock` with inserted calls. -/
def prependToBlock
    (calls : List RuntimeCall)
    (b : Block Instrumented) : Block Instrumented :=
  .cons (.instr (-1) [] (calls.map .runtime)) b

/-- What an instrumenter inserts at each kind of program point. -/
structure Visitor where
  atInstr : Instr → List Instrumented
  beforeIf : Exp → List RuntimeCall
  atBranch : BranchId → Bool → RuntimeCall
  beforeReturn : Option Exp → List RuntimeCall

/-- A statement behind the calls that were queued for it. -/
def withQueue
    (queue : List RuntimeCall)
    (sid : Int)
    (labels : List String)
    (make : Int → List String → Stmt Instrumented) : Stmt Instrumented :=
  match queue with
  | [] => make sid labels
  | _ :: _ =>
      .block sid labels (prependToBlock queue (.cons (make (-1) []) .nil))

/-- `sid`. -/
def Stmt.sid {Inst : Type} : Stmt Inst → Int
  | .instr sid _ _ => sid
  | .ret sid _ _ => sid
  | .goto sid _ _ => sid
  | .computedGoto sid _ _ => sid
  | .ite sid _ _ _ _ => sid
  | .loop sid _ _ => sid
  | .block sid _ _ => sid

/-- `getFirstStmtId`; blocks of conditions are not empty here. -/
def getFirstStmtId {Inst : Type} : Block Inst → Int
  | .nil => -1
  | .cons s _ => s.sid

mutual

/-- `visitCilStmt`. -/
def Visitor.visitStmt (v : Visitor) : Stmt Instr → Stmt Instrumented
  | .instr sid labels is => .instr sid labels (is.flatMap v.atInstr)
  | .ret sid labels value =>
      withQueue (v.beforeReturn value) sid labels fun sid labels =>
        .ret sid labels value
  | .goto sid labels target => .goto sid labels target
  | .computedGoto sid labels target => .computedGoto sid labels target
  | .ite sid labels condition thenBlock elseBlock =>
      let first := getFirstStmtId thenBlock
      let second := getFirstStmtId elseBlock
      withQueue (v.beforeIf condition) sid labels fun sid labels =>
        .ite sid labels condition
          (prependToBlock [v.atBranch first true] (v.visitBlock thenBlock))
          (prependToBlock [v.atBranch second false] (v.visitBlock elseBlock))
  | .loop sid labels body => .loop sid labels (v.visitBlock body)
  | .block sid labels body => .block sid labels (v.visitBlock body)

/-- `visitCilBlock`. -/
def Visitor.visitBlock (v : Visitor) : Block Instr → Block Instrumented
  | .nil => .nil
  | .cons s rest => .cons (v.visitStmt s) (v.visitBlock rest)

end

mutual

/-- A statement without inserted calls. -/
def Stmt.plain : Stmt Instr → Stmt Instrumented
  | .instr sid labels is => .instr sid labels (is.map .program)
  | .ret sid labels value => .ret sid labels value
  | .goto sid labels target => .goto sid labels target
  | .computedGoto sid labels target => .computedGoto sid labels target
  | .ite sid labels condition thenBlock elseBlock =>
      .ite sid labels condition thenBlock.plain elseBlock.plain
  | .loop sid labels body => .loop sid labels body.plain
  | .block sid labels body => .block sid labels body.plain

/-- A block without inserted calls. -/
def Block.plain : Block Instr → Block Instrumented
  | .nil => .nil
  | .cons s rest => .cons s.plain rest.plain

end

end Visiting

section Sites

/-- A site of a program text: a token of it, or the front of a branch. -/
inductive Site where
  | own (token : Token Instr)
  | entry (bid : BranchId) (taken : Bool)
  deriving DecidableEq

/-- The sites of labels. -/
def labelSites (labels : List String) : List Site :=
  labels.map fun name => .own (.label name)

mutual

/-- The sites of a statement in textual order. -/
def Stmt.sites : Stmt Instr → List Site
  | .instr _ labels is =>
      labelSites labels ++ is.map fun i => .own (.instr i)
  | .ret _ labels value => labelSites labels ++ [.own (.ret value)]
  | .goto _ labels target => labelSites labels ++ [.own (.goto target)]
  | .computedGoto _ labels target =>
      labelSites labels ++ [.own (.computedGoto target)]
  | .ite _ labels condition thenBlock elseBlock =>
      labelSites labels ++
        .own (.ite condition) :: .entry (getFirstStmtId thenBlock) true ::
          thenBlock.sites ++
        .own .otherwise :: .entry (getFirstStmtId elseBlock) false ::
          elseBlock.sites ++
        [.own .endIf]
  | .loop _ labels body =>
      labelSites labels ++ .own .loop :: body.sites ++ [.own .endLoop]
  | .block _ labels body => labelSites labels ++ body.sites

/-- The sites of a block in textual order. -/
def Block.sites : Block Instr → List Site
  | .nil => []
  | .cons s rest => s.sites ++ rest.sites

end

/-- Inserted calls as they stand in a text. -/
def inserted (calls : List RuntimeCall) : List (Token Instrumented) :=
  calls.map fun c => .instr (.runtime c)

/-- What a visitor makes of a site. -/
def Visitor.expand (v : Visitor) : Site → List (Token Instrumented)
  | .own (.instr i) => (v.atInstr i).map .instr
  | .own (.ret value) => inserted (v.beforeReturn value) ++ [.ret value]
  | .own (.ite condition) =>
      inserted (v.beforeIf condition) ++ [.ite condition]
  | .own (.label name) => [.label name]
  | .own (.goto target) => [.goto target]
  | .own (.computedGoto target) => [.computedGoto target]
  | .own .otherwise => [.otherwise]
  | .own .endIf => [.endIf]
  | .own .loop => [.loop]
  | .own .endLoop => [.endLoop]
  | .entry bid taken => inserted [v.atBranch bid taken]

variable {v : Visitor}

@[simp] theorem text_prependToBlock
    (calls : List RuntimeCall)
    (b : Block Instrumented) :
    (prependToBlock calls b).text = inserted calls ++ b.text := by
  simp [prependToBlock, Block.text, Stmt.text, inserted]

/-- Queued calls stand between the labels of a statement and the statement. -/
theorem text_withQueue
    {queue : List RuntimeCall}
    {sid : Int}
    {labels : List String}
    {make : Int → List String → Stmt Instrumented}
    {core : List (Token Instrumented)}
    (shape :
      ∀ sid labels, (make sid labels).text = labels.map .label ++ core) :
    (withQueue queue sid labels make).text =
      labels.map .label ++ (inserted queue ++ core) := by
  cases queue with
  | nil =>
      exact shape sid labels
  | cons call rest =>
      simp [withQueue, Stmt.text, Block.text, shape]

@[simp] theorem expand_labelSites (labels : List String) :
    (labelSites labels).flatMap v.expand = labels.map .label := by
  induction labels with
  | nil =>
      rfl
  | cons name rest inductionHypothesis =>
      simpa [labelSites, Visitor.expand] using inductionHypothesis

@[simp] theorem expand_instrs (is : List Instr) :
    (is.map fun i => Site.own (.instr i)).flatMap v.expand =
      (is.flatMap v.atInstr).map .instr := by
  induction is with
  | nil =>
      rfl
  | cons i rest inductionHypothesis =>
      rw [List.map_cons, List.flatMap_cons, inductionHypothesis,
        List.flatMap_cons, List.map_append]
      rfl

mutual

/-- A visited statement is expanded site by site. -/
theorem text_visitStmt (v : Visitor) (s : Stmt Instr) :
    (v.visitStmt s).text = s.sites.flatMap v.expand := by
  cases s with
  | instr sid labels is =>
      simp only [Visitor.visitStmt, Stmt.text, Stmt.sites,
        List.flatMap_append, expand_labelSites, expand_instrs]
  | ret sid labels value =>
      have queued :
          (v.visitStmt (.ret sid labels value)).text =
            labels.map .label ++
              (inserted (v.beforeReturn value) ++ [.ret value]) := by
        unfold Visitor.visitStmt
        apply text_withQueue
        intro sid labels
        rfl
      simp [queued, Stmt.sites, Visitor.expand]
  | goto sid labels target =>
      simp [Visitor.visitStmt, Stmt.text, Stmt.sites, Visitor.expand]
  | computedGoto sid labels target =>
      simp [Visitor.visitStmt, Stmt.text, Stmt.sites, Visitor.expand]
  | ite sid labels condition thenBlock elseBlock =>
      let core : List (Token Instrumented) :=
        .ite condition ::
            (inserted [v.atBranch (getFirstStmtId thenBlock) true] ++
              (v.visitBlock thenBlock).text) ++
          .otherwise ::
            (inserted [v.atBranch (getFirstStmtId elseBlock) false] ++
              (v.visitBlock elseBlock).text) ++
          [.endIf]
      have queued :
          (v.visitStmt
              (.ite sid labels condition thenBlock elseBlock)).text =
            labels.map .label ++ (inserted (v.beforeIf condition) ++ core) := by
        unfold Visitor.visitStmt
        apply text_withQueue
        intro sid labels
        simp [Stmt.text, core]
      simp [queued, core, Stmt.sites, Visitor.expand,
        text_visitBlock v thenBlock, text_visitBlock v elseBlock]
  | loop sid labels body =>
      simp [Visitor.visitStmt, Stmt.text, Stmt.sites, Visitor.expand,
        text_visitBlock v body]
  | block sid labels body =>
      simp [Visitor.visitStmt, Stmt.text, Stmt.sites, text_visitBlock v body]

/-- A visited block is expanded site by site. -/
theorem text_visitBlock (v : Visitor) (b : Block Instr) :
    (v.visitBlock b).text = b.sites.flatMap v.expand := by
  cases b with
  | nil =>
      rfl
  | cons s rest =>
      simp only [Visitor.visitBlock, Block.text, Block.sites,
        List.flatMap_append, text_visitStmt v s, text_visitBlock v rest]

end

/-- The token at a site. -/
def Site.token? : Site → Option (Token Instr)
  | .own token => some token
  | .entry _ _ => none

@[simp] theorem token_labelSites (labels : List String) :
    (labelSites labels).filterMap Site.token? = labels.map .label := by
  induction labels with
  | nil =>
      rfl
  | cons name rest inductionHypothesis =>
      simpa [labelSites, Site.token?] using inductionHypothesis

theorem token_instrs (is : List Instr) :
    (is.map fun i => Site.own (.instr i)).filterMap Site.token? =
      is.map .instr := by
  induction is with
  | nil =>
      rfl
  | cons i rest inductionHypothesis =>
      simpa [Site.token?] using inductionHypothesis

mutual

/-- The text of a statement is what its sites hold. -/
theorem token_sitesStmt (s : Stmt Instr) :
    s.sites.filterMap Site.token? = s.text := by
  cases s with
  | instr sid labels is =>
      rw [Stmt.sites, Stmt.text, List.filterMap_append, token_labelSites,
        token_instrs]
  | ite sid labels condition thenBlock elseBlock =>
      simp [Stmt.sites, Stmt.text, Site.token?, List.filterMap_cons,
        token_sitesBlock thenBlock, token_sitesBlock elseBlock]
  | loop sid labels body =>
      simp [Stmt.sites, Stmt.text, Site.token?, token_sitesBlock body]
  | block sid labels body =>
      simp [Stmt.sites, Stmt.text, token_sitesBlock body]
  | _ =>
      simp [Stmt.sites, Stmt.text, Site.token?]

/-- The text of a block is what its sites hold. -/
theorem token_sitesBlock (b : Block Instr) :
    b.sites.filterMap Site.token? = b.text := by
  cases b with
  | nil =>
      rfl
  | cons s rest =>
      simp only [Block.sites, Block.text, List.filterMap_append,
        token_sitesStmt s, token_sitesBlock rest]

end

/-- A token is at some site exactly if it is in the text. -/
theorem own_mem_sites {b : Block Instr} {token : Token Instr} :
    .own token ∈ b.sites ↔ token ∈ b.text := by
  rw [← token_sitesBlock, List.mem_filterMap]
  constructor
  · intro member
    exact ⟨_, member, rfl⟩
  · rintro ⟨site, member, isToken⟩
    cases site with
    | own other =>
        obtain rfl := Option.some.inj isToken
        exact member
    | entry bid taken =>
        cases isToken

/-- A token of a program that is not instrumented. -/
def Token.plain : Token Instr → Token Instrumented
  | .label name => .label name
  | .instr i => .instr (.program i)
  | .ret value => .ret value
  | .goto target => .goto target
  | .computedGoto target => .computedGoto target
  | .ite condition => .ite condition
  | .otherwise => .otherwise
  | .endIf => .endIf
  | .loop => .loop
  | .endLoop => .endLoop

@[simp] theorem plain_labels :
    Token.plain ∘ Token.label = Token.label :=
  rfl

@[simp] theorem plain_instrs :
    Token.plain ∘ Token.instr = Token.instr ∘ Instrumented.program :=
  rfl

mutual

/-- The text of a statement without inserted calls. -/
theorem text_plainStmt (s : Stmt Instr) :
    s.plain.text = s.text.map Token.plain := by
  cases s with
  | instr sid labels is =>
      simp [Stmt.plain, Stmt.text]
  | ite sid labels condition thenBlock elseBlock =>
      simp [Stmt.plain, Stmt.text, Token.plain, text_plainBlock thenBlock,
        text_plainBlock elseBlock]
  | loop sid labels body =>
      simp [Stmt.plain, Stmt.text, Token.plain, text_plainBlock body]
  | block sid labels body =>
      simp [Stmt.plain, Stmt.text, text_plainBlock body]
  | _ =>
      simp [Stmt.plain, Stmt.text, Token.plain]

/-- The text of a block without inserted calls. -/
theorem text_plainBlock (b : Block Instr) :
    b.plain.text = b.text.map Token.plain := by
  cases b with
  | nil =>
      rfl
  | cons s rest =>
      simp only [Block.plain, Block.text, List.map_append, text_plainStmt s,
        text_plainBlock rest]

end

end Sites

end Compi.Cil
