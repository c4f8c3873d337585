/-!
# The syntax of programs under instrumentation

The part of the intermediate language that the instrumentation sees, after
switches, breaks and continues have been turned into gotos.  Statements carry
their instructions as a parameter, so that a program before and after
instrumentation has the same shape.

Array lengths, type attributes and source locations are left out.
-/

namespace Compi.Cil

/-- `ikind`. -/
inductive Ikind where
  | bool
  | char
  | schar
  | uchar
  | short
  | ushort
  | int
  | uint
  | long
  | ulong
  | longLong
  | ulongLong
  deriving DecidableEq

/-- `typ`; a named type carries the type it stands for. -/
inductive Typ where
  | void
  | int (kind : Ikind)
  | float
  | ptr (target : Typ)
  | array (element : Typ)
  | fn (result : Typ) (isVarArgs : Bool)
  | named (name : String) (actual : Typ)
  | comp (name : String)
  | enum (name : String)
  | builtinVaList
  deriving DecidableEq

namespace Typ

/-- `unrollType`. -/
def unrollType : Typ → Typ
  | .named _ actual => actual.unrollType
  | type => type

/-- `isIntegralType`. -/
def isIntegralType (type : Typ) : Bool :=
  match type.unrollType with
  | .int _ | .enum _ => true
  | _ => false

/-- `isPointerType`. -/
def isPointerType (type : Typ) : Bool :=
  match type.unrollType with
  | .ptr _ => true
  | _ => false

/-- `isArrayType`. -/
def isArrayType (type : Typ) : Bool :=
  match type.unrollType with
  | .array _ => true
  | _ => false

/-- `isFunctionType`. -/
def isFunctionType (type : Typ) : Bool :=
  match type.unrollType with
  | .fn _ _ => true
  | _ => false

/-- The third component of `splitFunctionType`. -/
def isVarArgs (type : Typ) : Bool :=
  match type.unrollType with
  | .fn _ isVarArgs => isVarArgs
  | _ => false

end Typ

/-- `fieldinfo`. -/
structure Fieldinfo where
  fname : String
  ftype : Typ
  fbitfield : Option Nat
  deriving DecidableEq

/-- `varinfo`, with the names of its attributes. -/
structure Varinfo where
  vname : String
  vtype : Typ
  vglob : Bool
  vattr : List String
  deriving DecidableEq

/-- `constant`, without enumeration constants. -/
inductive Constant where
  | int64 (value : Int) (kind : Ikind)
  | str (value : String)
  | wstr (value : List Int)
  | chr (value : Char)
  | real (text : String)
  deriving DecidableEq

/-- `unop`. -/
inductive Unop where
  | neg
  | bNot
  | lNot
  deriving DecidableEq

/-- `binop`. -/
inductive Binop where
  | plusA
  | plusPI
  | indexPI
  | minusA
  | minusPI
  | minusPP
  | mult
  | div
  | mod
  | shiftlt
  | shiftrt
  | lt
  | gt
  | le
  | ge
  | eq
  | ne
  | bAnd
  | bXor
  | bOr
  | lAnd
  | lOr
  deriving DecidableEq

mutual

/-- `exp`. -/
inductive Exp where
  | const (c : Constant)
  | enumConst (tag : Exp) (name : String)
  | lval (lv : Lval)
  | sizeOf (type : Typ)
  | sizeOfE (e : Exp)
  | sizeOfStr (text : String)
  | alignOf (type : Typ)
  | alignOfE (e : Exp)
  | unOp (op : Unop) (e : Exp) (type : Typ)
  | binOp (op : Binop) (left right : Exp) (type : Typ)
  | question (test left right : Exp) (type : Typ)
  | castE (type : Typ) (e : Exp)
  | addrOf (lv : Lval)
  | addrOfLabel (label : String)
  | startOf (lv : Lval)
  deriving DecidableEq

/-- `lval`: a host, which is a variable or a memory cell, and an offset. -/
inductive Lval where
  | var (v : Varinfo) (off : Offset)
  | mem (addr : Exp) (off : Offset)
  deriving DecidableEq

/-- `offset`. -/
inductive Offset where
  | noOffset
  | field (fi : Fieldinfo) (off : Offset)
  | index (e : Exp) (off : Offset)
  deriving DecidableEq

end

/-- `instr`. -/
inductive Instr where
  | set (lv : Lval) (e : Exp)
  | call (ret : Option Lval) (callee : Exp) (args : List Exp)
  | asm (template : String)
  deriving DecidableEq

mutual

/-- `stmt`, with its `sid` and labels. -/
inductive Stmt (Inst : Type) where
  | instr (sid : Int) (labels : List String) (is : List Inst)
  | ret (sid : Int) (labels : List String) (value : Option Exp)
  | goto (sid : Int) (labels : List String) (target : String)
  | computedGoto (sid : Int) (labels : List String) (target : Exp)
  | ite
      (sid : Int)
      (labels : List String)
      (condition : Exp)
      (thenBlock elseBlock : Block Inst)
  | loop (sid : Int) (labels : List String) (body : Block Inst)
  | block (sid : Int) (labels : List String) (body : Block Inst)

/-- `block`. -/
inductive Block (Inst : Type) where
  | nil
  | cons (s : Stmt Inst) (rest : Block Inst)

end

/-- `fundec`. -/
structure Fundec (Inst : Type) where
  svar : Varinfo
  sformals : List Varinfo
  sbody : Block Inst

section Types

/-- `typeOffset`; there is no type where it reports a bug. -/
def typeOffset : Typ → Offset → Option Typ
  | base, .noOffset => some base
  | base, .index _ off =>
      match base.unrollType with
      | .array element => typeOffset element off
      | _ => none
  | base, .field fi off =>
      match base.unrollType with
      | .comp _ => typeOffset fi.ftype off
      | _ => none

/-- The type of a constant. -/
def Constant.type : Constant → Typ
  | .int64 _ kind => .int kind
  | .str _ => .ptr (.int .char)
  | .wstr _ => .ptr (.int .int)
  | .chr _ => .int .int
  | .real _ => .float

mutual

/-- `typeOf`; there is no type where it reports a bug. -/
def typeOf : Exp → Option Typ
  | .const c => some c.type
  | .enumConst tag _ => typeOf tag
  | .lval lv => typeOfLval lv
  | .sizeOf _ | .sizeOfE _ | .sizeOfStr _ => some (.int .uint)
  | .alignOf _ | .alignOfE _ => some (.int .uint)
  | .unOp _ _ type => some type
  | .binOp _ _ _ type => some type
  | .question _ _ _ type => some type
  | .castE type _ => some type
  | .addrOf lv => (typeOfLval lv).map .ptr
  | .addrOfLabel _ => some (.ptr .void)
  | .startOf lv =>
      match (typeOfLval lv).map Typ.unrollType with
      | some (.array element) => some (.ptr element)
      | _ => none

/-- `typeOfLval`. -/
def typeOfLval : Lval → Option Typ
  | .var v off => typeOffset v.vtype off
  | .mem addr off =>
      match (typeOf addr).map Typ.unrollType with
      | some (.ptr target) => typeOffset target off
      | _ => none

end

mutual

/-- `isConstant`. -/
def isConstant : Exp → Bool
  | .const _ => true
  | .enumConst _ _ => true
  | .unOp _ e _ => isConstant e
  | .binOp _ left right _ => isConstant left && isConstant right
  | .question test left right _ =>
      isConstant test && isConstant left && isConstant right
  | .lval (.var v .noOffset) =>
      v.vglob && v.vtype.isArrayType || v.vtype.isFunctionType
  | .lval _ => false
  | .sizeOf _ | .sizeOfE _ | .sizeOfStr _ | .alignOf _ | .alignOfE _ => true
  | .castE _ e => isConstant e
  | .addrOf (.var v off) | .startOf (.var v off) =>
      v.vglob && isConstantOffset off
  | .addrOf (.mem e off) | .startOf (.mem e off) =>
      isConstant e && isConstantOffset off
  | .addrOfLabel _ => true

/-- `isConstantOffset`. -/
def isConstantOffset : Offset → Bool
  | .noOffset => true
  | .field _ off => isConstantOffset off
  | .index e off => isConstant e && isConstantOffset off

end

/-- `mkAddrOf`. -/
def mkAddrOf : Lval → Exp
  | .mem e .noOffset => e
  | lv => .addrOf lv

/-- `mkAddrOrStartOf`. -/
def mkAddrOrStartOf (lv : Lval) : Exp :=
  match typeOfLval lv with
  | some type => if type.isArrayType then .startOf lv else mkAddrOf lv
  | none => mkAddrOf lv

end Types

section Text

/-- The keywords, labels and instructions of a program in textual order. -/
inductive Token (Inst : Type) where
  | label (name : String)
  | instr (i : Inst)
  | ret (value : Option Exp)
  | goto (target : String)
  | computedGoto (target : Exp)
  | ite (condition : Exp)
  | otherwise
  | endIf
  | loop
  | endLoop
  deriving DecidableEq

variable {Inst : Type}

mutual

/-- The text of a statement; the braces of a block are not part of it. -/
def Stmt.text : Stmt Inst → List (Token Inst)
  | .instr _ labels is => labels.map .label ++ is.map .instr
  | .ret _ labels value => labels.map .label ++ [.ret value]
  | .goto _ labels target => labels.map .label ++ [.goto target]
  | .computedGoto _ labels target =>
      labels.map .label ++ [.computedGoto target]
  | .ite _ labels condition thenBlock elseBlock =>
      labels.map .label ++ .ite condition :: thenBlock.text ++
        .otherwise :: elseBlock.text ++ [.endIf]
  | .loop _ labels body =>
      labels.map .label ++ .loop :: body.text ++ [.endLoop]
  | .block _ labels body => labels.map .label ++ body.text

/-- The text of a block. -/
def Block.text : Block Inst → List (Token Inst)
  | .nil => []
  | .cons s rest => s.text ++ rest.text

end

/-- The instructions of a block in textual order. -/
def Block.instrs (b : Block Inst) : List Inst :=
  b.text.filterMap fun
    | .instr i => some i
    | _ => none

@[simp] theorem Block.mem_instrs {b : Block Inst} {i : Inst} :
    i ∈ b.instrs ↔ .instr i ∈ b.text := by
  unfold Block.instrs
  rw [List.mem_filterMap]
  constructor
  · rintro ⟨token, member, isInstr⟩
    cases token with
    | instr j =>
        obtain rfl := Option.some.inj isInstr
        exact member
    | _ =>
        cases isInstr
  · intro member
    exact ⟨.instr i, member, rfl⟩

end Text

end Compi.Cil
