import Mathlib.Data.List.Forall2
import Compi.Instrumentation

/-!
# Prepared programs

Both instrumenters prepare a file in the same way: conditions become
predicates, their blocks are made nonempty, and the statements of all
functions are numbered in the order of the control-flow graph pass.
-/

namespace Compi.Cil

/-- `isCompareOp`. -/
def isCompareOp : Binop → Bool
  | .eq | .ne | .lt | .gt | .le | .ge => true
  | _ => false

/-- `negateCompareOp`, which is only asked for comparisons. -/
def negateCompareOp : Binop → Binop
  | .eq => .ne
  | .ne => .eq
  | .lt => .ge
  | .ge => .lt
  | .le => .gt
  | .gt => .le
  | op => op

/-- `mkPredicate`. -/
def mkPredicate : Exp → Bool → Exp
  | .unOp .lNot e _, negated => mkPredicate e !negated
  | .binOp op e₁ e₂ type, negated =>
      if isCompareOp op then
        if negated then .binOp (negateCompareOp op) e₁ e₂ type
        else .binOp op e₁ e₂ type
      else
        .binOp (if negated then .eq else .ne) (.binOp op e₁ e₂ type)
          (.const (.int64 0 .int)) (.int .int)
  | e, negated =>
      .binOp (if negated then .eq else .ne) e (.const (.int64 0 .int))
        (.int .int)

/-- A block of a condition, with an empty statement if it is empty. -/
def nonempty (b : Block Instr) : Block Instr :=
  match b with
  | .nil => .cons (.instr (-1) [] []) .nil
  | b => b

mutual

/-- `normalizeConditionalsVisitor` on a statement. -/
def Stmt.normalize : Stmt Instr → Stmt Instr
  | .ite sid labels condition thenBlock elseBlock =>
      .ite sid labels (mkPredicate condition false)
        (nonempty thenBlock.normalize) (nonempty elseBlock.normalize)
  | .loop sid labels body => .loop sid labels body.normalize
  | .block sid labels body => .block sid labels body.normalize
  | s => s

/-- `normalizeConditionalsVisitor` on a block. -/
def Block.normalize : Block Instr → Block Instr
  | .nil => .nil
  | .cons s rest => .cons s.normalize rest.normalize

end

mutual

/-- `cfgStmt`: number a statement and then the statements inside. -/
def Stmt.number (startId : Int) : Stmt Instr → Int × Stmt Instr
  | .instr _ labels is => (startId + 1, .instr (startId + 1) labels is)
  | .ret _ labels value => (startId + 1, .ret (startId + 1) labels value)
  | .goto _ labels target => (startId + 1, .goto (startId + 1) labels target)
  | .computedGoto _ labels target =>
      (startId + 1, .computedGoto (startId + 1) labels target)
  | .ite _ labels condition thenBlock elseBlock =>
      let first := thenBlock.number (startId + 1)
      let second := elseBlock.number first.1
      (second.1, .ite (startId + 1) labels condition first.2 second.2)
  | .loop _ labels body =>
      let inner := body.number (startId + 1)
      (inner.1, .loop (startId + 1) labels inner.2)
  | .block _ labels body =>
      let inner := body.number (startId + 1)
      (inner.1, .block (startId + 1) labels inner.2)

/-- `cfgBlock`. -/
def Block.number (startId : Int) : Block Instr → Int × Block Instr
  | .nil => (startId, .nil)
  | .cons s rest =>
      let first := s.number startId
      let later := rest.number first.1
      (later.1, .cons first.2 later.2)

end

/-- `computeFileCFG` after normalizing the conditions of each function. -/
def prepareFile (startId : Int) : List (Fundec Instr) → List (Fundec Instr)
  | [] => []
  | f :: rest =>
      let numbered := f.sbody.normalize.number startId
      { f with sbody := numbered.2 } :: prepareFile numbered.1 rest

section Preservation

/-- A token up to the condition of an `if`. -/
def Token.skeleton : Token Instr → Token Instr
  | .ite _ => .ite noAddr
  | token => token

mutual

/-- Numbering leaves the text of a statement alone. -/
@[simp] theorem text_numberStmt
    (startId : Int)
    (s : Stmt Instr) :
    (s.number startId).2.text = s.text := by
  cases s with
  | ite sid labels condition thenBlock elseBlock =>
      simp only [Stmt.number, Stmt.text,
        text_numberBlock (startId + 1) thenBlock,
        text_numberBlock _ elseBlock]
  | loop sid labels body =>
      simp only [Stmt.number, Stmt.text, text_numberBlock (startId + 1) body]
  | block sid labels body =>
      simp only [Stmt.number, Stmt.text, text_numberBlock (startId + 1) body]
  | _ =>
      rfl

/-- Numbering leaves the text of a block alone. -/
@[simp] theorem text_numberBlock
    (startId : Int)
    (b : Block Instr) :
    (b.number startId).2.text = b.text := by
  cases b with
  | nil =>
      rfl
  | cons s rest =>
      simp only [Block.number, Block.text, text_numberStmt startId s,
        text_numberBlock _ rest]

end

@[simp] theorem text_nonempty (b : Block Instr) :
    (nonempty b).text = b.text := by
  cases b with
  | nil =>
      rfl
  | cons s rest =>
      rfl

mutual

/-- Normalizing changes the conditions of a statement only. -/
theorem skeleton_normalizeStmt (s : Stmt Instr) :
    s.normalize.text.map Token.skeleton = s.text.map Token.skeleton := by
  cases s with
  | ite sid labels condition thenBlock elseBlock =>
      simp [Stmt.normalize, Stmt.text, Token.skeleton,
        skeleton_normalizeBlock thenBlock, skeleton_normalizeBlock elseBlock]
  | loop sid labels body =>
      simp [Stmt.normalize, Stmt.text, skeleton_normalizeBlock body]
  | block sid labels body =>
      simp [Stmt.normalize, Stmt.text, skeleton_normalizeBlock body]
  | _ =>
      rfl

/-- Normalizing changes the conditions of a block only. -/
theorem skeleton_normalizeBlock (b : Block Instr) :
    b.normalize.text.map Token.skeleton = b.text.map Token.skeleton := by
  cases b with
  | nil =>
      rfl
  | cons s rest =>
      simp only [Block.normalize, Block.text, List.map_append,
        skeleton_normalizeStmt s, skeleton_normalizeBlock rest]

end

/-- The same function up to the conditions of its `if` statements. -/
structure SameSkeleton (f g : Fundec Instr) : Prop where
  svar : g.svar = f.svar
  sformals : g.sformals = f.sformals
  text :
    g.sbody.text.map Token.skeleton = f.sbody.text.map Token.skeleton

/-- Preparing a file keeps the skeletons of its functions. -/
theorem sameSkeleton_prepareFile
    (startId : Int)
    (file : List (Fundec Instr)) :
    List.Forall₂ SameSkeleton file (prepareFile startId file) := by
  induction file generalizing startId with
  | nil =>
      exact List.Forall₂.nil
  | cons f rest inductionHypothesis =>
      apply List.Forall₂.cons
      · refine ⟨rfl, rfl, ?_⟩
        simp only [text_numberBlock]
        exact skeleton_normalizeBlock f.sbody
      · exact inductionHypothesis _

variable {f g : Fundec Instr}

/-- The same instructions. -/
theorem SameSkeleton.mem_instrs
    (same : SameSkeleton f g)
    {i : Instr} :
    i ∈ g.sbody.instrs ↔ i ∈ f.sbody.instrs := by
  have inSkeleton (b : Block Instr) :
      i ∈ b.instrs ↔ .instr i ∈ b.text.map Token.skeleton := by
    rw [Block.mem_instrs, List.mem_map]
    constructor
    · intro member
      exact ⟨_, member, rfl⟩
    · rintro ⟨token, member, isInstr⟩
      cases token with
      | instr j =>
          obtain rfl := Token.instr.inj isInstr
          exact member
      | _ =>
          cases isInstr
  rw [inSkeleton, inSkeleton, same.text]

/-- Whether a text has an `if` statement. -/
def HasIf (text : List (Token Instr)) : Prop :=
  ∃ condition, .ite condition ∈ text

/-- The same `if` statements, up to their conditions. -/
theorem SameSkeleton.hasIf_iff (same : SameSkeleton f g) :
    HasIf g.sbody.text ↔ HasIf f.sbody.text := by
  have inSkeleton (text : List (Token Instr)) :
      HasIf text ↔ .ite noAddr ∈ text.map Token.skeleton := by
    rw [List.mem_map]
    constructor
    · rintro ⟨condition, member⟩
      exact ⟨_, member, rfl⟩
    · rintro ⟨token, member, isIf⟩
      cases token with
      | ite condition =>
          exact ⟨condition, member⟩
      | _ =>
          cases isIf
  rw [inSkeleton, inSkeleton, same.text]

end Preservation

end Compi.Cil
