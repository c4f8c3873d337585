import Compi.CounterFiles

/-!
# The control-flow graph of a file

The statements are numbered before their successors are printed, so a
successor is known by its id.  The branches of an `if` statement are named by
the first statements of its blocks, which are its successors in the graph.
-/

namespace Compi.Cil

/-- A statement as the graph lists it. -/
structure CfgNode where
  sid : Int
  succs : List Int
  is : List Instr

/--
What the traversal finds elsewhere: the statement with a label, the statements
whose labels have their addresses taken, and whether the type of a callee that
is no plain variable has the attribute `noreturn`.
-/
structure CfgContext where
  labelled : String → Option Int
  rlabels : List Int
  noreturn : Exp → Bool

section Successors

/-- `addSucc`. -/
def addSucc (succs : List Int) (n : Int) : List Int :=
  if n ∈ succs then succs else n :: succs

/-- `addOptionSucc`. -/
def addOptionSucc (succs : List Int) (n : Option Int) : List Int :=
  match n with
  | none => succs
  | some n => addSucc succs n

/-- The id of the first statement of a block. -/
def firstSid? : Block Instr → Option Int
  | .nil => none
  | .cons s _ => some s.sid

/-- `addBlockSucc`. -/
def addBlockSucc
    (succs : List Int)
    (b : Block Instr)
    (n : Option Int) : List Int :=
  match firstSid? b with
  | none => addOptionSucc succs n
  | some hd => addSucc succs hd

variable (ctx : CfgContext)

/-- `instrFallsThrough`. -/
def instrFallsThrough : Instr → Bool
  | .call _ callee _ =>
      match calledFunction? callee with
      | some vf => !vf.vattr.contains "noreturn"
      | none => !ctx.noreturn callee
  | _ => true

mutual

/--
`cfgStmt` on a numbered statement.  Without `Break` and `Continue` their
successors are not passed on.
-/
def Stmt.cfgStmt (next : Option Int) : Stmt Instr → List CfgNode
  | .instr sid _ is =>
      [{ sid := sid
         succs :=
           if is.all (instrFallsThrough ctx) then addOptionSucc [] next else []
         is := is }]
  | .ret sid _ _ => [{ sid := sid, succs := [], is := [] }]
  | .goto sid _ target =>
      [{ sid := sid, succs := addOptionSucc [] (ctx.labelled target), is := [] }]
  | .computedGoto sid _ _ =>
      [{ sid := sid, succs := ctx.rlabels.foldl addSucc [], is := [] }]
  | .ite sid _ _ thenBlock elseBlock =>
      { sid := sid
        succs := addBlockSucc (addBlockSucc [] elseBlock next) thenBlock next
        is := [] } ::
        (thenBlock.cfgStmts next ++ elseBlock.cfgStmts next)
  | .loop sid _ body =>
      { sid := sid, succs := addBlockSucc [] body (some sid), is := [] } ::
        body.cfgStmts (some sid)
  | .block sid _ body =>
      { sid := sid, succs := addBlockSucc [] body next, is := [] } ::
        body.cfgStmts next

/-- `cfgStmts` and `cfgBlock`. -/
def Block.cfgStmts (next : Option Int) : Block Instr → List CfgNode
  | .nil => []
  | .cons hd tl =>
      hd.cfgStmt ((firstSid? tl).or next) ++ tl.cfgStmts next

end

/-- `cfgFun`: the statements of a function in the order of their visits. -/
def cfgFun (f : Fundec Instr) : List CfgNode :=
  f.sbody.cfgStmts ctx none

mutual

/-- The statements of a statement are visited in the order of their ids. -/
theorem sids_cfgStmt
    (next : Option Int)
    (s : Stmt Instr) :
    (s.cfgStmt ctx next).map CfgNode.sid = s.sid :: s.inside := by
  cases s with
  | ite sid labels condition thenBlock elseBlock =>
      simp only [Stmt.cfgStmt, List.map_cons, List.map_append,
        sids_cfgStmts next thenBlock, sids_cfgStmts next elseBlock,
        Stmt.inside, Stmt.sid]
  | loop sid labels body =>
      simp only [Stmt.cfgStmt, List.map_cons, sids_cfgStmts (some sid) body,
        Stmt.inside, Stmt.sid]
  | block sid labels body =>
      simp only [Stmt.cfgStmt, List.map_cons, sids_cfgStmts next body,
        Stmt.inside, Stmt.sid]
  | _ =>
      rfl

/-- The statements of a block are visited in the order of their ids. -/
theorem sids_cfgStmts
    (next : Option Int)
    (b : Block Instr) :
    (b.cfgStmts ctx next).map CfgNode.sid = b.sids := by
  cases b with
  | nil =>
      rfl
  | cons hd tl =>
      simp only [Block.cfgStmts, List.map_append,
        sids_cfgStmt ((firstSid? tl).or next) hd, sids_cfgStmts next tl,
        Block.sids, List.cons_append]

end

/-- The graph of the functions of a file. -/
def cfgFile
    (ctx : Fundec Instr → CfgContext)
    (functions : List (Fundec Instr)) : List CfgNode :=
  functions.flatMap fun f => cfgFun (ctx f) f

theorem sids_cfgFile
    (ctx : Fundec Instr → CfgContext)
    (functions : List (Fundec Instr)) :
    (cfgFile ctx functions).map CfgNode.sid = fileSids functions := by
  rw [cfgFile, List.map_flatMap, fileSids]
  exact List.flatMap_congr fun f _ => sids_cfgStmts (ctx f) none f.sbody

end Successors

section Ifs

variable {Inst : Type}

/-- An `if` statement: its id and its blocks. -/
structure IfStmt (Inst : Type) where
  sid : Int
  thenBlock : Block Inst
  elseBlock : Block Inst

mutual

/-- The `if` statements of a statement in textual order. -/
def Stmt.ifs : Stmt Inst → List (IfStmt Inst)
  | .ite sid _ _ thenBlock elseBlock =>
      { sid := sid, thenBlock := thenBlock, elseBlock := elseBlock } ::
        (thenBlock.ifs ++ elseBlock.ifs)
  | .loop _ _ body => body.ifs
  | .block _ _ body => body.ifs
  | _ => []

/-- The `if` statements of a block in textual order. -/
def Block.ifs : Block Inst → List (IfStmt Inst)
  | .nil => []
  | .cons s rest => s.ifs ++ rest.ifs

end

namespace IfStmt

/-- The first statements of the blocks. -/
def heads (s : IfStmt Inst) : BranchId × BranchId :=
  (getFirstStmtId s.thenBlock, getFirstStmtId s.elseBlock)

/-- The blocks. -/
def blocks (s : IfStmt Inst) : Block Inst × Block Inst :=
  (s.thenBlock, s.elseBlock)

/-- What a visitor makes of the blocks. -/
def visitedBlocks
    (v : Visitor)
    (s : IfStmt Instr) : Block Instrumented × Block Instrumented :=
  (prependToBlock [v.atBranch s.heads.1 true] (v.visitBlock s.thenBlock),
    prependToBlock [v.atBranch s.heads.2 false] (v.visitBlock s.elseBlock))

/-- Both blocks have statements. -/
structure HasStmts (s : IfStmt Instr) : Prop where
  thenBlock : firstSid? s.thenBlock = some s.heads.1
  elseBlock : firstSid? s.elseBlock = some s.heads.2

end IfStmt

mutual

/-- The pairs of the visited `if` statements of a statement. -/
theorem stmtBranchPairs_eq (s : Stmt Instr) :
    CrestAll.stmtBranchPairs s = s.ifs.map IfStmt.heads := by
  cases s with
  | ite sid labels condition thenBlock elseBlock =>
      simp only [CrestAll.stmtBranchPairs, Stmt.ifs, List.map_cons,
        List.map_append, blockBranchPairs_eq thenBlock,
        blockBranchPairs_eq elseBlock, IfStmt.heads, List.cons_append]
  | loop sid labels body =>
      exact blockBranchPairs_eq body
  | block sid labels body =>
      exact blockBranchPairs_eq body
  | _ =>
      rfl

/-- The pairs of the visited `if` statements of a block. -/
theorem blockBranchPairs_eq (b : Block Instr) :
    CrestAll.blockBranchPairs b = b.ifs.map IfStmt.heads := by
  cases b with
  | nil =>
      rfl
  | cons s rest =>
      simp only [CrestAll.blockBranchPairs, Block.ifs, List.map_append,
        stmtBranchPairs_eq s, blockBranchPairs_eq rest]

end

section Visited

variable (v : Visitor)

theorem blocks_withQueue
    {queue : List RuntimeCall}
    {sid : Int}
    {labels : List String}
    {make : Int → List String → Stmt Instrumented}
    {blocks : List (Block Instrumented × Block Instrumented)}
    (shape :
      ∀ sid labels, (make sid labels).ifs.map IfStmt.blocks = blocks) :
    (withQueue queue sid labels make).ifs.map IfStmt.blocks = blocks := by
  cases queue with
  | nil =>
      exact shape sid labels
  | cons call rest =>
      rw [← shape (-1) [], withQueue]
      simp only [prependToBlock, Stmt.ifs, Block.ifs, List.nil_append,
        List.append_nil]

mutual

/-- A visitor keeps the `if` statements of a statement. -/
theorem blocks_visitStmt (s : Stmt Instr) :
    (v.visitStmt s).ifs.map IfStmt.blocks =
      s.ifs.map (IfStmt.visitedBlocks v) := by
  cases s with
  | ite sid labels condition thenBlock elseBlock =>
      unfold Visitor.visitStmt
      refine blocks_withQueue fun sid labels => ?_
      have inThen :
          (prependToBlock [v.atBranch (getFirstStmtId thenBlock) true]
            (v.visitBlock thenBlock)).ifs.map IfStmt.blocks =
            thenBlock.ifs.map (IfStmt.visitedBlocks v) :=
        blocks_visitBlock thenBlock
      have inElse :
          (prependToBlock [v.atBranch (getFirstStmtId elseBlock) false]
            (v.visitBlock elseBlock)).ifs.map IfStmt.blocks =
            elseBlock.ifs.map (IfStmt.visitedBlocks v) :=
        blocks_visitBlock elseBlock
      simp only [Stmt.ifs, List.map_cons, List.map_append, inThen, inElse]
      rfl
  | loop sid labels body =>
      exact blocks_visitBlock body
  | block sid labels body =>
      exact blocks_visitBlock body
  | ret sid labels value =>
      unfold Visitor.visitStmt
      exact blocks_withQueue fun sid labels => rfl
  | _ =>
      rfl

/-- A visitor keeps the `if` statements of a block. -/
theorem blocks_visitBlock (b : Block Instr) :
    (v.visitBlock b).ifs.map IfStmt.blocks =
      b.ifs.map (IfStmt.visitedBlocks v) := by
  cases b with
  | nil =>
      rfl
  | cons s rest =>
      simp only [Visitor.visitBlock, Block.ifs, List.map_append,
        blocks_visitStmt s, blocks_visitBlock rest]

end

end Visited

section Normalized

variable {s : IfStmt Instr}

theorem firstSid?_number_nonempty
    (startId : Int)
    (b : Block Instr) :
    firstSid? ((nonempty b).number startId).2 =
      some (getFirstStmtId ((nonempty b).number startId).2) := by
  cases b with
  | nil =>
      rfl
  | cons s rest =>
      rfl

/-- The empty statement that fills a block is no `if` statement. -/
theorem mem_ifs_of_nonempty
    {startId : Int}
    {b : Block Instr}
    (member : s ∈ ((nonempty b).number startId).2.ifs) :
    s ∈ (b.number startId).2.ifs := by
  cases b with
  | nil =>
      exact member
  | cons first rest =>
      exact member

mutual

/-- After normalization the blocks of an `if` statement are not empty. -/
theorem hasStmts_stmt
    (startId : Int)
    (stmt : Stmt Instr)
    (member : s ∈ (stmt.normalize.number startId).2.ifs) :
    s.HasStmts := by
  cases stmt with
  | ite sid labels condition thenBlock elseBlock =>
      simp only [Stmt.normalize, Stmt.number, Stmt.ifs, List.mem_cons,
        List.mem_append] at member
      rcases member with rfl | inThen | inElse
      · exact
          ⟨firstSid?_number_nonempty _ _, firstSid?_number_nonempty _ _⟩
      · exact hasStmts_block _ thenBlock (mem_ifs_of_nonempty inThen)
      · exact hasStmts_block _ elseBlock (mem_ifs_of_nonempty inElse)
  | loop sid labels body =>
      exact hasStmts_block (startId + 1) body member
  | block sid labels body =>
      exact hasStmts_block (startId + 1) body member
  | _ =>
      cases member

/-- The same in a block. -/
theorem hasStmts_block
    (startId : Int)
    (b : Block Instr)
    (member : s ∈ (b.normalize.number startId).2.ifs) :
    s.HasStmts := by
  cases b with
  | nil =>
      cases member
  | cons first rest =>
      rcases List.mem_append.mp member with inFirst | inRest
      · exact hasStmts_stmt startId first inFirst
      · exact hasStmts_block _ rest inRest

end

end Normalized

end Ifs

end Compi.Cil
