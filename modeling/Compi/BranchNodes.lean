import Compi.ControlFlowGraph

/-!
# Branches as nodes of the graph

The heavy instrumenter gives every `if` statement the pair of the statements
that the graph lists as its successors, and reports them first in its blocks.
-/

namespace Compi.Cil

open BranchTables

section Graph

variable {ctx : CfgContext} {s : IfStmt Instr}

/-- What the traversal lists for an `if` statement before another one. -/
def IfStmt.node (next : Option Int) (s : IfStmt Instr) : CfgNode where
  sid := s.sid
  succs := addBlockSucc (addBlockSucc [] s.elseBlock next) s.thenBlock next
  is := []

theorem IfStmt.succs_node
    (hasStmts : s.HasStmts)
    (different : s.heads.1 ≠ s.heads.2)
    (next : Option Int) :
    (s.node next).succs = [s.heads.1, s.heads.2] := by
  simp only [node, addBlockSucc, hasStmts.thenBlock, hasStmts.elseBlock]
  simp [addSucc, different]

mutual

/-- The graph lists the `if` statements of a statement. -/
theorem exists_node_stmt
    (next : Option Int)
    (stmt : Stmt Instr)
    (member : s ∈ stmt.ifs) :
    ∃ next', s.node next' ∈ stmt.cfgStmt ctx next := by
  cases stmt with
  | ite sid labels condition thenBlock elseBlock =>
      simp only [Stmt.ifs, List.mem_cons, List.mem_append] at member
      simp only [Stmt.cfgStmt, List.mem_cons, List.mem_append]
      rcases member with rfl | inThen | inElse
      · exact ⟨next, .inl rfl⟩
      · obtain ⟨next', isNode⟩ := exists_node_block next thenBlock inThen
        exact ⟨next', .inr (.inl isNode)⟩
      · obtain ⟨next', isNode⟩ := exists_node_block next elseBlock inElse
        exact ⟨next', .inr (.inr isNode)⟩
  | loop sid labels body =>
      obtain ⟨next', isNode⟩ := exists_node_block (some sid) body member
      exact ⟨next', List.mem_cons_of_mem _ isNode⟩
  | block sid labels body =>
      obtain ⟨next', isNode⟩ := exists_node_block next body member
      exact ⟨next', List.mem_cons_of_mem _ isNode⟩
  | _ =>
      cases member

/-- The graph lists the `if` statements of a block. -/
theorem exists_node_block
    (next : Option Int)
    (b : Block Instr)
    (member : s ∈ b.ifs) :
    ∃ next', s.node next' ∈ b.cfgStmts ctx next := by
  cases b with
  | nil =>
      cases member
  | cons hd tl =>
      rcases List.mem_append.mp member with inFirst | inRest
      · obtain ⟨next', isNode⟩ := exists_node_stmt _ hd inFirst
        exact ⟨next', List.mem_append_left _ isNode⟩
      · obtain ⟨next', isNode⟩ := exists_node_block next tl inRest
        exact ⟨next', List.mem_append_right _ isNode⟩

end

/-- Where all ids differ, an id has one node. -/
theorem filter_sid_eq
    {nodes : List CfgNode}
    (distinct : (nodes.map CfgNode.sid).Nodup)
    {node : CfgNode}
    (member : node ∈ nodes) :
    nodes.filter (fun other => decide (other.sid = node.sid)) = [node] := by
  induction nodes with
  | nil =>
      cases member
  | cons first rest inductionHypothesis =>
      obtain ⟨fresh, distinctRest⟩ := List.nodup_cons.mp distinct
      rcases List.mem_cons.mp member with rfl | inRest
      · rw [List.filter_cons_of_pos (by simp)]
        refine congrArg _ (List.filter_eq_nil_iff.mpr ?_)
        intro other isOther same
        refine fresh ?_
        rw [← of_decide_eq_true same]
        exact List.mem_map_of_mem isOther
      · rw [List.filter_cons_of_neg, inductionHypothesis distinctRest inRest]
        intro same
        refine fresh ?_
        rw [of_decide_eq_true same]
        exact List.mem_map_of_mem inRest

end Graph

section Agreement

/-- The instruction that a block starts with. -/
def firstInstr? : Block Instrumented → Option Instrumented
  | .cons (.instr _ _ (i :: _)) _ => some i
  | _ => none

/-- An `if` statement with its pair of branches and its instrumented blocks. -/
structure IfVisit where
  sid : Int
  pair : BranchId × BranchId
  blocks : Block Instrumented × Block Instrumented

namespace IfVisit

/-- The pair is the one of the graph, and the blocks report it. -/
structure Agrees (visit : IfVisit) (nodes : List CfgNode) : Prop where
  positive : 0 < visit.pair.1 ∧ 0 < visit.pair.2
  different : visit.pair.1 ≠ visit.pair.2
  listed :
    (nodes.filter fun node => decide (node.sid = visit.sid)).map
        CfgNode.succs =
      [[visit.pair.1, visit.pair.2]]
  thenBlock :
    firstInstr? visit.blocks.1 =
      some (.runtime (.branch visit.pair.1 true))
  elseBlock :
    firstInstr? visit.blocks.2 =
      some (.runtime (.branch visit.pair.2 false))

/-- The visit of an `if` statement by the heavy instrumenter. -/
def ofIf (s : IfStmt Instr) : IfVisit where
  sid := s.sid
  pair := s.heads
  blocks := s.visitedBlocks CrestAll.visitor

end IfVisit

/--
The `if` statements of a function, the pairs that are added for them and
their instrumented blocks are visits that agree with the graph.
-/
def BranchesAreNodes
    (nodes : List CfgNode)
    (f : Fundec Instr)
    (g : Fundec Instrumented) : Prop :=
  ∃ visits : List IfVisit,
    visits.map IfVisit.sid = f.sbody.ifs.map IfStmt.sid ∧
      visits.map IfVisit.pair = CrestAll.blockBranchPairs f.sbody ∧
      visits.map IfVisit.blocks = g.sbody.ifs.map IfStmt.blocks ∧
      ∀ visit ∈ visits, visit.Agrees nodes

theorem blocks_prependToBlock
    (calls : List RuntimeCall)
    (b : Block Instrumented) :
    (prependToBlock calls b).ifs = b.ifs :=
  rfl

/-- The instrumented blocks of a function that is not skipped. -/
theorem blocks_vfunc
    {f : Fundec Instr}
    (notSkipped : shouldSkipFunction f.svar = false)
    (seen : CrestAll.Seen) :
    (CrestAll.vfunc seen f).2.sbody.ifs.map IfStmt.blocks =
      f.sbody.ifs.map (IfStmt.visitedBlocks CrestAll.visitor) := by
  simp only [CrestAll.vfunc, notSkipped, Bool.false_eq_true, if_false,
    blocks_prependToBlock]
  split
  · exact blocks_visitBlock CrestAll.visitor f.sbody
  · exact blocks_visitBlock CrestAll.visitor f.sbody

/-- What is true of each function and its visit is true of a file. -/
theorem forall₂_visitFile
    {relation : Fundec Instr → Fundec Instrumented → Prop}
    {functions : List (Fundec Instr)}
    (each :
      ∀ f ∈ functions, ∀ seen, relation f (CrestAll.vfunc seen f).2)
    (seen : CrestAll.Seen) :
    List.Forall₂ relation functions (CrestAll.visitFile seen functions).2 := by
  induction functions generalizing seen with
  | nil =>
      exact List.Forall₂.nil
  | cons f rest inductionHypothesis =>
      obtain ⟨here, later⟩ := List.forall_mem_cons.mp each
      exact List.Forall₂.cons (here seen) (inductionHypothesis later _)

/-- Every function of a prepared file has been normalized and numbered. -/
theorem exists_of_mem_prepareFile
    {startId : Int}
    {source : List (Fundec Instr)}
    {f : Fundec Instr}
    (member : f ∈ prepareFile startId source) :
    ∃ start body, f.sbody = (Block.normalize body |>.number start).2 := by
  induction source generalizing startId with
  | nil =>
      cases member
  | cons first rest inductionHypothesis =>
      rcases List.mem_cons.mp member with rfl | inRest
      · exact ⟨startId, first.sbody, rfl⟩
      · exact inductionHypothesis inRest

variable
  {ctx : Fundec Instr → CfgContext}
  {functions : List (Fundec Instr)}
  {f : Fundec Instr}

theorem mem_fileSids
    (member : f ∈ functions)
    {sid : Int}
    (isSid : sid ∈ f.sbody.sids) :
    sid ∈ fileSids functions :=
  List.mem_flatMap.mpr ⟨f, member, isSid⟩

/-- The branches of a function are named by different statements of it. -/
theorem heads_subperm
    (prepared :
      ∃ start body, f.sbody = (Block.normalize body |>.number start).2) :
    (idsOf (f.sbody.ifs.map IfStmt.heads)).Subperm f.sbody.sids := by
  obtain ⟨start, body, isPrepared⟩ := prepared
  rw [isPrepared, ← blockBranchPairs_eq]
  exact (blockBranchPairs_subperm start body).trans
    (List.tail_sublist _).subperm

/-- The visit of an `if` statement of a file agrees with its graph. -/
theorem agrees_ofIf
    (positive : ∀ sid ∈ fileSids functions, 0 < sid)
    (distinct : (fileSids functions).Nodup)
    (member : f ∈ functions)
    (prepared :
      ∃ start body, f.sbody = (Block.normalize body |>.number start).2)
    {s : IfStmt Instr}
    (isIf : s ∈ f.sbody.ifs) :
    (IfVisit.ofIf s).Agrees (cfgFile ctx functions) := by
  have subperm := heads_subperm prepared
  have isPair : s.heads ∈ f.sbody.ifs.map IfStmt.heads :=
    List.mem_map_of_mem isIf
  have isSid
      (bid : BranchId)
      (named : bid ∈ idsOf (f.sbody.ifs.map IfStmt.heads)) :
      bid ∈ fileSids functions :=
    mem_fileSids member (subperm.subset named)
  have different : s.heads.1 ≠ s.heads.2 := by
    have distinctSids : f.sbody.sids.Nodup :=
      (List.nodup_flatMap.mp distinct).1 f member
    obtain ⟨ids, isPerm, isSublist⟩ := subperm
    have distinctIds := isPerm.nodup_iff.mp (distinctSids.sublist isSublist)
    exact fst_ne_snd_of_nodup distinctIds isPair
  have hasStmts : s.HasStmts := by
    obtain ⟨start, body, isPrepared⟩ := prepared
    rw [isPrepared] at isIf
    exact hasStmts_block start body isIf
  constructor
  · exact
      ⟨positive _ (isSid _ (fst_mem_idsOf isPair)),
        positive _ (isSid _ (snd_mem_idsOf isPair))⟩
  · exact different
  · obtain ⟨next, isNode⟩ :
        ∃ next, s.node next ∈ f.sbody.cfgStmts (ctx f) none :=
      exists_node_block none f.sbody isIf
    have inGraph : s.node next ∈ cfgFile ctx functions :=
      List.mem_flatMap.mpr ⟨f, member, isNode⟩
    rw [← sids_cfgFile ctx functions] at distinct
    have alone := filter_sid_eq distinct inGraph
    rw [show (IfVisit.ofIf s).sid = (s.node next).sid from rfl, alone,
      List.map_singleton, s.succs_node hasStmts different next]
    rfl
  · rfl
  · rfl

/-- An output is the one of a file from some counters. -/
theorem exists_of_mem_instrumentAll
    {doit : CounterFiles → List (Fundec Instr) → CounterFiles × Output}
    {files : CounterFiles}
    {sources : List (List (Fundec Instr))}
    {output : Output}
    (member : output ∈ instrumentAll doit files sources) :
    ∃ current source, output = (doit current source).2 := by
  induction sources generalizing files with
  | nil =>
      cases member
  | cons source rest inductionHypothesis =>
      rcases List.mem_cons.mp member with rfl | inRest
      · exact ⟨files, source, rfl⟩
      · exact inductionHypothesis inRest

/-- The branches of prepared files are named by different statements. -/
theorem flatMap_branchPairs_subperm
    {outputs : List Output}
    (prepared :
      ∀ output ∈ outputs,
        ∃ startId source, output.prepared = prepareFile startId source) :
    (idsOf (outputs.flatMap Output.branchPairs)).Subperm
      (outputs.flatMap Output.sids) := by
  induction outputs with
  | nil =>
      exact List.Subperm.refl _
  | cons output rest inductionHypothesis =>
      obtain ⟨here, later⟩ := List.forall_mem_cons.mp prepared
      obtain ⟨startId, source, isPrepared⟩ := here
      rw [List.flatMap_cons, List.flatMap_cons, idsOf_append]
      refine List.Subperm.append ?_ (inductionHypothesis later)
      rw [Output.branchPairs, Output.sids, isPrepared]
      exact branchPairs_subperm startId source

/-- The branches of all files are named by the statements in a row. -/
theorem branchPairs_instrumentAll_subperm
    (sources : List (List (Fundec Instr))) :
    (idsOf
        ((instrumentAll CrestAll.doit noCounterFiles sources).flatMap
          Output.branchPairs)).Subperm
      (consecutive 0 (sources.map statementCount).sum) := by
  have prepared :
      ∀ output ∈ instrumentAll CrestAll.doit noCounterFiles sources,
        ∃ startId source, output.prepared = prepareFile startId source := by
    intro output member
    obtain ⟨current, source, rfl⟩ := exists_of_mem_instrumentAll member
    exact ⟨_, source, rfl⟩
  have ids := sids_heavy noCounterFiles sources
  have subperm := flatMap_branchPairs_subperm prepared
  rw [ids] at subperm
  exact subperm

/--
However files are instrumented one after the other, no branch is named twice,
and the branches of every function that is not skipped are nodes of the graph
of its file.
-/
theorem branchesAreNodes_instrumentAll
    (ctx : Fundec Instr → CfgContext)
    (sources : List (List (Fundec Instr))) :
    (idsOf
        ((instrumentAll CrestAll.doit noCounterFiles sources).flatMap
          Output.branchPairs)).Nodup ∧
      ∀ output ∈ instrumentAll CrestAll.doit noCounterFiles sources,
        List.Forall₂
          (fun f g =>
            shouldSkipFunction f.svar = false →
            BranchesAreNodes (cfgFile ctx output.prepared) f g)
          output.prepared output.instrumented := by
  have ids := sids_heavy noCounterFiles sources
  have distinct :
      ((instrumentAll CrestAll.doit noCounterFiles sources).flatMap
        Output.sids).Nodup := by
    rw [ids]
    exact nodup_consecutive _ _
  constructor
  · obtain ⟨branches, isPerm, isSublist⟩ :=
      branchPairs_instrumentAll_subperm sources
    exact isPerm.nodup_iff.mp ((nodup_consecutive 0 _).sublist isSublist)
  · intro output member
    have positive : ∀ sid ∈ output.sids, 0 < sid := by
      intro sid isSid
      have inAll :
          sid ∈
            (instrumentAll CrestAll.doit noCounterFiles sources).flatMap
              Output.sids :=
        List.mem_flatMap.mpr ⟨output, member, isSid⟩
      rw [ids] at inAll
      exact (mem_consecutive.mp inAll).1
    have distinctHere : output.sids.Nodup :=
      (List.nodup_flatMap.mp distinct).1 output member
    obtain ⟨current, source, rfl⟩ := exists_of_mem_instrumentAll member
    refine forall₂_visitFile (fun f isFunction seen notSkipped => ?_) _
    refine ⟨f.sbody.ifs.map IfVisit.ofIf, ?_, ?_, ?_, ?_⟩
    · rw [List.map_map]
      rfl
    · rw [List.map_map, blockBranchPairs_eq]
      rfl
    · rw [List.map_map, blocks_vfunc notSkipped]
      rfl
    · intro visit isVisit
      obtain ⟨s, isIf, rfl⟩ := List.mem_map.mp isVisit
      exact agrees_ofIf positive distinctHere isFunction
        (exists_of_mem_prepareFile isFunction) isIf

end Agreement

end Compi.Cil
