import Compi.InstrumentedBranches
import Compi.LabelPositions
import Compi.ProgramDistances

/-!
# The graph that is written

The heavy instrumenter writes the graph of each file when it has numbered its
statements.  A label stands for its statement, and a computed goto may go to
every statement whose label has its address taken.
-/

namespace Compi.Cil

section Labels

variable {Inst : Type}

/-- The id of the statement with a label. -/
def Block.labelled (b : Block Inst) (label : String) : Option Int :=
  (b.findLabel label []).bind fun code => code.head?.map Stmt.sid

mutual

/-- The labels whose addresses are taken in an expression, in order. -/
def Exp.addrOfLabels : Exp → List String
  | .enumConst tag _ => tag.addrOfLabels
  | .lval lv => lv.addrOfLabels
  | .sizeOfE e => e.addrOfLabels
  | .alignOfE e => e.addrOfLabels
  | .unOp _ e _ => e.addrOfLabels
  | .binOp _ left right _ => left.addrOfLabels ++ right.addrOfLabels
  | .question test left right _ =>
      test.addrOfLabels ++ left.addrOfLabels ++ right.addrOfLabels
  | .castE _ e => e.addrOfLabels
  | .addrOf lv => lv.addrOfLabels
  | .addrOfLabel label => [label]
  | .startOf lv => lv.addrOfLabels
  | _ => []

/-- The same in an lvalue. -/
def Lval.addrOfLabels : Lval → List String
  | .var _ off => off.addrOfLabels
  | .mem addr off => addr.addrOfLabels ++ off.addrOfLabels

/-- The same in an offset. -/
def Offset.addrOfLabels : Offset → List String
  | .noOffset => []
  | .field _ off => off.addrOfLabels
  | .index e off => e.addrOfLabels ++ off.addrOfLabels

end

/-- The same in an instruction. -/
def Instr.addrOfLabels : Instr → List String
  | .set lv e => lv.addrOfLabels ++ e.addrOfLabels
  | .call ret callee args =>
      (ret.map Lval.addrOfLabels).getD [] ++
        (callee.addrOfLabels ++ args.flatMap Exp.addrOfLabels)
  | .asm _ => []

mutual

/-- The same in a statement. -/
def Stmt.addrOfLabels : Stmt Instr → List String
  | .instr _ _ is => is.flatMap Instr.addrOfLabels
  | .ret _ _ value => (value.map Exp.addrOfLabels).getD []
  | .goto _ _ _ => []
  | .computedGoto _ _ target => target.addrOfLabels
  | .ite _ _ condition thenBlock elseBlock =>
      condition.addrOfLabels ++
        (thenBlock.addrOfLabels ++ elseBlock.addrOfLabels)
  | .loop _ _ body => body.addrOfLabels
  | .block _ _ body => body.addrOfLabels

/-- The same in a block. -/
def Block.addrOfLabels : Block Instr → List String
  | .nil => []
  | .cons s rest => s.addrOfLabels ++ rest.addrOfLabels

end

/-- `findAddrOfLabelStmts`, the last one first. -/
def findAddrOfLabelStmts (b : Block Instr) : List Int :=
  b.addrOfLabels.reverse.filterMap b.labelled

end Labels

section Writing

/--
What is known of a file besides its syntax: whether the type of a callee has
the attribute `noreturn`, and the identity and the storage of a variable.
-/
structure FileContext where
  noreturn : Exp → Bool
  vid : Varinfo → Nat
  isStatic : Varinfo → Bool

namespace FileContext

variable (ctx : FileContext)

/-- What `cfgFun` finds out about a function. -/
def cfg (f : Fundec Instr) : CfgContext where
  labelled := f.sbody.labelled
  rlabels := findAddrOfLabelStmts f.sbody
  noreturn := ctx.noreturn

/-- The variable of a function. -/
def funcVar (v : Varinfo) : CfgFiles.FuncVar where
  vid := ctx.vid v
  vname := v.vname.toList
  isStatic := ctx.isStatic v

/-- An instruction in the graph. -/
def instr : Instr → CfgFiles.Instr
  | .call _ callee _ =>
      match calledFunction? callee with
      | some f => .call (ctx.funcVar f)
      | none => .callExp
  | _ => .other

/-- A statement in the graph. -/
def node (s : CfgNode) : CfgFiles.Node where
  sid := s.sid
  succs := s.succs
  is := s.is.map ctx.instr

/-- A function in the graph; its body has a first statement. -/
def function? (f : Fundec Instr) : Option CfgFiles.Function :=
  match cfgFun (ctx.cfg f) f with
  | [] => none
  | first :: others =>
      some {
        svar := ctx.funcVar f.svar
        first := ctx.node first
        others := others.map ctx.node }

/-- The functions of a file in the graph. -/
def file? (functions : List (Fundec Instr)) : Option (List CfgFiles.Function) :=
  functions.mapM ctx.function?

end FileContext

/-- The graphs that are written in runs over some files. -/
def writtenGraphs
    (ctx : Output → FileContext)
    (outputs : List Output) : Option (List (List CfgFiles.Function)) :=
  outputs.mapM fun output => (ctx output).file? output.prepared

/-- The text of the branches after the runs over some files. -/
def branchesText (sources : List (List (Fundec Instr))) : List Char :=
  (appendedEntries noCounterFiles sources).flatMap BranchesFile.printEntry

end Writing

section Successors

theorem mem_addSucc
    {succs : List Int}
    {n m : Int} :
    m ∈ addSucc succs n ↔ m = n ∨ m ∈ succs := by
  unfold addSucc
  split
  · next listed =>
      constructor
      · exact Or.inr
      · rintro (rfl | earlier)
        · exact listed
        · exact earlier
  · exact List.mem_cons

theorem mem_addOptionSucc
    {succs : List Int}
    {n : Option Int}
    {m : Int} :
    m ∈ addOptionSucc succs n ↔ n = some m ∨ m ∈ succs := by
  cases n with
  | none =>
      simp [addOptionSucc]
  | some n =>
      rw [addOptionSucc, mem_addSucc, Option.some.injEq, eq_comm]

theorem mem_addBlockSucc
    {succs : List Int}
    {b : Block Instr}
    {n : Option Int}
    {m : Int} :
    m ∈ addBlockSucc succs b n ↔ (firstSid? b).or n = some m ∨ m ∈ succs := by
  unfold addBlockSucc
  cases firstSid? b with
  | none =>
      rw [Option.none_or]
      exact mem_addOptionSucc
  | some first =>
      rw [Option.some_or, mem_addSucc, Option.some.injEq, eq_comm]

theorem mem_foldl_addSucc
    {ns succs : List Int}
    {m : Int} :
    m ∈ ns.foldl addSucc succs ↔ m ∈ ns ∨ m ∈ succs := by
  induction ns generalizing succs with
  | nil =>
      simp
  | cons n ns inductionHypothesis =>
      rw [List.foldl_cons, inductionHypothesis, mem_addSucc, List.mem_cons]
      tauto

theorem mem_sids_of_firstSid?
    {b : Block Instr}
    {sid : Int}
    (isFirst : firstSid? b = some sid) :
    sid ∈ b.sids := by
  cases b with
  | nil =>
      cases isFirst
  | cons s rest =>
      cases isFirst
      exact List.mem_cons_self

section Labels

variable
  {Inst : Type}
  {label : String}
  {code : List (Stmt Inst)}

mutual

/-- What runs from a label starts with a statement of the statement. -/
theorem sid_of_findLabelStmt
    {next : List (Stmt Inst)}
    (s : Stmt Inst)
    (found : s.findLabel label next = some code) :
    ∃ first rest, code = first :: rest ∧ first.sid ∈ s.sid :: s.inside := by
  cases s with
  | ite sid labels condition thenBlock elseBlock =>
      unfold Stmt.findLabel at found
      split at found
      · cases found
        exact ⟨_, _, rfl, List.mem_cons_self⟩
      · rcases Option.or_eq_some_iff.mp found with inThen | ⟨_, inElse⟩
        · obtain ⟨first, rest, isCode, member⟩ :=
            sid_of_findLabelBlock thenBlock inThen
          exact
            ⟨first, rest, isCode,
              List.mem_cons_of_mem _ (List.mem_append_left _ member)⟩
        · obtain ⟨first, rest, isCode, member⟩ :=
            sid_of_findLabelBlock elseBlock inElse
          exact
            ⟨first, rest, isCode,
              List.mem_cons_of_mem _ (List.mem_append_right _ member)⟩
  | loop sid labels body =>
      unfold Stmt.findLabel at found
      split at found
      · cases found
        exact ⟨_, _, rfl, List.mem_cons_self⟩
      · obtain ⟨first, rest, isCode, member⟩ := sid_of_findLabelBlock body found
        exact ⟨first, rest, isCode, List.mem_cons_of_mem _ member⟩
  | block sid labels body =>
      unfold Stmt.findLabel at found
      split at found
      · cases found
        exact ⟨_, _, rfl, List.mem_cons_self⟩
      · obtain ⟨first, rest, isCode, member⟩ := sid_of_findLabelBlock body found
        exact ⟨first, rest, isCode, List.mem_cons_of_mem _ member⟩
  | _ =>
      unfold Stmt.findLabel at found
      split at found
      · cases found
        exact ⟨_, _, rfl, List.mem_cons_self⟩
      · cases found

/-- What runs from a label starts with a statement of the block. -/
theorem sid_of_findLabelBlock
    {next : List (Stmt Inst)}
    (b : Block Inst)
    (found : b.findLabel label next = some code) :
    ∃ first rest, code = first :: rest ∧ first.sid ∈ b.sids := by
  cases b with
  | nil =>
      cases found
  | cons s tail =>
      unfold Block.findLabel at found
      rcases Option.or_eq_some_iff.mp found with inFirst | ⟨_, inRest⟩
      · obtain ⟨first, rest, isCode, member⟩ := sid_of_findLabelStmt s inFirst
        refine ⟨first, rest, isCode, ?_⟩
        rcases List.mem_cons.mp member with same | inside
        · rw [same]
          exact List.mem_cons_self
        · exact List.mem_cons_of_mem _ (List.mem_append_left _ inside)
      · obtain ⟨first, rest, isCode, member⟩ := sid_of_findLabelBlock tail inRest
        exact
          ⟨first, rest, isCode,
            List.mem_cons_of_mem _ (List.mem_append_right _ member)⟩

end

/-- A label stands for a statement of the block. -/
theorem mem_sids_of_labelled
    {b : Block Inst}
    {sid : Int}
    (isLabelled : b.labelled label = some sid) :
    sid ∈ b.sids := by
  obtain ⟨code, found, isHead⟩ := Option.bind_eq_some_iff.mp isLabelled
  obtain ⟨first, rest, rfl, member⟩ := sid_of_findLabelBlock b found
  cases isHead
  exact member

end Labels

/-- Statements that the traversal may list as successors. -/
structure Offers (ctx : CfgContext) (ids : List Int) : Prop where
  labelled : ∀ label sid, ctx.labelled label = some sid → sid ∈ ids
  rlabels : ∀ sid ∈ ctx.rlabels, sid ∈ ids

variable
  {ctx : CfgContext}
  {ids : List Int}

mutual

/-- The successors in a statement are statements. -/
theorem succs_cfgStmt
    (offers : Offers ctx ids)
    (next : Option Int)
    (isNext : ∀ sid, next = some sid → sid ∈ ids)
    (s : Stmt Instr)
    (inside : ∀ sid ∈ s.sid :: s.inside, sid ∈ ids) :
    ∀ node ∈ s.cfgStmt ctx next, ∀ n ∈ node.succs, n ∈ ids := by
  cases s with
  | instr sid labels is =>
      intro node member n isSucc
      cases List.mem_singleton.mp member
      dsimp only at isSucc
      split at isSucc
      · rcases mem_addOptionSucc.mp isSucc with follows | impossible
        · exact isNext n follows
        · cases impossible
      · cases isSucc
  | ret sid labels value =>
      intro node member n isSucc
      cases List.mem_singleton.mp member
      cases isSucc
  | goto sid labels target =>
      intro node member n isSucc
      cases List.mem_singleton.mp member
      rcases mem_addOptionSucc.mp isSucc with isTarget | impossible
      · exact offers.labelled target n isTarget
      · cases impossible
  | computedGoto sid labels target =>
      intro node member n isSucc
      cases List.mem_singleton.mp member
      rcases mem_foldl_addSucc.mp isSucc with isTarget | impossible
      · exact offers.rlabels n isTarget
      · cases impossible
  | ite sid labels condition thenBlock elseBlock =>
      obtain ⟨_, inBlocks⟩ := List.forall_mem_cons.mp inside
      obtain ⟨inThen, inElse⟩ := List.forall_mem_append.mp inBlocks
      intro node member n isSucc
      rcases List.mem_cons.mp member with rfl | inNodes
      · have starts
            {b : Block Instr}
            (inBlock : ∀ sid ∈ b.sids, sid ∈ ids)
            (isFirst : (firstSid? b).or next = some n) :
            n ∈ ids := by
          rcases Option.or_eq_some_iff.mp isFirst with first | ⟨_, follows⟩
          · exact inBlock n (mem_sids_of_firstSid? first)
          · exact isNext n follows
        rcases mem_addBlockSucc.mp isSucc with first | second
        · exact starts inThen first
        · rcases mem_addBlockSucc.mp second with first | impossible
          · exact starts inElse first
          · cases impossible
      · rcases List.mem_append.mp inNodes with here | here
        · exact succs_cfgStmts offers next isNext thenBlock inThen node here n isSucc
        · exact succs_cfgStmts offers next isNext elseBlock inElse node here n isSucc
  | loop sid labels body =>
      obtain ⟨own, inBody⟩ := List.forall_mem_cons.mp inside
      have again : ∀ other, some sid = some other → other ∈ ids := by
        rintro other ⟨⟩
        exact own
      intro node member n isSucc
      rcases List.mem_cons.mp member with rfl | inNodes
      · rcases mem_addBlockSucc.mp isSucc with first | impossible
        · rcases Option.or_eq_some_iff.mp first with first | ⟨_, follows⟩
          · exact inBody n (mem_sids_of_firstSid? first)
          · exact again n follows
        · cases impossible
      · exact succs_cfgStmts offers (some sid) again body inBody node inNodes n isSucc
  | block sid labels body =>
      obtain ⟨_, inBody⟩ := List.forall_mem_cons.mp inside
      intro node member n isSucc
      rcases List.mem_cons.mp member with rfl | inNodes
      · rcases mem_addBlockSucc.mp isSucc with first | impossible
        · rcases Option.or_eq_some_iff.mp first with first | ⟨_, follows⟩
          · exact inBody n (mem_sids_of_firstSid? first)
          · exact isNext n follows
        · cases impossible
      · exact succs_cfgStmts offers next isNext body inBody node inNodes n isSucc

/-- The successors in a block are statements. -/
theorem succs_cfgStmts
    (offers : Offers ctx ids)
    (next : Option Int)
    (isNext : ∀ sid, next = some sid → sid ∈ ids)
    (b : Block Instr)
    (inside : ∀ sid ∈ b.sids, sid ∈ ids) :
    ∀ node ∈ b.cfgStmts ctx next, ∀ n ∈ node.succs, n ∈ ids := by
  cases b with
  | nil =>
      exact List.forall_mem_nil _
  | cons s rest =>
      have inFirst : ∀ sid ∈ s.sid :: s.inside, sid ∈ ids := by
        intro sid member
        refine inside sid ?_
        rcases List.mem_cons.mp member with rfl | inner
        · exact List.mem_cons_self
        · exact List.mem_cons_of_mem _ (List.mem_append_left _ inner)
      have inRest : ∀ sid ∈ rest.sids, sid ∈ ids := fun sid member =>
        inside sid (List.mem_cons_of_mem _ (List.mem_append_right _ member))
      have follows : ∀ sid, (firstSid? rest).or next = some sid → sid ∈ ids := by
        intro sid isFirst
        rcases Option.or_eq_some_iff.mp isFirst with first | ⟨_, later⟩
        · exact inRest sid (mem_sids_of_firstSid? first)
        · exact isNext sid later
      refine List.forall_mem_append.mpr ⟨?_, ?_⟩
      · exact succs_cfgStmt offers _ follows s inFirst
      · exact succs_cfgStmts offers next isNext rest inRest

end

/-- The successors in a function are statements of the function. -/
theorem succs_cfgFun
    (ctx : FileContext)
    (f : Fundec Instr) :
    ∀ node ∈ cfgFun (ctx.cfg f) f, ∀ n ∈ node.succs, n ∈ f.sbody.sids := by
  have offers : Offers (ctx.cfg f) f.sbody.sids := by
    refine ⟨fun label sid => mem_sids_of_labelled, fun sid member => ?_⟩
    obtain ⟨label, _, isLabelled⟩ := List.mem_filterMap.mp member
    exact mem_sids_of_labelled isLabelled
  exact
    succs_cfgStmts offers none (fun _ impossible => nomatch impossible) f.sbody
      fun _ member => member

end Successors

section Files

/-- Where a partial function is applied to all items, it has each result. -/
theorem forall₂_of_mapM
    {Item Result : Type}
    {f : Item → Option Result}
    {items : List Item}
    {results : List Result}
    (mapped : items.mapM f = some results) :
    List.Forall₂ (fun item result => f item = some result) items results := by
  induction items generalizing results with
  | nil =>
      cases mapped
      exact .nil
  | cons item rest inductionHypothesis =>
      rw [List.mapM_cons] at mapped
      obtain ⟨result, isResult, mapped⟩ := Option.bind_eq_some_iff.mp mapped
      obtain ⟨later, areLater, same⟩ := Option.bind_eq_some_iff.mp mapped
      cases same
      exact .cons isResult (inductionHypothesis areLater)

/-- What is true of corresponding items is true of what they are flattened to. -/
theorem flatMap_of_forall₂
    {Item Result Entry : Type}
    {relation : Item → Result → Prop}
    {first : Item → List Entry}
    {second : Result → List Entry}
    (same :
      ∀ item result, relation item result → second result = first item)
    {items : List Item}
    {results : List Result}
    (related : List.Forall₂ relation items results) :
    results.flatMap second = items.flatMap first := by
  induction related with
  | nil =>
      rfl
  | cons isRelated _ inductionHypothesis =>
      rw [List.flatMap_cons, List.flatMap_cons, same _ _ isRelated,
        inductionHypothesis]

/-- A result corresponds to one of the items. -/
theorem exists_of_mem_forall₂
    {Item Result : Type}
    {relation : Item → Result → Prop}
    {items : List Item}
    {results : List Result}
    (related : List.Forall₂ relation items results)
    {result : Result}
    (member : result ∈ results) :
    ∃ item ∈ items, relation item result := by
  induction related with
  | nil =>
      cases member
  | cons isRelated _ inductionHypothesis =>
      rcases List.mem_cons.mp member with rfl | inRest
      · exact ⟨_, List.mem_cons_self, isRelated⟩
      · obtain ⟨item, isItem, isRelated⟩ := inductionHypothesis inRest
        exact ⟨item, List.mem_cons_of_mem _ isItem, isRelated⟩

variable (ctx : FileContext)

/-- A function is written with the statements that the traversal visits. -/
theorem nodes_of_function?
    {f : Fundec Instr}
    {g : CfgFiles.Function}
    (isWritten : ctx.function? f = some g) :
    g.nodes = (cfgFun (ctx.cfg f) f).map ctx.node ∧
      g.svar = ctx.funcVar f.svar := by
  unfold FileContext.function? at isWritten
  split at isWritten
  · cases isWritten
  · next first others visited =>
      cases isWritten
      rw [visited]
      exact ⟨rfl, rfl⟩

/-- A file is written with the statements of its functions. -/
theorem nodesOf_of_file?
    {functions : List (Fundec Instr)}
    {file : List CfgFiles.Function}
    (isWritten : ctx.file? functions = some file) :
    CfgFiles.nodesOf file =
      functions.flatMap fun f => (cfgFun (ctx.cfg f) f).map ctx.node := by
  have nodes (f : Fundec Instr) (g : CfgFiles.Function)
      (written : ctx.function? f = some g) :
      g.nodes = (cfgFun (ctx.cfg f) f).map ctx.node :=
    (nodes_of_function? ctx written).1
  exact flatMap_of_forall₂ nodes (forall₂_of_mapM isWritten)

theorem sids_of_file?
    {functions : List (Fundec Instr)}
    {file : List CfgFiles.Function}
    (isWritten : ctx.file? functions = some file) :
    (CfgFiles.nodesOf file).map CfgFiles.Node.sid = fileSids functions := by
  rw [nodesOf_of_file? ctx isWritten, List.map_flatMap]
  refine List.flatMap_congr fun f _ => ?_
  rw [List.map_map]
  exact sids_cfgStmts (ctx.cfg f) none f.sbody

end Files

section Programs

open CfgFiles CfgBranchesFile

/--
Functions with identifiers as names that are called by name.  Exported functions
have different names, and in a file a name stands for one variable.
-/
structure Linkable (files : List (List Function)) : Prop where
  names : ∀ f ∈ files.flatten, isIdentifier f.svar.vname = true
  callees :
    ∀ s ∈ files.flatMap nodesOf, ∀ g ∈ s.calls, isIdentifier g.vname = true
  exported :
    ((files.flatten.filter Function.isExported).map
      fun f => f.svar.vname).Nodup
  oneVariable :
    ∀ file ∈ files, ∀ f ∈ file, ∀ s ∈ nodesOf file, ∀ g ∈ s.calls,
      f.svar.vname = g.vname → f.svar.vid = g.vid

variable
  {ctx : Output → FileContext}
  {sources : List (List (Fundec Instr))}
  {files : List (List Function)}

/-- The statements that are written are numbered in a row. -/
theorem sidsOf_writtenGraphs
    (isWritten :
      writtenGraphs ctx (instrumentAll CrestAll.doit noCounterFiles sources) =
        some files) :
    sidsOf files = consecutive 0 (sources.map statementCount).sum := by
  have sids (output : Output) (file : List Function)
      (written : (ctx output).file? output.prepared = some file) :
      (nodesOf file).map Node.sid = output.sids :=
    sids_of_file? (ctx output) written
  rw [sidsOf, List.map_flatMap,
    flatMap_of_forall₂ sids (forall₂_of_mapM isWritten)]
  exact sids_heavy noCounterFiles sources

/-- The successors that are written are statements. -/
theorem succs_writtenGraphs
    (isWritten :
      writtenGraphs ctx (instrumentAll CrestAll.doit noCounterFiles sources) =
        some files) :
    ∀ s ∈ files.flatMap nodesOf, ∀ n ∈ s.succs, n ∈ sidsOf files := by
  intro s member n isSucc
  obtain ⟨file, isFile, isNode⟩ := List.mem_flatMap.mp member
  obtain ⟨output, _, written⟩ :=
    exists_of_mem_forall₂ (forall₂_of_mapM isWritten) isFile
  rw [nodesOf_of_file? (ctx output) written] at isNode
  obtain ⟨f, isFunction, inFunction⟩ := List.mem_flatMap.mp isNode
  obtain ⟨node, visited, rfl⟩ := List.mem_map.mp inFunction
  have inFile : n ∈ (nodesOf file).map Node.sid := by
    rw [sids_of_file? (ctx output) written]
    exact
      mem_fileSids isFunction
        (succs_cfgFun (ctx output) f node visited n isSucc)
  obtain ⟨next, isNext, rfl⟩ := List.mem_map.mp inFile
  exact mem_sidsOf isFile isNext

/-- The branches that are written are statements. -/
theorem branches_subset_consecutive
    (sources : List (List (Fundec Instr))) :
    ∀ bid ∈
        branchesOf
          ((instrumentAll CrestAll.doit noCounterFiles sources).map
            Output.visitedPairs),
      bid ∈ consecutive 0 (sources.map statementCount).sum := by
  intro bid member
  have sublist :=
    visitedPairs_sublist (instrumentAll CrestAll.doit noCounterFiles sources)
  exact
    (branchPairs_instrumentAll_subperm sources).subset
      (sublist.subset member)

/-- What is written in the runs over all files belongs to one program. -/
theorem ofProgram_writtenGraphs
    (fewStatements : (sources.map statementCount).sum < 2 ^ 31 - 1)
    (fewFunctions : (sources.map List.length).sum < 2 ^ 31)
    (isWritten :
      writtenGraphs ctx (instrumentAll CrestAll.doit noCounterFiles sources) =
        some files)
    (linkable : Linkable files) :
    OfProgram files
      ((instrumentAll CrestAll.doit noCounterFiles sources).map
        Output.visitedPairs) := by
  have sids := sidsOf_writtenGraphs isWritten
  have isNode : ∀ sid ∈ sidsOf files, IsNode sid := by
    intro sid member
    rw [sids] at member
    obtain ⟨above, below⟩ := mem_consecutive.mp member
    unfold IsNode
    omega
  have succs := succs_writtenGraphs isWritten
  constructor
  · refine ⟨⟨?_, ?_, ?_, ?_, ?_, ?_, ?_⟩, succs⟩
    · show (sidsOf files).Nodup
      rw [sids]
      exact nodup_consecutive _ _
    · intro s member
      exact isNode s.sid (List.mem_map_of_mem member)
    · intro s member n isSucc
      obtain ⟨nonnegative, below⟩ := isNode n (succs s member n isSucc)
      exact ⟨nonnegative, Int.lt_trans below (by decide)⟩
    · exact linkable.names
    · exact linkable.callees
    · exact linkable.exported
    · exact linkable.oneVariable
  · exact recorded_instrumentAll fewStatements fewFunctions
  · intro bid member
    rw [sids]
    exact branches_subset_consecutive sources bid member

theorem branchesText_eq (sources : List (List (Fundec Instr))) :
    branchesText sources =
      BranchesFile.textOf
        ((instrumentAll CrestAll.doit noCounterFiles sources).map
          Output.visitedPairs) := by
  rw [branchesText, appendedEntries_eq]
  rfl

/--
However a program is split into files, `process_cfg` and the heuristic search
read what the runs of the instrumenter over these have written, and the search
measures for each branch how many branches control has to enter on its way
through the program to an uncovered one.
-/
theorem heuristicDistances_exact
    (garbage : Uninitialised)
    (ctx : Output → FileContext)
    (sources : List (List (Fundec Instr)))
    (fewStatements : (sources.map statementCount).sum < 2 ^ 31 - 1)
    (fewFunctions : (sources.map List.length).sum < 2 ^ 31)
    (files : List (List Function))
    (isWritten :
      writtenGraphs ctx (instrumentAll CrestAll.doit noCounterFiles sources) =
        some files)
    (linkable : Linkable files)
    (covered : List Bool)
    (dist : List Nat)
    (sized :
      ∀ tables,
        BranchTables.ofText (branchesText sources) = some tables →
        covered.length = tables.pairedBranch.length ∧
          dist.length = tables.pairedBranch.length) :
    ∃ final,
      heuristicDistances garbage (branchesText sources) (cfgFuncMap files)
          (CfgFiles.cfg files) covered dist =
        some final ∧
        ∀ bid ∈
            branchesOf
              ((instrumentAll CrestAll.doit noCounterFiles sources).map
                Output.visitedPairs),
          ∃ far,
            BranchTables.lookup? final bid = some far ∧
              IsControlDistance files
                ((instrumentAll CrestAll.doit noCounterFiles sources).map
                  Output.visitedPairs)
                covered bid far := by
  rw [branchesText_eq] at sized ⊢
  exact
    isControlDistance_heuristicDistances garbage
      (ofProgram_writtenGraphs fewStatements fewFunctions isWritten linkable)
      sized

/-- A function of no arguments and no result. -/
def plainFunction (name : String) (body : Block Instr) : Fundec Instr where
  svar := ⟨name, .fn .void false, true, []⟩
  sformals := []
  sbody := body

/-- `main` calls a function of another file after a test, which tests again. -/
def testsInTwoFiles : List (List (Fundec Instr)) :=
  [[plainFunction "main"
      (.cons
        (.ite (-1) [] (.lval (.var (intVariable "x") .noOffset))
          (.cons
            (.instr (-1) []
              [.call none
                (.lval
                  (.var ⟨"other", .fn .void false, true, []⟩ .noOffset)) []])
            .nil)
          .nil)
        (.cons (.ret (-1) [] none) .nil))],
    [plainFunction "other"
      (.cons (.ite (-1) [] (.lval (.var (intVariable "y") .noOffset)) .nil .nil)
        (.cons (.ret (-1) [] none) .nil))]]

/-- Variables are known by the lengths of their names. -/
def byLength : FileContext where
  noreturn := fun _ => false
  vid := fun v => v.vname.length
  isStatic := fun _ => false

/-- The tables of the two files. -/
def tablesOfTwo : BranchTables :=
  BranchTables.ofFile
    ((BranchesFile.entriesOf 0
      ((instrumentAll CrestAll.doit noCounterFiles testsInTwoFiles).map
        Output.visitedPairs)).map Prod.snd)

/-- All branches but one of the called function are covered. -/
def allButLast (tables : BranchTables) : List Bool :=
  BranchTables.update (List.replicate tables.pairedBranch.length true) 7 false

theorem heuristicDistances_exact_testsInTwoFiles :
    ∃ files final,
      writtenGraphs (fun _ => byLength)
          (instrumentAll CrestAll.doit noCounterFiles testsInTwoFiles) =
        some files ∧
        heuristicDistances ⟨0, 0, 0, 0⟩ (branchesText testsInTwoFiles)
            (cfgFuncMap files) (CfgFiles.cfg files)
            (allButLast tablesOfTwo)
            (List.replicate tablesOfTwo.pairedBranch.length 0) =
          some final ∧
        ∀ bid ∈
            branchesOf
              ((instrumentAll CrestAll.doit noCounterFiles
                testsInTwoFiles).map Output.visitedPairs),
          ∃ far,
            BranchTables.lookup? final bid = some far ∧
              IsControlDistance files
                ((instrumentAll CrestAll.doit noCounterFiles
                  testsInTwoFiles).map Output.visitedPairs)
                (allButLast tablesOfTwo) bid far := by
  have recorded :
      BranchTables.Recorded
        ((instrumentAll CrestAll.doit noCounterFiles testsInTwoFiles).map
          Output.visitedPairs) :=
    recorded_instrumentAll (by decide) (by decide)
  obtain ⟨final, measured⟩ :=
    heuristicDistances_exact ⟨0, 0, 0, 0⟩ (fun _ => byLength) testsInTwoFiles
      (by decide) (by decide) _ rfl
      ⟨by decide, by decide, by decide, by decide⟩
      (allButLast tablesOfTwo)
      (List.replicate tablesOfTwo.pairedBranch.length 0)
      (by
        intro tables read
        rw [branchesText_eq, BranchTables.ofText_textOf recorded] at read
        cases read
        exact
          ⟨(BranchTables.length_update _ _ _).trans List.length_replicate,
            List.length_replicate⟩)
  exact ⟨_, final, rfl, measured⟩

end Programs

end Compi.Cil
