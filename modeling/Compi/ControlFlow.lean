import Compi.StatementMeaning
import Compi.WrittenGraph

/-!
# Control flow

The graph that is written lists for each statement where control goes next.
The code that is left to run in a function is laid out as the graph says, and
every step of the function keeps it so.
-/

namespace Compi.Cil

/-- The statement that comes next. -/
def nextSid? (code : List (Stmt Instr)) : Option Int :=
  code.head?.map Stmt.sid

/-- Whether an instruction comes next. -/
def isExecuting : List (Stmt Instr) → Bool
  | .instr _ _ (_ :: _) :: _ => true
  | _ => false

section Layout

variable
  (goes : Int → Int → Prop)
  (executes : Int → Instr → Prop)

/-- A graph has some edges and instructions at most. -/
def Within (nodes : List CfgNode) : Prop :=
  ∀ node ∈ nodes,
    (∀ n ∈ node.succs, goes node.sid n) ∧ ∀ i ∈ node.is, executes node.sid i

/-- Code that is laid out as a graph says. -/
inductive Laid (ctx : CfgContext) : List (Stmt Instr) → Prop where
  | nil : Laid ctx []
  | cons
      {s : Stmt Instr}
      {rest : List (Stmt Instr)}
      (here : Within goes executes (s.cfgStmt ctx (nextSid? rest)))
      (later : Laid ctx rest) :
      Laid ctx (s :: rest)

variable
  {goes : Int → Int → Prop}
  {executes : Int → Instr → Prop}
  {ctx : CfgContext}
  {code : List (Stmt Instr)}

theorem nextSid?_append (b : Block Instr) :
    nextSid? (b.toList ++ code) = (firstSid? b).or (nextSid? code) := by
  cases b with
  | nil =>
      rfl
  | cons s rest =>
      rfl

/-- A block is laid out in front of what follows it. -/
theorem laid_block
    (b : Block Instr)
    (within : Within goes executes (b.cfgStmts ctx (nextSid? code)))
    (laid : Laid goes executes ctx code) :
    Laid goes executes ctx (b.toList ++ code) := by
  match b with
  | .nil =>
      exact laid
  | .cons s rest =>
      obtain ⟨here, later⟩ := List.forall_mem_append.mp within
      rw [← nextSid?_append] at here
      exact .cons here (laid_block rest later laid)

variable {label : String}

mutual

/-- What runs from a label in a statement is laid out. -/
theorem laid_findLabelStmt
    {next : List (Stmt Instr)}
    (s : Stmt Instr)
    (found : s.findLabel label next = some code)
    (within : Within goes executes (s.cfgStmt ctx (nextSid? next)))
    (laid : Laid goes executes ctx next) :
    Laid goes executes ctx code := by
  cases s with
  | ite sid labels condition thenBlock elseBlock =>
      unfold Stmt.findLabel at found
      split at found
      · cases found
        exact .cons within laid
      · obtain ⟨_, inBlocks⟩ := List.forall_mem_cons.mp within
        obtain ⟨inThen, inElse⟩ := List.forall_mem_append.mp inBlocks
        rcases Option.or_eq_some_iff.mp found with found | ⟨_, found⟩
        · exact laid_findLabelBlock thenBlock found inThen laid
        · exact laid_findLabelBlock elseBlock found inElse laid
  | loop sid labels body =>
      unfold Stmt.findLabel at found
      split at found
      · cases found
        exact .cons within laid
      · obtain ⟨_, inBody⟩ := List.forall_mem_cons.mp within
        exact laid_findLabelBlock body found inBody (.cons within laid)
  | block sid labels body =>
      unfold Stmt.findLabel at found
      split at found
      · cases found
        exact .cons within laid
      · obtain ⟨_, inBody⟩ := List.forall_mem_cons.mp within
        exact laid_findLabelBlock body found inBody laid
  | _ =>
      unfold Stmt.findLabel at found
      split at found
      · cases found
        exact .cons within laid
      · cases found

/-- What runs from a label in a block is laid out. -/
theorem laid_findLabelBlock
    {next : List (Stmt Instr)}
    (b : Block Instr)
    (found : b.findLabel label next = some code)
    (within : Within goes executes (b.cfgStmts ctx (nextSid? next)))
    (laid : Laid goes executes ctx next) :
    Laid goes executes ctx code := by
  cases b with
  | nil =>
      cases found
  | cons s rest =>
      obtain ⟨here, later⟩ := List.forall_mem_append.mp within
      unfold Block.findLabel at found
      rcases Option.or_eq_some_iff.mp found with found | ⟨_, found⟩
      · refine laid_findLabelStmt s found ?_ (laid_block rest later laid)
        rw [nextSid?_append]
        exact here
      · exact laid_findLabelBlock rest found later laid

end

end Layout

section Steps

variable
  {goes : Int → Int → Prop}
  {executes : Int → Instr → Prop}
  {State R : Type}
  [LinearOrder R]
  {machine : Machine Instr State R}
  {ctx : CfgContext}
  {fileCtx : FileContext}
  {f : Fundec Instr}
  {code code' : List (Stmt Instr)}
  {state state' : State}

/-- A function starts as the graph says. -/
theorem laid_start
    (within : Within goes executes (cfgFun ctx f)) :
    Laid goes executes ctx f.sbody.toList := by
  have laid : Laid goes executes ctx (f.sbody.toList ++ []) :=
    laid_block f.sbody within .nil
  rw [List.append_nil] at laid
  exact laid

/-- A list of instructions is executed at the statement. -/
theorem laid_of_executes
    {sid : Int}
    {labels : List String}
    {i : Instr}
    {is : List Instr}
    (laid : Laid goes executes ctx (.instr sid labels (i :: is) :: code))
    (fallsThrough : instrFallsThrough ctx i = true) :
    Laid goes executes ctx (.instr sid [] is :: code) ∧ executes sid i := by
  cases laid with
  | cons here later =>
      obtain ⟨edges, instrs⟩ := here _ (List.mem_singleton_self _)
      refine ⟨.cons ?_ later, instrs i List.mem_cons_self⟩
      intro node member
      cases List.mem_singleton.mp member
      refine ⟨fun n isSucc => edges n ?_, fun other isLater =>
        instrs other (List.mem_cons_of_mem _ isLater)⟩
      simp only [List.all_cons, fallsThrough, Bool.true_and]
      exact isSucc

/-- Where control goes to the front of a block, the graph has an edge. -/
theorem goes_to_block
    {b : Block Instr}
    {succs : List Int}
    {sid n : Int}
    (edges : ∀ n ∈ addBlockSucc succs b (nextSid? code), goes sid n)
    (isNext : nextSid? (b.toList ++ code) = some n) :
    goes sid n := by
  rw [nextSid?_append] at isNext
  exact edges n (mem_addBlockSucc.mpr (.inl isNext))

/-- Every step that executes no instruction goes along an edge of the graph. -/
theorem laid_of_moves
    (within : Within goes executes (cfgFun (fileCtx.cfg f) f))
    (laid : Laid goes executes (fileCtx.cfg f) code)
    (notExecuting : isExecuting code = false)
    (jumps :
      ∀ sid labels target rest label,
        code = .computedGoto sid labels target :: rest →
        machine.jump target state = some label →
        label ∈ f.sbody.addrOfLabels)
    (stepped :
      step machine f.sbody (.running code state) =
        some (.running code' state')) :
    Laid goes executes (fileCtx.cfg f) code' ∧
      ∀ n, nextSid? code' = some n →
        ∃ sid, nextSid? code = some sid ∧ goes sid n := by
  cases laid with
  | nil =>
      cases stepped
  | @cons s rest here later =>
      cases s with
      | instr sid labels is =>
          cases is with
          | nil =>
              cases stepped
              refine ⟨later, fun n isNext => ⟨sid, rfl, ?_⟩⟩
              obtain ⟨edges, _⟩ := here _ (List.mem_singleton_self _)
              exact edges n (mem_addOptionSucc.mpr (.inl isNext))
          | cons i is =>
              cases notExecuting
      | ret sid labels value =>
          cases stepped
      | goto sid labels target =>
          obtain ⟨found, isFound, same⟩ := Option.map_eq_some_iff.mp stepped
          cases same
          refine
            ⟨laid_findLabelBlock f.sbody isFound within .nil,
              fun n isNext => ⟨sid, rfl, ?_⟩⟩
          obtain ⟨edges, _⟩ := here _ (List.mem_singleton_self _)
          have isLabelled : f.sbody.labelled target = some n :=
            Option.bind_eq_some_iff.mpr ⟨_, isFound, isNext⟩
          exact edges n (mem_addOptionSucc.mpr (.inl isLabelled))
      | computedGoto sid labels target =>
          obtain ⟨label, isLabel, stepped⟩ := Option.bind_eq_some_iff.mp stepped
          obtain ⟨found, isFound, same⟩ := Option.map_eq_some_iff.mp stepped
          cases same
          refine
            ⟨laid_findLabelBlock f.sbody isFound within .nil,
              fun n isNext => ⟨sid, rfl, ?_⟩⟩
          obtain ⟨edges, _⟩ := here _ (List.mem_singleton_self _)
          have isLabelled : f.sbody.labelled label = some n :=
            Option.bind_eq_some_iff.mpr ⟨_, isFound, isNext⟩
          have isTaken := jumps sid labels target rest label rfl isLabel
          have isTarget : n ∈ findAddrOfLabelStmts f.sbody :=
            List.mem_filterMap.mpr
              ⟨label, List.mem_reverse.mpr isTaken, isLabelled⟩
          exact edges n (mem_foldl_addSucc.mpr (.inl isTarget))
      | ite sid labels condition thenBlock elseBlock =>
          cases stepped
          obtain ⟨⟨edges, _⟩, inBlocks⟩ := List.forall_mem_cons.mp here
          obtain ⟨inThen, inElse⟩ := List.forall_mem_append.mp inBlocks
          split
          · exact
              ⟨laid_block thenBlock inThen later, fun n isNext =>
                ⟨sid, rfl, goes_to_block edges isNext⟩⟩
          · have elseEdges :
                ∀ n ∈ addBlockSucc [] elseBlock (nextSid? rest), goes sid n :=
              fun n isSucc => edges n (mem_addBlockSucc.mpr (.inr isSucc))
            exact
              ⟨laid_block elseBlock inElse later, fun n isNext =>
                ⟨sid, rfl, goes_to_block elseEdges isNext⟩⟩
      | loop sid labels body =>
          cases stepped
          obtain ⟨⟨edges, _⟩, inBody⟩ := List.forall_mem_cons.mp here
          exact
            ⟨laid_block body inBody (.cons here later), fun n isNext =>
              ⟨sid, rfl, goes_to_block edges isNext⟩⟩
      | block sid labels body =>
          cases stepped
          obtain ⟨⟨edges, _⟩, inBody⟩ := List.forall_mem_cons.mp here
          exact
            ⟨laid_block body inBody later, fun n isNext =>
              ⟨sid, rfl, goes_to_block edges isNext⟩⟩

end Steps

end Compi.Cil
