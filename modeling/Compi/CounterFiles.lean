import Compi.StatementIds

/-!
# Instrumenting a sequence of files

An instrumenter is run once for each source file of a program, and leaves its
counters in files for the next run.  The heavy instrumenter writes the counters
that it reads; the light one reads them only.
-/

namespace Compi.Cil

/-- The counter files of a directory. -/
structure CounterFiles where
  idcount : Option Nat
  stmtcount : Option Int
  funcount : Option Nat
  deriving DecidableEq

/-- A directory without counter files. -/
def noCounterFiles : CounterFiles where
  idcount := none
  stmtcount := none
  funcount := none

/-- `readCounter`. -/
def readCounter {Number : Type} [Zero Number] (file : Option Number) : Number :=
  file.getD 0

/-- Whether an inserted call has an id: it is made by `mkInstCall`. -/
def RuntimeCall.isNumbered : RuntimeCall → Bool
  | .branchOnly _ => false
  | .rank _ => false
  | .rankNonDefaultComm1 _ => false
  | .rankNonDefaultComm2 _ _ => false
  | .worldSizeWithLimit _ _ => false
  | .getMPIInfo => false
  | _ => true

/-- How many ids the inserted calls of a file have. -/
def newIdCount (functions : List (Fundec Instrumented)) : Nat :=
  (functions.flatMap fun f => f.sbody.instrs).countP fun
    | .runtime c => c.isNumbered
    | .program _ => false

/-- A file after its statements are numbered, and after the visit. -/
structure Output where
  prepared : List (Fundec Instr)
  instrumented : List (Fundec Instrumented)

namespace Output

/-- The ids of the statements. -/
def sids (output : Output) : List Int :=
  fileSids output.prepared

/-- The pairs of the `if` statements of each function. -/
def conditionals (output : Output) : List (List (Option (BranchId × BranchId))) :=
  output.instrumented.map fun f => f.sbody.conditionals

/-- The pairs of the blocks of all `if` statements. -/
def branchPairs (output : Output) : List (BranchId × BranchId) :=
  output.prepared.flatMap fun f => CrestAll.blockBranchPairs f.sbody

end Output

/-- `fd_doit` of the heavy instrumenter. -/
def CrestAll.doit
    (files : CounterFiles)
    (source : List (Fundec Instr)) : CounterFiles × Output :=
  let stmtCount := readCounter files.stmtcount
  let visited := CrestAll.instrument stmtCount (readCounter files.funcount) source
  ({ idcount := some (readCounter files.idcount + newIdCount visited.2)
     stmtcount := some (numberFile stmtCount source)
     funcount := some visited.1.funCount },
    { prepared := prepareFile stmtCount source
      instrumented := visited.2 })

/-- `fd_doit` of the light instrumenter, which writes no counter. -/
def CrestBranch.doit
    (files : CounterFiles)
    (source : List (Fundec Instr)) : CounterFiles × Output :=
  let stmtCount := readCounter files.stmtcount
  (files,
    { prepared := prepareFile stmtCount source
      instrumented := CrestBranch.instrument stmtCount source })

/-- Run an instrumenter on one file after another. -/
def instrumentAll
    (doit : CounterFiles → List (Fundec Instr) → CounterFiles × Output) :
    CounterFiles → List (List (Fundec Instr)) → List Output
  | _, [] => []
  | files, source :: rest =>
      let done := doit files source
      done.2 :: instrumentAll doit done.1 rest

/--
The ids of the statements of different files differ, and every `if` statement
of all files has its own pair of branches.
-/
structure DistinctIds (outputs : List Output) : Prop where
  statements :
    outputs.Pairwise fun earlier later => earlier.sids.Disjoint later.sids
  branches :
    ∃ pairs,
      outputs.flatMap (fun output => output.conditionals.flatten) =
          pairs.map some ∧
        (BranchTables.idsOf pairs).Nodup

/-- Both instrumenters give distinct ids, and the same branches. -/
structure UniqueIds (sources : List (List (Fundec Instr))) : Prop where
  heavy : DistinctIds (instrumentAll CrestAll.doit noCounterFiles sources)
  light : DistinctIds (instrumentAll CrestBranch.doit noCounterFiles sources)
  same :
    (instrumentAll CrestBranch.doit noCounterFiles sources).map
        Output.conditionals =
      (instrumentAll CrestAll.doit noCounterFiles sources).map
        Output.conditionals

section Visits

/-- The pairs that the heavy instrumenter gives the `if`s of a function. -/
theorem conditionals_visitFile
    (functions : List (Fundec Instr))
    (seen : CrestAll.Seen) :
    (CrestAll.visitFile seen functions).2.map
        (fun f => f.sbody.conditionals) =
      functions.map fun f =>
        (CrestAll.blockBranchPairs f.sbody).map fun pair =>
          if shouldSkipFunction f.svar then none else some pair := by
  induction functions generalizing seen with
  | nil =>
      rfl
  | cons f rest inductionHypothesis =>
      simp only [CrestAll.visitFile, List.map_cons, inductionHypothesis]
      congr 1
      cases skipped : shouldSkipFunction f.svar with
      | true =>
          simp only [CrestAll.vfunc, skipped, if_true]
          exact conditionals_plainBlock f.sbody
      | false =>
          have visited :
              (CrestAll.visitor.visitBlock f.sbody).conditionals =
                (CrestAll.blockBranchPairs f.sbody).map some :=
            conditionals_visitBlock (fun _ _ => rfl) f.sbody
          simp only [CrestAll.vfunc, skipped, Bool.false_eq_true, if_false,
            conditionals_prependToBlock]
          split
          · exact visited
          · exact visited

/-- The pairs that the light instrumenter gives the `if`s of a function. -/
theorem conditionals_visitFileLight (functions : List (Fundec Instr)) :
    (CrestBranch.visitFile functions).map (fun f => f.sbody.conditionals) =
      functions.map fun f =>
        (CrestAll.blockBranchPairs f.sbody).map some := by
  rw [CrestBranch.visitFile, List.map_map]
  refine List.map_congr_left fun f _ => ?_
  exact conditionals_visitBlock (fun _ _ => rfl) f.sbody

end Visits

section Sequences

open BranchTables

/-- The branches of a prepared file are named by different statements. -/
theorem branchPairs_subperm
    (startId : Int)
    (source : List (Fundec Instr)) :
    (idsOf
        ((prepareFile startId source).flatMap fun f =>
          CrestAll.blockBranchPairs f.sbody)).Subperm
      (fileSids (prepareFile startId source)) := by
  induction source generalizing startId with
  | nil =>
      exact List.Subperm.refl _
  | cons f rest inductionHypothesis =>
      have first :=
        (blockBranchPairs_subperm startId f.sbody).trans
          (List.tail_sublist _).subperm
      have both :=
        first.append
          (inductionHypothesis (f.sbody.normalize.number startId).1)
      rw [← idsOf_append] at both
      exact both

/-- A file prepared from a count, whose `if`s have the pairs of their blocks. -/
structure Numbered (source : List (Fundec Instr)) (output : Output) : Prop where
  sids : ∃ startId, output.prepared = prepareFile startId source
  conditionals : output.conditionals.flatten = output.branchPairs.map some

theorem flatMap_conditionals
    {sources : List (List (Fundec Instr))}
    {outputs : List Output}
    (numbered : List.Forall₂ Numbered sources outputs) :
    outputs.flatMap (fun output => output.conditionals.flatten) =
        (outputs.flatMap Output.branchPairs).map some ∧
      (idsOf (outputs.flatMap Output.branchPairs)).Subperm
        (outputs.flatMap Output.sids) := by
  induction numbered with
  | nil =>
      exact ⟨rfl, List.Subperm.refl _⟩
  | @cons source output sources outputs first rest inductionHypothesis =>
      obtain ⟨startId, isPrepared⟩ := first.sids
      have subperm :
          (idsOf output.branchPairs).Subperm output.sids := by
        rw [Output.branchPairs, Output.sids, isPrepared]
        exact branchPairs_subperm startId source
      constructor
      · rw [List.flatMap_cons, List.flatMap_cons, List.map_append,
          first.conditionals, inductionHypothesis.1]
      · rw [List.flatMap_cons, List.flatMap_cons, idsOf_append]
        exact subperm.append inductionHypothesis.2

/-- If no statement id is given twice, all ids are distinct. -/
theorem distinctIds_of_nodup
    {sources : List (List (Fundec Instr))}
    {outputs : List Output}
    (numbered : List.Forall₂ Numbered sources outputs)
    (nodup : (outputs.flatMap Output.sids).Nodup) :
    DistinctIds outputs := by
  obtain ⟨conditionals, subperm⟩ := flatMap_conditionals numbered
  constructor
  · exact (List.nodup_flatMap.mp nodup).2
  · refine ⟨_, conditionals, ?_⟩
    obtain ⟨ids, isPerm, isSublist⟩ := subperm
    exact isPerm.nodup_iff.mp (nodup.sublist isSublist)

/-- No `if` statement is in a function that is left alone. -/
def InstrumentsIfs (source : List (Fundec Instr)) : Prop :=
  ∀ f ∈ source, shouldSkipFunction f.svar = true → ¬HasIf f.sbody.text

theorem instrumentsIfs_iff
    {source others : List (Fundec Instr)}
    (same : List.Forall₂ SameSkeleton source others) :
    InstrumentsIfs others ↔ InstrumentsIfs source := by
  induction same with
  | nil =>
      exact Iff.rfl
  | @cons f g rest others first _ inductionHypothesis =>
      simp only [InstrumentsIfs, List.forall_mem_cons] at inductionHypothesis ⊢
      rw [inductionHypothesis, first.svar, first.hasIf_iff]

theorem conditionals_light
    (files : CounterFiles)
    (source : List (Fundec Instr)) :
    (CrestBranch.doit files source).2.conditionals =
      (prepareFile (readCounter files.stmtcount) source).map fun f =>
        (CrestAll.blockBranchPairs f.sbody).map some :=
  conditionals_visitFileLight _

/-- The heavy instrumenter gives all `if`s their pairs if none is left alone. -/
theorem conditionals_heavy
    (files : CounterFiles)
    {source : List (Fundec Instr)}
    (instruments : InstrumentsIfs source) :
    (CrestAll.doit files source).2.conditionals =
      (prepareFile (readCounter files.stmtcount) source).map fun f =>
        (CrestAll.blockBranchPairs f.sbody).map some := by
  have prepared :=
    (instrumentsIfs_iff
      (sameSkeleton_prepareFile (readCounter files.stmtcount) source)).mpr
      instruments
  refine (conditionals_visitFile _ _).trans ?_
  refine List.map_congr_left fun f member => List.map_congr_left ?_
  intro pair isPair
  cases skipped : shouldSkipFunction f.svar with
  | false =>
      rfl
  | true =>
      exact absurd (hasIf_of_mem_blockBranchPairs _ isPair)
        (prepared f member skipped)

/-- If all `if`s of the heavy instrumenter have pairs, none is left alone. -/
theorem instrumentsIfs_of_pairs
    {files : CounterFiles}
    {source : List (Fundec Instr)}
    (pairs :
      none ∉ (CrestAll.doit files source).2.conditionals.flatten) :
    InstrumentsIfs source := by
  rw [← instrumentsIfs_iff
    (sameSkeleton_prepareFile (readCounter files.stmtcount) source)]
  intro f member skipped
  rw [← blockBranchPairs_eq_nil_iff, List.eq_nil_iff_forall_not_mem]
  intro pair isPair
  apply pairs
  have visited :
      (CrestAll.doit files source).2.conditionals =
        (prepareFile (readCounter files.stmtcount) source).map fun f =>
          (CrestAll.blockBranchPairs f.sbody).map fun pair =>
            if shouldSkipFunction f.svar then none else some pair :=
    conditionals_visitFile _ _
  rw [visited, List.mem_flatten]
  refine ⟨_, List.mem_map.mpr ⟨f, member, rfl⟩, ?_⟩
  exact List.mem_map.mpr ⟨pair, isPair, by rw [if_pos skipped]⟩

theorem numbered_of_conditionals
    {startId : Int}
    {source : List (Fundec Instr)}
    {output : Output}
    (prepared : output.prepared = prepareFile startId source)
    (conditionals :
      output.conditionals =
        (prepareFile startId source).map fun f =>
          (CrestAll.blockBranchPairs f.sbody).map some) :
    Numbered source output := by
  refine ⟨⟨startId, prepared⟩, ?_⟩
  rw [conditionals, Output.branchPairs, prepared, List.map_flatMap]
  rfl

/-- Files that are numbered one by one are numbered in a sequence. -/
theorem numbered_instrumentAll
    {doit : CounterFiles → List (Fundec Instr) → CounterFiles × Output}
    {sources : List (List (Fundec Instr))}
    (each : ∀ files, ∀ source ∈ sources, Numbered source (doit files source).2)
    (files : CounterFiles) :
    List.Forall₂ Numbered sources (instrumentAll doit files sources) := by
  induction sources generalizing files with
  | nil =>
      exact List.Forall₂.nil
  | cons source rest inductionHypothesis =>
      refine List.Forall₂.cons (each files source List.mem_cons_self) ?_
      exact inductionHypothesis
        (fun files other member =>
          each files other (List.mem_cons_of_mem source member))
        _

/-- The heavy instrumenter numbers the statements of all files in a row. -/
theorem sids_heavy
    (files : CounterFiles)
    (sources : List (List (Fundec Instr))) :
    (instrumentAll CrestAll.doit files sources).flatMap Output.sids =
      consecutive (readCounter files.stmtcount)
        (sources.map statementCount).sum := by
  induction sources generalizing files with
  | nil =>
      rfl
  | cons source rest inductionHypothesis =>
      obtain ⟨ids, count⟩ :=
        ids_prepareFile (readCounter files.stmtcount) source
      rw [instrumentAll, List.flatMap_cons, inductionHypothesis, List.map_cons,
        List.sum_cons, consecutive_add, ← count, ← ids]
      rfl

/-- The light instrumenter starts each file from the same counters. -/
theorem instrumentAll_light
    (files : CounterFiles)
    (sources : List (List (Fundec Instr))) :
    instrumentAll CrestBranch.doit files sources =
      sources.map fun source => (CrestBranch.doit files source).2 := by
  induction sources with
  | nil =>
      rfl
  | cons source rest inductionHypothesis =>
      rw [instrumentAll, List.map_cons, ← inductionHypothesis]
      rfl

/-- At most one of the files has statements. -/
def AtMostOne (sources : List (List (Fundec Instr))) : Prop :=
  sources.Pairwise fun earlier later =>
    statementCount earlier = 0 ∨ statementCount later = 0

/-- Ids from one start are disjoint only if there are none on one side. -/
theorem disjoint_consecutive_iff
    {startId : Int}
    {first second : Nat} :
    (consecutive startId first).Disjoint (consecutive startId second) ↔
      first = 0 ∨ second = 0 := by
  constructor
  · intro disjoint
    by_contra bothPositive
    rw [not_or] at bothPositive
    refine @disjoint (startId + 1) ?_ ?_
    · exact mem_consecutive.mpr (by omega)
    · exact mem_consecutive.mpr (by omega)
  · rintro (rfl | rfl)
    · exact List.disjoint_nil_left _
    · exact List.disjoint_nil_right _

/-- The statement ids of the light instrumenter. -/
theorem statements_light_iff (sources : List (List (Fundec Instr))) :
    ((instrumentAll CrestBranch.doit noCounterFiles sources).Pairwise
        fun earlier later => earlier.sids.Disjoint later.sids) ↔
      AtMostOne sources := by
  rw [instrumentAll_light, List.pairwise_map, AtMostOne]
  refine List.Pairwise.iff fun {first second} => ?_
  have ids (source : List (Fundec Instr)) :
      (CrestBranch.doit noCounterFiles source).2.sids =
        consecutive 0 (statementCount source) :=
    (ids_prepareFile 0 source).1
  rw [ids, ids]
  exact disjoint_consecutive_iff

/-- A file without statements is prepared in the same way from every count. -/
theorem prepareFile_of_empty
    {source : List (Fundec Instr)}
    (empty : statementCount source = 0)
    (startId other : Int) :
    prepareFile startId source = prepareFile other source := by
  induction source generalizing startId other with
  | nil =>
      rfl
  | cons f rest inductionHypothesis =>
      obtain ⟨noneHere, noneLater⟩ := Nat.add_eq_zero_iff.mp empty
      have noStatements : f.sbody.normalize = .nil := by
        cases body : f.sbody.normalize with
        | nil =>
            rfl
        | cons s later =>
            rw [body] at noneHere
            cases noneHere
      simp only [prepareFile, noStatements, Block.number]
      rw [inductionHypothesis noneLater startId other]

/-- With one file at most that has statements, both number it alike. -/
theorem same_of_atMostOne
    {files : CounterFiles}
    {sources : List (List (Fundec Instr))}
    (atMostOne : AtMostOne sources)
    (instruments : ∀ source ∈ sources, InstrumentsIfs source)
    (fresh :
      readCounter files.stmtcount = 0 ∨
        ∀ source ∈ sources, statementCount source = 0) :
    (instrumentAll CrestBranch.doit noCounterFiles sources).map
        Output.conditionals =
      (instrumentAll CrestAll.doit files sources).map Output.conditionals := by
  induction sources generalizing files with
  | nil =>
      rfl
  | cons source rest inductionHypothesis =>
      obtain ⟨oneHere, oneLater⟩ := List.pairwise_cons.mp atMostOne
      obtain ⟨here, later⟩ := List.forall_mem_cons.mp instruments
      have sameStart :
          prepareFile 0 source =
            prepareFile (readCounter files.stmtcount) source := by
        rcases fresh with isZero | allEmpty
        · rw [isZero]
        · exact prepareFile_of_empty
            (allEmpty source List.mem_cons_self) 0 _
      have freshLater :
          readCounter (CrestAll.doit files source).1.stmtcount = 0 ∨
            ∀ other ∈ rest, statementCount other = 0 := by
        by_cases empty : statementCount source = 0
        · have count :
              numberFile (readCounter files.stmtcount) source =
                readCounter files.stmtcount := by
            rw [(ids_prepareFile _ source).2, empty]
            exact Int.add_zero _
          exact fresh.imp count.trans
            fun allEmpty => (List.forall_mem_cons.mp allEmpty).2
        · exact Or.inr fun other member =>
            (oneHere other member).resolve_left empty
      simp only [instrumentAll, List.map_cons]
      rw [conditionals_heavy files here, conditionals_light, ← sameStart]
      exact congrArg _ (inductionHypothesis oneLater later freshLater)

/-- Every file of a sequence is instrumented from some counters. -/
theorem mem_instrumentAll
    {doit : CounterFiles → List (Fundec Instr) → CounterFiles × Output}
    {sources : List (List (Fundec Instr))}
    {source : List (Fundec Instr)}
    (member : source ∈ sources)
    (files : CounterFiles) :
    ∃ current, (doit current source).2 ∈ instrumentAll doit files sources := by
  induction sources generalizing files with
  | nil =>
      cases member
  | cons first rest inductionHypothesis =>
      rcases List.mem_cons.mp member with rfl | inRest
      · exact ⟨files, List.mem_cons_self⟩
      · obtain ⟨current, isOutput⟩ :=
          inductionHypothesis inRest (doit files first).1
        exact ⟨current, List.mem_cons_of_mem _ isOutput⟩

/--
The ids are unique exactly if at most one of the files has statements and no
`if` statement is in a function that is left alone.
-/
theorem uniqueIds_iff (sources : List (List (Fundec Instr))) :
    UniqueIds sources ↔
      AtMostOne sources ∧ ∀ source ∈ sources, InstrumentsIfs source := by
  constructor
  · intro unique
    refine ⟨(statements_light_iff sources).mp unique.light.statements, ?_⟩
    intro source member
    obtain ⟨files, isOutput⟩ := mem_instrumentAll member noCounterFiles
    obtain ⟨pairs, allPaired, _⟩ := unique.heavy.branches
    apply instrumentsIfs_of_pairs
    intro unpaired
    have inPairs : none ∈ pairs.map some := by
      rw [← allPaired]
      exact List.mem_flatMap.mpr ⟨_, isOutput, unpaired⟩
    obtain ⟨pair, _, impossible⟩ := List.mem_map.mp inPairs
    cases impossible
  · rintro ⟨atMostOne, instruments⟩
    constructor
    · refine distinctIds_of_nodup
        (numbered_instrumentAll (fun files source member => ?_) _) ?_
      · exact numbered_of_conditionals rfl
          (conditionals_heavy files (instruments source member))
      · rw [sids_heavy]
        exact nodup_consecutive _ _
    · refine distinctIds_of_nodup
        (numbered_instrumentAll (fun files source _ => ?_) _) ?_
      · exact numbered_of_conditionals rfl (conditionals_light files source)
      · refine List.nodup_flatMap.mpr
          ⟨?_, (statements_light_iff sources).mpr atMostOne⟩
        intro output isOutput
        rw [instrumentAll_light] at isOutput
        obtain ⟨source, _, rfl⟩ := List.mem_map.mp isOutput
        have ids := (ids_prepareFile 0 source).1
        show (fileSids (prepareFile 0 source)).Nodup
        rw [ids]
        exact nodup_consecutive _ _
    · exact same_of_atMostOne atMostOne instruments (Or.inl rfl)

end Sequences

section TwoFiles

/-- A variable of type `int`. -/
def intVariable (name : String) : Varinfo where
  vname := name
  vtype := .int .int
  vglob := false
  vattr := []

/-- A file with a function that sets its result to 1 if its argument is not 0. -/
def branchingFile (name : String) : List (Fundec Instr) :=
  [{ svar :=
       { vname := name
         vtype := .fn (.int .int) false
         vglob := true
         vattr := [] }
     sformals := [intVariable "x"]
     sbody :=
       .cons
         (.ite (-1) [] (.lval (.var (intVariable "x") .noOffset))
           (.cons
             (.instr (-1) []
               [.set (.var (intVariable "r") .noOffset)
                 (.const (.int64 1 .int))]) .nil)
           .nil)
         (.cons
           (.ret (-1) [] (some (.lval (.var (intVariable "r") .noOffset))))
           .nil) }]

/--
The light instrumenter gives the second file the ids of the first one, and
other branches than the heavy instrumenter.
-/
theorem not_uniqueIds_twoFiles :
    (instrumentAll CrestBranch.doit noCounterFiles
        [branchingFile "f", branchingFile "g"]).map Output.sids =
        [[1, 2, 3, 4], [1, 2, 3, 4]] ∧
      (instrumentAll CrestBranch.doit noCounterFiles
          [branchingFile "f", branchingFile "g"]).map Output.conditionals =
        [[[some (2, 3)]], [[some (2, 3)]]] ∧
      (instrumentAll CrestAll.doit noCounterFiles
          [branchingFile "f", branchingFile "g"]).map Output.conditionals =
        [[[some (2, 3)]], [[some (6, 7)]]] ∧
      ¬UniqueIds [branchingFile "f", branchingFile "g"] := by
  have light :
      (instrumentAll CrestBranch.doit noCounterFiles
          [branchingFile "f", branchingFile "g"]).map Output.conditionals =
        [[[some (2, 3)]], [[some (2, 3)]]] := by
    decide +kernel
  have heavy :
      (instrumentAll CrestAll.doit noCounterFiles
          [branchingFile "f", branchingFile "g"]).map Output.conditionals =
        [[[some (2, 3)]], [[some (6, 7)]]] := by
    decide +kernel
  refine ⟨by decide +kernel, light, heavy, ?_⟩
  intro unique
  have same := unique.same
  rw [light, heavy] at same
  exact absurd same (by decide)

end TwoFiles

end Compi.Cil
