import Compi.BranchNodes
import Compi.ReconstructedTables

/-!
# The branches of instrumented files

The file of branches that the heavy instrumenter leaves, run after run, is one
whose tables a search reconstructs.
-/

namespace Compi.Cil

open BranchTables BranchesFile

/-- The pairs that are added for each function that is not skipped. -/
def Output.visitedPairs (output : Output) : List Pairs :=
  (output.prepared.filter fun f => !shouldSkipFunction f.svar).map
    fun f => CrestAll.blockBranchPairs f.sbody

/-- The entries that the runs over some files append. -/
def appendedEntries :
    CounterFiles → List (List (Fundec Instr)) → List (Nat × Pairs)
  | _, [] => []
  | files, source :: rest =>
      let visited :=
        CrestAll.instrument (readCounter files.stmtcount)
          (readCounter files.funcount) source
      sortedEntries visited.1 ++
        appendedEntries (CrestAll.doit files source).1 rest

/-- A visit adds the pairs of the functions that it does not skip. -/
theorem seen_visitFile
    (seen : CrestAll.Seen)
    (functions : List (Fundec Instr)) :
    (CrestAll.visitFile seen functions).1 =
      visitFunctions seen
        ((functions.filter fun f => !shouldSkipFunction f.svar).map
          fun f => CrestAll.blockBranchPairs f.sbody) := by
  induction functions generalizing seen with
  | nil =>
      rfl
  | cons f rest inductionHypothesis =>
      show (CrestAll.visitFile (CrestAll.vfunc seen f).1 rest).1 = _
      rw [inductionHypothesis]
      cases skipped : shouldSkipFunction f.svar with
      | true =>
          rw [List.filter_cons_of_neg (by simp [skipped]), CrestAll.vfunc,
            if_pos skipped]
      | false =>
          rw [List.filter_cons_of_pos (by simp [skipped]), CrestAll.vfunc,
            if_neg (by simp [skipped])]
          rfl

/-- The runs append the entries of the functions that they visit. -/
theorem appendedEntries_eq
    (files : CounterFiles)
    (sources : List (List (Fundec Instr))) :
    appendedEntries files sources =
      entriesOf (readCounter files.funcount)
        ((instrumentAll CrestAll.doit files sources).map
          Output.visitedPairs) := by
  induction sources generalizing files with
  | nil =>
      rfl
  | cons source rest inductionHypothesis =>
      have seen :
          (CrestAll.instrument (readCounter files.stmtcount)
              (readCounter files.funcount) source).1 =
            visitFunctions (.start (readCounter files.funcount))
              (CrestAll.doit files source).2.visitedPairs :=
        seen_visitFile _ _
      rw [appendedEntries, inductionHypothesis, instrumentAll, List.map_cons,
        entriesOf, ← seen]
      rfl

/-- The branches of visited functions are branches of the files. -/
theorem visitedPairs_sublist (outputs : List Output) :
    ((outputs.map Output.visitedPairs).flatten.flatMap idsOf).Sublist
      (idsOf (outputs.flatMap Output.branchPairs)) := by
  induction outputs with
  | nil =>
      exact List.Sublist.refl _
  | cons output rest inductionHypothesis =>
      rw [List.map_cons, List.flatten_cons, List.flatMap_append,
        List.flatMap_cons, idsOf_append]
      refine List.Sublist.append ?_ inductionHypothesis
      rw [Output.visitedPairs, List.flatMap_map, Output.branchPairs, idsOf,
        List.flatMap_assoc]
      exact List.filter_sublist.flatMap _

/-- No more functions are visited than there are in the files. -/
theorem length_visitedPairs_le
    (files : CounterFiles)
    (sources : List (List (Fundec Instr))) :
    ((instrumentAll CrestAll.doit files sources).map
        Output.visitedPairs).flatten.length ≤
      (sources.map List.length).sum := by
  induction sources generalizing files with
  | nil =>
      exact Nat.le_refl 0
  | cons source rest inductionHypothesis =>
      have here :
          (CrestAll.doit files source).2.visitedPairs.length ≤
            source.length := by
        rw [Output.visitedPairs, List.length_map]
        refine (List.length_filter_le _ _).trans (Nat.le_of_eq ?_)
        exact
          (sameSkeleton_prepareFile (readCounter files.stmtcount)
            source).length_eq.symm
      rw [instrumentAll, List.map_cons, List.flatten_cons, List.length_append,
        List.map_cons, List.sum_cons]
      exact Nat.add_le_add here (inductionHypothesis _)

/--
Unless there are too many statements or functions for an `int`, the branches
of instrumented files are recorded so that a search reconstructs them.
-/
theorem recorded_instrumentAll
    {sources : List (List (Fundec Instr))}
    (fewStatements : (sources.map statementCount).sum < 2 ^ 31 - 1)
    (fewFunctions : (sources.map List.length).sum < 2 ^ 31) :
    Recorded
      ((instrumentAll CrestAll.doit noCounterFiles sources).map
        Output.visitedPairs) := by
  have sublist :=
    visitedPairs_sublist
      (instrumentAll CrestAll.doit noCounterFiles sources)
  have subperm :=
    sublist.subperm.trans (branchPairs_instrumentAll_subperm sources)
  have inRange :
      ∀ bid ∈
          ((instrumentAll CrestAll.doit noCounterFiles sources).map
            Output.visitedPairs).flatten.flatMap idsOf,
        0 < bid ∧ bid < 2 ^ 31 - 1 := by
    intro bid member
    obtain ⟨above, below⟩ := mem_consecutive.mp (subperm.subset member)
    refine ⟨above, Int.lt_of_le_of_lt below ?_⟩
    omega
  constructor
  · constructor
    · obtain ⟨ids, isPerm, isSublist⟩ := subperm
      exact isPerm.nodup_iff.mp ((nodup_consecutive 0 _).sublist isSublist)
    · intro bid member
      exact ⟨Int.le_of_lt (inRange bid member).1, (inRange bid member).2⟩
  · intro bid member
    exact (inRange bid member).1
  · exact Nat.lt_of_le_of_lt (length_visitedPairs_le noCounterFiles sources)
      fewFunctions

end Compi.Cil
