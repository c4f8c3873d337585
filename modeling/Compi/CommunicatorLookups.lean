import Compi.SolvedCaps

/-!
# Lookups in recorded communicators

The two calls that mark a rank in another communicator record the members of
the communicator, and its size as the limit of the rank.  After solving, the
rank is looked up among the members.
-/

namespace Compi

open SymbolicInterpreter

/-- A call of a pair, or one with the same effect. -/
def TargetCall.isOfPair (call : TargetCall) : Bool :=
  call.patches ||
    call.marking?.any fun marking =>
      decide (marking.list = some .rankNonDefaultComm)

/-- A call of the target, or the two calls for a rank in a communicator. -/
inductive PairedCall where
  | other (call : TargetCall)
  | rankNonDefaultComm
      (first second : Circumstances)
      (comm addr : Cil.Exp)

/--
One call.  A communicator has a size that is an `int`, and if the process is
under test then the maximum over the members is its own rank, which is not
negative.
-/
def PairedCall.step (crest : Crest) : PairedCall → Option Crest
  | .other call => if call.isOfPair then none else crest.step call
  | .rankNonDefaultComm first second comm addr =>
      if second.gathered.length < 2 ^ 31 ∧
          (crest.si.rank = crest.si.targetRank → 0 ≤ second.focus) then
        (crest.perform first (.rankNonDefaultComm1 addr)).bind fun marked =>
          marked.perform second (.rankNonDefaultComm2 comm addr)
      else
        none

/--
A communicator is recorded for each rank in the list, and the rank is an
unsigned integer with the size of the communicator as its limit.
-/
structure Mapped (ex : SymbolicExecution) : Prop where
  lengths :
    ex.rankNonDefaultCommMap.length = ex.rankNonDefaultCommIndices.length
  sizes :
    ∀ (i : Nat) (id : Id) (members : List Value),
      ex.rankNonDefaultCommIndices[i]? = some id →
      ex.rankNonDefaultCommMap[i]? = some members →
      ex.limits.lookup id = some (members.length : Value) ∧
        ex.vars[id.toNat]? = some .uInt ∧ members.length < 2 ^ 31

section Recording

variable {ex after : SymbolicExecution} {n : Nat}

/-- What is recorded of other variables does not matter. -/
theorem Mapped.of_lists
    (mapped : Mapped ex)
    (indices :
      after.rankNonDefaultCommIndices = ex.rankNonDefaultCommIndices)
    (communicators :
      after.rankNonDefaultCommMap = ex.rankNonDefaultCommMap)
    (limits :
      ∀ id ∈ ex.rankNonDefaultCommIndices,
        after.limits.lookup id = ex.limits.lookup id)
    (vars :
      ∀ id ∈ ex.rankNonDefaultCommIndices,
        after.vars[id.toNat]? = ex.vars[id.toNat]?) :
    Mapped after where
  lengths := by
    rw [indices, communicators]
    exact mapped.lengths
  sizes := by
    rw [indices, communicators]
    intro i id members isId isMembers
    have listed := List.mem_of_getElem? isId
    rw [limits id listed, vars id listed]
    exact mapped.sizes i id members isId isMembers

/-- A new variable does not change the limits of the others. -/
theorem lookup_limitsAfter
    {si : SymbolicInterpreter}
    {id : Id}
    (isIndex : IsIndex si.numInputs id)
    (marking : Marking) :
    (si.limitsAfter marking).lookup id = si.ex.limits.lookup id := by
  unfold limitsAfter
  split
  · refine AList.lookup_insert_ne ?_
    exact ne_of_lt isIndex.2
  · rfl

/-- A new variable does not change the types of the others. -/
theorem getElem?_insertIfNew_old
    {vars : OrderedMap Var CType}
    {v : Var}
    (old : v ≠ n)
    (type : CType) :
    (vars.insertIfNew n type)[v]? = vars[v]? := by
  rw [Std.ExtTreeMap.getElem?_insertIfNew, if_neg]
  rintro ⟨same, -⟩
  exact old (Nat.compare_eq_eq.mp same).symm

/-- A marking call that enters no rank in another communicator. -/
theorem Mapped.records
    {si next : SymbolicInterpreter}
    {marking : Marking}
    {ret : Value}
    (mapped : Mapped si.ex)
    (indexed : Indexed si.numInputs si.ex)
    (records : Records si marking ret next)
    (unlisted :
      ¬(si.targetRank = si.rank ∧
        marking.list = some .rankNonDefaultComm)) :
    Mapped next.ex := by
  have isIndex := indexed.indices .rankNonDefaultComm
  refine mapped.of_lists ?_ records.rankNonDefaultCommMap ?_ ?_
  · rw [records.rankNonDefaultCommIndices, listAfter, if_neg unlisted]
  · intro id listed
    rw [records.limits]
    exact lookup_limitsAfter (isIndex id listed) marking
  · intro id listed
    rw [records.vars]
    exact getElem?_insertIfNew_old (isIndex id listed).toNat_lt.ne
      marking.type

/-- The patch for a process that is not under test, or has no focus. -/
theorem rankNonDefaultComm2_of_other
    {crest : Crest}
    (here : Circumstances)
    (addr : Cil.Exp)
    (other : crest.si.rank ≠ crest.si.targetRank) :
    crest.rankNonDefaultComm2 here addr = crest := by
  simp [Crest.rankNonDefaultComm2, other]

/-- A pair of calls of the process under test. -/
theorem Mapped.pair
    {si : SymbolicInterpreter}
    {crest : Crest}
    {marking : Marking}
    {ret : Value}
    {here : Circumstances}
    (mapped : Mapped si.ex)
    (indexed : Indexed si.numInputs si.ex)
    (records : Records si marking ret crest.si)
    (isUInt : marking.type = .uInt)
    (unlimited : marking.limit = none)
    (listed : marking.list = some .rankNonDefaultComm)
    (isTarget : si.rank = si.targetRank)
    (hasFocus : 0 ≤ here.focus)
    (fits : here.gathered.length < 2 ^ 31)
    (addr : Cil.Exp) :
    Mapped (crest.rankNonDefaultComm2 here addr).si.ex := by
  have isIndex := indexed.indices .rankNonDefaultComm
  have stillTarget : crest.si.rank = crest.si.targetRank := by
    rw [records.rank, records.targetRank, isTarget]
  have isLast : crest.si.numInputs - 1 = si.numInputs := by
    rw [records.numInputs, Nat.add_sub_cancel]
  have indices :
      crest.si.ex.rankNonDefaultCommIndices =
        si.ex.rankNonDefaultCommIndices ++ [(si.numInputs : Id)] := by
    rw [records.rankNonDefaultCommIndices, listAfter,
      if_pos ⟨isTarget.symm, listed⟩]
  have limits : crest.si.ex.limits = si.ex.limits := by
    rw [records.limits, limitsAfter, unlimited]
  have isNew : si.numInputs ∉ si.ex.vars := by
    rw [← Std.ExtTreeMap.mem_keys, indexed.keys, List.mem_range]
    exact lt_irrefl _
  unfold Crest.rankNonDefaultComm2
  rw [if_neg (not_lt.mpr hasFocus), if_pos stillTarget]
  constructor
  · simp only [indices, records.rankNonDefaultCommMap, List.length_append,
      List.length_singleton, mapped.lengths]
  · simp only [indices, records.rankNonDefaultCommMap, records.vars, limits,
      isLast, isUInt]
    intro i id members isId isMembers
    rcases getElem?_concat_cases isId with isOldId | ⟨isLastId, rfl⟩
    · have listed := List.mem_of_getElem? isOldId
      have inBounds : i < si.ex.rankNonDefaultCommMap.length := by
        rw [mapped.lengths]
        exact (List.getElem?_eq_some_iff.mp isOldId).1
      rw [List.getElem?_append_left inBounds] at isMembers
      rw [AList.lookup_insert_ne (ne_of_lt (isIndex id listed).2),
        getElem?_insertIfNew_old (isIndex id listed).toNat_lt.ne]
      exact mapped.sizes i id members isOldId isMembers
    · rw [isLastId, ← mapped.lengths, List.getElem?_concat_length] at isMembers
      obtain rfl := Option.some.inj isMembers
      refine ⟨AList.lookup_insert _, ?_, fits⟩
      rw [Int.toNat_natCast]
      rw [Std.ExtTreeMap.getElem?_insertIfNew,
        if_pos ⟨Nat.compare_eq_eq.mpr rfl, isNew⟩]

end Recording

section Runs

variable {crest next : Crest}

/-- The record of a process stays within what it has marked and mapped. -/
structure Crest.Records (crest : Crest) : Prop where
  markedOnly : crest.si.MarkedOnly
  mapped : Mapped crest.si.ex

theorem Crest.records_start
    (input : List Value)
    (execTimes : Nat)
    (rank targetRank worldSize : Int) :
    (start input execTimes rank targetRank worldSize).Records where
  markedOnly := markedOnly_fresh input execTimes rank targetRank worldSize
  mapped :=
    { lengths := rfl
      sizes := by
        intro i id members isId
        cases isId }

/-- A call outside of the pairs. -/
theorem Crest.Records.other
    {call : TargetCall}
    (records : crest.Records)
    (unpaired : call.isOfPair = false)
    (stepped : crest.step call = some next) :
    next.Records := by
  have indexed := records.markedOnly.record
  obtain ⟨unpatched, unlisted⟩ := Bool.or_eq_false_iff.mp unpaired
  refine ⟨markedOnly_step records.markedOnly stepped, ?_⟩
  cases effect_of_step stepped with
  | marks event marking isEvent isMarking eventStepped =>
      refine records.mapped.records indexed
        (records_of_step isMarking eventStepped) ?_
      have isMarked : call.marking? = some marking := by
        rw [TargetCall.marking?, isEvent]
        exact isMarking
      rw [isMarked] at unlisted
      exact fun both => of_decide_eq_false unlisted both.2
  | patches unmarked isPatch marked here addr isNext =>
      rw [isPatch] at unpatched
      cases unpatched
  | leaves unmarked leaves =>
      rw [leaves.ex]
      refine records.mapped.of_lists rfl rfl ?_ ?_
      · exact fun _ _ => rfl
      · exact fun _ _ => rfl

theorem Crest.step_of_mark
    {event : Event}
    (marked : crest.mark event = some next) :
    crest.si.step event = some next.si := by
  obtain ⟨si, stepped, rfl⟩ := Option.map_eq_some_iff.mp marked
  exact stepped

/-- A pair of calls. -/
theorem Crest.Records.pair
    {first second : Circumstances}
    {comm addr : Cil.Exp}
    (records : crest.Records)
    (stepped :
      PairedCall.step crest (.rankNonDefaultComm first second comm addr) =
        some next) :
    next.Records := by
  simp only [PairedCall.step] at stepped
  split at stepped
  · next possible =>
      obtain ⟨fits, hasFocus⟩ := possible
      obtain ⟨marked, isMarked, patched⟩ := Option.bind_eq_some_iff.mp stepped
      obtain rfl := Option.some.inj patched
      obtain ⟨markedOnly, mapped⟩ := records
      have indexed := markedOnly.record
      have eventStepped :
          crest.si.step
              (.newInputRankNonDefaultComm .uInt (first.addr addr)) =
            some marked.si :=
        Crest.step_of_mark isMarked
      have recorded :
          SymbolicInterpreter.Records crest.si
            { type := .uInt
              addr := first.addr addr
              limit := none
              list := some .rankNonDefaultComm }
            (crest.si.returned
              (.newInputRankNonDefaultComm .uInt (first.addr addr)))
            marked.si :=
        records_of_step rfl eventStepped
      have keepsMarked : marked.si.MarkedOnly :=
        markedOnly.step eventStepped
      have someMarked : 0 < marked.si.numInputs := by
        rw [recorded.numInputs]
        exact Nat.succ_pos _
      refine ⟨Crest.markedOnly_rankNonDefaultComm2 keepsMarked someMarked
        second addr, ?_⟩
      by_cases isTarget : crest.si.rank = crest.si.targetRank
      · exact mapped.pair indexed recorded rfl rfl rfl isTarget
          (hasFocus isTarget) fits addr
      · have other : marked.si.rank ≠ marked.si.targetRank := by
          rw [recorded.rank, recorded.targetRank]
          exact isTarget
        rw [rankNonDefaultComm2_of_other second addr other]
        exact mapped.records indexed recorded fun both =>
          isTarget both.1.symm
  · cases stepped

/-- One call of the process, in a pair or not. -/
theorem Crest.Records.step
    {call : PairedCall}
    (records : crest.Records)
    (stepped : PairedCall.step crest call = some next) :
    next.Records := by
  cases call with
  | other call =>
      simp only [PairedCall.step] at stepped
      split at stepped
      · cases stepped
      · next unpaired =>
          exact records.other (Bool.eq_false_iff.mpr unpaired) stepped
  | rankNonDefaultComm first second comm addr =>
      exact records.pair stepped

/-- Every run records within what it has marked and mapped. -/
theorem Crest.records_of_run
    {input : List Value}
    {execTimes : Nat}
    {rank targetRank worldSize : Int}
    {calls : List PairedCall}
    (ran :
      PartialRun.run? PairedCall.step
        (start input execTimes rank targetRank worldSize) calls =
          some crest) :
    crest.Records :=
  PartialRun.run?_invariant
    (fun records _ stepped => records.step stepped)
    (records_start input execTimes rank targetRank worldSize)
    (PartialRun.along_true _ calls) ran

end Runs

namespace Search

section Lookups

variable (search : Search) (ex : SymbolicExecution)

/--
A solution changes a variable only to a value of its type with which the path
constraints before the branch, the negated one and the MPI constraints on it
hold.
-/
structure IsSolution
    (ex : SymbolicExecution)
    (branchIdx : Nat)
    (soln : OrderedMap Var Value) : Prop where
  declared : ∀ v ∈ soln, v ∈ ex.vars
  solves :
    ∃ c,
      ex.path.constraints[branchIdx]? = some c ∧
        ∀ v,
          YicesSolver.updated soln (assignmentOf ex.inputs) v =
              assignmentOf ex.inputs v ∨
            (∀ p ∈
                ex.path.constraints.take branchIdx ++ [c.negate] ++
                  YicesSolver.generateConstraintsMPI ex,
              v ∈ p.vars →
              p.holds
                  (YicesSolver.updated soln (assignmentOf ex.inputs)) =
                true) ∧
              ∀ type : CType,
                ex.vars[v]? = some type →
                type.InRange
                  (YicesSolver.updated soln (assignmentOf ex.inputs) v)

/-- The answers of a sound decision procedure are solutions. -/
theorem isSolution_of_answered
    {solve : YicesSolver.Solve}
    (sound : YicesSolver.SoundSolver solve)
    {n : Nat}
    {ex : SymbolicExecution}
    (indexed : Indexed n ex)
    {branchIdx : Nat}
    {c : SymbolicPred}
    (found : ex.path.constraints[branchIdx]? = some c)
    {soln : OrderedMap Var Value}
    (answered :
      YicesSolver.incrementalSolve solve
          (YicesSolver.generateConstraintsMPI ex) ex.inputs ex.vars
          (ex.path.constraints.take branchIdx) c.negate =
        some (some soln)) :
    IsSolution ex branchIdx soln := by
  have declared := (indexed.inRange_system found).declared
  exact
    { declared :=
        (YicesSolver.incrementalSolve_holds sound indexed.keys declared
          answered).1
      solves :=
        ⟨c, found,
          YicesSolver.incrementalSolve_cases sound indexed.keys declared
            answered⟩ }

/-- One step of the merging of a solution. -/
def mergeEntry
    (input : List Value)
    (entry : Var × Value) : Option (List Value) :=
  let input := input.set entry.1 entry.2
  if search.numIters > 100 then
    search.rewriteRanks ex (search.originalRanks ex) input
  else
    some input

/--
The communicator and the rank that are looked up with the given inputs, if
any, are recorded.
-/
def LookupInRange (input : List Value) : Prop :=
  ∀ x,
    search.changedRank? (search.originalRanks ex) input = some x →
      x < ex.rankNonDefaultCommMap.length ∧
        0 ≤ search.newRank input x ∧
        search.newRank input x < (ex.rankNonDefaultCommMap.getD x []).length

/-- All lookups of the merging of a solution are in range. -/
def LookupsInRange (soln : OrderedMap Var Value) : Prop :=
  search.numIters > 100 →
    ∀ done entry rest,
      soln.toList = done ++ entry :: rest →
      ∀ input,
        done.foldlM (search.mergeEntry ex) ex.inputs = some input →
        search.LookupInRange ex (input.set entry.1 entry.2)

end Lookups

section Merging

variable {search : Search} {ex : SymbolicExecution} {n : Nat}

theorem globalRank?_isSome_iff (x : Nat) (y : Int) :
    (globalRank? ex x y).isSome = true ↔
      x < ex.rankNonDefaultCommMap.length ∧
        0 ≤ y ∧ y < (ex.rankNonDefaultCommMap.getD x []).length := by
  unfold globalRank?
  split
  · next negative =>
      simp [not_le.mpr negative]
  · next nonneg =>
      by_cases recorded : x < ex.rankNonDefaultCommMap.length
      · simp only [List.getElem?_eq_getElem recorded, Option.bind_some,
          List.getD_eq_getElem?_getD, Option.getD_some, recorded, true_and,
          not_lt.mp nonneg, isSome_getElem?]
        exact Int.toNat_lt (not_lt.mp nonneg)
      · simp [recorded]

/-- The rewriting succeeds where its lookup is in range. -/
theorem rewriteRanks_isSome_iff (input : List Value) :
    (search.rewriteRanks ex (search.originalRanks ex) input).isSome = true ↔
      search.LookupInRange ex input := by
  unfold LookupInRange
  cases changed :
      search.changedRank? (search.originalRanks ex) input with
  | none =>
      rw [rewriteRanks_of_unchanged changed]
      simp
  | some x =>
      rw [rewriteRanks_of_changed changed, Option.isSome_map,
        globalRank?_isSome_iff]
      simp

/-- The lookups are in range where the last one is. -/
theorem lookupsInRange_iff_last
    (listsApart : search.ListsApart)
    (late : search.numIters > 100)
    (soln : OrderedMap Var Value) :
    search.LookupsInRange ex soln ↔
      search.LookupInRange ex (solvedInput ex soln) := by
  rw [← rewriteRanks_isSome_iff, ← mergeSolution_of_late listsApart late]
  have merges :
      search.mergeSolution ex soln =
        soln.toList.foldlM (search.mergeEntry ex) ex.inputs := by
    rfl
  rw [merges, PartialRun.foldlM_isSome_iff]
  unfold LookupsInRange
  simp only [late, forall_const]
  refine forall₃_congr fun done entry rest => forall_congr' fun _ => ?_
  refine forall₂_congr fun input _ => ?_
  rw [← rewriteRanks_isSome_iff, mergeEntry, if_pos late]

/--
A rank that a solution has changed denotes at most the size of a communicator
that is recorded.
-/
theorem changed_bounds
    (few : n ≤ 2 ^ 32)
    (indexed : Indexed n ex)
    (mapped : Mapped ex)
    (sameIndices :
      search.rankNonDefaultCommIndices = ex.rankNonDefaultCommIndices)
    {branchIdx : Nat}
    {soln : OrderedMap Var Value}
    (solution : IsSolution ex branchIdx soln)
    {x : Nat}
    (changed :
      search.changedRank? (search.originalRanks ex) (solvedInput ex soln) =
        some x) :
    ∃ members,
      ex.rankNonDefaultCommMap[x]? = some members ∧
        members.length < 2 ^ 31 ∧
        0 ≤ inputAt (solvedInput ex soln)
          (search.rankNonDefaultCommIndices.getD x 0) ∧
        inputAt (solvedInput ex soln)
            (search.rankNonDefaultCommIndices.getD x 0) ≤
          members.length := by
  obtain ⟨inBounds, isChanged, -⟩ := changedRank?_eq_some_iff.mp changed
  rw [originalRanks_getD inBounds] at isChanged
  have listed := getD_mem inBounds
  rw [sameIndices] at inBounds isChanged listed ⊢
  have isRecorded : x < ex.rankNonDefaultCommMap.length := by
    rw [mapped.lengths]
    exact inBounds
  have isIndex := indexed.indices .rankNonDefaultComm _ listed
  have isId :
      ex.rankNonDefaultCommIndices[x]? =
        some (ex.rankNonDefaultCommIndices.getD x 0) := by
    rw [List.getD_eq_getElem?_getD, List.getElem?_eq_getElem inBounds,
      Option.getD_some]
  generalize ex.rankNonDefaultCommIndices.getD x 0 = id at *
  obtain ⟨isLimit, isUInt, fits⟩ :=
    mapped.sizes x id _ isId (List.getElem?_eq_getElem isRecorded)
  have covered :=
    covered_of_keys indexed.keys indexed.covered solution.declared
  have solved :
      inputAt (solvedInput ex soln) id =
        YicesSolver.updated soln (assignmentOf ex.inputs) id.toNat := by
    rw [← assignmentOf_solvedInput covered]
    rfl
  obtain ⟨c, -, solves⟩ := solution.solves
  rcases solves id.toNat with unchanged | ⟨holds, inRange⟩
  · rw [solved, unchanged] at isChanged
    exact absurd rfl isChanged
  · refine ⟨_, List.getElem?_eq_getElem isRecorded, fits, ?_, ?_⟩
    · rw [solved]
      exact (inRange .uInt isUInt).1
    · have small : id.toNat < 2 ^ 32 := lt_of_lt_of_le isIndex.toNat_lt few
      have sameId : (id.toNat : Id) = id := Int.toNat_of_nonneg isIndex.1
      have occurs :=
        mem_vars_limit small
          (ex.rankNonDefaultCommMap[x].length : Value)
      rw [sameId] at occurs
      have limited :=
        holds _
          (List.mem_append_right _
            (mem_generateConstraintsMPI_of_limit isLimit))
          occurs
      rw [← assignmentOf_solvedInput covered,
        YicesSolver.holds_le_iff, valueAt_assignmentOf few isIndex] at limited
      exact limited

/-- An `int` is converted to itself. -/
theorem toSigned_of_fits
    {value : Int}
    (nonneg : 0 ≤ value)
    (fits : value < 2 ^ 31) :
    toSigned 32 value = value := by
  unfold toSigned
  rw [Int.bmod_def]
  omega

/-- Such a rank can be looked up unless it denotes the size itself. -/
theorem changed_inRange_iff
    (few : n ≤ 2 ^ 32)
    (indexed : Indexed n ex)
    (mapped : Mapped ex)
    (sameIndices :
      search.rankNonDefaultCommIndices = ex.rankNonDefaultCommIndices)
    {branchIdx : Nat}
    {soln : OrderedMap Var Value}
    (solution : IsSolution ex branchIdx soln)
    {x : Nat}
    (changed :
      search.changedRank? (search.originalRanks ex) (solvedInput ex soln) =
        some x) :
    (x < ex.rankNonDefaultCommMap.length ∧
        0 ≤ search.newRank (solvedInput ex soln) x ∧
        search.newRank (solvedInput ex soln) x <
          (ex.rankNonDefaultCommMap.getD x []).length) ↔
      ∀ members,
        ex.rankNonDefaultCommMap[x]? = some members →
        inputAt (solvedInput ex soln)
            (ex.rankNonDefaultCommIndices.getD x 0) ≠
          members.length := by
  obtain ⟨members, isMembers, fits, nonneg, atMost⟩ :=
    changed_bounds few indexed mapped sameIndices solution changed
  have isRecorded := (List.getElem?_eq_some_iff.mp isMembers).1
  have isInt : (members.length : Int) < 2 ^ 31 := by
    exact_mod_cast fits
  have isRank :
      search.newRank (solvedInput ex soln) x =
        inputAt (solvedInput ex soln)
          (search.rankNonDefaultCommIndices.getD x 0) :=
    toSigned_of_fits nonneg (lt_of_le_of_lt atMost isInt)
  rw [isRank, List.getD_eq_getElem?_getD (l := ex.rankNonDefaultCommMap),
    isMembers, Option.getD_some]
  rw [sameIndices] at nonneg atMost ⊢
  constructor
  · rintro ⟨-, -, below⟩ other isOther
    obtain rfl := Option.some.inj isOther
    exact ne_of_lt below
  · intro notSize
    exact ⟨isRecorded, nonneg,
      lt_of_le_of_ne atMost (notSize members rfl)⟩

end Merging

/--
In every run, the lookups of ranks in communicators that a solution leads to
are in range unless the rank that has changed first is the size of its
communicator.
-/
theorem lookupsInRange_iff
    (input : List Value)
    (execTimes : Nat)
    (rank targetRank worldSize : Int)
    (calls : List PairedCall)
    (final : Crest)
    (ran :
      PartialRun.run? PairedCall.step
        (Crest.start input execTimes rank targetRank worldSize) calls =
          some final)
    (few : final.si.numInputs ≤ 2 ^ 32)
    (search : Search)
    (coherent :
      search.executionTag = final.si.ex.executionTag →
        search.Coherent final.si.ex)
    (branchIdx : Nat)
    (soln : OrderedMap Var Value)
    (solution : IsSolution final.si.ex branchIdx soln) :
    (search.refresh final.si.ex).LookupsInRange final.si.ex soln ↔
      ((search.refresh final.si.ex).numIters > 100 →
        ∀ x members,
          (search.refresh final.si.ex).changedRank?
              ((search.refresh final.si.ex).originalRanks final.si.ex)
              (solvedInput final.si.ex soln) =
            some x →
          final.si.ex.rankNonDefaultCommMap[x]? = some members →
          inputAt (solvedInput final.si.ex soln)
              (final.si.ex.rankNonDefaultCommIndices.getD x 0) ≠
            members.length) := by
  obtain ⟨markedOnly, mapped⟩ := Crest.records_of_run ran
  have indexed := markedOnly.record
  have isCoherent := coherent_refresh coherent
  have listsApart := isCoherent.listsApart indexed
  have sameIndices := isCoherent.rankNonDefaultCommIndices
  generalize search.refresh final.si.ex = search at *
  by_cases late : search.numIters > 100
  · rw [lookupsInRange_iff_last listsApart late, LookupInRange]
    simp only [late, forall_const]
    refine forall_congr' fun x => ?_
    constructor
    · intro inRange members changed
      exact (changed_inRange_iff few indexed mapped sameIndices solution
        changed).mp (inRange changed) members
    · intro notSize changed
      refine (changed_inRange_iff few indexed mapped sameIndices solution
        changed).mpr fun members => ?_
      exact notSize members changed
  · refine iff_of_true ?_ ?_
    · exact fun isLate => absurd isLate late
    · exact fun isLate => absurd isLate late

/-- The focus process has rank 1 in a communicator of the processes 0 and 2. -/
def inPairOfTwo : Circumstances where
  addr := fun _ => 4
  value := fun _ => 1
  pointee := fun _ => 1
  rank := 2
  targetRank := 2
  worldSize := 4
  focus := 1
  gathered := [0, 2]

/-- The rank in the communicator is marked, and is found to be below 2. -/
def belowTwo : List PairedCall :=
  [.rankNonDefaultComm inPairOfTwo inPairOfTwo Cil.noAddr Cil.noAddr,
    .other (.inserted inPairOfTwo (.load Cil.noAddr Cil.noAddr)),
    .other
      (.inserted { inPairOfTwo with addr := fun _ => 0, value := fun _ => 2 }
        (.load Cil.noAddr Cil.noAddr)),
    .other (.inserted inPairOfTwo (.apply2 16 Cil.noAddr)),
    .other (.inserted inPairOfTwo (.branch 6 true))]

/-- The focus process after these calls. -/
def afterBelowTwo : Crest :=
  (PartialRun.run? PairedCall.step (Crest.start [] 3 2 2 4) belowTwo).getD
    (Crest.start [] 0 0 0 0)

/-- The only solution that flips the branch is the size. -/
def solvedTwo : OrderedMap Var Value :=
  (∅ : OrderedMap Var Value).insert 0 2

/-- A value of one variable that flips a branch and fits its type. -/
theorem isSolution_insert
    {ex : SymbolicExecution}
    {branchIdx : Nat}
    {c : SymbolicPred}
    (found : ex.path.constraints[branchIdx]? = some c)
    {v : Var}
    (declared : v ∈ ex.vars)
    {value : Value}
    (holds :
      ∀ p ∈
          ex.path.constraints.take branchIdx ++ [c.negate] ++
            YicesSolver.generateConstraintsMPI ex,
        p.holds
            (YicesSolver.updated ((∅ : OrderedMap Var Value).insert v value)
              (assignmentOf ex.inputs)) =
          true)
    (inRange : ∀ type : CType, ex.vars[v]? = some type → type.InRange value) :
    IsSolution ex branchIdx ((∅ : OrderedMap Var Value).insert v value) where
  declared := by
    intro w member
    rcases Std.ExtTreeMap.mem_insert.mp member with same | empty
    · obtain rfl := Nat.compare_eq_eq.mp same
      exact declared
    · exact absurd empty Std.ExtTreeMap.not_mem_empty
  solves := by
    refine ⟨c, found, fun w => ?_⟩
    by_cases same : w = v
    · subst same
      refine .inr ⟨fun p member _ => holds p member, fun type isType => ?_⟩
      simpa [YicesSolver.updated] using inRange type isType
    · refine .inl ?_
      unfold YicesSolver.updated
      rw [Std.ExtTreeMap.getElem?_insert, if_neg]
      · rfl
      · exact fun equal => same (Nat.compare_eq_eq.mp equal).symm

theorem isSolution_solvedTwo :
    IsSolution afterBelowTwo.si.ex 0 solvedTwo := by
  refine isSolution_insert rfl (by decide) (by decide) fun type isType => ?_
  obtain rfl := Option.some.inj isType
  decide

/-- The rank 2 is looked up among the two members of the communicator. -/
theorem not_lookupsInRange_solvedTwo :
    PartialRun.run? PairedCall.step (Crest.start [] 3 2 2 4) belowTwo =
        some afterBelowTwo ∧
      IsSolution afterBelowTwo.si.ex 0 solvedTwo ∧
      ¬ (lateSearch.refresh afterBelowTwo.si.ex).LookupsInRange
          afterBelowTwo.si.ex solvedTwo := by
  refine ⟨rfl, isSolution_solvedTwo, fun inRange => ?_⟩
  have lookup := inRange (by decide) [] (0, 2) [] rfl [1] rfl 0 (by decide)
  exact absurd lookup (by decide)

/-- The rank in the communicator is found to be above 0. -/
def aboveZero : List PairedCall :=
  [.rankNonDefaultComm inPairOfTwo inPairOfTwo Cil.noAddr Cil.noAddr,
    .other (.inserted inPairOfTwo (.load Cil.noAddr Cil.noAddr)),
    .other
      (.inserted { inPairOfTwo with addr := fun _ => 0, value := fun _ => 0 }
        (.load Cil.noAddr Cil.noAddr)),
    .other (.inserted inPairOfTwo (.apply2 14 Cil.noAddr)),
    .other (.inserted inPairOfTwo (.branch 5 true))]

/-- The focus process after these calls. -/
def afterAboveZero : Crest :=
  (PartialRun.run? PairedCall.step (Crest.start [] 3 2 2 4) aboveZero).getD
    (Crest.start [] 0 0 0 0)

/-- The only solution that flips this branch is a rank. -/
def solvedZero : OrderedMap Var Value :=
  (∅ : OrderedMap Var Value).insert 0 0

theorem isSolution_solvedZero :
    IsSolution afterAboveZero.si.ex 0 solvedZero := by
  refine isSolution_insert rfl (by decide) (by decide) fun type isType => ?_
  obtain rfl := Option.some.inj isType
  decide

/-- The rank 0 has changed, and is found among the two members. -/
theorem lookupsInRange_aboveZero :
    (lateSearch.refresh afterAboveZero.si.ex).LookupsInRange
      afterAboveZero.si.ex solvedZero := by
  refine
    (lookupsInRange_iff [] 3 2 2 4 aboveZero afterAboveZero rfl (by decide)
      lateSearch (fun sameTag => absurd sameTag (by decide)) 0 solvedZero
      isSolution_solvedZero).mpr ?_
  intro _ x members changed isMembers
  have isFirst :
      (lateSearch.refresh afterAboveZero.si.ex).changedRank?
          ((lateSearch.refresh afterAboveZero.si.ex).originalRanks
            afterAboveZero.si.ex)
          (solvedInput afterAboveZero.si.ex solvedZero) =
        some 0 := by
    decide
  obtain rfl := Option.some.inj (isFirst.symm.trans changed)
  have isPair : afterAboveZero.si.ex.rankNonDefaultCommMap[0]? = some [0, 2] :=
    rfl
  obtain rfl := Option.some.inj (isPair.symm.trans isMembers)
  decide

end Search

end Compi
