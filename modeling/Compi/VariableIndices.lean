import Compi.ExecutionRoundTrip
import Compi.InterpreterInvariant
import Compi.TargetCalls
import Compi.YicesSolver
import Mathlib.Data.List.Sort

/-!
# The indices of variables

The program under test numbers its variables in the order in which they are
marked.  Everything it records mentions only these numbers, and reading the
record back leaves one input for each, so that the solver can index with them.
-/

namespace Compi

open SymbolicInterpreter

/-- The number of one of the first variables. -/
def IsIndex (n : Nat) (id : Int) : Prop :=
  0 ≤ id ∧ id < (n : Int)

instance (n : Nat) (id : Int) : Decidable (IsIndex n id) :=
  inferInstanceAs (Decidable (_ ∧ _))

/-- An execution that mentions the first variables only, all of them marked. -/
structure Indexed (n : Nat) (ex : SymbolicExecution) : Prop where
  keys : ex.vars.keys = List.range n
  covered : n ≤ ex.inputs.length
  constraints : ∀ c ∈ ex.path.constraints, c.expr.VarsBelow n
  aligned : ex.path.constraints.length = ex.path.constraintsIdx.length
  limits : ∀ id ∈ ex.limits, IsIndex n id
  indices : ∀ list : IndexList, ∀ id ∈ list.of ex, IsIndex n id
  increasing : ∀ list : IndexList, (list.of ex).Pairwise (· < ·)
  apart :
    ∀ list other : IndexList,
      list ≠ other → ∀ id ∈ list.of ex, id ∉ other.of ex

theorem IsIndex.mono
    {n m : Nat}
    {id : Int}
    (isIndex : IsIndex n id)
    (larger : n ≤ m) :
    IsIndex m id := by
  obtain ⟨nonneg, below⟩ := isIndex
  refine ⟨nonneg, ?_⟩
  omega

theorem IsIndex.toNat_lt
    {n : Nat}
    {id : Int}
    (isIndex : IsIndex n id) :
    id.toNat < n := by
  obtain ⟨nonneg, below⟩ := isIndex
  omega

theorem isIndex_new (n : Nat) : IsIndex (n + 1) (n : Int) := by
  unfold IsIndex
  omega

/-- An entry of an extended list is old or the last one. -/
theorem getElem?_concat_cases
    {Entry : Type}
    {entries : List Entry}
    {last entry : Entry}
    {index : Nat}
    (isEntry : (entries ++ [last])[index]? = some entry) :
    entries[index]? = some entry ∨
      (index = entries.length ∧ last = entry) := by
  by_cases before : index < entries.length
  · rw [List.getElem?_append_left before] at isEntry
    exact Or.inl isEntry
  · rw [List.getElem?_append_right (not_lt.mp before)] at isEntry
    obtain ⟨isLast, same⟩ := List.getElem?_eq_some_iff.mp isEntry
    rw [List.length_singleton, Nat.lt_one_iff] at isLast
    refine Or.inr ⟨le_antisymm (Nat.sub_eq_zero_iff_le.mp isLast)
      (not_lt.mp before), ?_⟩
    simpa [isLast] using same

/-- The next number is inserted after all others. -/
theorem keys_insertIfNew_next
    {Entry : Type}
    {entries : OrderedMap Var Entry}
    {n : Nat}
    (keys : entries.keys = List.range n)
    (entry : Entry) :
    (entries.insertIfNew n entry).keys = List.range (n + 1) := by
  have ordered :
      ((entries.insertIfNew n entry).keys).Pairwise (· < ·) := by
    have compared := Std.ExtTreeMap.ordered_keys (t := entries.insertIfNew n entry)
    exact compared.imp fun less => Nat.compare_eq_lt.mp less
  apply ordered.eq_of_mem_iff List.pairwise_lt_range
  intro v
  rw [Std.ExtTreeMap.mem_keys, Std.ExtTreeMap.mem_insertIfNew,
    ← Std.ExtTreeMap.mem_keys, keys, List.mem_range, List.mem_range,
    Std.LawfulEqOrd.compare_eq_iff_eq, Nat.lt_succ_iff_lt_or_eq, or_comm,
    eq_comm]

section Steps

variable {si next : SymbolicInterpreter} {event : Event}

/-- An entry of a list after a marking call is old or the new variable. -/
theorem mem_listAfter
    {marking : Marking}
    {list : IndexList}
    {indices : List Id}
    {id : Id}
    (member : id ∈ si.listAfter marking list indices) :
    id ∈ indices ∨ (marking.list = some list ∧ id = si.numInputs) := by
  unfold listAfter at member
  split at member
  · next isListed =>
      rcases List.mem_append.mp member with old | isNew
      · exact Or.inl old
      · exact Or.inr ⟨isListed.2, List.mem_singleton.mp isNew⟩
  · exact Or.inl member

/-- A marking call keeps the record within the marked variables. -/
theorem Indexed.records
    {marking : Marking}
    {ret : Value}
    (indexed : Indexed si.numInputs si.ex)
    (records : Records si marking ret next) :
    Indexed next.numInputs next.ex := by
  rw [records.numInputs]
  refine
    { keys := ?_
      covered := ?_
      constraints := ?_
      aligned := ?_
      limits := ?_
      indices := ?_
      increasing := ?_
      apart := ?_ }
  · rw [records.vars]
    exact keys_insertIfNew_next indexed.keys _
  · rw [records.inputs, length_inputsAfter indexed.covered]
    exact le_max_right _ _
  · intro c member
    rw [records.path] at member
    exact (indexed.constraints c member).mono (Nat.le_succ _)
  · rw [records.path]
    exact indexed.aligned
  · intro id member
    rw [records.limits] at member
    unfold limitsAfter at member
    cases isLimit : marking.limit with
    | none =>
        rw [isLimit] at member
        exact (indexed.limits id member).mono (Nat.le_succ _)
    | some limit =>
        rw [isLimit] at member
        rcases (AList.mem_insert _).mp member with rfl | old
        · exact isIndex_new _
        · exact (indexed.limits id old).mono (Nat.le_succ _)
  · intro list id member
    rw [records.of_list] at member
    rcases mem_listAfter member with old | ⟨_, rfl⟩
    · exact (indexed.indices list id old).mono (Nat.le_succ _)
    · exact isIndex_new _
  · intro list
    rw [records.of_list]
    unfold listAfter
    split
    · refine List.pairwise_append.mpr
        ⟨indexed.increasing list, List.pairwise_singleton _ _, ?_⟩
      intro id old other isNew
      rw [List.mem_singleton.mp isNew]
      exact (indexed.indices list id old).2
    · exact indexed.increasing list
  · intro list other different id member otherMember
    rw [records.of_list] at member otherMember
    rcases mem_listAfter member with old | ⟨isListed, rfl⟩
    · rcases mem_listAfter otherMember with otherOld | ⟨_, rfl⟩
      · exact indexed.apart list other different id old otherOld
      · exact absurd (indexed.indices list _ old).2 (lt_irrefl _)
    · rcases mem_listAfter otherMember with otherOld | ⟨otherListed, _⟩
      · exact absurd (indexed.indices other _ otherOld).2 (lt_irrefl _)
      · exact different (Option.some.inj (isListed.symm.trans otherListed))

/-- An execution with the same variables and lists, but another path. -/
theorem Indexed.of_lists
    {n : Nat}
    {ex other : SymbolicExecution}
    (indexed : Indexed n ex)
    (vars : other.vars = ex.vars)
    (lists : ∀ list : IndexList, list.of other = list.of ex)
    (covered : n ≤ other.inputs.length)
    (constraints : ∀ c ∈ other.path.constraints, c.expr.VarsBelow n)
    (aligned :
      other.path.constraints.length = other.path.constraintsIdx.length)
    (limits : ∀ id ∈ other.limits, IsIndex n id) :
    Indexed n other where
  keys := vars ▸ indexed.keys
  covered := covered
  constraints := constraints
  aligned := aligned
  limits := limits
  indices := fun list => (lists list).symm ▸ indexed.indices list
  increasing := fun list => (lists list).symm ▸ indexed.increasing list
  apart := by
    intro list another
    rw [lists, lists]
    exact indexed.apart list another

/-- What a branch pushes on the path. -/
theorem mem_push_constraints
    {path : SymbolicPath}
    {bid : BranchId}
    {constraint : Option SymbolicPred}
    {state : BranchState}
    {c : SymbolicPred}
    (member : c ∈ (path.push bid constraint state).constraints) :
    c ∈ path.constraints ∨ constraint = some c := by
  unfold SymbolicPath.push at member
  split at member
  · exact Or.inl member
  · split at member
    · rcases List.mem_append.mp member with old | isNew
      · exact Or.inl old
      · exact Or.inr (congrArg some (List.mem_singleton.mp isNew).symm)
    · exact Or.inl member

theorem push_aligned
    {path : SymbolicPath}
    (aligned : path.constraints.length = path.constraintsIdx.length)
    (bid : BranchId)
    (constraint : Option SymbolicPred)
    (state : BranchState) :
    (path.push bid constraint state).constraints.length =
      (path.push bid constraint state).constraintsIdx.length := by
  unfold SymbolicPath.push
  split
  · exact aligned
  · split
    · simp [aligned]
    · exact aligned

/-- The path after an event mentions what the path or the register did. -/
theorem pathAfter_constraints
    {n : Nat}
    (constraints : ∀ c ∈ si.ex.path.constraints, c.expr.VarsBelow n)
    (held : ∀ p, si.pred = some p → p.expr.VarsBelow n) :
    ∀ c ∈ (si.pathAfter event).constraints, c.expr.VarsBelow n := by
  cases event with
  | branch bid predValue =>
      intro c member
      rcases mem_push_constraints member with old | isNew
      · exact constraints c old
      · obtain ⟨p, isHeld, rfl⟩ := Option.map_eq_some_iff.mp isNew
        have below := held p isHeld
        split
        · exact below
        · exact below
  | _ => exact constraints

theorem pathAfter_aligned
    (aligned :
      si.ex.path.constraints.length = si.ex.path.constraintsIdx.length) :
    (si.pathAfter event).constraints.length =
      (si.pathAfter event).constraintsIdx.length := by
  cases event with
  | branch bid predValue => exact push_aligned aligned bid _ _
  | _ => exact aligned

/-- An event keeps the record within the marked variables. -/
theorem Indexed.step
    (indexed : Indexed si.numInputs si.ex)
    (held : ∀ p, si.pred = some p → p.expr.VarsBelow si.numInputs)
    (stepped : si.step event = some next) :
    Indexed next.numInputs next.ex := by
  cases marks : event.marking with
  | some marking => exact indexed.records (records_of_step marks stepped)
  | none =>
      obtain ⟨keeps, isPath⟩ := keepsRecord_of_step marks stepped
      rw [keeps.numInputs, keeps.ex, isPath]
      refine indexed.of_lists rfl ?_ indexed.covered
        (pathAfter_constraints indexed.constraints held)
        (pathAfter_aligned indexed.aligned) indexed.limits
      intro list
      cases list <;> rfl

/--
What the interpreter holds and what it records mention marked variables only.
-/
structure SymbolicInterpreter.MarkedOnly (si : SymbolicInterpreter) : Prop where
  held : ∃ last, Tracked.WellFormed { si := si, last := last }
  record : Indexed si.numInputs si.ex

theorem SymbolicInterpreter.MarkedOnly.step
    (markedOnly : si.MarkedOnly)
    (stepped : si.step event = some next) :
    next.MarkedOnly := by
  obtain ⟨⟨last, wellFormed⟩, indexed⟩ := markedOnly
  let t : Tracked := { si := si, last := last }
  have tracked :
      t.step event = some { si := next, last := t.lastAfter event } := by
    unfold Tracked.step
    rw [stepped]
    rfl
  have held : ∀ p, si.pred = some p → p.expr.VarsBelow si.numInputs :=
    fun p isHeld => (wellFormed.predicate p isHeld).1
  exact ⟨⟨_, wellFormed.step tracked⟩, indexed.step held stepped⟩

theorem SymbolicInterpreter.markedOnly_fresh
    (input : List Value)
    (execTimes : Nat)
    (rank targetRank worldSize : Int) :
    (fresh input execTimes rank targetRank worldSize).MarkedOnly where
  held :=
    ⟨fun _ => none,
      Tracked.wellFormed_fresh input execTimes rank targetRank worldSize⟩
  record :=
    { keys := rfl
      covered := Nat.zero_le _
      constraints := by
        intro c member
        cases member
      aligned := rfl
      limits := by
        intro id member
        exact absurd member (AList.notMem_empty id)
      indices := by
        intro list id member
        cases list <;> cases member
      increasing := by
        intro list
        cases list <;> exact List.Pairwise.nil
      apart := by
        intro list other _ id member
        cases list <;> cases member }

end Steps

section Runs

namespace Crest

variable {crest next : Crest}

theorem markedOnly_handles
    (markedOnly : crest.si.MarkedOnly)
    (handles : crest.Handles next) :
    next.si.MarkedOnly := by
  obtain ⟨events, ran⟩ := handles
  exact PartialRun.run?_invariant
    (fun holds _ stepped => holds.step stepped)
    markedOnly (PartialRun.along_true crest.si events) ran

/-- The index that is patched is that of a marked variable. -/
theorem markedOnly_rankNonDefaultComm2
    (markedOnly : crest.si.MarkedOnly)
    (marked : 0 < crest.si.numInputs)
    (here : Circumstances)
    (addr : Cil.Exp) :
    (crest.rankNonDefaultComm2 here addr).si.MarkedOnly := by
  obtain ⟨⟨last, wellFormed⟩, indexed⟩ := markedOnly
  have patches : IsIndex crest.si.numInputs (crest.si.numInputs - 1 : Nat) := by
    unfold IsIndex
    omega
  unfold Crest.rankNonDefaultComm2
  split
  · exact ⟨⟨last, wellFormed⟩, indexed⟩
  · split
    · refine ⟨⟨last, ?_⟩, ?_⟩
      · exact
          { inputsCover := by
              have covers := wellFormed.inputsCover
              simpa using covers
            varsBelow :=
              { stack := wellFormed.varsBelow.stack
                mem := wellFormed.varsBelow.mem }
            predicate := wellFormed.predicate }
      · refine indexed.of_lists rfl ?_ ?_ indexed.constraints indexed.aligned ?_
        · intro list
          cases list <;> rfl
        · have covered := indexed.covered
          simpa using covered
        · intro id member
          rcases (AList.mem_insert _).mp member with isLast | old
          · rw [isLast]
            exact patches
          · exact indexed.limits id old
    · exact ⟨⟨last, wellFormed⟩, indexed⟩

theorem markedOnly_getMPIInfo
    (markedOnly : crest.si.MarkedOnly)
    (here : Circumstances) :
    (crest.getMPIInfo here).si.MarkedOnly := by
  obtain ⟨⟨last, wellFormed⟩, indexed⟩ := markedOnly
  refine ⟨⟨last, ?_⟩, indexed⟩
  exact
    { inputsCover := wellFormed.inputsCover
      varsBelow :=
        { stack := wellFormed.varsBelow.stack
          mem := wellFormed.varsBelow.mem }
      predicate := wellFormed.predicate }

theorem markedOnly_step
    {call : TargetCall}
    (markedOnly : crest.si.MarkedOnly)
    (stepped : crest.step call = some next) :
    next.si.MarkedOnly := by
  rcases step_cases stepped with
    handles | ⟨marked, here, addr, rfl⟩ | ⟨here, rfl⟩
  · exact markedOnly_handles markedOnly handles
  · exact markedOnly_rankNonDefaultComm2 markedOnly marked here addr
  · exact markedOnly_getMPIInfo markedOnly here

/-- After every run the target records indices of marked variables only. -/
theorem indexed_of_run
    {input : List Value}
    {execTimes : Nat}
    {rank targetRank worldSize : Int}
    {calls : List TargetCall}
    (ran :
      PartialRun.run? step
        (start input execTimes rank targetRank worldSize) calls =
          some crest) :
    Indexed crest.si.numInputs crest.si.ex := by
  have initially :
      (start input execTimes rank targetRank worldSize).si.MarkedOnly :=
    markedOnly_fresh input execTimes rank targetRank worldSize
  have markedOnly : crest.si.MarkedOnly :=
    PartialRun.run?_invariant
      (fun holds _ stepped => markedOnly_step holds stepped)
      initially (PartialRun.along_true _ calls) ran
  exact markedOnly.record

end Crest

end Runs

section Solving

open YicesSolver

/-- All that the solver front end indexes with is in range. -/
structure InRange
    (vars : OrderedMap Var CType)
    (oldSoln : List Value)
    (constraints : List SymbolicPred) : Prop where
  depends :
    ∀ c ∈ constraints, ∀ v ∈ c.vars,
      v < (dependsOf vars.size constraints).length
  declared : ∀ c ∈ constraints, ∀ v ∈ c.vars, v ∈ vars
  old : ∀ c ∈ constraints, ∀ v ∈ c.vars, v < oldSoln.length
  neighbours :
    ∀ v w : Var,
      w ∈ (dependsOf vars.size constraints).getD v ∅ →
      w < (dependsOf vars.size constraints).length ∧ w ∈ vars

variable {n : Nat} {ex parsed : SymbolicExecution}

theorem IsIndex.varOfId_lt
    {id : Int}
    (isIndex : IsIndex n id) :
    varOfId id < n := by
  obtain ⟨nonneg, below⟩ := isIndex
  have reduced : (id % 2 ^ 32).toNat < n := by
    omega
  exact reduced

theorem IsIndex.indexed
    {id : Int}
    (isIndex : IsIndex n id) :
    (indexed id).VarsBelow n :=
  SymbolicExpr.varsBelow_ofTerm isIndex.varOfId_lt

theorem equalToFirst_varsBelow
    {ids : List Id}
    (indices : ∀ id ∈ ids, IsIndex n id) :
    ∀ c ∈ equalToFirst ids, c.expr.VarsBelow n := by
  intro c member
  cases ids with
  | nil => cases member
  | cons first others =>
      obtain ⟨other, isOther, rfl⟩ := List.mem_map.mp member
      have firstBelow := (indices first List.mem_cons_self).indexed
      have otherBelow :=
        (indices other (List.mem_cons_of_mem _ isOther)).indexed
      exact otherBelow.subAssign firstBelow

/-- The MPI constraints mention marked variables only. -/
theorem Indexed.generateConstraintsMPI
    (indexed : Indexed n ex) :
    ∀ c ∈ YicesSolver.generateConstraintsMPI ex, c.expr.VarsBelow n := by
  intro c member
  have ranks : ∀ id ∈ ex.rankIndices, IsIndex n id := indexed.indices .rank
  have sizes : ∀ id ∈ ex.worldSizeIndices, IsIndex n id :=
    indexed.indices .worldSize
  unfold YicesSolver.generateConstraintsMPI at member
  rcases List.mem_append.mp member with equalSizes | member
  · exact equalToFirst_varsBelow sizes c equalSizes
  rcases List.mem_append.mp member with equalRanks | member
  · exact equalToFirst_varsBelow ranks c equalRanks
  rcases List.mem_append.mp member with less | limited
  · split at less
    · next rank _ worldSize _ isRank isSize =>
        rw [List.mem_singleton.mp less]
        have rankBelow : (YicesSolver.indexed rank).VarsBelow n :=
          (ranks rank (by simp [isRank])).indexed
        have sizeBelow : (YicesSolver.indexed worldSize).VarsBelow n :=
          (sizes worldSize (by simp [isSize])).indexed
        exact rankBelow.subAssign sizeBelow
    · cases less
  · obtain ⟨limit, isLimit, rfl⟩ := List.mem_map.mp limited
    have isKey : limit.1 ∈ ex.limits := List.mem_map_of_mem isLimit
    exact (indexed.limits limit.1 isKey).indexed.subConst _

/-- Reading an execution back keeps it within the marked variables. -/
theorem Indexed.recovers
    (indexed : Indexed n ex)
    (recovers : SymbolicExecution.Recovers n ex parsed) :
    parsed.inputs.length = n ∧ Indexed n parsed := by
  have counted : parsed.inputs.length = n := by
    rw [recovers.inputs, List.length_take]
    exact min_eq_left indexed.covered
  refine ⟨counted, indexed.of_lists recovers.vars ?_ counted.ge ?_ ?_ ?_⟩
  · intro list
    cases list with
    | rank => exact recovers.rankIndices
    | rankNonDefaultComm => exact recovers.rankNonDefaultCommIndices
    | worldSize => exact recovers.worldSizeIndices
  · rw [recovers.constraints]
    exact indexed.constraints
  · rw [recovers.constraints, recovers.constraintsIdx]
    exact indexed.aligned
  · intro id member
    apply indexed.limits id
    rw [← AList.lookup_isSome, ← recovers.limits, AList.lookup_isSome]
    exact member

/-- Constraints over marked variables keep the solver front end in range. -/
theorem Indexed.inRange_of_varsBelow
    (indexed : Indexed n ex)
    {constraints : List SymbolicPred}
    (below : ∀ c ∈ constraints, c.expr.VarsBelow n) :
    InRange ex.vars ex.inputs constraints := by
  have size : ex.vars.size = n := by
    rw [← Std.ExtTreeMap.length_keys, indexed.keys, List.length_range]
  have declared : ∀ v : Var, v < n → v ∈ ex.vars := by
    intro v small
    rw [← Std.ExtTreeMap.mem_keys, indexed.keys]
    exact List.mem_range.mpr small
  refine
    { depends := ?_
      declared := ?_
      old := ?_
      neighbours := ?_ }
  · intro c member v occurs
    rw [length_dependsOf, size]
    exact below c member v occurs
  · intro c member v occurs
    exact declared v (below c member v occurs)
  · intro c member v occurs
    exact lt_of_lt_of_le (below c member v occurs) indexed.covered
  · intro v w neighbour
    by_cases inBounds : v < ex.vars.size
    · obtain ⟨c, member, _, occurs⟩ := (mem_dependsOf inBounds).mp neighbour
      have small : w < n := below c member w occurs
      rw [length_dependsOf, size]
      exact ⟨small, declared w small⟩
    · have outside : (dependsOf ex.vars.size constraints).length ≤ v := by
        rw [length_dependsOf]
        exact not_lt.mp inBounds
      rw [List.getD_eq_getElem?_getD, List.getElem?_eq_none outside]
        at neighbour
      exact absurd neighbour Std.ExtTreeSet.not_mem_empty

/-- The system that is solved at a branch mentions marked variables only. -/
theorem Indexed.inRange_system
    (indexed : Indexed n ex)
    {branchIdx : Nat}
    {c : SymbolicPred}
    (found : ex.path.constraints[branchIdx]? = some c) :
    InRange ex.vars ex.inputs
      (ex.path.constraints.take branchIdx ++ [c.negate] ++
        YicesSolver.generateConstraintsMPI ex) := by
  apply indexed.inRange_of_varsBelow
  intro p member
  rcases List.mem_append.mp member with member | isMPI
  · rcases List.mem_append.mp member with isBefore | isTarget
    · exact indexed.constraints p (List.mem_of_mem_take isBefore)
    · rw [List.mem_singleton.mp isTarget]
      exact indexed.constraints c (List.mem_of_getElem? found)
  · exact indexed.generateConstraintsMPI p isMPI

/--
Whatever calls the program under test makes, the execution that is read back
from what it writes at the end has the variables below the number of marked
ones, as many inputs, and mentions no other variable; solving at any of its
constraints indexes in range.
-/
theorem indexed_parse
    (garbage : Uninitialised)
    (old : SymbolicExecution)
    (input : List Value)
    (execTimes : Nat)
    (rank targetRank worldSize : Int)
    (calls : List TargetCall)
    (crest : Crest)
    (bytes trailing : List UInt8)
    (ran :
      PartialRun.run? Crest.step
        (Crest.start input execTimes rank targetRank worldSize) calls =
          some crest)
    (representable : crest.si.ex.Representable)
    (serialized : crest.si.ex.serialize = some bytes) :
    ∃ parsed,
      SymbolicExecution.parse garbage old
          { rest := bytes ++ trailing, failed := false } =
        (.ok parsed, { rest := trailing, failed := false }) ∧
      parsed.inputs.length = crest.si.numInputs ∧
      Indexed crest.si.numInputs parsed ∧
      ∀ branchIdx c,
        parsed.path.constraints[branchIdx]? = some c →
        InRange parsed.vars parsed.inputs
          (parsed.path.constraints.take branchIdx ++ [c.negate] ++
            YicesSolver.generateConstraintsMPI parsed) := by
  have indexed := Crest.indexed_of_run ran
  obtain ⟨parsed, isParsed, recovers⟩ :=
    SymbolicExecution.exists_recovers garbage old trailing representable
      indexed.keys indexed.covered indexed.aligned serialized
  obtain ⟨counted, parsedIndexed⟩ := indexed.recovers recovers
  exact ⟨parsed, isParsed, counted, parsedIndexed, fun branchIdx c found =>
    parsedIndexed.inRange_system found⟩

/-- The focus process has rank 2 of 4, and rank 1 in a communicator of two. -/
def inPair : Circumstances where
  addr := fun _ => 4
  value := fun _ => 1
  pointee := fun _ => 1
  rank := 2
  targetRank := 2
  worldSize := 4
  focus := 2
  gathered := [0, 2]

/-- The rank in the communicator is marked, and is compared to 0. -/
def positiveInPair : List TargetCall :=
  [.inserted inPair (.rankNonDefaultComm1 Cil.noAddr),
    .inserted inPair (.rankNonDefaultComm2 Cil.noAddr Cil.noAddr),
    .inserted inPair (.load Cil.noAddr Cil.noAddr),
    .inserted { inPair with addr := fun _ => 0, value := fun _ => 0 }
      (.load Cil.noAddr Cil.noAddr),
    .inserted inPair (.apply2 14 Cil.noAddr),
    .inserted inPair (.branch 6 true)]

/-- The target after these calls. -/
def afterPositiveInPair : Crest :=
  (PartialRun.run? Crest.step (Crest.start [7, 8] 3 2 2 4)
    positiveInPair).getD (Crest.start [] 0 0 0 0)

theorem indexed_parse_positiveInPair :
    ∃ parsed,
      SymbolicExecution.parse { len := 5, var := 5, value := 5, id := 5 } .empty
          { rest := afterPositiveInPair.si.ex.serialize.getD [] ++ [9],
            failed := false } =
        (.ok parsed, { rest := [9], failed := false }) ∧
      parsed.inputs.length = afterPositiveInPair.si.numInputs ∧
      Indexed afterPositiveInPair.si.numInputs parsed ∧
      ∀ branchIdx c,
        parsed.path.constraints[branchIdx]? = some c →
        InRange parsed.vars parsed.inputs
          (parsed.path.constraints.take branchIdx ++ [c.negate] ++
            YicesSolver.generateConstraintsMPI parsed) := by
  have pathRepresentable : afterPositiveInPair.si.ex.path.Representable :=
    { branchesSize := by decide
      branches := by decide
      constraintsSize := by decide
      constraintsIdx := by decide
      constraints := by
        have isOnly :
            afterPositiveInPair.si.ex.path.constraints =
              [{ op := .gt, expr := .ofTerm 1 0 }] := by
          decide
        rw [isOnly]
        intro p member
        rw [List.mem_singleton.mp member]
        exact ⟨by decide, by decide⟩ }
  have representable : afterPositiveInPair.si.ex.Representable :=
    { vars := by decide
      inputs := by decide
      executionTag := by decide
      limitsSize := by decide
      limits := by decide
      idsSize := by decide
      rankNonDefaultCommMapSize := by decide
      path := pathRepresentable }
  exact indexed_parse { len := 5, var := 5, value := 5, id := 5 } .empty
    [7, 8] 3 2 2 4 positiveInPair afterPositiveInPair
    (afterPositiveInPair.si.ex.serialize.getD []) [9] (by rfl)
    representable (by decide)

end Solving

end Compi
