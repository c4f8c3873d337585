import Compi.SymbolicExecutionFormat

/-!
# Reading back a written execution

Each class reads back exactly what it wrote, whatever the object held before
and whatever follows in the stream.  `Representable` states the ranges of the
C++ types of the fields, which every object satisfies.
-/

namespace Compi

open ByteStream

section Expressions

/-- The fields are in the ranges of their C++ types. -/
structure SymbolicExpr.Representable (e : SymbolicExpr) : Prop where
  const : SignedRange 8 e.const
  terms :
    ∀ term ∈ e.coeff.toList,
      UnsignedRange 4 term.1 ∧ SignedRange 8 term.2

theorem SymbolicExpr.reads_parseTerms
    (garbage : Uninitialised)
    {terms : List (Var × Value)}
    (representable :
      ∀ term ∈ terms, UnsignedRange 4 term.1 ∧ SignedRange 8 term.2)
    (coeff : OrderedMap Var Value) :
    Reads (parseTerms garbage terms.length coeff)
      (terms.flatMap fun term => toBytes 4 term.1 ++ toBytes 8 term.2)
      (terms.foldl (fun rebuilt term => rebuilt.insert term.1 term.2)
        coeff) := by
  induction terms generalizing coeff with
  | nil =>
      exact Reads.pure coeff
  | cons term rest inductionHypothesis =>
      obtain ⟨variableRange, valueRange⟩ := representable term (by simp)
      have readsVariable := reads_unsigned garbage.var variableRange
      have readsValue := reads_signed garbage.value valueRange
      have readsRest :=
        inductionHypothesis
          (fun other member =>
            representable other (List.mem_cons_of_mem _ member))
          (coeff.insert term.1 term.2)
      rw [List.flatMap_cons, List.append_assoc]
      exact readsVariable.bind (readsValue.bind readsRest)

theorem SymbolicExpr.reads_parse
    (garbage : Uninitialised)
    {e : SymbolicExpr}
    {bytes : List UInt8}
    (old : SymbolicExpr)
    (representable : e.Representable)
    (serialized : e.serialize = some bytes) :
    Reads (parse garbage old) bytes (true, e) := by
  unfold serialize at serialized
  split at serialized
  · next few =>
      cases serialized
      have count :
          (UInt8.ofNat e.coeff.size).toNat = e.coeff.toList.length := by
        rw [UInt8.toNat_ofNat', Std.ExtTreeMap.length_toList]
        omega
      have readsTerms :=
        reads_parseTerms garbage representable.terms ∅
      rw [OrderedMap.foldl_insert_toList, ← count] at readsTerms
      unfold parse
      refine (reads_getByte _).bind ?_
      refine (reads_signed old.const representable.const).bind ?_
      refine reads_fail.nothing_bind ?_
      refine readsTerms.bind_nothing ?_
      exact reads_fail.nothing_bind (Reads.pure (true, e))
  · cases serialized

end Expressions

section Predicates

/-- The expression of the predicate is in range. -/
def SymbolicPred.Representable (p : SymbolicPred) : Prop :=
  p.expr.Representable

theorem SymbolicPred.reads_parse
    (garbage : Uninitialised)
    {p : SymbolicPred}
    {bytes : List UInt8}
    (representable : p.Representable)
    (serialized : p.serialize = some bytes) :
    Reads (parse garbage) bytes (true, p) := by
  obtain ⟨expr, exprSerialized, rfl⟩ :=
    Option.map_eq_some_iff.mp serialized
  have operator :
      CompareOp.ofCode (UInt8.ofNat p.op.code).toNat = p.op := by
    cases p.op <;> rfl
  have readsExpr :=
    SymbolicExpr.reads_parse garbage (.ofConst 0) representable
      exprSerialized
  unfold parse
  refine (reads_getByte _).bind ?_
  refine readsExpr.bind_nothing ?_
  refine reads_fail.nothing_bind ?_
  simp only [Option.elim_some, operator]
  exact Reads.pure (true, p)

end Predicates

section Paths

@[simp] theorem length_resize (size : Nat) (fill : α) (items : List α) :
    (resize size fill items).length = size := by
  simp only [resize, List.length_append, List.length_take,
    List.length_replicate]
  omega

/-- The fields are in the ranges of their C++ types. -/
structure SymbolicPath.Representable (path : SymbolicPath) : Prop where
  branchesSize : UnsignedRange 8 path.branches.length
  branches : ∀ bid ∈ path.branches, SignedRange 4 bid
  constraintsSize : UnsignedRange 8 path.constraints.length
  constraintsIdx : ∀ idx ∈ path.constraintsIdx, UnsignedRange 8 idx
  constraints : ∀ p ∈ path.constraints, p.Representable

theorem SymbolicPath.reads_parseConstraints
    (garbage : Uninitialised)
    {constraints : List SymbolicPred}
    {encoded : List (List UInt8)}
    (representable : ∀ p ∈ constraints, p.Representable)
    (serialized : constraints.mapM SymbolicPred.serialize = some encoded) :
    Reads (parseConstraints garbage constraints.length) encoded.flatten
      (.ok constraints) := by
  induction constraints generalizing encoded with
  | nil =>
      cases serialized
      exact Reads.pure (Except.ok [])
  | cons p rest inductionHypothesis =>
      rw [List.mapM_cons] at serialized
      obtain ⟨bytes, pSerialized, restBound⟩ :=
        Option.bind_eq_some_iff.mp serialized
      obtain ⟨restEncoded, restSerialized, isCons⟩ :=
        Option.bind_eq_some_iff.mp restBound
      cases isCons
      have readsHead :=
        SymbolicPred.reads_parse garbage (representable p (by simp))
          pSerialized
      have readsRest :=
        inductionHypothesis
          (fun other member =>
            representable other (List.mem_cons_of_mem _ member))
          restSerialized
      rw [List.flatten_cons]
      refine readsHead.bind ?_
      refine readsRest.bind_nothing ?_
      exact Reads.pure (Except.ok (p :: rest))

/-- A block that overwrites a resized vector of fixed-width integers. -/
theorem reads_block
    {Item : Type}
    {encode : Item → List UInt8}
    {width : Nat}
    (encodedLength : ∀ item, (encode item).length = width)
    (old items : List Item)
    (fill : Item) :
    Reads (read ((resize items.length fill old).flatMap encode))
      (items.flatMap encode)
      (items.flatMap encode, (items.flatMap encode).length) := by
  apply reads_read
  simp [List.length_flatMap, encodedLength]

theorem SymbolicPath.reads_parse
    (garbage : Uninitialised)
    {path : SymbolicPath}
    {bytes : List UInt8}
    (old : SymbolicPath)
    (representable : path.Representable)
    (aligned : path.constraints.length = path.constraintsIdx.length)
    (serialized : path.serialize = some bytes) :
    Reads (parse garbage old) bytes
      (.ok { old with
        branches := path.branches
        constraintsIdx := path.constraintsIdx
        constraints := path.constraints }) := by
  obtain ⟨encoded, constraintsSerialized, isBytes⟩ :=
    Option.bind_eq_some_iff.mp serialized
  cases isBytes
  have branchesDecoded :
      ofBlock (fun bytes => toSigned 32 (ofBytes bytes)) 4
          path.branches.length (path.branches.flatMap (toBytes 4)) =
        path.branches := by
    apply ofBlock_flatMap
    intro bid member
    exact ⟨length_toBytes 4 bid,
      bmod_ofBytes_toBytes (representable.branches bid member)⟩
  have idxDecoded :
      ofBlock ofBytes 8 path.constraintsIdx.length
          (path.constraintsIdx.flatMap fun idx : Nat => toBytes 8 idx) =
        path.constraintsIdx := by
    apply ofBlock_flatMap
    intro idx member
    exact ⟨length_toBytes 8 idx,
      ofBytes_toBytes_of_range (representable.constraintsIdx idx member)⟩
  have readsConstraints :=
    reads_parseConstraints garbage representable.constraints
      constraintsSerialized
  rw [aligned, List.take_length]
  rw [aligned] at readsConstraints
  unfold parse
  refine (reads_unsigned garbage.len representable.branchesSize).bind ?_
  refine (reads_block (length_toBytes 4) old.branches path.branches 0).bind ?_
  refine reads_fail.nothing_bind ?_
  refine (reads_unsigned path.branches.length
    (aligned ▸ representable.constraintsSize)).bind ?_
  refine (reads_block (fun idx : Nat => length_toBytes 8 idx)
    old.constraintsIdx path.constraintsIdx 0).bind ?_
  refine readsConstraints.bind_nothing ?_
  refine reads_fail.nothing_bind ?_
  simp only [branchesDecoded, idxDecoded]
  exact Reads.pure _

end Paths

section Executions

namespace SymbolicExecution

/-- The fields are in the ranges of their C++ types. -/
structure Representable (ex : SymbolicExecution) : Prop where
  vars : ∀ v ∈ ex.vars.keys, UnsignedRange 4 v
  inputs : ∀ value ∈ ex.inputs, SignedRange 8 value
  executionTag : UnsignedRange 8 ex.executionTag
  limitsSize : UnsignedRange 8 ex.limits.entries.length
  limits :
    ∀ limit ∈ ex.limits.entries,
      SignedRange 4 limit.1 ∧ SignedRange 8 limit.2
  idsSize :
    ∀ ids ∈ [ex.rankIndices, ex.rankNonDefaultCommIndices,
        ex.worldSizeIndices] ++ ex.rankNonDefaultCommMap,
      UnsignedRange 8 ids.length ∧ ∀ id ∈ ids, SignedRange 4 id
  rankNonDefaultCommMapSize :
    UnsignedRange 8 ex.rankNonDefaultCommMap.length
  path : ex.path.Representable

/-- What reading back the first `n` variables of an execution returns. -/
structure Recovers (n : Nat) (ex parsed : SymbolicExecution) : Prop where
  vars : parsed.vars = ex.vars
  inputs : parsed.inputs = ex.inputs.take n
  executionTag : parsed.executionTag = ex.executionTag
  limits : ∀ id, parsed.limits.lookup id = ex.limits.lookup id
  rankIndices : parsed.rankIndices = ex.rankIndices
  rankNonDefaultCommIndices :
    parsed.rankNonDefaultCommIndices = ex.rankNonDefaultCommIndices
  rankNonDefaultCommMap :
    parsed.rankNonDefaultCommMap = ex.rankNonDefaultCommMap
  worldSizeIndices : parsed.worldSizeIndices = ex.worldSizeIndices
  branches : parsed.path.branches = ex.path.branches
  constraintsIdx : parsed.path.constraintsIdx = ex.path.constraintsIdx
  constraints : parsed.path.constraints = ex.path.constraints

theorem reads_parseIds
    {ids : List Id}
    (inRange : ∀ id ∈ ids, SignedRange 4 id) :
    Reads (parseIds ids.length) (ids.flatMap (toBytes 4)) ids := by
  apply Reads.mapM
  · intro old id member
    exact reads_signed old (inRange id member)
  · simp

theorem reads_ids
    {ids : List Id}
    (old : Nat)
    (size : UnsignedRange 8 ids.length)
    (inRange : ∀ id ∈ ids, SignedRange 4 id) :
    Reads
      (do
        let len ← readUnsigned 8 old
        parseIds len)
      (serializeIds ids) ids :=
  (reads_unsigned old size).bind (reads_parseIds inRange)

theorem reads_parseLimits
    {entries : List (Sigma fun _ : Id => Value)}
    (inRange :
      ∀ limit ∈ entries, SignedRange 4 limit.1 ∧ SignedRange 8 limit.2)
    (first : Id)
    (second : Value)
    (limits : UnorderedMap Id Value) :
    Reads (parseLimits entries.length first second limits)
      (entries.flatMap fun limit => toBytes 4 limit.1 ++ toBytes 8 limit.2)
      (entries.foldl (fun rebuilt limit => rebuilt.insert limit.1 limit.2)
        limits) := by
  induction entries generalizing first second limits with
  | nil =>
      exact Reads.pure limits
  | cons limit rest inductionHypothesis =>
      obtain ⟨idRange, valueRange⟩ := inRange limit (by simp)
      have readsRest :=
        inductionHypothesis
          (fun other member =>
            inRange other (List.mem_cons_of_mem _ member))
          limit.1 limit.2 (limits.insert limit.1 limit.2)
      rw [List.flatMap_cons, List.append_assoc]
      refine (reads_signed first idRange).bind ?_
      refine (reads_signed second valueRange).bind ?_
      exact readsRest

/-- Inserting the entries of an unordered map rebuilds its lookups. -/
theorem lookup_foldl_insert
    {entries : List (Sigma fun _ : Id => Value)}
    (distinct : entries.NodupKeys)
    (limits : UnorderedMap Id Value)
    (id : Id) :
    (entries.foldl (fun rebuilt limit => rebuilt.insert limit.1 limit.2)
        limits).lookup id =
      (entries.dlookup id).or (limits.lookup id) := by
  induction entries generalizing limits with
  | nil =>
      simp
  | cons limit rest inductionHypothesis =>
      obtain ⟨fresh, restDistinct⟩ := List.nodupKeys_cons.mp distinct
      rw [List.foldl_cons, inductionHypothesis restDistinct]
      by_cases same : id = limit.1
      · subst id
        have absent : rest.dlookup limit.1 = none :=
          List.dlookup_eq_none.mpr fresh
        have found : (limit :: rest).dlookup limit.1 = some limit.2 :=
          List.dlookup_cons_eq rest limit.1 limit.2
        simp [absent, found]
      · rw [AList.lookup_insert_ne same, List.dlookup_cons_ne _ _ same]

section Variables

variable {ex : SymbolicExecution} {n : Nat}

theorem length_toList_of_keys
    (keys : ex.vars.keys = List.range n) :
    ex.vars.toList.length = n := by
  rw [Std.ExtTreeMap.length_toList, ← Std.ExtTreeMap.length_keys, keys,
    List.length_range]

theorem getElem_toList_fst
    (keys : ex.vars.keys = List.range n)
    (i : Nat)
    (inBounds : i < ex.vars.toList.length) :
    (ex.vars.toList[i]).1 = i := by
  have listed : ex.vars.toList.map Prod.fst = List.range n :=
    Std.ExtTreeMap.map_fst_toList_eq_keys.trans keys
  have small : i < n := by
    rwa [length_toList_of_keys keys] at inBounds
  have atIndex : (ex.vars.toList.map Prod.fst)[i]? = some i := by
    rw [listed, List.getElem?_range small]
  rw [List.getElem?_map, List.getElem?_eq_getElem inBounds] at atIndex
  exact Option.some.inj atIndex

theorem varsCount_le
    (representable : ex.Representable)
    (keys : ex.vars.keys = List.range n) :
    n ≤ 2 ^ 32 := by
  cases n with
  | zero =>
      exact Nat.zero_le _
  | succ count =>
      have last : count ∈ ex.vars.keys := by
        rw [keys]
        simp
      exact representable.vars count last

/-- The types read back at consecutive indices are the variables. -/
theorem varsOf_types
    (representable : ex.Representable)
    (keys : ex.vars.keys = List.range n) :
    varsOf (ex.vars.toList.map Prod.snd) = ex.vars := by
  have few := varsCount_le representable keys
  have entries :
      (ex.vars.toList.map Prod.snd).zipIdx.map
          (fun entry => (entry.2 % 2 ^ 32, entry.1)) =
        ex.vars.toList := by
    apply List.ext_getElem
    · simp
    · intro i _ inBounds
      have small : i < 2 ^ 32 := by
        rw [length_toList_of_keys keys] at inBounds
        omega
      have key := getElem_toList_fst keys i inBounds
      ext
      · simp only [List.getElem_map, List.getElem_zipIdx, zero_add,
          Nat.mod_eq_of_lt small, key]
      · simp
  calc
    varsOf (ex.vars.toList.map Prod.snd) =
        ((ex.vars.toList.map Prod.snd).zipIdx.map
          (fun entry => (entry.2 % 2 ^ 32, entry.1))).foldl
            (fun vars entry => vars.insert entry.1 entry.2) ∅ := by
      rw [List.foldl_map, varsOf]
    _ = ex.vars := by
      rw [entries, OrderedMap.foldl_insert_toList]

/-- The inputs read back are those of the variables. -/
theorem inputs_of_vars
    (keys : ex.vars.keys = List.range n)
    (covered : n ≤ ex.inputs.length) :
    ex.vars.toList.map (fun var => ex.inputs.getD var.1 0) =
      ex.inputs.take n := by
  have count := length_toList_of_keys keys
  apply List.ext_getElem
  · simp [count, covered]
  · intro i inBounds _
    have listed : i < ex.vars.toList.length := by
      simpa using inBounds
    have hasInput : i < ex.inputs.length := by
      omega
    simp [getElem_toList_fst keys i listed, hasInput]

theorem reads_entries
    (representable : ex.Representable)
    (keys : ex.vars.keys = List.range n)
    (old : List Value) :
    Reads
      ((resize n 0 old).mapM fun input => do
        let type ← getByte
        let input ← readSigned 8 input
        return (CType.ofCode (type.elim 255 UInt8.toNat), input))
      (ex.vars.toList.flatMap fun var =>
        [UInt8.ofNat var.2.code] ++ toBytes 8 (ex.inputs.getD var.1 0))
      (ex.vars.toList.map fun var =>
        (var.2, ex.inputs.getD var.1 0)) := by
  have bytes :
      (ex.vars.toList.flatMap fun var =>
          [UInt8.ofNat var.2.code] ++ toBytes 8 (ex.inputs.getD var.1 0)) =
        (ex.vars.toList.map fun var =>
          (var.2, ex.inputs.getD var.1 0)).flatMap
            fun entry => [UInt8.ofNat entry.1.code] ++ toBytes 8 entry.2 := by
    rw [List.flatMap_map]
  rw [bytes]
  apply Reads.mapM
  · intro input entry member
    obtain ⟨var, _, rfl⟩ := List.mem_map.mp member
    have inRange : SignedRange 8 (ex.inputs.getD var.1 0) := by
      by_cases hasInput : var.1 < ex.inputs.length
      · have listed : ex.inputs.getD var.1 0 ∈ ex.inputs := by
          simp [hasInput]
        exact representable.inputs _ listed
      · have absent : ex.inputs.getD var.1 0 = 0 := by
          simp [Nat.le_of_not_lt hasInput]
        rw [absent]
        constructor <;> norm_num
    have typeCode :
        CType.ofCode (UInt8.ofNat var.2.code).toNat = var.2 := by
      cases var.2 <;> rfl
    refine (reads_getByte _).bind ?_
    refine (reads_signed input inRange).bind_nothing ?_
    simp only [Option.elim_some, typeCode]
    exact Reads.pure _
  · simp [length_toList_of_keys keys]

end Variables

theorem reads_parse
    (garbage : Uninitialised)
    {ex : SymbolicExecution}
    {n : Nat}
    {bytes : List UInt8}
    (old : SymbolicExecution)
    (representable : ex.Representable)
    (keys : ex.vars.keys = List.range n)
    (aligned :
      ex.path.constraints.length = ex.path.constraintsIdx.length)
    (serialized : ex.serialize = some bytes) :
    Reads (parse garbage old) bytes
      (.ok
        { limits :=
            ex.limits.entries.foldl
              (fun rebuilt limit => rebuilt.insert limit.1 limit.2) ∅
          rankIndices := ex.rankIndices
          rankNonDefaultCommIndices := ex.rankNonDefaultCommIndices
          rankNonDefaultCommMap := ex.rankNonDefaultCommMap
          worldSizeIndices := ex.worldSizeIndices
          executionTag := ex.executionTag
          vars := varsOf (ex.vars.toList.map Prod.snd)
          inputs :=
            ex.vars.toList.map fun var => ex.inputs.getD var.1 0
          path :=
            { old.path with
              branches := ex.path.branches
              constraintsIdx := ex.path.constraintsIdx
              constraints := ex.path.constraints } }) := by
  obtain ⟨pathBytes, pathSerialized, isBytes⟩ :=
    Option.bind_eq_some_iff.mp serialized
  cases isBytes
  have count : ex.vars.size = n := by
    rw [← Std.ExtTreeMap.length_toList, length_toList_of_keys keys]
  have countRange : UnsignedRange 8 n := by
    have few := varsCount_le representable keys
    have bound : (2 : Nat) ^ 32 < 256 ^ 8 := by decide
    exact lt_of_le_of_lt few bound
  obtain ⟨rankSize, rankRange⟩ :=
    representable.idsSize ex.rankIndices (by simp)
  obtain ⟨nonDefaultSize, nonDefaultRange⟩ :=
    representable.idsSize ex.rankNonDefaultCommIndices (by simp)
  obtain ⟨worldSize, worldRange⟩ :=
    representable.idsSize ex.worldSizeIndices (by simp)
  have readsMap :
      Reads
        ((List.replicate ex.rankNonDefaultCommMap.length ()).mapM fun _ => do
          let len2 ← readUnsigned 8 garbage.len
          parseIds len2)
        (ex.rankNonDefaultCommMap.flatMap serializeIds)
        ex.rankNonDefaultCommMap := by
    apply Reads.mapM
    · intro _ row member
      obtain ⟨rowSize, rowRange⟩ :=
        representable.idsSize row (by simp [member])
      exact reads_ids garbage.len rowSize rowRange
    · simp
  have readsPath :=
    SymbolicPath.reads_parse garbage old.path representable.path aligned
      pathSerialized
  rw [count]
  simp only [serializeIds, List.append_assoc]
  unfold parse
  refine (reads_unsigned garbage.len countRange).bind ?_
  refine (reads_entries representable keys old.inputs).bind ?_
  refine (reads_unsigned old.executionTag representable.executionTag).bind ?_
  refine (reads_unsigned n representable.limitsSize).bind ?_
  refine (reads_parseLimits representable.limits _ _ ∅).bind ?_
  refine (reads_unsigned _ rankSize).bind ?_
  refine (reads_parseIds rankRange).bind ?_
  refine (reads_unsigned _ nonDefaultSize).bind ?_
  refine (reads_parseIds nonDefaultRange).bind ?_
  refine (reads_unsigned _ representable.rankNonDefaultCommMapSize).bind ?_
  refine readsMap.bind ?_
  refine (reads_unsigned _ worldSize).bind ?_
  refine (reads_parseIds worldRange).bind ?_
  refine readsPath.bind_nothing ?_
  refine reads_fail.nothing_bind ?_
  simp only [List.map_map, Function.comp_def]
  exact Reads.pure _

/-- Every constraint with few terms is written. -/
theorem exists_serialize
    {ex : SymbolicExecution}
    (few : ∀ p ∈ ex.path.constraints, p.expr.coeff.size < 128) :
    ∃ bytes, ex.serialize = some bytes := by
  have written :
      ∀ constraints : List SymbolicPred,
        (∀ p ∈ constraints, p.expr.coeff.size < 128) →
        ∃ encoded,
          constraints.mapM SymbolicPred.serialize = some encoded := by
    intro constraints
    induction constraints with
    | nil =>
        intro _
        exact ⟨[], rfl⟩
    | cons p rest inductionHypothesis =>
        intro fewTerms
        obtain ⟨encoded, restSerialized⟩ :=
          inductionHypothesis fun other member =>
            fewTerms other (List.mem_cons_of_mem _ member)
        simp [SymbolicPred.serialize, SymbolicExpr.serialize,
          fewTerms p (by simp), restSerialized]
  obtain ⟨encoded, serialized⟩ := written ex.path.constraints few
  simp [serialize, SymbolicPath.serialize, serialized]

/-- What is read back from the bytes of an execution. -/
theorem exists_recovers
    {ex : SymbolicExecution}
    {n : Nat}
    {bytes : List UInt8}
    (garbage : Uninitialised)
    (old : SymbolicExecution)
    (trailing : List UInt8)
    (representable : ex.Representable)
    (keys : ex.vars.keys = List.range n)
    (covered : n ≤ ex.inputs.length)
    (aligned :
      ex.path.constraints.length = ex.path.constraintsIdx.length)
    (serialized : ex.serialize = some bytes) :
    ∃ parsed,
      parse garbage old { rest := bytes ++ trailing, failed := false } =
        (.ok parsed, { rest := trailing, failed := false }) ∧
      Recovers n ex parsed := by
  have reads :=
    reads_parse garbage old representable keys aligned serialized
  refine ⟨_, reads trailing, ?_⟩
  exact {
    vars := varsOf_types representable keys
    inputs := inputs_of_vars keys covered
    executionTag := rfl
    limits := by
      intro id
      have rebuilt := lookup_foldl_insert ex.limits.nodupKeys ∅ id
      rw [AList.lookup_empty, Option.or_none] at rebuilt
      exact rebuilt
    rankIndices := rfl
    rankNonDefaultCommIndices := rfl
    rankNonDefaultCommMap := rfl
    worldSizeIndices := rfl
    branches := rfl
    constraintsIdx := rfl
    constraints := rfl
  }

/--
An execution over the variables `0 .. n-1` is written, and reading the bytes
in front of anything into any object consumes exactly them and recovers it.
-/
theorem parse_serialize
    (garbage : Uninitialised)
    (ex old : SymbolicExecution)
    (n : Nat)
    (trailing : List UInt8)
    (representable : ex.Representable)
    (keys : ex.vars.keys = List.range n)
    (covered : n ≤ ex.inputs.length)
    (aligned :
      ex.path.constraints.length = ex.path.constraintsIdx.length)
    (few : ∀ p ∈ ex.path.constraints, p.expr.coeff.size < 128) :
    ∃ bytes parsed,
      ex.serialize = some bytes ∧
      parse garbage old { rest := bytes ++ trailing, failed := false } =
        (.ok parsed, { rest := trailing, failed := false }) ∧
      Recovers n ex parsed := by
  obtain ⟨bytes, serialized⟩ := exists_serialize few
  obtain ⟨parsed, isParsed, recovers⟩ :=
    exists_recovers garbage old trailing representable keys covered aligned
      serialized
  exact ⟨bytes, parsed, serialized, isParsed, recovers⟩

/-- An execution of the focus process of three with one marked rank. -/
def sample : SymbolicExecution where
  limits := (∅ : UnorderedMap Id Value).insert 0 2
  rankIndices := []
  rankNonDefaultCommIndices := [0]
  rankNonDefaultCommMap := [[0, 2]]
  worldSizeIndices := []
  executionTag := 3
  vars := (∅ : OrderedMap Var CType).insert 0 .uInt
  inputs := [1, 9]
  path :=
    { SymbolicPath.empty with
      branches := [5, -1]
      constraintsIdx := [0]
      constraints := [{ op := .gt, expr := .ofTerm (-2) 0 }] }

theorem parse_serialize_sample :
    ∃ bytes parsed,
      sample.serialize = some bytes ∧
      parse { len := 7, var := 7, value := 7, id := 7 } .empty
          { rest := bytes ++ [1, 2], failed := false } =
        (.ok parsed, { rest := [1, 2], failed := false }) ∧
      Recovers 1 sample parsed := by
  have pathRepresentable : sample.path.Representable :=
    { branchesSize := by decide
      branches := by decide
      constraintsSize := by decide
      constraintsIdx := by decide
      constraints := by
        intro p member
        rw [List.mem_singleton.mp member]
        exact ⟨by decide, by decide⟩ }
  have representable : sample.Representable :=
    { vars := by decide
      inputs := by decide
      executionTag := by decide
      limitsSize := by decide
      limits := by decide
      idsSize := by decide
      rankNonDefaultCommMapSize := by decide
      path := pathRepresentable }
  exact parse_serialize { len := 7, var := 7, value := 7, id := 7 }
    sample .empty 1 [1, 2] representable (by decide) (by decide)
    (by decide) (by decide)

end SymbolicExecution

end Executions

end Compi
