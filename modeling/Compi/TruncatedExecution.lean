import Compi.ExecutionRoundTrip

/-!
# Truncated executions

A parse that fails leaves the object with parts of the old and of the new
path.  Whether they fit together depends on where the stream ends.
-/

namespace Compi

namespace ByteStream

/-- What a stream still delivers. -/
def IStream.available (stream : IStream) : List UInt8 :=
  if stream.failed then [] else stream.rest

section Steps

variable {α β : Type}

theorem bind_apply
    (reader : Reader α)
    (next : α → Reader β)
    (stream : IStream) :
    (reader >>= next) stream = next (reader stream).1 (reader stream).2 :=
  rfl

theorem pure_apply (value : α) (stream : IStream) :
    (pure value : Reader α) stream = (value, stream) :=
  rfl

theorem fail_apply (stream : IStream) :
    fail stream = (stream.failed, stream) :=
  rfl

theorem available_of_failed
    {stream : IStream}
    (failed : stream.failed = true) :
    stream.available = [] := by
  rw [IStream.available, if_pos failed]

/-- A read takes what there is and fails if that is too little. -/
theorem read_apply (buffer : List UInt8) (stream : IStream) :
    (read buffer stream).1 =
        (stream.available.take buffer.length ++
            buffer.drop (stream.available.take buffer.length).length,
          (stream.available.take buffer.length).length) ∧
      (read buffer stream).2.available =
        stream.available.drop buffer.length ∧
      (read buffer stream).2.failed =
        (stream.failed ||
          decide (stream.available.length < buffer.length)) := by
  unfold read IStream.available
  cases failed : stream.failed with
  | true =>
      simp [failed]
  | false =>
      have short :
          (stream.rest.take buffer.length).length < buffer.length ↔
            stream.rest.length < buffer.length := by
        rw [List.length_take]
        omega
      refine ⟨rfl, ?_, ?_⟩
      · simp only [Bool.false_eq_true, ↓reduceIte, short]
        split
        · next isShort =>
            have tooFew := of_decide_eq_true isShort
            rw [List.drop_eq_nil_of_le (Nat.le_of_lt tooFew)]
        · rfl
      · simp only [Bool.false_eq_true, ↓reduceIte, short, Bool.false_or]

/-- An integer that is cut short keeps the remaining bytes of the old one. -/
theorem readUnsigned_apply (width old : Nat) (stream : IStream) :
    (readUnsigned width old stream).1 =
        ofBytes (stream.available.take width ++
          (toBytes width old).drop (stream.available.take width).length) ∧
      (readUnsigned width old stream).2.available =
        stream.available.drop width ∧
      (readUnsigned width old stream).2.failed =
        (stream.failed || decide (stream.available.length < width)) := by
  obtain ⟨contents, available, failed⟩ :=
    read_apply (toBytes width old) stream
  rw [length_toBytes] at contents available failed
  unfold readUnsigned
  rw [bind_apply]
  refine ⟨?_, available, failed⟩
  change ofBytes (read (toBytes width old) stream).1.1 = _
  rw [contents]

/-- Enough bytes replace the old integer. -/
theorem readUnsigned_of_enough
    {width : Nat}
    (old : Nat)
    {stream : IStream}
    (enough : width ≤ stream.available.length) :
    (readUnsigned width old stream).1 =
      ofBytes (stream.available.take width) := by
  rw [(readUnsigned_apply width old stream).1,
    List.length_take_of_le enough, List.drop_eq_nil_of_le (by simp),
    List.append_nil]

theorem length_flatMap_toBytes
    {Item : Type}
    (toInt : Item → Int)
    (width : Nat)
    (items : List Item) :
    (items.flatMap fun item => toBytes width (toInt item)).length =
      width * items.length := by
  induction items with
  | nil =>
      rfl
  | cons item rest inductionHypothesis =>
      rw [List.flatMap_cons, List.length_append, length_toBytes,
        inductionHypothesis, List.length_cons]
      ring

theorem length_ofBlock
    (decode : List UInt8 → α)
    (width count : Nat)
    (bytes : List UInt8) :
    (ofBlock decode width count bytes).length = count := by
  induction count generalizing bytes with
  | zero =>
      rfl
  | succ count inductionHypothesis =>
      rw [ofBlock, List.length_cons, inductionHypothesis]

end Steps

end ByteStream

open ByteStream

/--
What the searches rely on: the constraints are live and aligned with positions
of branches.
-/
structure PathRemains.Consistent (remains : PathRemains) : Prop where
  aligned : remains.constraintsIdx.length = remains.constraints.length
  inBounds : ∀ idx ∈ remains.constraintsIdx, idx < remains.branches.length
  live : ∀ slot ∈ remains.constraints, ∃ p, slot = .live p

namespace SymbolicPred

/-- A predicate that is parsed leaves the stream intact. -/
theorem not_failed_of_parse
    {garbage : Uninitialised}
    {stream : IStream}
    (parsed : (parse garbage stream).1.1 = true) :
    (parse garbage stream).2.failed = false := by
  unfold parse at parsed ⊢
  simp only [bind_apply, pure_apply, Bool.and_eq_true] at parsed ⊢
  simpa [fail_apply] using parsed.2

end SymbolicPred

namespace SymbolicPath

/-- Constraints that cannot all be parsed leave an unfinished one behind. -/
theorem exists_unfinished
    {garbage : Uninitialised}
    {count : Nat}
    {stream : IStream}
    {slots : List ConstraintSlot}
    (stopped : (parseConstraints garbage count stream).1 = .error slots) :
    ∃ p, ConstraintSlot.unfinished p ∈ slots := by
  induction count generalizing stream slots with
  | zero =>
      cases stopped
  | succ count inductionHypothesis =>
      unfold parseConstraints at stopped
      rw [bind_apply] at stopped
      rcases head : SymbolicPred.parse garbage stream with
        ⟨⟨_ | _, p⟩, after⟩
      · rw [head] at stopped
        obtain rfl := Except.error.inj stopped
        exact ⟨p, List.mem_cons_self⟩
      · rw [head] at stopped
        simp only [bind_apply] at stopped
        cases tail : (parseConstraints garbage count after).1 with
        | ok rest =>
            rw [tail] at stopped
            cases stopped
        | error rest =>
            rw [tail] at stopped
            obtain ⟨q, member⟩ := inductionHypothesis tail
            obtain rfl := Except.error.inj stopped
            exact ⟨q, List.mem_cons_of_mem _ member⟩

/-- Constraints that are all parsed leave the stream intact. -/
theorem failed_parseConstraints
    {garbage : Uninitialised}
    {count : Nat}
    {stream : IStream}
    {constraints : List SymbolicPred}
    (parsed : (parseConstraints garbage count stream).1 = .ok constraints) :
    (parseConstraints garbage count stream).2.failed =
      (decide (count = 0) && stream.failed) := by
  induction count generalizing stream constraints with
  | zero =>
      rfl
  | succ count inductionHypothesis =>
      unfold parseConstraints at parsed ⊢
      rw [bind_apply] at parsed ⊢
      have intact :=
        @SymbolicPred.not_failed_of_parse garbage stream
      rcases head : SymbolicPred.parse garbage stream with
        ⟨⟨_ | _, p⟩, after⟩
      · rw [head] at parsed
        cases parsed
      · rw [head] at parsed intact
        simp only [bind_apply] at parsed ⊢
        cases tail : (parseConstraints garbage count after).1 with
        | error rest =>
            rw [tail] at parsed
            cases parsed
        | ok rest =>
            have tailIntact := inductionHypothesis tail
            rw [intact rfl, Bool.and_false] at tailIntact
            simpa [pure_apply] using tailIntact

/-- The number of branches at the start of a stream. -/
def branchCount (stream : IStream) : Nat :=
  ofBytes (stream.available.take 8)

/-- The stream ends in the list of branches, or before it. -/
def EndsInBranches (stream : IStream) : Prop :=
  stream.failed = true ∨
    stream.available.length < 8 + 4 * branchCount stream

/-- The complete branches in a stream that ends in their list. -/
def completeBranches (stream : IStream) : Nat :=
  (stream.available.length - 8) / 4

/--
The stream ends in the number of constraints, and its bytes in front of the
remaining bytes of the number of branches make zero.
-/
def EndsInZeroCount (stream : IStream) : Prop :=
  let bytes := stream.available.drop (8 + 4 * branchCount stream)
  bytes.length < 8 ∧
    ofBytes (bytes ++ (toBytes 8 (branchCount stream)).drop bytes.length) = 0

/-- Where a stream may end: the old or the new path is still consistent. -/
def EndsUsably (path : SymbolicPath) (stream : IStream) : Prop :=
  (EndsInBranches stream ∧
      ∀ idx ∈ path.constraintsIdx, idx < completeBranches stream) ∨
    (¬EndsInBranches stream ∧ EndsInZeroCount stream)

instance (stream : IStream) : Decidable (EndsInBranches stream) :=
  inferInstanceAs (Decidable (_ ∨ _))

instance (stream : IStream) : Decidable (EndsInZeroCount stream) :=
  inferInstanceAs (Decidable (_ ∧ _))

instance (path : SymbolicPath) (stream : IStream) :
    Decidable (EndsUsably path stream) :=
  inferInstanceAs (Decidable (_ ∨ _))

/-- What `Parse` does after the branches. -/
def parseRest
    (garbage : Uninitialised)
    (path : SymbolicPath)
    (branches : List BranchId)
    (len : Nat) : Reader (Except PathRemains SymbolicPath) := do
  let len ← readUnsigned 8 len
  let block ←
    read ((resize len 0 path.constraintsIdx).flatMap
      fun idx : Nat => toBytes 8 idx)
  let constraints ← parseConstraints garbage len
  let failed ← fail
  return do
    let constraints ← constraints.mapError fun slots =>
      { branches := branches
        constraintsIdx := ofBlock ofBytes 8 len block.1
        constraints := slots }
    let parsed : SymbolicPath :=
      { path with
        branches := branches
        constraintsIdx := ofBlock ofBytes 8 len block.1
        constraints := constraints }
    if failed then throw (PathRemains.ofPath parsed) else return parsed

variable
  {garbage : Uninitialised}
  {path : SymbolicPath}
  {stream : IStream}

/-- What is read of the branches. -/
def branchBytes
    (garbage : Uninitialised)
    (path : SymbolicPath)
    (stream : IStream) : (List UInt8 × Nat) × IStream :=
  read
    ((resize (readUnsigned 8 garbage.len stream).1 0
      path.branches).flatMap (toBytes 4))
    (readUnsigned 8 garbage.len stream).2

/-- The branches that are read. -/
def branchesRead
    (garbage : Uninitialised)
    (path : SymbolicPath)
    (stream : IStream) : List BranchId :=
  ofBlock (fun bytes => toSigned 32 (ofBytes bytes)) 4
    (readUnsigned 8 garbage.len stream).1
    (branchBytes garbage path stream).1.1

theorem branchBytes_apply
    (garbage : Uninitialised)
    (path : SymbolicPath)
    (stream : IStream) :
    let wanted := 4 * (readUnsigned 8 garbage.len stream).1
    let available := stream.available.drop 8
    (branchBytes garbage path stream).1.2 =
        (available.take wanted).length ∧
      (branchBytes garbage path stream).2.available =
        available.drop wanted ∧
      (branchBytes garbage path stream).2.failed =
        (stream.failed || decide (stream.available.length < 8) ||
          decide (available.length < wanted)) := by
  obtain ⟨_, countAvailable, countFailed⟩ :=
    readUnsigned_apply 8 garbage.len stream
  obtain ⟨contents, available, failed⟩ :=
    read_apply
      ((resize (readUnsigned 8 garbage.len stream).1 0
        path.branches).flatMap (toBytes 4))
      (readUnsigned 8 garbage.len stream).2
  have wanted :=
    length_flatMap_toBytes (fun branch : BranchId => branch) 4
      (resize (readUnsigned 8 garbage.len stream).1 0 path.branches)
  rw [length_resize] at wanted
  rw [wanted, countAvailable] at contents available failed
  rw [countFailed] at failed
  refine ⟨?_, available, failed⟩
  unfold branchBytes
  rw [contents]

/-- The branches are read completely exactly if the stream does not end. -/
theorem failed_branchBytes_iff :
    (branchBytes garbage path stream).2.failed = true ↔
      EndsInBranches stream := by
  obtain ⟨_, _, failed⟩ := branchBytes_apply garbage path stream
  rw [failed, Bool.or_eq_true, Bool.or_eq_true, decide_eq_true_iff,
    decide_eq_true_iff, List.length_drop]
  unfold EndsInBranches
  rcases Nat.lt_or_ge stream.available.length 8 with short | enough
  · constructor
    · intro _
      exact Or.inr (by omega)
    · intro _
      exact Or.inl (Or.inr short)
  · rw [readUnsigned_of_enough garbage.len enough]
    unfold branchCount
    constructor
    · rintro ((failed | short) | short)
      · exact Or.inl failed
      · omega
      · exact Or.inr (by omega)
    · rintro (failed | short)
      · exact Or.inl (Or.inl failed)
      · exact Or.inr (by omega)

/-- The branches that are complete where the stream ends in them. -/
theorem complete_branchBytes (ends : EndsInBranches stream) :
    (branchBytes garbage path stream).1.2 / 4 = completeBranches stream := by
  obtain ⟨contents, _, _⟩ := branchBytes_apply garbage path stream
  rw [contents, List.length_take, List.length_drop, completeBranches]
  rcases Nat.lt_or_ge stream.available.length 8 with short | enough
  · have noBytes : stream.available.length - 8 = 0 := by omega
    rw [noBytes, Nat.min_zero]
  · rcases ends with failed | short
    · rw [available_of_failed failed] at enough
      cases enough
    · rw [readUnsigned_of_enough garbage.len enough]
      unfold branchCount at short
      rw [Nat.min_eq_right (by omega)]

/-- Ending in the branches leaves the complete ones and the old constraints. -/
theorem parse_of_endsInBranches (ends : EndsInBranches stream) :
    ∃ branches : List BranchId,
      branches.length = completeBranches stream ∧
      (path.parse garbage stream).1 =
        .error (.ofPath { path with branches := branches }) := by
  have failed : (branchBytes garbage path stream).2.failed = true :=
    failed_branchBytes_iff.mpr ends
  refine ⟨resize ((branchBytes garbage path stream).1.2 / 4) 0
    (branchesRead garbage path stream), ?_, ?_⟩
  · rw [length_resize, complete_branchBytes ends]
  · unfold branchBytes at failed
    unfold parse
    simp only [bind_apply, fail_apply, failed, pure_apply]
    rfl

/-- Otherwise all branches are read, and then the rest. -/
theorem parse_of_not_endsInBranches (complete : ¬EndsInBranches stream) :
    ∃ (branches : List BranchId) (after : IStream),
      branches.length = branchCount stream ∧
      after.failed = false ∧
      after.available =
        stream.available.drop (8 + 4 * branchCount stream) ∧
      path.parse garbage stream =
        parseRest garbage path branches (branchCount stream) after := by
  have enough : 8 ≤ stream.available.length := by
    by_contra short
    apply complete
    exact Or.inr (by omega)
  have count : (readUnsigned 8 garbage.len stream).1 = branchCount stream :=
    readUnsigned_of_enough garbage.len enough
  have intact : (branchBytes garbage path stream).2.failed = false := by
    rw [Bool.eq_false_iff]
    intro failed
    exact complete (failed_branchBytes_iff.mp failed)
  refine ⟨branchesRead garbage path stream,
    (branchBytes garbage path stream).2, ?_, intact, ?_, ?_⟩
  · rw [branchesRead, length_ofBlock, count]
  · obtain ⟨_, available, _⟩ := branchBytes_apply garbage path stream
    rw [available, count, List.drop_drop]
  · rw [← count]
    unfold branchBytes at intact
    unfold parse parseRest branchesRead branchBytes
    simp only [bind_apply, fail_apply, intact, pure_apply]
    generalize parseConstraints garbage _ _ = parsed
    obtain ⟨result, ⟨rest, failed⟩⟩ := parsed
    cases result with
    | error slots =>
        rfl
    | ok constraints =>
        cases failed with
        | true => rfl
        | false => rfl

/-- What is left of a path after its branches have been read. -/
theorem parseRest_consistent_iff
    {branches : List BranchId}
    {len : Nat}
    (intact : stream.failed = false)
    {remains : PathRemains}
    (stopped :
      (parseRest garbage path branches len stream).1 = .error remains) :
    remains.Consistent ↔
      stream.available.length < 8 ∧
        ofBytes (stream.available ++
          (toBytes 8 len).drop stream.available.length) = 0 := by
  obtain ⟨count, countAvailable, countFailed⟩ :=
    readUnsigned_apply 8 len stream
  rw [intact, Bool.false_or] at countFailed
  unfold parseRest at stopped
  simp only [bind_apply, fail_apply, pure_apply] at stopped
  generalize readUnsigned 8 len stream = counted at *
  obtain ⟨_, _, blockFailed⟩ :=
    read_apply
      ((resize counted.1 0 path.constraintsIdx).flatMap
        fun idx : Nat => toBytes 8 idx) counted.2
  generalize read
    ((resize counted.1 0 path.constraintsIdx).flatMap
      fun idx : Nat => toBytes 8 idx) counted.2 = block at *
  have wanted :=
    length_flatMap_toBytes (fun idx : Nat => (idx : Int)) 8
      (resize counted.1 0 path.constraintsIdx)
  rw [length_resize] at wanted
  have parsedAll :=
    @failed_parseConstraints garbage counted.1 block.2
  cases result : (parseConstraints garbage counted.1 block.2).1 with
  | error slots =>
      rw [result] at stopped
      obtain rfl := Except.error.inj stopped
      obtain ⟨p, unfinished⟩ := exists_unfinished result
      constructor
      · intro consistent
        obtain ⟨q, isLive⟩ := consistent.live _ unfinished
        cases isLive
      · rintro ⟨short, isZero⟩
        rw [List.take_of_length_le (Nat.le_of_lt short), isZero] at count
        rw [count] at result
        cases result
  | ok constraints =>
      have lastFailed := parsedAll result
      rw [result] at stopped
      cases failed : (parseConstraints garbage counted.1 block.2).2.failed with
      | false =>
          simp only [failed, Bool.false_eq_true, ↓reduceIte] at stopped
          cases stopped
      | true =>
          simp only [failed, ↓reduceIte] at stopped
          rw [failed] at lastFailed
          obtain ⟨isZero, blockEnds⟩ := Bool.and_eq_true_iff.mp lastFailed.symm
          have noConstraint := of_decide_eq_true isZero
          rw [blockEnds, wanted, countFailed, noConstraint] at blockFailed
          have short : stream.available.length < 8 := by
            simpa using blockFailed.symm
          rw [List.take_of_length_le (Nat.le_of_lt short),
            noConstraint] at count
          obtain rfl := Except.error.inj stopped
          rw [noConstraint] at result ⊢
          obtain rfl := Except.ok.inj result
          constructor
          · intro _
            exact ⟨short, count.symm⟩
          · intro _
            refine ⟨rfl, ?_, ?_⟩
            · intro idx impossible
              cases impossible
            · intro slot impossible
              cases impossible

/-- A path that is parsed leaves the stream intact. -/
theorem not_failed_of_parse
    {parsed : SymbolicPath}
    (returned : (path.parse garbage stream).1 = .ok parsed) :
    (path.parse garbage stream).2.failed = false := by
  by_cases ends : EndsInBranches stream
  · obtain ⟨branches, _, stopped⟩ :=
      @parse_of_endsInBranches garbage path stream ends
    rw [stopped] at returned
    cases returned
  · obtain ⟨branches, after, _, _, _, isRest⟩ :=
      @parse_of_not_endsInBranches garbage path stream ends
    rw [isRest] at returned ⊢
    unfold parseRest at returned ⊢
    simp only [bind_apply, fail_apply, pure_apply] at returned ⊢
    generalize parseConstraints garbage _ _ = last at returned ⊢
    obtain ⟨result, rest, failed⟩ := last
    cases failed with
    | false =>
        rfl
    | true =>
        cases result with
        | error slots => cases returned
        | ok constraints => cases returned

/-- A path that a failed parse leaves, by where the stream ends. -/
theorem consistent_remains_iff
    (wellFormed : (PathRemains.ofPath path).Consistent)
    {remains : PathRemains}
    (stopped : (path.parse garbage stream).1 = .error remains) :
    remains.Consistent ↔ EndsUsably path stream := by
  unfold EndsUsably
  by_cases ends : EndsInBranches stream
  · obtain ⟨branches, length, parsed⟩ :=
      @parse_of_endsInBranches garbage path stream ends
    obtain rfl := Except.error.inj (parsed.symm.trans stopped)
    rw [← length]
    constructor
    · intro consistent
      exact Or.inl ⟨ends, consistent.inBounds⟩
    · rintro (⟨_, inBounds⟩ | ⟨complete, _⟩)
      · exact ⟨wellFormed.aligned, inBounds, wellFormed.live⟩
      · exact absurd ends complete
  · obtain ⟨branches, after, _, intact, available, parsed⟩ :=
      @parse_of_not_endsInBranches garbage path stream ends
    rw [parsed] at stopped
    rw [parseRest_consistent_iff intact stopped, available]
    constructor
    · intro endsInZero
      exact Or.inr ⟨ends, endsInZero⟩
    · rintro (⟨endsInBranches, _⟩ | ⟨_, endsInZero⟩)
      · exact absurd endsInBranches ends
      · exact endsInZero

end SymbolicPath

namespace SymbolicExecution

/-- `Parse` up to the path. -/
def parseFields
    (garbage : Uninitialised)
    (ex : SymbolicExecution) : Reader SymbolicExecution := do
  let len ← readUnsigned 8 garbage.len
  let entries ←
    (resize len 0 ex.inputs).mapM fun input => do
      let type ← getByte
      let input ← readSigned 8 input
      return (CType.ofCode (type.elim 255 UInt8.toNat), input)
  let executionTag ← readUnsigned 8 ex.executionTag
  let len ← readUnsigned 8 len
  let limits ← parseLimits len garbage.id garbage.value ∅
  let len ← readUnsigned 8 len
  let rankIndices ← parseIds len
  let len ← readUnsigned 8 len
  let rankNonDefaultCommIndices ← parseIds len
  let len ← readUnsigned 8 len
  let rankNonDefaultCommMap ←
    (List.replicate len ()).mapM fun _ => do
      let len2 ← readUnsigned 8 garbage.len
      parseIds len2
  let len ← readUnsigned 8 len
  let worldSizeIndices ← parseIds len
  return {
    limits := limits
    rankIndices := rankIndices
    rankNonDefaultCommIndices := rankNonDefaultCommIndices
    rankNonDefaultCommMap := rankNonDefaultCommMap
    worldSizeIndices := worldSizeIndices
    executionTag := executionTag
    vars := varsOf (entries.map Prod.fst)
    inputs := entries.map Prod.snd
    path := ex.path
  }

/-- The result of `Parse`, from what the path and the stream say. -/
def finish
    (parsed : SymbolicExecution)
    (path : Except PathRemains SymbolicPath)
    (failed : Bool) :
    Except (SymbolicExecution × PathRemains) SymbolicExecution := do
  let path ← path.mapError fun remains => (parsed, remains)
  if failed then
    throw (parsed, PathRemains.ofPath path)
  else
    return { parsed with path := path }

theorem parse_eq (garbage : Uninitialised) (ex : SymbolicExecution) :
    ex.parse garbage =
      parseFields garbage ex >>= fun parsed =>
        ex.path.parse garbage >>= fun path =>
          fail >>= fun failed => pure (finish parsed path failed) := by
  unfold parse parseFields
  simp only [bind_assoc, pure_bind]
  iterate 13 refine bind_congr fun _ => ?_
  refine bind_congr fun path => ?_
  refine bind_congr fun failed => ?_
  cases path with
  | error remains =>
      rfl
  | ok path =>
      cases failed with
      | false => rfl
      | true => rfl

/-- The stream where the path of an execution begins. -/
def pathStart
    (garbage : Uninitialised)
    (ex : SymbolicExecution)
    (bytes : List UInt8) : IStream :=
  (parseFields garbage ex { rest := bytes, failed := false }).2

/-- A failed parse leaves what the failed parse of the path leaves. -/
theorem parse_error
    {garbage : Uninitialised}
    {ex after : SymbolicExecution}
    {bytes : List UInt8}
    {remains : PathRemains}
    (stopped :
      (ex.parse garbage { rest := bytes, failed := false }).1 =
        .error (after, remains)) :
    (ex.path.parse garbage (pathStart garbage ex bytes)).1 =
      .error remains := by
  unfold pathStart
  rw [parse_eq, bind_apply] at stopped
  generalize parseFields garbage ex { rest := bytes, failed := false } =
    fields at stopped ⊢
  rw [bind_apply, bind_apply, pure_apply, fail_apply] at stopped
  cases result : (ex.path.parse garbage fields.2).1 with
  | error left =>
      rw [result] at stopped
      obtain ⟨_, rfl⟩ := Prod.mk.inj (Except.error.inj stopped)
      rfl
  | ok path =>
      rw [result, SymbolicPath.not_failed_of_parse result] at stopped
      cases stopped

/--
After a failed parse the path is consistent exactly if the bytes end in the
list of branches with all old constraints at complete branches, or in a number
of constraints that is read as zero.
-/
theorem consistent_parse_iff
    (garbage : Uninitialised)
    (ex after : SymbolicExecution)
    (bytes : List UInt8)
    (remains : PathRemains)
    (wellFormed : (PathRemains.ofPath ex.path).Consistent)
    (stopped :
      (ex.parse garbage { rest := bytes, failed := false }).1 =
        .error (after, remains)) :
    remains.Consistent ↔
      SymbolicPath.EndsUsably ex.path (pathStart garbage ex bytes) :=
  SymbolicPath.consistent_remains_iff wellFormed (parse_error stopped)

/-- The first bytes of the serialized sample. -/
def sampleBytes (count : Nat) : List UInt8 :=
  (sample.serialize.getD []).take count

/-- Whatever the uninitialised variables hold. -/
def zeroed : Uninitialised where
  len := 0
  var := 0
  value := 0
  id := 0

theorem consistent_sample : (PathRemains.ofPath sample.path).Consistent where
  aligned := rfl
  inBounds := by decide
  live := by
    intro slot member
    obtain ⟨p, _, isSlot⟩ := List.mem_map.mp member
    exact ⟨p, isSlot.symm⟩

/-- The bytes end in the list of branches, of which one is complete. -/
theorem consistent_parse_sample :
    ∃ after remains,
      (sample.parse zeroed
          { rest := sampleBytes 110, failed := false }).1 =
        .error (after, remains) ∧
      remains.Consistent := by
  have fails :
      (sample.parse zeroed
        { rest := sampleBytes 110, failed := false }).1.isOk = false := by
    decide +kernel
  cases stopped :
      (sample.parse zeroed
        { rest := sampleBytes 110, failed := false }).1 with
  | ok parsed =>
      rw [stopped] at fails
      cases fails
  | error left =>
      exact ⟨left.1, left.2, rfl,
        (consistent_parse_iff zeroed sample left.1 (sampleBytes 110) left.2
          consistent_sample stopped).mpr (by decide +kernel)⟩

/--
The bytes end within the first branch: no branch is left, but the old
constraint at position `0` is.
-/
theorem not_consistent_parse_sample :
    (PathRemains.ofPath sample.path).Consistent ∧
      sampleBytes 107 ++ (sample.serialize.getD []).drop 107 =
        sample.serialize.getD [] ∧
      ∃ after remains,
        (sample.parse zeroed
            { rest := sampleBytes 107, failed := false }).1 =
          .error (after, remains) ∧
        ¬remains.Consistent := by
  refine ⟨consistent_sample, List.take_append_drop _ _, ?_⟩
  have fails :
      (sample.parse zeroed
        { rest := sampleBytes 107, failed := false }).1.isOk = false := by
    decide +kernel
  have unusable :
      ¬SymbolicPath.EndsUsably sample.path
        (pathStart zeroed sample (sampleBytes 107)) := by
    decide +kernel
  cases stopped :
      (sample.parse zeroed
        { rest := sampleBytes 107, failed := false }).1 with
  | ok parsed =>
      rw [stopped] at fails
      cases fails
  | error left =>
      refine ⟨left.1, left.2, rfl, ?_⟩
      have consistent_iff :=
        SymbolicPath.consistent_remains_iff consistent_sample
          (parse_error stopped)
      exact fun consistent => unusable (consistent_iff.mp consistent)

end SymbolicExecution

end Compi
