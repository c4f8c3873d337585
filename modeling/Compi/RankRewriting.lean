import Compi.MpiConstraints
import Compi.SolveAtBranch
import Compi.VariableIndices

/-!
# Rewriting ranks after solving

After a hundred iterations a new rank in another communicator decides the rank
in `MPI_COMM_WORLD`: it is looked up in the communicator that the execution
recorded, and overwrites the ranks that were solved for.
-/

namespace Compi

open SymbolicInterpreter

namespace Search

/-- The input of a variable of an index list. -/
def inputAt (input : List Value) (id : Id) : Value :=
  input.getD id.toNat 0

/--
The ranks and the sizes are each equal, ranks are below sizes, and limited
variables are at most their limits.
-/
structure MpiConsistent
    (ex : SymbolicExecution)
    (input : List Value) : Prop where
  ranks :
    ∀ rank ∈ ex.rankIndices, ∀ other ∈ ex.rankIndices,
      inputAt input rank = inputAt input other
  sizes :
    ∀ size ∈ ex.worldSizeIndices, ∀ other ∈ ex.worldSizeIndices,
      inputAt input size = inputAt input other
  rankBelow :
    ∀ rank ∈ ex.rankIndices, ∀ size ∈ ex.worldSizeIndices,
      inputAt input rank < inputAt input size
  limited :
    ∀ id limit, ex.limits.lookup id = some limit → inputAt input id ≤ limit

/--
The rewriting of ranks does not take place, or it reads the rank of a member
of the communicator, which is below the solved size and within the limits.
-/
def RewritesWithin
    (search : Search)
    (ex : SymbolicExecution)
    (solved : List Value) : Prop :=
  search.numIters ≤ 100 ∨
    ∀ x,
      search.changedRank? (search.originalRanks ex) solved = some x →
      ∃ globalRank,
        globalRank? ex x (search.newRank solved x) = some globalRank ∧
          ∀ rank ∈ search.rankIndices,
            (∀ size ∈ ex.worldSizeIndices,
              globalRank < inputAt solved size) ∧
              ∀ limit, ex.limits.lookup rank = some limit → globalRank ≤ limit

section Constraints

variable {n : Nat} {ex : SymbolicExecution} {input : List Value}

/-- Few enough variables are numbered without wrapping around. -/
theorem varOfId_eq
    {id : Int}
    (few : n ≤ 2 ^ 32)
    (isIndex : IsIndex n id) :
    YicesSolver.varOfId id = id.toNat := by
  obtain ⟨nonneg, below⟩ := isIndex
  have unchanged : (id % 2 ^ 32).toNat = id.toNat := by
    omega
  exact unchanged

/-- The variable of an index has the value of its input. -/
theorem valueAt_assignmentOf
    {id : Int}
    (few : n ≤ 2 ^ 32)
    (isIndex : IsIndex n id) :
    YicesSolver.valueAt (assignmentOf input) id = inputAt input id := by
  unfold YicesSolver.valueAt
  rw [varOfId_eq few isIndex]
  rfl

theorem mem_limits_iff {id : Id} {limit : Value} :
    (⟨id, limit⟩ : Sigma fun _ : Id => Value) ∈ ex.limits.entries ↔
      ex.limits.lookup id = some limit :=
  AList.mem_lookup_iff.symm

/-- What the MPI constraints say of an input. -/
theorem holds_generateConstraintsMPI_iff
    (few : n ≤ 2 ^ 32)
    (indexed : Indexed n ex) :
    (∀ c ∈ YicesSolver.generateConstraintsMPI ex,
        c.holds (assignmentOf input) = true) ↔
      MpiConsistent ex input := by
  have rankValue :
      ∀ id ∈ ex.rankIndices,
        YicesSolver.valueAt (assignmentOf input) id = inputAt input id :=
    fun id member =>
      valueAt_assignmentOf few (indexed.indices .rank id member)
  have sizeValue :
      ∀ id ∈ ex.worldSizeIndices,
        YicesSolver.valueAt (assignmentOf input) id = inputAt input id :=
    fun id member =>
      valueAt_assignmentOf few (indexed.indices .worldSize id member)
  have limitValue :
      ∀ id limit,
        ex.limits.lookup id = some limit →
          YicesSolver.valueAt (assignmentOf input) id = inputAt input id := by
    intro id limit isLimit
    have isKey : id ∈ ex.limits :=
      AList.lookup_isSome.mp (by rw [isLimit]; rfl)
    exact valueAt_assignmentOf few (indexed.limits id isKey)
  rw [YicesSolver.holds_generateConstraintsMPI]
  constructor
  · intro keeps
    constructor
    · intro rank isRank other isOther
      rw [← rankValue rank isRank, ← rankValue other isOther]
      exact keeps.ranks rank isRank other isOther
    · intro size isSize other isOther
      rw [← sizeValue size isSize, ← sizeValue other isOther]
      exact keeps.sizes size isSize other isOther
    · intro rank isRank size isSize
      rw [← rankValue rank isRank, ← sizeValue size isSize]
      exact keeps.rankBelow rank isRank size isSize
    · intro id limit isLimit
      rw [← limitValue id limit isLimit]
      exact keeps.limited id limit isLimit
  · intro consistent
    constructor
    · intro size isSize other isOther
      rw [sizeValue size isSize, sizeValue other isOther]
      exact consistent.sizes size isSize other isOther
    · intro rank isRank other isOther
      rw [rankValue rank isRank, rankValue other isOther]
      exact consistent.ranks rank isRank other isOther
    · intro rank isRank size isSize
      rw [rankValue rank isRank, sizeValue size isSize]
      exact consistent.rankBelow rank isRank size isSize
    · intro id limit isLimit
      rw [limitValue id limit isLimit]
      exact consistent.limited id limit isLimit

end Constraints

section Overwriting

variable {search : Search} {ex : SymbolicExecution}

/-- Overwriting the same entries with one value. -/
theorem getElem?_foldl_set
    (ids : List Id)
    (value : Value)
    (input : List Value)
    (index : Nat) :
    (ids.foldl (fun input id => input.set id.toNat value) input)[index]? =
      if index < input.length ∧ ∃ id ∈ ids, id.toNat = index then
        some value
      else
        input[index]? := by
  induction ids generalizing input with
  | nil =>
      simp
  | cons id rest inductionHypothesis =>
      rw [List.foldl_cons, inductionHypothesis, List.length_set,
        List.getElem?_set]
      simp only [List.exists_mem_cons_iff]
      by_cases inBounds : index < input.length
      · by_cases isHead : id.toNat = index
        · simp [inBounds, isHead]
        · simp [inBounds, isHead]
      · simp [inBounds]
        omega

theorem getElem?_overwriteRanks
    (globalRank : Value)
    (input : List Value)
    (index : Nat) :
    (search.overwriteRanks globalRank input)[index]? =
      if index < input.length ∧
          ∃ id ∈ search.rankIndices, id.toNat = index then
        some globalRank
      else
        input[index]? :=
  getElem?_foldl_set search.rankIndices globalRank input index

/-- What is overwritten in between does not matter. -/
theorem overwriteRanks_set_overwriteRanks
    (globalRank value : Value)
    (input : List Value)
    (index : Nat) :
    search.overwriteRanks globalRank
        ((search.overwriteRanks globalRank input).set index value) =
      search.overwriteRanks globalRank (input.set index value) := by
  apply List.ext_getElem?
  intro i
  rw [getElem?_overwriteRanks, getElem?_overwriteRanks, List.length_set,
    List.length_set, length_overwriteRanks]
  split
  · rfl
  · next kept =>
      rw [List.getElem?_set, List.getElem?_set, length_overwriteRanks,
        getElem?_overwriteRanks, if_neg kept]

/-- A rank that does not have an index keeps its input. -/
theorem inputAt_overwriteRanks_of_apart
    (globalRank : Value)
    (input : List Value)
    {id : Id}
    (apart : ∀ rank ∈ search.rankIndices, rank.toNat ≠ id.toNat) :
    inputAt (search.overwriteRanks globalRank input) id =
      inputAt input id := by
  unfold inputAt
  rw [List.getD_eq_getElem?_getD, List.getD_eq_getElem?_getD,
    getElem?_overwriteRanks, if_neg]
  rintro ⟨_, rank, isRank, same⟩
  exact apart rank isRank same

theorem inputAt_overwriteRanks
    (globalRank : Value)
    (input : List Value)
    {rank : Id}
    (isRank : rank ∈ search.rankIndices)
    (inBounds : rank.toNat < input.length) :
    inputAt (search.overwriteRanks globalRank input) rank = globalRank := by
  unfold inputAt
  rw [List.getD_eq_getElem?_getD, getElem?_overwriteRanks,
    if_pos ⟨inBounds, rank, isRank, rfl⟩, Option.getD_some]

theorem inputAt_set_of_ne
    {input : List Value}
    {id : Id}
    {index : Nat}
    (different : index ≠ id.toNat)
    (value : Value) :
    inputAt (input.set index value) id = inputAt input id := by
  unfold inputAt
  rw [List.getD_eq_getElem?_getD, List.getD_eq_getElem?_getD,
    List.getElem?_set_ne different]

/-- A list entry in bounds is a member. -/
theorem getD_mem
    {ids : List Id}
    {x : Nat}
    (inBounds : x < ids.length) :
    ids.getD x 0 ∈ ids := by
  rw [List.getD_eq_getElem?_getD, List.getElem?_eq_getElem inBounds,
    Option.getD_some]
  exact List.getElem_mem inBounds

/-- Which rank has changed depends on the ranks in other communicators only. -/
theorem changedRank?_congr
    {original input other : List Value}
    (agree :
      ∀ id ∈ search.rankNonDefaultCommIndices,
        inputAt input id = inputAt other id) :
    search.changedRank? original input = search.changedRank? original other := by
  unfold changedRank?
  apply List.find?_congr
  intro i member
  have same := agree _ (getD_mem (List.mem_range.mp member))
  unfold inputAt at same
  rw [same]

/-- What it means that a rank has changed first. -/
theorem changedRank?_eq_some_iff
    {original input : List Value}
    {x : Nat} :
    search.changedRank? original input = some x ↔
      x < search.rankNonDefaultCommIndices.length ∧
        original.getD x 0 ≠
          inputAt input (search.rankNonDefaultCommIndices.getD x 0) ∧
        ∀ j < x,
          original.getD j 0 =
            inputAt input (search.rankNonDefaultCommIndices.getD j 0) := by
  unfold changedRank? inputAt
  rw [List.find?_range_eq_some]
  simp only [bne_iff_ne, List.mem_range, Bool.not_eq_true', bne_eq_false_iff_eq]
  exact and_left_comm

theorem originalRanks_getD
    {x : Nat}
    (inBounds : x < search.rankNonDefaultCommIndices.length) :
    (search.originalRanks ex).getD x 0 =
      inputAt ex.inputs (search.rankNonDefaultCommIndices.getD x 0) := by
  unfold originalRanks inputAt
  simp [inBounds]

/-- Entries that are not merged are the old ones. -/
theorem inputAt_foldl_set_of_absent
    {items : List (Var × Value)}
    {input : List Value}
    {id : Id}
    (absent : ∀ item ∈ items, item.1 ≠ id.toNat) :
    inputAt (items.foldl (fun input item => input.set item.1 item.2) input)
        id =
      inputAt input id := by
  induction items generalizing input with
  | nil =>
      rfl
  | cons item rest inductionHypothesis =>
      have restAbsent : ∀ other ∈ rest, other.1 ≠ id.toNat :=
        fun other member => absent other (List.mem_cons_of_mem _ member)
      rw [List.foldl_cons, inductionHypothesis restAbsent]
      exact inputAt_set_of_ne (absent item List.mem_cons_self) _

end Overwriting

section Merging

variable {search : Search} {ex : SymbolicExecution} {n : Nat}

/-- The lists of the search are as those of an execution. -/
structure ListsApart (search : Search) : Prop where
  nonneg : ∀ id ∈ search.rankNonDefaultCommIndices, 0 ≤ id
  increasing : search.rankNonDefaultCommIndices.Pairwise (· < ·)
  apart :
    ∀ rank ∈ search.rankIndices, ∀ id ∈ search.rankNonDefaultCommIndices,
      rank.toNat ≠ id.toNat

theorem getD_le_getD
    {ids : List Id}
    (increasing : ids.Pairwise (· < ·))
    {j x : Nat}
    (before : j ≤ x)
    (inBounds : x < ids.length) :
    ids.getD j 0 ≤ ids.getD x 0 := by
  have jInBounds : j < ids.length := lt_of_le_of_lt before inBounds
  rw [List.getD_eq_getElem?_getD, List.getElem?_eq_getElem jInBounds,
    List.getD_eq_getElem?_getD, List.getElem?_eq_getElem inBounds]
  rcases before.eq_or_lt with rfl | less
  · exact le_rfl
  · exact (List.pairwise_iff_getElem.mp increasing j x jInBounds inBounds
      less).le

/-- A rank that has changed first stays so when later variables are merged. -/
theorem changedRank?_stays
    (listsApart : search.ListsApart)
    {items : List (Var × Value)}
    {index x : Nat}
    (before : ∀ item ∈ items, item.1 < index)
    (changed :
      search.changedRank? (search.originalRanks ex)
        (items.foldl (fun input item => input.set item.1 item.2)
          ex.inputs) = some x)
    (value : Value) :
    ∀ j ≤ x,
      inputAt
          ((items.foldl (fun input item => input.set item.1 item.2)
            ex.inputs).set index value)
          (search.rankNonDefaultCommIndices.getD j 0) =
        inputAt
          (items.foldl (fun input item => input.set item.1 item.2) ex.inputs)
          (search.rankNonDefaultCommIndices.getD j 0) := by
  obtain ⟨inBounds, isChanged, _⟩ := changedRank?_eq_some_iff.mp changed
  rw [originalRanks_getD inBounds] at isChanged
  obtain ⟨item, isItem, isMerged⟩ :
      ∃ item ∈ items,
        item.1 = (search.rankNonDefaultCommIndices.getD x 0).toNat := by
    by_contra absent
    push Not at absent
    exact isChanged (inputAt_foldl_set_of_absent absent).symm
  intro j isBefore
  apply inputAt_set_of_ne
  have isLess := getD_le_getD listsApart.increasing isBefore inBounds
  have isBelow := before item isItem
  have atMost :
      (search.rankNonDefaultCommIndices.getD j 0).toNat ≤
        (search.rankNonDefaultCommIndices.getD x 0).toNat :=
    Int.toNat_le_toNat isLess
  rw [← isMerged] at atMost
  exact (lt_of_le_of_lt atMost isBelow).ne'

theorem rewriteRanks_of_unchanged
    {original input : List Value}
    (unchanged : search.changedRank? original input = none) :
    search.rewriteRanks ex original input = some input := by
  unfold rewriteRanks
  rw [unchanged]

theorem rewriteRanks_of_changed
    {original input : List Value}
    {x : Nat}
    (changed : search.changedRank? original input = some x) :
    search.rewriteRanks ex original input =
      (globalRank? ex x (search.newRank input x)).map fun globalRank =>
        search.overwriteRanks globalRank input := by
  unfold rewriteRanks
  rw [changed]

/-- Ranks in other communicators are the same without the overwriting. -/
theorem inputAt_set_overwriteRanks
    (listsApart : search.ListsApart)
    (globalRank value : Value)
    (input : List Value)
    (index : Nat)
    {id : Id}
    (member : id ∈ search.rankNonDefaultCommIndices) :
    inputAt ((search.overwriteRanks globalRank input).set index value) id =
      inputAt (input.set index value) id := by
  have apart :
      ∀ rank ∈ search.rankIndices, rank.toNat ≠ id.toNat :=
    fun rank isRank => listsApart.apart rank isRank id member
  have unaffected :
      (search.overwriteRanks globalRank input)[id.toNat]? =
        input[id.toNat]? := by
    rw [getElem?_overwriteRanks, if_neg]
    rintro ⟨_, rank, isRank, same⟩
    exact apart rank isRank same
  unfold inputAt
  rw [List.getD_eq_getElem?_getD, List.getD_eq_getElem?_getD,
    List.getElem?_set, List.getElem?_set, length_overwriteRanks, unaffected]

/-- Rewriting, merging one more variable and rewriting again. -/
theorem rewriteRanks_bind_set
    (listsApart : search.ListsApart)
    {original merged : List Value}
    {index : Nat}
    {value : Value}
    (stays :
      ∀ x,
        search.changedRank? original merged = some x →
        ∀ j ≤ x,
          inputAt (merged.set index value)
              (search.rankNonDefaultCommIndices.getD j 0) =
            inputAt merged (search.rankNonDefaultCommIndices.getD j 0)) :
    ((search.rewriteRanks ex original merged).bind fun input =>
        search.rewriteRanks ex original (input.set index value)) =
      search.rewriteRanks ex original (merged.set index value) := by
  cases changed : search.changedRank? original merged with
  | none =>
      rw [rewriteRanks_of_unchanged changed, Option.bind_some]
  | some x =>
      have same := stays x changed
      have stillChanged :
          search.changedRank? original (merged.set index value) = some x := by
        obtain ⟨inBounds, isChanged, isFirst⟩ :=
          changedRank?_eq_some_iff.mp changed
        refine changedRank?_eq_some_iff.mpr ⟨inBounds, ?_, ?_⟩
        · rw [same x le_rfl]
          exact isChanged
        · intro j before
          rw [same j before.le]
          exact isFirst j before
      have sameRank :
          search.newRank (merged.set index value) x =
            search.newRank merged x :=
        congrArg (toSigned 32) (same x le_rfl)
      rw [rewriteRanks_of_changed changed, rewriteRanks_of_changed stillChanged,
        sameRank]
      cases read : globalRank? ex x (search.newRank merged x) with
      | none =>
          rfl
      | some globalRank =>
          have agree :
              ∀ id ∈ search.rankNonDefaultCommIndices,
                inputAt
                    ((search.overwriteRanks globalRank merged).set index
                      value) id =
                  inputAt (merged.set index value) id :=
            fun id member =>
              inputAt_set_overwriteRanks listsApart globalRank value merged
                index member
          have overwrittenChanged :=
            (changedRank?_congr agree).trans stillChanged
          have overwrittenRank :
              search.newRank
                  ((search.overwriteRanks globalRank merged).set index value)
                  x =
                search.newRank merged x := by
            have isIndex :=
              getD_mem (changedRank?_eq_some_iff.mp changed).1
            exact congrArg (toSigned 32)
              ((agree _ isIndex).trans (same x le_rfl))
          rw [Option.map_some, Option.bind_some,
            rewriteRanks_of_changed overwrittenChanged, overwrittenRank, read,
            Option.map_some, Option.map_some,
            overwriteRanks_set_overwriteRanks]

/-- The rewriting after the last variable decides. -/
theorem foldlM_rewriteRanks
    (listsApart : search.ListsApart)
    {items : List (Var × Value)}
    (increasing : items.Pairwise (fun item later => item.1 < later.1)) :
    items.foldlM
        (fun input item =>
          search.rewriteRanks ex (search.originalRanks ex)
            (input.set item.1 item.2))
        ex.inputs =
      search.rewriteRanks ex (search.originalRanks ex)
        (items.foldl (fun input item => input.set item.1 item.2)
          ex.inputs) := by
  induction items using List.reverseRecOn with
  | nil =>
      have unchanged :
          search.changedRank? (search.originalRanks ex) ex.inputs = none := by
        rw [Option.eq_none_iff_forall_ne_some]
        intro x changed
        obtain ⟨inBounds, isChanged, _⟩ := changedRank?_eq_some_iff.mp changed
        exact isChanged (originalRanks_getD inBounds)
      unfold rewriteRanks
      rw [List.foldl_nil, unchanged]
      rfl
  | append_singleton items last inductionHypothesis =>
      obtain ⟨itemsIncreasing, _, before⟩ := List.pairwise_append.mp increasing
      have isBefore : ∀ item ∈ items, item.1 < last.1 :=
        fun item member => before item member last (List.mem_singleton.mpr rfl)
      rw [List.foldlM_append, inductionHypothesis itemsIncreasing,
        List.foldl_append, List.foldl_cons, List.foldl_nil]
      simp only [List.foldlM_cons, List.foldlM_nil, bind_pure]
      exact rewriteRanks_bind_set listsApart fun x changed =>
        changedRank?_stays listsApart isBefore changed last.2

/-- The ranks are rewritten once, after all variables are merged. -/
theorem mergeSolution_of_late
    (listsApart : search.ListsApart)
    (late : search.numIters > 100)
    (soln : OrderedMap Var Value) :
    search.mergeSolution ex soln =
      search.rewriteRanks ex (search.originalRanks ex)
        (solvedInput ex soln) := by
  have increasing :
      soln.toList.Pairwise (fun item later => item.1 < later.1) := by
    have ordered := Std.ExtTreeMap.ordered_keys_toList (t := soln)
    exact ordered.imp fun less => Nat.compare_eq_lt.mp less
  unfold mergeSolution solvedInput
  simp only [late, ↓reduceIte]
  exact foldlM_rewriteRanks listsApart increasing

/-- Overwriting the ranks in a consistent input. -/
theorem mpiConsistent_overwriteRanks_iff
    (indexed : Indexed n ex)
    (sameRanks : search.rankIndices = ex.rankIndices)
    {solved : List Value}
    (covered : n ≤ solved.length)
    (consistent : MpiConsistent ex solved)
    (globalRank : Value) :
    MpiConsistent ex (search.overwriteRanks globalRank solved) ↔
      ∀ rank ∈ search.rankIndices,
        (∀ size ∈ ex.worldSizeIndices, globalRank < inputAt solved size) ∧
          ∀ limit, ex.limits.lookup rank = some limit → globalRank ≤ limit := by
  rw [sameRanks]
  have rankIsIndex : ∀ id ∈ ex.rankIndices, IsIndex n id :=
    indexed.indices .rank
  have atRank :
      ∀ rank ∈ ex.rankIndices,
        inputAt (search.overwriteRanks globalRank solved) rank =
          globalRank := by
    intro rank isRank
    exact inputAt_overwriteRanks globalRank solved (sameRanks ▸ isRank)
      (lt_of_lt_of_le (rankIsIndex rank isRank).toNat_lt covered)
  have elsewhere :
      ∀ id : Id,
        IsIndex n id →
        id ∉ ex.rankIndices →
        inputAt (search.overwriteRanks globalRank solved) id =
          inputAt solved id := by
    intro id isIndex notRank
    apply inputAt_overwriteRanks_of_apart
    rw [sameRanks]
    intro rank isRank same
    have nonneg : 0 ≤ rank := (rankIsIndex rank isRank).1
    have sameId : rank = id := by
      rw [← Int.toNat_of_nonneg nonneg, ← Int.toNat_of_nonneg isIndex.1, same]
    exact notRank (sameId ▸ isRank)
  have atSize :
      ∀ size ∈ ex.worldSizeIndices,
        inputAt (search.overwriteRanks globalRank solved) size =
          inputAt solved size := by
    intro size isSize
    exact elsewhere size (indexed.indices .worldSize size isSize)
      (indexed.apart .worldSize .rank (by decide) size isSize)
  constructor
  · intro overwritten rank isRank
    constructor
    · intro size isSize
      have isBelow := overwritten.rankBelow rank isRank size isSize
      rw [atRank rank isRank, atSize size isSize] at isBelow
      exact isBelow
    · intro limit isLimit
      have isWithin := overwritten.limited rank limit isLimit
      rw [atRank rank isRank] at isWithin
      exact isWithin
  · intro within
    refine
      { ranks := ?_, sizes := ?_, rankBelow := ?_, limited := ?_ }
    · intro rank isRank other isOther
      rw [atRank rank isRank, atRank other isOther]
    · intro size isSize other isOther
      rw [atSize size isSize, atSize other isOther]
      exact consistent.sizes size isSize other isOther
    · intro rank isRank size isSize
      rw [atRank rank isRank, atSize size isSize]
      exact (within rank isRank).1 size isSize
    · intro id limit isLimit
      by_cases isRank : id ∈ ex.rankIndices
      · rw [atRank id isRank]
        exact (within id isRank).2 limit isLimit
      · have isKey : id ∈ ex.limits :=
          AList.lookup_isSome.mp (by rw [isLimit]; rfl)
        rw [elsewhere id (indexed.limits id isKey) isRank]
        exact consistent.limited id limit isLimit

/-- The search has taken over the execution, up to cleared lists of ranks. -/
structure Coherent (search : Search) (ex : SymbolicExecution) : Prop where
  constraintsMPI :
    search.constraintsMPI = YicesSolver.generateConstraintsMPI ex
  rankNonDefaultCommIndices :
    search.rankNonDefaultCommIndices = ex.rankNonDefaultCommIndices
  rankIndices :
    search.rankIndices = ex.rankIndices ∨ search.rankIndices = []

theorem coherent_refresh
    (coherent :
      search.executionTag = ex.executionTag → search.Coherent ex) :
    (search.refresh ex).Coherent ex := by
  unfold refresh
  split
  · next sameTag => exact coherent sameTag
  · exact ⟨rfl, rfl, Or.inl rfl⟩

theorem Coherent.listsApart
    (coherent : search.Coherent ex)
    (indexed : Indexed n ex) :
    search.ListsApart := by
  obtain ⟨_, sameNonDefault, ranks⟩ := coherent
  refine { nonneg := ?_, increasing := ?_, apart := ?_ }
  · rw [sameNonDefault]
    exact fun id member => (indexed.indices .rankNonDefaultComm id member).1
  · rw [sameNonDefault]
    exact indexed.increasing .rankNonDefaultComm
  · intro rank isRank id member same
    rcases ranks with sameRanks | noRanks
    · rw [sameRanks] at isRank
      rw [sameNonDefault] at member
      have rankNonneg := (indexed.indices .rank rank isRank).1
      have nonneg := (indexed.indices .rankNonDefaultComm id member).1
      have sameId : rank = id := by
        rw [← Int.toNat_of_nonneg rankNonneg, ← Int.toNat_of_nonneg nonneg,
          same]
      exact indexed.apart .rank .rankNonDefaultComm (by decide) rank isRank
        (sameId ▸ member)
    · rw [noRanks] at isRank
      cases isRank

/-- Merging a consistent solution gives a consistent input. -/
theorem mpiConsistent_mergeSolution_iff
    (indexed : Indexed n ex)
    (coherent : search.Coherent ex)
    {soln : OrderedMap Var Value}
    (consistent : MpiConsistent ex (solvedInput ex soln)) :
    (∃ input,
        search.mergeSolution ex soln = some input ∧
          MpiConsistent ex input) ↔
      search.RewritesWithin ex (solvedInput ex soln) := by
  unfold RewritesWithin
  by_cases early : search.numIters ≤ 100
  · have merged :
        search.mergeSolution ex soln = some (solvedInput ex soln) :=
      mergeSolution_of_plain (Or.inl early) soln
    exact ⟨fun _ => Or.inl early, fun _ => ⟨_, merged, consistent⟩⟩
  · rw [mergeSolution_of_late (coherent.listsApart indexed)
      (not_le.mp early)]
    cases changed :
        search.changedRank? (search.originalRanks ex)
          (solvedInput ex soln) with
    | none =>
        rw [rewriteRanks_of_unchanged changed]
        simp [consistent]
    | some x =>
        rw [rewriteRanks_of_changed changed]
        simp only [early, Option.some.injEq, forall_eq', false_or,
          Option.map_eq_some_iff, exists_exists_and_eq_and]
        refine exists_congr fun globalRank => and_congr_right fun _ => ?_
        rcases coherent.rankIndices with sameRanks | noRanks
        · have covered : n ≤ (solvedInput ex soln).length := by
            rw [length_solvedInput]
            exact indexed.covered
          exact mpiConsistent_overwriteRanks_iff indexed sameRanks covered
            consistent globalRank
        · unfold overwriteRanks
          simp [noRanks, consistent]

end Merging

section Solving

variable {n : Nat} {ex : SymbolicExecution}

/-- A solution keeps to the MPI constraints before ranks are rewritten. -/
theorem mpiConsistent_solvedInput
    {solve : YicesSolver.Solve}
    (sound : YicesSolver.SoundSolver solve)
    (few : n ≤ 2 ^ 32)
    (indexed : Indexed n ex)
    (consistent :
      ∀ c ∈ YicesSolver.generateConstraintsMPI ex,
        c.holds (assignmentOf ex.inputs) = true)
    {branchIdx : Nat}
    {c : SymbolicPred}
    (found : ex.path.constraints[branchIdx]? = some c)
    {soln : OrderedMap Var Value}
    (answered :
      YicesSolver.incrementalSolve solve
          (YicesSolver.generateConstraintsMPI ex) ex.inputs ex.vars
          (ex.path.constraints.take branchIdx) c.negate =
        some (some soln)) :
    MpiConsistent ex (solvedInput ex soln) := by
  obtain ⟨solnDeclared, keeps⟩ :=
    YicesSolver.incrementalSolve_holds sound indexed.keys
      (indexed.inRange_system found).declared answered
  apply (holds_generateConstraintsMPI_iff few indexed).mp
  intro p isMPI
  rw [assignmentOf_solvedInput
    (covered_of_keys indexed.keys indexed.covered solnDeclared)]
  exact keeps p (List.mem_append_right _ isMPI) (consistent p isMPI)

/--
When the solver has an answer for an execution whose inputs satisfy the MPI
constraints, the call returns an input that satisfies them exactly if the
rewriting of ranks does not take place or reads a rank within the solved size
and the limits.
-/
theorem mpiConsistent_solveAtBranch_iff
    (solve : YicesSolver.Solve)
    (sound : YicesSolver.SoundSolver solve)
    (search : Search)
    (ex : SymbolicExecution)
    (branchIdx n : Nat)
    (few : n ≤ 2 ^ 32)
    (indexed : Indexed n ex)
    (consistent :
      ∀ c ∈ YicesSolver.generateConstraintsMPI ex,
        c.holds (assignmentOf ex.inputs) = true)
    (coherent :
      search.executionTag = ex.executionTag → search.Coherent ex)
    (c : SymbolicPred)
    (found : ex.path.constraints[branchIdx]? = some c)
    (unrepeated : repeats ex branchIdx = false)
    (soln : OrderedMap Var Value)
    (answered :
      YicesSolver.incrementalSolve solve
          (YicesSolver.generateConstraintsMPI ex) ex.inputs ex.vars
          (ex.path.constraints.take branchIdx) c.negate =
        some (some soln)) :
    (∃ solved input,
      search.solveAtBranch solve ex branchIdx = some solved ∧
      solved.input = some input ∧
      (∀ p ∈ YicesSolver.generateConstraintsMPI ex,
        p.holds (assignmentOf input) = true) ∧
      MpiConsistent ex input) ↔
    (search.refresh ex).RewritesWithin ex (solvedInput ex soln) := by
  have isCoherent := coherent_refresh coherent
  have fresh : ¬(ex.path.constraints.take branchIdx).any c.equal = true := by
    unfold repeats at unrepeated
    rw [found] at unrepeated
    exact Bool.eq_false_iff.mp unrepeated
  have solvedConsistent :=
    mpiConsistent_solvedInput sound few indexed consistent found answered
  rw [← mpiConsistent_mergeSolution_iff indexed isCoherent solvedConsistent,
    solveAtBranch_eq found fresh isCoherent.constraintsMPI answered,
    Option.elim_some]
  constructor
  · rintro ⟨solved, input, returned, isInput, _, inputConsistent⟩
    obtain ⟨answer, isAnswer, rfl⟩ := Option.map_eq_some_iff.mp returned
    obtain ⟨merged, isMerged, rfl⟩ := Option.map_eq_some_iff.mp isAnswer
    obtain rfl := Option.some.inj isInput
    exact ⟨merged, isMerged, inputConsistent⟩
  · rintro ⟨input, isMerged, inputConsistent⟩
    rw [isMerged]
    exact ⟨_, input, rfl, rfl,
      (holds_generateConstraintsMPI_iff few indexed).mpr inputConsistent,
      inputConsistent⟩

/-- A solved input is determined by its assignment. -/
theorem solvedInput_eq
    {soln : OrderedMap Var Value}
    {values : List Value}
    (covered : ∀ v ∈ soln, v < ex.inputs.length)
    (length : values.length = ex.inputs.length)
    (isUpdated :
      YicesSolver.updated soln (assignmentOf ex.inputs) =
        assignmentOf values) :
    solvedInput ex soln = values := by
  apply List.ext_getElem
  · rw [length_solvedInput, length]
  · intro i inBounds valuesInBounds
    have same :
        assignmentOf (solvedInput ex soln) i = assignmentOf values i := by
      rw [assignmentOf_solvedInput covered, isUpdated]
    unfold assignmentOf at same
    rw [List.getD_eq_getElem?_getD, List.getElem?_eq_getElem inBounds,
      List.getD_eq_getElem?_getD, List.getElem?_eq_getElem valuesInBounds]
      at same
    exact same

/--
The focus process has rank 0 of 4, and rank 0 in a communicator of the
processes 0 and 3.  It has found that four processes are enough.
-/
def pairOfFour : SymbolicExecution :=
  { SymbolicExecution.empty with
    limits := ((∅ : UnorderedMap Id Value).insert 1 16).insert 2 2
    rankIndices := [0]
    rankNonDefaultCommIndices := [2]
    rankNonDefaultCommMap := [[0, 3]]
    worldSizeIndices := [1]
    executionTag := 7
    vars :=
      (((∅ : OrderedMap Var CType).insert 0 .uInt).insert 1 .uInt).insert 2
        .uInt
    inputs := [0, 4, 0]
    path :=
      { SymbolicPath.empty with
        branches := [3]
        constraintsIdx := [0]
        constraints :=
          [{ op := .ge
             expr :=
               ((SymbolicExpr.ofTerm 1 1).subAssign
                 (.ofTerm 2 2)).subConst 4 }] } }

/-- A search after more than a hundred iterations. -/
def lateSearch : Search :=
  { start "a.out" 4 0 with numIters := 101 }

theorem indexed_pairOfFour : Indexed 3 pairOfFour where
  keys := by decide
  covered := by decide
  constraints := by
    intro c member
    rw [List.mem_singleton.mp member]
    unfold SymbolicExpr.VarsBelow
    decide
  aligned := rfl
  limits := by
    intro id member
    have isKey : id ∈ ([2, 1] : List Id) := member
    rcases List.mem_cons.mp isKey with rfl | isKey
    · decide
    · rw [List.mem_singleton.mp isKey]
      decide
  indices := by
    intro list
    cases list <;> decide
  increasing := by
    intro list
    cases list <;> exact List.pairwise_singleton _ _
  apart := by
    intro list other different
    cases list <;> cases other <;> first | exact absurd rfl different | decide

/-- The system that is solved at the only branch. -/
def pairOfFourTarget : SymbolicPred where
  op := .lt
  expr :=
    ((SymbolicExpr.ofTerm 1 1).subAssign (.ofTerm 2 2)).subConst 4

theorem satisfies_pairOfFour
    {size : Value}
    (inRange : CType.uInt.InRange size)
    (holds :
      ∀ c ∈ [] ++ [pairOfFourTarget] ++
          YicesSolver.generateConstraintsMPI pairOfFour,
        c.holds (assignmentOf [0, size, 1]) = true) :
    YicesSolver.Satisfies pairOfFour.vars
      ([] ++ [pairOfFourTarget] ++
          YicesSolver.generateConstraintsMPI pairOfFour)
      (assignmentOf [0, size, 1]) := by
  refine ⟨holds, ?_⟩
  rw [OrderedMap.forall_getElem?_iff]
  have entries :
      pairOfFour.vars.toList = [(0, .uInt), (1, .uInt), (2, .uInt)] := by
    decide
  rw [entries, List.forall_mem_cons, List.forall_mem_cons,
    List.forall_mem_singleton]
  have zero : CType.uInt.InRange 0 := by decide
  have one : CType.uInt.InRange 1 := by decide
  exact ⟨zero, inRange, one⟩

/-- Some solver moves the focus to the other process and picks the size. -/
theorem exists_answer_pairOfFour
    (size : Value)
    (inRange : CType.uInt.InRange size)
    (holds :
      ∀ c ∈ [] ++ [pairOfFourTarget] ++
          YicesSolver.generateConstraintsMPI pairOfFour,
        c.holds (assignmentOf [0, size, 1]) = true) :
    ∃ soln,
      YicesSolver.incrementalSolve
          (YicesSolver.preferring (assignmentOf [0, size, 1]))
          (YicesSolver.generateConstraintsMPI pairOfFour) pairOfFour.inputs
          pairOfFour.vars [] pairOfFourTarget =
        some (some soln) ∧
      solvedInput pairOfFour soln = [0, size, 1] := by
  have dependsOne :
      YicesSolver.Depends
        ([] ++ [pairOfFourTarget] ++
          YicesSolver.generateConstraintsMPI pairOfFour)
        pairOfFourTarget 1 :=
    .start (by decide)
  have outside :
      ∀ v,
        ¬YicesSolver.Depends
            ([] ++ [pairOfFourTarget] ++
              YicesSolver.generateConstraintsMPI pairOfFour)
            pairOfFourTarget v →
        assignmentOf [0, size, 1] v = assignmentOf pairOfFour.inputs v := by
    intro v independent
    match v with
    | 0 =>
        let rankBelow : SymbolicPred :=
          { op := .lt
            expr :=
              (YicesSolver.indexed 0).subAssign (YicesSolver.indexed 1) }
        have member :
            rankBelow ∈
              [] ++ [pairOfFourTarget] ++
                YicesSolver.generateConstraintsMPI pairOfFour := by
          decide
        exact absurd (.step member (by decide) (by decide) dependsOne)
          independent
    | 1 => exact absurd dependsOne independent
    | 2 => exact absurd (.start (by decide)) independent
    | later + 3 =>
        rfl
  have declared :
      YicesSolver.Declared pairOfFour.vars
        ([] ++ [pairOfFourTarget] ++
          YicesSolver.generateConstraintsMPI pairOfFour) := by
    unfold YicesSolver.Declared
    decide
  have keys : pairOfFour.vars.keys = List.range 3 := by
    decide
  obtain ⟨soln, answered, solnDeclared, isUpdated⟩ :=
    YicesSolver.incrementalSolve_preferring keys declared
      (satisfies_pairOfFour inRange holds) outside
  have covered : ∀ v ∈ soln, v < pairOfFour.inputs.length :=
    covered_of_keys keys (by decide) solnDeclared
  exact ⟨soln, answered, solvedInput_eq covered rfl isUpdated⟩

theorem mpiConsistent_solveAtBranch_pairOfFour :
    ∃ solved input,
      lateSearch.solveAtBranch
          (YicesSolver.preferring (assignmentOf [0, 4, 1])) pairOfFour 0 =
        some solved ∧
      solved.input = some input ∧
      (∀ p ∈ YicesSolver.generateConstraintsMPI pairOfFour,
        p.holds (assignmentOf input) = true) ∧
      MpiConsistent pairOfFour input := by
  obtain ⟨soln, answered, isSolved⟩ :=
    exists_answer_pairOfFour 4 (by decide) (by decide)
  have within :
      (lateSearch.refresh pairOfFour).RewritesWithin pairOfFour
        (solvedInput pairOfFour soln) := by
    rw [isSolved]
    right
    intro x changed
    have isFirst : some 0 = some x := changed
    obtain rfl := Option.some.inj isFirst
    refine ⟨3, rfl, ?_⟩
    intro rank isRank
    rw [List.mem_singleton.mp isRank]
    refine ⟨by decide, ?_⟩
    intro limit isLimit
    cases isLimit
  exact (mpiConsistent_solveAtBranch_iff
    (YicesSolver.preferring (assignmentOf [0, 4, 1]))
    (YicesSolver.preferring_exact _).toSound lateSearch pairOfFour 0 3
    (by decide) indexed_pairOfFour (by decide)
    (fun sameTag => absurd sameTag (by decide))
    pairOfFourTarget.negate rfl (by decide) soln answered).mpr within

/-- The solver makes the job smaller, and process 3 is launched. -/
theorem not_mpiConsistent_solveAtBranch_pairOfFour :
    (∀ p ∈ YicesSolver.generateConstraintsMPI pairOfFour,
      p.holds (assignmentOf pairOfFour.inputs) = true) ∧
    ∃ solved,
      lateSearch.solveAtBranch
          (YicesSolver.preferring (assignmentOf [0, 2, 1])) pairOfFour 0 =
        some solved ∧
      solved.input = some [3, 2, 1] ∧
      ¬MpiConsistent pairOfFour [3, 2, 1] := by
  obtain ⟨soln, answered, isSolved⟩ :=
    exists_answer_pairOfFour 2 (by decide) (by decide)
  have coherent : (lateSearch.refresh pairOfFour).Coherent pairOfFour :=
    coherent_refresh fun sameTag => absurd sameTag (by decide)
  have merged :
      (lateSearch.refresh pairOfFour).mergeSolution pairOfFour soln =
        some [3, 2, 1] := by
    rw [mergeSolution_of_late (coherent.listsApart indexed_pairOfFour)
      (by decide), isSolved]
    decide
  have found :
      pairOfFour.path.constraints[0]? = some pairOfFourTarget.negate :=
    rfl
  refine ⟨by decide, ?_⟩
  rw [solveAtBranch_eq found (by decide) coherent.constraintsMPI answered, Option.elim_some, merged]
  refine ⟨_, rfl, rfl, ?_⟩
  intro consistent
  exact absurd (consistent.rankBelow 0 (by decide) 1 (by decide)) (by decide)

end Solving

end Search

end Compi
