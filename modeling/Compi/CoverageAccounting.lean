import Compi.BranchSets
import Compi.PartialRun
import Mathlib.Algebra.BigOperators.Group.Finset.Basic

/-!
# Coverage accounting

The counters and the reached functions follow from the total coverage and the
tables.  The constructor of a search establishes this when it loads a coverage
file, and every call of `UpdateCoverage` keeps it.
-/

namespace Compi

namespace Coverage

open BranchTables

/-- The reached functions and their counters are those of the given set. -/
structure Reaches
    (tables : BranchTables)
    (functions : Finset Nat)
    (coverage : Coverage) : Prop where
  length : coverage.reached.length = tables.branchCount.length
  reached :
    ∀ function, coverage.reached[function]? = some true ↔ function ∈ functions
  reachableFunctions : coverage.reachableFunctions = functions.card
  reachableBranches :
    coverage.reachableBranches =
      ∑ function ∈ functions, tables.branchCount.getD function 0

/-- Reaching a function adds it to the set, and changes nothing else. -/
theorem Reaches.reachFunction
    {tables : BranchTables}
    {functions : Finset Nat}
    {coverage : Coverage}
    (reaches : Reaches tables functions coverage)
    {function : Nat}
    (inRange : function < tables.branchCount.length) :
    ∃ next,
      coverage.reachFunction tables function = some next ∧
        Reaches tables (insert function functions) next ∧
          next.covered = coverage.covered ∧
            next.totalCovered = coverage.totalCovered ∧
              next.numCovered = coverage.numCovered ∧
                next.totalNumCovered = coverage.totalNumCovered := by
  have below : function < coverage.reached.length :=
    reaches.length ▸ inRange
  have entry := List.getElem?_eq_getElem below
  have count := List.getElem?_eq_getElem inRange
  cases isReached : coverage.reached[function] with
  | true =>
      have member : function ∈ functions :=
        (reaches.reached function).mp (by rw [entry, isReached])
      refine ⟨coverage, ?_, ?_, rfl, rfl, rfl, rfl⟩
      · simp [Coverage.reachFunction, entry, isReached]
      · rw [Finset.insert_eq_of_mem member]
        exact reaches
  | false =>
      have fresh : function ∉ functions := by
        intro member
        have reached := (reaches.reached function).mpr member
        rw [entry, isReached] at reached
        exact nomatch reached
      refine
        ⟨{ coverage with
            reached := coverage.reached.set function true
            reachableFunctions := coverage.reachableFunctions + 1
            reachableBranches :=
              coverage.reachableBranches + tables.branchCount[function] },
          ?_, ?_, rfl, rfl, rfl, rfl⟩
      · simp [Coverage.reachFunction, entry, isReached, count]
      · constructor
        · exact List.length_set.trans reaches.length
        · intro query
          rw [Finset.mem_insert, ← reaches.reached query]
          by_cases same : query = function
          · subst same
            simp [List.getElem?_set_self below]
          · rw [List.getElem?_set_ne (Ne.symm same)]
            simp [same]
        · rw [Finset.card_insert_of_notMem fresh,
            ← reaches.reachableFunctions]
        · rw [Finset.sum_insert fresh, ← reaches.reachableBranches,
            List.getD_eq_getElem?_getD, count, Option.getD_some]
          exact Nat.add_comm _ _

/-- Covering a branch reaches its function. -/
theorem Reaches.cover
    {tables : BranchTables}
    {functions : Finset Nat}
    {coverage : Coverage}
    (wellFormed : WellFormed tables)
    (reaches : Reaches tables functions coverage)
    {bid : BranchId}
    (listed : bid ∈ tables.branches) :
    ∃ next,
      ({ coverage with
          covered := update coverage.covered bid true
          numCovered := (coverage.numCovered + 1) % 2 ^ 32
        }.reachFunction tables (tables.functionOf bid)) = some next ∧
        Reaches tables (insert (tables.functionOf bid) functions) next ∧
          next.covered = update coverage.covered bid true ∧
            next.totalCovered = coverage.totalCovered ∧
              next.numCovered = (coverage.numCovered + 1) % 2 ^ 32 ∧
                next.totalNumCovered = coverage.totalNumCovered := by
  have inRange := (wellFormed.lookup?_branchFunction listed).2
  have marked :
      Reaches tables functions
        { coverage with
          covered := update coverage.covered bid true
          numCovered := (coverage.numCovered + 1) % 2 ^ 32 } :=
    ⟨reaches.length, reaches.reached, reaches.reachableFunctions,
      reaches.reachableBranches⟩
  exact marked.reachFunction inRange

/--
The accounting invariant: what is covered is covered in total, and the other
fields follow from the total coverage and the tables.
-/
structure Accounted
    (tables : BranchTables)
    (coverage : Coverage) : Prop where
  coveredLength :
    coverage.covered.length = tables.branchFunction.length
  totalLength :
    coverage.totalCovered.length = tables.branchFunction.length
  subset : setBits coverage.covered ⊆ setBits coverage.totalCovered
  listed : setBits coverage.totalCovered ⊆ tables.branches.toFinset
  totalNumCovered :
    coverage.totalNumCovered = (setBits coverage.totalCovered).card
  reaches :
    Reaches tables (tables.functionsOf (setBits coverage.totalCovered))
      coverage

/-- The positive ids among some branches; the others are markers. -/
def positives (branches : List BranchId) : Finset BranchId :=
  (branches.filter fun bid => 0 < bid).toFinset

theorem positives_concat_of_pos
    {processed : List BranchId}
    {bid : BranchId}
    (positive : 0 < bid) :
    positives (processed ++ [bid]) = insert bid (positives processed) := by
  ext query
  simp [positives, positive]

theorem positives_concat_of_not_pos
    {processed : List BranchId}
    {bid : BranchId}
    (marker : ¬ 0 < bid) :
    positives (processed ++ [bid]) = positives processed := by
  simp [positives, marker]

/--
The state of `UpdateCoverage` after some branches: their positive ids are
covered, and those that were not covered at the start are new.
-/
structure Visited
    (tables : BranchTables)
    (start : Coverage)
    (processed : List BranchId)
    (state : Coverage × OrderedSet BranchId) : Prop where
  accounted : Accounted tables state.1
  covered :
    setBits state.1.covered = setBits start.covered ∪ positives processed
  totalCovered :
    setBits state.1.totalCovered =
      setBits start.totalCovered ∪ positives processed
  newBranches :
    ∀ bid,
      bid ∈ state.2 ↔ bid ∈ positives processed \ setBits start.covered
  numCovered :
    state.1.numCovered =
      (start.numCovered + (positives processed \ setBits start.covered).card)
        % 2 ^ 32

/-- A branch that is covered already changes nothing. -/
theorem Visited.again
    {tables : BranchTables}
    {start : Coverage}
    {processed : List BranchId}
    {state : Coverage × OrderedSet BranchId}
    (visited : Visited tables start processed state)
    {bid : BranchId}
    (positive : 0 < bid)
    (isCovered : bid ∈ setBits state.1.covered) :
    visitBranch tables state bid = some state ∧
      Visited tables start (processed ++ [bid]) state := by
  obtain ⟨coverage, newBranches⟩ := state
  have inTotal := visited.accounted.subset isCovered
  have known : bid ∈ setBits start.covered ∪ positives processed :=
    visited.covered ▸ isCovered
  have sameNew :
      positives (processed ++ [bid]) \ setBits start.covered =
        positives processed \ setBits start.covered := by
    rw [positives_concat_of_pos positive]
    ext query
    simp only [Finset.mem_sdiff, Finset.mem_insert]
    constructor
    · rintro ⟨rfl | member, fresh⟩
      · rcases Finset.mem_union.mp known with old | member
        · exact absurd old fresh
        · exact ⟨member, fresh⟩
      · exact ⟨member, fresh⟩
    · rintro ⟨member, fresh⟩
      exact ⟨Or.inr member, fresh⟩
  constructor
  · simp [visitBranch, positive, coverBranch, coverTotal,
      mem_setBits.mp isCovered, mem_setBits.mp inTotal]
  · constructor
    · exact visited.accounted
    · rw [positives_concat_of_pos positive, Finset.union_insert,
        ← visited.covered, Finset.insert_eq_of_mem isCovered]
    · rw [positives_concat_of_pos positive, Finset.union_insert,
        ← visited.totalCovered, Finset.insert_eq_of_mem inTotal]
    · rw [sameNew]
      exact visited.newBranches
    · rw [sameNew]
      exact visited.numCovered

/-- Covering a branch whose bit is not set. -/
theorem coverBranch_of_uncovered
    {tables : BranchTables}
    {coverage middle : Coverage}
    {newBranches : OrderedSet BranchId}
    {bid : BranchId}
    {function : Nat}
    (uncovered : lookup? coverage.covered bid = some false)
    (belongs : lookup? tables.branchFunction bid = some function)
    (reached :
      ({ coverage with
          covered := update coverage.covered bid true
          numCovered := (coverage.numCovered + 1) % 2 ^ 32
        }.reachFunction tables function) = some middle) :
    coverBranch tables (coverage, newBranches) bid =
      some (middle, newBranches.insert bid) := by
  simp only [coverBranch, uncovered, belongs, Option.bind_eq_bind,
    Option.bind_some, Bool.false_eq_true, if_false]
  rw [reached]
  rfl

/-- Covering a branch in total, and what is left of the invariant for it. -/
theorem coverTotal_spec
    {tables : BranchTables}
    {coverage : Coverage}
    {bid : BranchId}
    (inRange : 0 ≤ bid ∧ bid < coverage.totalCovered.length)
    (counted :
      coverage.totalNumCovered = (setBits coverage.totalCovered).card)
    (reaches :
      Reaches tables
        (insert (tables.functionOf bid)
          (tables.functionsOf (setBits coverage.totalCovered))) coverage) :
    ∃ next,
      coverage.coverTotal bid = some next ∧
        setBits next.totalCovered =
          insert bid (setBits coverage.totalCovered) ∧
        next.totalCovered.length = coverage.totalCovered.length ∧
        next.totalNumCovered = (setBits next.totalCovered).card ∧
        Reaches tables (tables.functionsOf (setBits next.totalCovered)) next ∧
        next.covered = coverage.covered ∧
        next.numCovered = coverage.numCovered := by
  obtain ⟨bit, found⟩ := lookup?_of_inRange inRange
  cases bit with
  | true =>
      have member := mem_setBits.mpr found
      have known :
          tables.functionOf bid ∈
            tables.functionsOf (setBits coverage.totalCovered) :=
        Finset.mem_image_of_mem _ member
      rw [Finset.insert_eq_of_mem known] at reaches
      refine ⟨coverage, ?_, ?_, rfl, counted, reaches, rfl, rfl⟩
      · simp [coverTotal, found]
      · exact (Finset.insert_eq_of_mem member).symm
  | false =>
      have fresh : bid ∉ setBits coverage.totalCovered := by
        intro member
        have isSet := mem_setBits.mp member
        rw [found] at isSet
        exact nomatch isSet
      have inserted := setBits_update inRange
      refine
        ⟨{ coverage with
            totalCovered := update coverage.totalCovered bid true
            totalNumCovered := coverage.totalNumCovered + 1 },
          ?_, inserted, length_update _ _ _, ?_, ?_, rfl, rfl⟩
      · simp [coverTotal, found]
      · rw [inserted, Finset.card_insert_of_notMem fresh, ← counted]
      · rw [inserted, functionsOf, Finset.image_insert]
        exact ⟨reaches.length, reaches.reached, reaches.reachableFunctions,
          reaches.reachableBranches⟩

/-- Covering a branch whose bit is not set keeps the accounting. -/
theorem Accounted.cover
    {tables : BranchTables}
    {coverage : Coverage}
    (wellFormed : WellFormed tables)
    (accounted : Accounted tables coverage)
    {bid : BranchId}
    (listed : bid ∈ tables.branches)
    (uncovered : bid ∉ setBits coverage.covered)
    (newBranches : OrderedSet BranchId) :
    ∃ middle next,
      coverBranch tables (coverage, newBranches) bid =
          some (middle, newBranches.insert bid) ∧
        middle.coverTotal bid = some next ∧
        Accounted tables next ∧
        setBits next.covered = insert bid (setBits coverage.covered) ∧
        setBits next.totalCovered =
          insert bid (setBits coverage.totalCovered) ∧
        next.numCovered = (coverage.numCovered + 1) % 2 ^ 32 := by
  have inRange := wellFormed.inRange bid listed
  have inCovered : 0 ≤ bid ∧ bid < coverage.covered.length :=
    accounted.coveredLength ▸ inRange
  obtain ⟨bit, found⟩ := lookup?_of_inRange inCovered
  obtain rfl : bit = false := by
    cases bit with
    | false => rfl
    | true => exact absurd (mem_setBits.mpr found) uncovered
  have function := (wellFormed.lookup?_branchFunction listed).1
  obtain ⟨middle, reachedNow, reaches, covered, totalCovered, numCovered,
      totalNumCovered⟩ :=
    accounted.reaches.cover wellFormed listed
  have inTotal : 0 ≤ bid ∧ bid < middle.totalCovered.length := by
    rw [totalCovered, accounted.totalLength]
    exact inRange
  rw [← totalCovered] at reaches
  have counted :
      middle.totalNumCovered = (setBits middle.totalCovered).card := by
    rw [totalNumCovered, totalCovered]
    exact accounted.totalNumCovered
  obtain ⟨next, covers, total, totalLength, totalCounted, totalReaches,
      coveredSame, numSame⟩ :=
    coverTotal_spec inTotal counted reaches
  rw [totalCovered] at total
  have coveredBits :
      setBits next.covered = insert bid (setBits coverage.covered) := by
    rw [coveredSame, covered]
    exact setBits_update inCovered
  refine ⟨middle, next,
    coverBranch_of_uncovered found function reachedNow, covers, ?_,
    coveredBits, total, numSame.trans numCovered⟩
  constructor
  · rw [coveredSame, covered]
    exact (length_update _ _ _).trans accounted.coveredLength
  · rw [totalLength, totalCovered]
    exact accounted.totalLength
  · rw [coveredBits, total]
    exact Finset.insert_subset_insert bid accounted.subset
  · rw [total]
    exact Finset.insert_subset (List.mem_toFinset.mpr listed)
      accounted.listed
  · exact totalCounted
  · exact totalReaches

/-- A branch that is not covered yet is covered, and is new. -/
theorem Visited.fresh
    {tables : BranchTables}
    {start : Coverage}
    {processed : List BranchId}
    {state : Coverage × OrderedSet BranchId}
    (wellFormed : WellFormed tables)
    (visited : Visited tables start processed state)
    {bid : BranchId}
    (listed : bid ∈ tables.branches)
    (positive : 0 < bid)
    (uncovered : bid ∉ setBits state.1.covered) :
    ∃ next,
      visitBranch tables state bid = some next ∧
        Visited tables start (processed ++ [bid]) next := by
  obtain ⟨coverage, newBranches⟩ := state
  obtain ⟨middle, next, coversBranch, covers, accounted, coveredBits, total,
      numCovered⟩ :=
    visited.accounted.cover wellFormed listed uncovered newBranches
  have unseen :
      bid ∉ setBits start.covered ∪ positives processed :=
    visited.covered ▸ uncovered
  rw [Finset.mem_union, not_or] at unseen
  have newIds :
      positives (processed ++ [bid]) \ setBits start.covered =
        insert bid (positives processed \ setBits start.covered) := by
    rw [positives_concat_of_pos positive]
    exact Finset.insert_sdiff_of_notMem _ unseen.1
  have notYetNew : bid ∉ positives processed \ setBits start.covered :=
    fun member => unseen.2 (Finset.mem_sdiff.mp member).1
  refine ⟨(next, newBranches.insert bid), ?_, accounted, ?_, ?_, ?_, ?_⟩
  · simp [visitBranch, positive, coversBranch, covers]
  · rw [coveredBits, positives_concat_of_pos positive, Finset.union_insert]
    exact congrArg (insert bid) visited.covered
  · rw [total, positives_concat_of_pos positive, Finset.union_insert]
    exact congrArg (insert bid) visited.totalCovered
  · intro query
    rw [newIds, Finset.mem_insert, ← visited.newBranches query,
      Std.ExtTreeSet.mem_insert, Std.LawfulEqOrd.compare_eq_iff_eq,
      eq_comm]
  · rw [newIds, Finset.card_insert_of_notMem notYetNew, numCovered,
      visited.numCovered]
    omega

/-- A marker is passed over. -/
theorem Visited.marker
    {tables : BranchTables}
    {start : Coverage}
    {processed : List BranchId}
    {state : Coverage × OrderedSet BranchId}
    (visited : Visited tables start processed state)
    {bid : BranchId}
    (isMarker : ¬ 0 < bid) :
    visitBranch tables state bid = some state ∧
      Visited tables start (processed ++ [bid]) state := by
  have same : positives (processed ++ [bid]) = positives processed :=
    positives_concat_of_not_pos isMarker
  refine ⟨if_neg isMarker, ?_⟩
  constructor
  · exact visited.accounted
  · exact same ▸ visited.covered
  · exact same ▸ visited.totalCovered
  · exact same ▸ visited.newBranches
  · exact same ▸ visited.numCovered

/-- One branch that the program reports, whatever was processed before. -/
theorem Visited.step
    {tables : BranchTables}
    {start : Coverage}
    {processed : List BranchId}
    {state : Coverage × OrderedSet BranchId}
    (wellFormed : WellFormed tables)
    (visited : Visited tables start processed state)
    {bid : BranchId}
    (drawn : bid ∈ tables.branches ∨ bid < 0) :
    ∃ next,
      visitBranch tables state bid = some next ∧
        Visited tables start (processed ++ [bid]) next := by
  by_cases positive : 0 < bid
  · have listed : bid ∈ tables.branches := by
      rcases drawn with listed | negative
      · exact listed
      · exact absurd positive (not_lt_of_gt negative)
    by_cases isCovered : bid ∈ setBits state.1.covered
    · exact ⟨state, visited.again positive isCovered⟩
    · exact visited.fresh wellFormed listed positive isCovered
  · exact ⟨state, visited.marker positive⟩

/-- The coverage after reading some branches of a coverage file. -/
structure Loaded
    (tables : BranchTables)
    (processed : List BranchId)
    (coverage : Coverage) : Prop where
  coveredLength : coverage.covered.length = tables.branchFunction.length
  covered : setBits coverage.covered = processed.toFinset
  numCovered : coverage.numCovered = processed.length % 2 ^ 32
  reaches :
    Reaches tables (tables.functionsOf processed.toFinset) coverage

theorem loaded_uncovered (tables : BranchTables) :
    Loaded tables [] (uncovered tables) := by
  have noBits :
      setBits (List.replicate tables.branchFunction.length false) = ∅ := by
    rw [← List.map_const]
    exact setBits_map_false _
  constructor
  · exact List.length_replicate
  · exact noBits
  · rfl
  · constructor
    · exact List.length_replicate
    · intro function
      simp [uncovered, functionsOf, List.getElem?_replicate]
    · rfl
    · rfl

/-- One branch of a coverage file. -/
theorem Loaded.step
    {tables : BranchTables}
    {processed : List BranchId}
    {coverage : Coverage}
    (wellFormed : WellFormed tables)
    (loaded : Loaded tables processed coverage)
    {bid : BranchId}
    (listed : bid ∈ tables.branches) :
    ∃ next,
      loadBranch tables coverage bid = some next ∧
        Loaded tables (processed ++ [bid]) next := by
  have inRange : 0 ≤ bid ∧ bid < coverage.covered.length :=
    loaded.coveredLength ▸ wellFormed.inRange bid listed
  obtain ⟨bit, found⟩ := lookup?_of_inRange inRange
  have belongs := (wellFormed.lookup?_branchFunction listed).1
  obtain ⟨next, reachedNow, reaches, covered, -, numCovered, -⟩ :=
    loaded.reaches.cover wellFormed listed
  have processedIds :
      (processed ++ [bid]).toFinset = insert bid processed.toFinset := by
    ext query
    simp
  refine ⟨next, ?_, ?_, ?_, ?_, ?_⟩
  · simp only [loadBranch, found, belongs, Option.bind_eq_bind,
      Option.bind_some]
    exact reachedNow
  · rw [covered]
    exact (length_update _ _ _).trans loaded.coveredLength
  · rw [covered, setBits_update inRange, loaded.covered, processedIds]
  · rw [numCovered, loaded.numCovered, List.length_append,
      List.length_singleton]
    omega
  · rw [processedIds, functionsOf, Finset.image_insert]
    exact reaches

/-- The coverage that a new search loads from a file of distinct branches. -/
theorem load_spec
    {tables : BranchTables}
    (wellFormed : WellFormed tables)
    {file : List BranchId}
    (distinct : file.Nodup)
    (listed : ∀ bid ∈ file, bid ∈ tables.branches) :
    ∃ coverage,
      load tables file = some coverage ∧
        Accounted tables coverage ∧
        setBits coverage.totalCovered = file.toFinset ∧
        coverage.numCovered < 2 ^ 32 := by
  obtain ⟨coverage, folded, loaded⟩ :=
    PartialRun.foldlM_of_steps (Loaded tables)
      (fun member loaded => loaded.step wellFormed (listed _ member))
      (loaded_uncovered tables)
  rw [List.nil_append] at loaded
  have subset : file.toFinset ⊆ tables.branches.toFinset := by
    intro bid member
    exact List.mem_toFinset.mpr (listed bid (List.mem_toFinset.mp member))
  have size : file.toFinset.card = file.length :=
    List.toFinset_card_of_nodup distinct
  have few : file.length ≤ 2 ^ 31 := by
    rw [← size]
    exact wellFormed.card_le subset
  have count : coverage.numCovered = file.length := by
    rw [loaded.numCovered]
    omega
  refine
    ⟨{ coverage with
        totalNumCovered := coverage.numCovered
        totalCovered := coverage.covered },
      ?_, ?_, loaded.covered, ?_⟩
  · simp [load, folded]
  · constructor
    · exact loaded.coveredLength
    · exact loaded.coveredLength
    · exact Finset.Subset.refl _
    · exact loaded.covered.symm ▸ subset
    · rw [loaded.covered, size]
      exact count
    · rw [loaded.covered]
      exact ⟨loaded.reaches.length, loaded.reaches.reached,
        loaded.reaches.reachableFunctions, loaded.reaches.reachableBranches⟩
  · show coverage.numCovered < 2 ^ 32
    omega

/-- The ids in a written file are the listed branches covered in total. -/
theorem mem_writeCoverage
    {tables : BranchTables}
    {totalCovered : List Bool}
    {bid : BranchId} :
    bid ∈ writeCoverage tables totalCovered ↔
      bid ∈ tables.branches ∧ bid ∈ setBits totalCovered := by
  rw [writeCoverage, List.mem_filter, mem_setBits, beq_iff_eq]

/-- Two searches count the same branches and functions in total. -/
structure SameTotals (left right : Coverage) : Prop where
  totalCovered : left.totalCovered = right.totalCovered
  totalNumCovered : left.totalNumCovered = right.totalNumCovered
  reached : left.reached = right.reached
  reachableFunctions : left.reachableFunctions = right.reachableFunctions
  reachableBranches : left.reachableBranches = right.reachableBranches

/-- The total coverage determines the counters. -/
theorem Accounted.sameTotals
    {tables : BranchTables}
    {left right : Coverage}
    (leftAccounted : Accounted tables left)
    (rightAccounted : Accounted tables right)
    (same : setBits left.totalCovered = setBits right.totalCovered) :
    SameTotals left right := by
  constructor
  · apply eq_of_setBits_eq _ same
    exact leftAccounted.totalLength.trans rightAccounted.totalLength.symm
  · rw [leftAccounted.totalNumCovered, rightAccounted.totalNumCovered, same]
  · apply eq_of_set_iff
    · exact leftAccounted.reaches.length.trans
        rightAccounted.reaches.length.symm
    · intro function
      rw [leftAccounted.reaches.reached, rightAccounted.reaches.reached, same]
  · rw [leftAccounted.reaches.reachableFunctions,
      rightAccounted.reaches.reachableFunctions, same]
  · rw [leftAccounted.reaches.reachableBranches,
      rightAccounted.reaches.reachableBranches, same]

/-- A search that loads the file another one has written has its totals. -/
theorem Accounted.reload
    {tables : BranchTables}
    {coverage : Coverage}
    (wellFormed : WellFormed tables)
    (accounted : Accounted tables coverage) :
    ∃ reloaded,
      load tables (writeCoverage tables coverage.totalCovered) =
          some reloaded ∧
        SameTotals reloaded coverage := by
  have listed :
      ∀ bid ∈ writeCoverage tables coverage.totalCovered,
        bid ∈ tables.branches :=
    fun _ member => (mem_writeCoverage.mp member).1
  have distinct : (writeCoverage tables coverage.totalCovered).Nodup :=
    wellFormed.nodup.filter _
  obtain ⟨reloaded, loads, reloadedAccounted, total, -⟩ :=
    load_spec wellFormed distinct listed
  refine ⟨reloaded, loads, reloadedAccounted.sameTotals accounted ?_⟩
  rw [total]
  ext bid
  rw [List.mem_toFinset, mem_writeCoverage]
  constructor
  · exact And.right
  · intro member
    exact ⟨List.mem_toFinset.mp (accounted.listed member), member⟩

/-- The branches that a call of `UpdateCoverage` sees, in its order. -/
def reported
    (branches : List BranchId)
    (allOthers : List (List BranchId)) : List BranchId :=
  branches ++ allOthers.flatten

/-- The ids that a call covers and that were not covered before. -/
def newIds
    (coverage : Coverage)
    (branches : List BranchId)
    (allOthers : List (List BranchId)) : Finset BranchId :=
  positives (reported branches allOthers) \ setBits coverage.covered

/--
What `UpdateCoverage` computes from an accounted coverage: the state after
all reported branches, and whether the counter has grown.
-/
theorem updateCoverage_spec
    {tables : BranchTables}
    {coverage : Coverage}
    (wellFormed : WellFormed tables)
    (accounted : Accounted tables coverage)
    (bounded : coverage.numCovered < 2 ^ 32)
    {branches : List BranchId}
    {allOthers : List (List BranchId)}
    (drawn :
      ∀ bid ∈ reported branches allOthers, bid ∈ tables.branches ∨ bid < 0) :
    ∃ next newBranches,
      coverage.updateCoverage tables branches allOthers =
          some (next, decide (next.numCovered > coverage.numCovered),
            newBranches) ∧
        Visited tables coverage (reported branches allOthers)
          (next, newBranches) := by
  have initially : Visited tables coverage [] (coverage, ∅) := by
    constructor
    · exact accounted
    · simp [positives]
    · simp [positives]
    · simp [positives]
    · simpa [positives] using (Nat.mod_eq_of_lt bounded).symm
  obtain ⟨middle, focusFolded, focusVisited⟩ :=
    PartialRun.foldlM_of_steps (Visited tables coverage)
      (fun member visited =>
        visited.step wellFormed
          (drawn _ (List.mem_append_left _ member)))
      initially
  rw [List.nil_append] at focusVisited
  have othersInitially :
      Visited tables coverage
        (branches ++ ([] : List (List BranchId)).flatten) middle := by
    simpa using focusVisited
  have otherStep :
      ∀ {before : List (List BranchId)}
        {state : Coverage × OrderedSet BranchId}
        {other : List BranchId},
        other ∈ allOthers →
        Visited tables coverage (branches ++ before.flatten) state →
        ∃ next,
          other.foldlM (visitBranch tables) state = some next ∧
            Visited tables coverage (branches ++ (before ++ [other]).flatten)
              next := by
    intro before state other member visited
    obtain ⟨next, folded, after⟩ :=
      PartialRun.foldlM_of_steps (Visited tables coverage)
        (fun inOther visited =>
          visited.step wellFormed
            (drawn _ (List.mem_append_right _
              (List.mem_flatten.mpr ⟨other, member, inOther⟩))))
        visited
    refine ⟨next, folded, ?_⟩
    simpa using after
  obtain ⟨⟨next, newBranches⟩, othersFolded, visited⟩ :=
    PartialRun.foldlM_of_steps
      (fun before => Visited tables coverage (branches ++ before.flatten))
      otherStep othersInitially
  refine ⟨next, newBranches, ?_, visited⟩
  simp [updateCoverage, focusFolded, othersFolded]

end Coverage

end Compi
