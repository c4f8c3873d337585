import Compi.BranchSets
import Compi.BranchesFile

/-!
# The tables of a file of branches

A search lists the branches of the file one after the other, and goes through
this list once in steps of two and once by the counts of the functions.
-/

namespace Compi

open BranchesFile

namespace BranchTables

variable {Entry : Type}

section Constructor

/-- Set an entry that the table has. -/
def store?
    (table : List Entry)
    (bid : BranchId)
    (entry : Entry) : Option (List Entry) :=
  if 0 ≤ bid ∧ bid < table.length then
    some (update table bid entry)
  else
    none

/-- The loop that pairs branches, over what is left of `branches_`. -/
def pairUp : List BranchId → List BranchId → Option (List BranchId)
  | [], table => some table
  | [_], _ => none
  | first :: second :: rest, table => do
      let table ← store? table first second
      let table ← store? table second first
      pairUp rest table

/--
The inner loop that gives a number of branches their function.  Instead of the
index `i` it keeps what is left of `branches_`.
-/
def assignFunction (j : Nat) :
    Nat → List BranchId → List Nat → Option (List BranchId × List Nat)
  | 0, branches, table => some (branches, table)
  | _ + 1, [], _ => none
  | count + 1, bid :: branches, table => do
      let table ← store? table bid j
      assignFunction j count branches table

/-- The outer loop, over the counts with their functions. -/
def assignFunctions :
    List (Nat × Nat) → List BranchId → List Nat → Option (List Nat)
  | [], _, table => some table
  | (count, j) :: rest, branches, table => do
      let (branches, table) ← assignFunction j count branches table
      assignFunctions rest branches table

/-- The tables that the constructor of a search makes of what it has read. -/
def ofGroups (groups : List Group) : Option BranchTables := do
  let branches := groups.flatMap fun group => idsOf group.pairs
  let branchCount :=
    0 :: groups.map fun group => (2 * group.numBranches % 2 ^ 32).toNat
  let maxBranch := (branches.foldl max 0 + 1).toNat
  let pairedBranch ← pairUp branches (List.replicate maxBranch 0)
  let branchFunction ←
    assignFunctions branchCount.zipIdx branches (List.replicate maxBranch 0)
  return {
    branches :=
      branches.mergeSort (fun left right => decide (left ≤ right))
    pairedBranch := pairedBranch
    branchFunction := branchFunction
    branchCount := branchCount }

/-- The constructor of a search, on the text of the file `branches`. -/
def ofText (text : List Char) : Option BranchTables := do
  let groups ← groupsOf TextStream.readUnsigned text
  ofGroups groups

end Constructor

section Updates

/-- Set the entries of several branches. -/
def updateAll
    (table : List Entry)
    (entries : List (BranchId × Entry)) : List Entry :=
  entries.foldl (fun table entry => update table entry.1 entry.2) table

@[simp] theorem length_updateAll
    (table : List Entry)
    (entries : List (BranchId × Entry)) :
    (updateAll table entries).length = table.length := by
  induction entries generalizing table with
  | nil =>
      rfl
  | cons entry rest inductionHypothesis =>
      exact (inductionHypothesis _).trans (length_update _ _ _)

theorem updateAll_append
    (table : List Entry)
    (entries others : List (BranchId × Entry)) :
    updateAll table (entries ++ others) =
      updateAll (updateAll table entries) others :=
  List.foldl_append

/-- All branches have entries in a table of a size. -/
def AllBelow (branches : List BranchId) (size : Nat) : Prop :=
  ∀ bid ∈ branches, 0 ≤ bid ∧ bid < size

/-- A branch that is not set keeps its entry. -/
theorem lookup?_updateAll_of_notMem
    {table : List Entry}
    {entries : List (BranchId × Entry)}
    (below : AllBelow (entries.map Prod.fst) table.length)
    {bid : BranchId}
    (notSet : bid ∉ entries.map Prod.fst) :
    lookup? (updateAll table entries) bid = lookup? table bid := by
  induction entries generalizing table with
  | nil =>
      rfl
  | cons entry rest inductionHypothesis =>
      obtain ⟨here, later⟩ := List.forall_mem_cons.mp below
      rw [List.map_cons, List.mem_cons, not_or] at notSet
      have belowRest :
          AllBelow (rest.map Prod.fst)
            (update table entry.1 entry.2).length := by
        rw [length_update]
        exact later
      refine (inductionHypothesis belowRest notSet.2).trans ?_
      rw [lookup?_update here, if_neg notSet.1]

/-- Where no branch is set twice, each has the entry that it was set to. -/
theorem lookup?_updateAll
    {table : List Entry}
    {entries : List (BranchId × Entry)}
    (below : AllBelow (entries.map Prod.fst) table.length)
    (nodup : (entries.map Prod.fst).Nodup)
    {entry : BranchId × Entry}
    (member : entry ∈ entries) :
    lookup? (updateAll table entries) entry.1 = some entry.2 := by
  induction entries generalizing table with
  | nil =>
      cases member
  | cons first rest inductionHypothesis =>
      obtain ⟨here, later⟩ := List.forall_mem_cons.mp below
      obtain ⟨fresh, nodupRest⟩ := List.nodup_cons.mp nodup
      have belowRest :
          AllBelow (rest.map Prod.fst)
            (update table first.1 first.2).length := by
        rw [length_update]
        exact later
      rcases List.mem_cons.mp member with rfl | inRest
      · refine (lookup?_updateAll_of_notMem belowRest fresh).trans ?_
        rw [lookup?_update here, if_pos rfl]
      · exact inductionHypothesis belowRest nodupRest inRest

end Updates

section Loops

theorem store?_eq
    {table : List Entry}
    {bid : BranchId}
    (below : 0 ≤ bid ∧ bid < table.length)
    (entry : Entry) :
    store? table bid entry = some (update table bid entry) :=
  if_pos below

/-- The entries of paired branches. -/
def swapped (pairs : Pairs) : List (BranchId × BranchId) :=
  pairs.flatMap fun pair => [(pair.1, pair.2), (pair.2, pair.1)]

theorem map_fst_swapped (pairs : Pairs) :
    (swapped pairs).map Prod.fst = idsOf pairs := by
  rw [swapped, List.map_flatMap]
  rfl

/-- The loop over pairs sets both entries of each pair. -/
theorem pairUp_idsOf
    {pairs : Pairs}
    {table : List BranchId}
    (below : AllBelow (idsOf pairs) table.length) :
    pairUp (idsOf pairs) table = some (updateAll table (swapped pairs)) := by
  induction pairs generalizing table with
  | nil =>
      rfl
  | cons pair rest inductionHypothesis =>
      obtain ⟨firstBelow, others⟩ := List.forall_mem_cons.mp below
      obtain ⟨secondBelow, later⟩ := List.forall_mem_cons.mp others
      have secondBelow' :
          0 ≤ pair.2 ∧ pair.2 < (update table pair.1 pair.2).length := by
        rw [length_update]
        exact secondBelow
      show
        (store? table pair.1 pair.2).bind
            (fun table =>
              (store? table pair.2 pair.1).bind (pairUp (idsOf rest))) = _
      rw [store?_eq firstBelow, Option.bind_some, store?_eq secondBelow',
        Option.bind_some]
      refine inductionHypothesis ?_
      rw [length_update, length_update]
      exact later

/-- The inner loop sets the functions of the first branches that are left. -/
theorem assignFunction_append
    {j : Nat}
    {branches : List BranchId}
    {table : List Nat}
    (below : AllBelow branches table.length)
    (others : List BranchId) :
    assignFunction j branches.length (branches ++ others) table =
      some (others, updateAll table (branches.map fun bid => (bid, j))) := by
  induction branches generalizing table with
  | nil =>
      rfl
  | cons bid rest inductionHypothesis =>
      obtain ⟨here, later⟩ := List.forall_mem_cons.mp below
      show
        (store? table bid j).bind
            (assignFunction j rest.length (rest ++ others)) = _
      rw [store?_eq here, Option.bind_some]
      refine inductionHypothesis ?_
      rw [length_update]
      exact later

/-- The functions of the branches of numbered functions. -/
def owned (functions : List (Pairs × Nat)) : List (BranchId × Nat) :=
  functions.flatMap fun function =>
    (idsOf function.1).map fun bid => (bid, function.2)

theorem map_fst_owned (functions : List (Pairs × Nat)) :
    (owned functions).map Prod.fst =
      functions.flatMap fun function => idsOf function.1 := by
  rw [owned, List.map_flatMap]
  refine List.flatMap_congr fun function _ => ?_
  rw [List.map_map]
  exact List.map_id _

/-- The outer loop gives every branch its function. -/
theorem assignFunctions_eq
    {functions : List (Pairs × Nat)}
    {table : List Nat}
    (below :
      AllBelow (functions.flatMap fun function => idsOf function.1)
        table.length) :
    assignFunctions
        (functions.map fun function =>
          ((idsOf function.1).length, function.2))
        (functions.flatMap fun function => idsOf function.1) table =
      some (updateAll table (owned functions)) := by
  induction functions generalizing table with
  | nil =>
      rfl
  | cons function rest inductionHypothesis =>
      rw [List.flatMap_cons] at below ⊢
      obtain ⟨here, later⟩ := List.forall_mem_append.mp below
      have assigned :=
        assignFunction_append (j := function.2) here
          (rest.flatMap fun function => idsOf function.1)
      rw [List.map_cons, assignFunctions, assigned]
      show
        assignFunctions _ _
            (updateAll table ((idsOf function.1).map fun bid =>
              (bid, function.2))) = _
      rw [inductionHypothesis]
      · exact congrArg some (updateAll_append _ _ _).symm
      · rw [length_updateAll]
        exact later

end Loops

section Agreement

theorem pairedBranch_ofFile (file : File) :
    (ofFile file).pairedBranch =
      updateAll
        (List.replicate ((file.flatMap idsOf).foldl max 0 + 1).toNat 0)
        (swapped file.flatten) := by
  rw [updateAll, swapped, List.foldl_flatMap]
  rfl

theorem branchFunction_ofFile (file : File) :
    (ofFile file).branchFunction =
      updateAll
        (List.replicate ((file.flatMap idsOf).foldl max 0 + 1).toNat 0)
        (owned (file.zipIdx 1)) := by
  rw [updateAll, owned, List.foldl_flatMap]
  simp only [List.foldl_map]
  rfl

/-- The ids of a file are below the size of its tables. -/
theorem allBelow_size
    {file : File}
    (nonnegative : ∀ bid ∈ file.flatMap idsOf, 0 ≤ bid) :
    AllBelow (file.flatMap idsOf)
      ((file.flatMap idsOf).foldl max 0 + 1).toNat := by
  intro bid member
  refine ⟨nonnegative bid member, ?_⟩
  have bounds :=
    foldl_max_lt_iff.mp (Int.lt_add_one_of_le
      (le_refl ((file.flatMap idsOf).foldl max 0)))
  have below := bounds.2 bid member
  rw [Int.toNat_of_nonneg (Int.le_of_lt bounds.1)]
  exact below

theorem flatMap_idsOf_zipIdx (file : File) (start : Nat) :
    ((file.zipIdx start).flatMap fun function => idsOf function.1) =
      file.flatMap idsOf := by
  rw [← List.flatMap_map, List.zipIdx_map_fst]

theorem idsOf_flatten (file : File) :
    idsOf file.flatten = file.flatMap idsOf := by
  rw [idsOf, List.flatten_eq_flatMap, List.flatMap_assoc]
  rfl

/--
The constructor makes the tables of the pairs that it has read, if the counts
are those of the pairs.
-/
theorem ofGroups_groupOf
    {entries : List (Nat × Pairs)}
    (haveInts : ∀ entry ∈ entries, HasInts entry) :
    ofGroups (entries.map groupOf) =
      some (ofFile (entries.map Prod.snd)) := by
  let file : File := entries.map Prod.snd
  have branches :
      ((entries.map groupOf).flatMap fun group => idsOf group.pairs) =
        file.flatMap idsOf := by
    rw [List.flatMap_map, List.flatMap_map]
    rfl
  have nonnegative : ∀ bid ∈ file.flatMap idsOf, 0 ≤ bid := by
    intro bid member
    obtain ⟨pairs, isPairs, inPairs⟩ := List.mem_flatMap.mp member
    obtain ⟨entry, isEntry, rfl⟩ := List.mem_map.mp isPairs
    obtain ⟨pair, isPair, named⟩ := mem_idsOf_iff.mp inPairs
    have ints := (haveInts entry isEntry).pairs pair isPair
    rcases named with rfl | rfl
    · exact ints.1.1
    · exact ints.2.1
  have below := allBelow_size nonnegative
  have counts :
      ((entries.map groupOf).map fun group =>
          (2 * group.numBranches % 2 ^ 32).toNat) =
        file.map fun pairs => 2 * pairs.length := by
    rw [List.map_map, List.map_map]
    refine List.map_congr_left fun entry member => ?_
    have count := (haveInts entry member).count.2
    show (2 * (entry.2.length : Int) % 2 ^ 32).toNat = 2 * entry.2.length
    omega
  have paired :
      pairUp (file.flatMap idsOf)
          (List.replicate ((file.flatMap idsOf).foldl max 0 + 1).toNat 0) =
        some (ofFile file).pairedBranch := by
    rw [pairedBranch_ofFile, ← idsOf_flatten]
    refine pairUp_idsOf ?_
    rw [List.length_replicate, idsOf_flatten]
    exact below
  have functions :
      assignFunctions
          (0 :: file.map fun pairs => 2 * pairs.length).zipIdx
          (file.flatMap idsOf)
          (List.replicate ((file.flatMap idsOf).foldl max 0 + 1).toNat 0) =
        some (ofFile file).branchFunction := by
    have numbered :
        (file.map fun pairs => 2 * pairs.length).zipIdx 1 =
          (file.zipIdx 1).map fun function =>
            ((idsOf function.1).length, function.2) := by
      rw [List.zipIdx_map]
      refine List.map_congr_left fun function _ => ?_
      rw [length_idsOf]
      rfl
    rw [branchFunction_ofFile, List.zipIdx_cons, numbered,
      ← flatMap_idsOf_zipIdx file 1]
    refine assignFunctions_eq ?_
    rw [List.length_replicate, flatMap_idsOf_zipIdx]
    exact below
  show
    (pairUp _ _).bind (fun pairedBranch =>
      (assignFunctions _ _ _).bind fun branchFunction => _) = _
  rw [branches, counts, paired, Option.bind_some]
  rw [functions]
  rfl

end Agreement

section Properties

variable
  {file : File}
  (nonnegative : ∀ bid ∈ file.flatMap idsOf, 0 ≤ bid)
  (nodup : (file.flatMap idsOf).Nodup)

include nonnegative nodup

/-- The branches of a pair are paired. -/
theorem lookup?_pairedBranch
    {pair : BranchId × BranchId}
    (member : pair ∈ file.flatten) :
    lookup? (ofFile file).pairedBranch pair.1 = some pair.2 ∧
      lookup? (ofFile file).pairedBranch pair.2 = some pair.1 := by
  have keys : (swapped file.flatten).map Prod.fst = file.flatMap idsOf := by
    rw [map_fst_swapped, idsOf_flatten]
  have below :
      AllBelow ((swapped file.flatten).map Prod.fst)
        (List.replicate ((file.flatMap idsOf).foldl max 0 + 1).toNat
          (0 : BranchId)).length := by
    rw [keys, List.length_replicate]
    exact allBelow_size nonnegative
  rw [← keys] at nodup
  rw [pairedBranch_ofFile]
  constructor
  · exact lookup?_updateAll below nodup
      (List.mem_flatMap.mpr ⟨pair, member, List.mem_cons_self⟩)
  · exact lookup?_updateAll below nodup
      (List.mem_flatMap.mpr
        ⟨pair, member, List.mem_cons_of_mem _ List.mem_cons_self⟩)

/-- The branches of a function are given the number of the function. -/
theorem lookup?_branchFunction
    {function : Pairs × Nat}
    (member : function ∈ file.zipIdx 1)
    {bid : BranchId}
    (named : bid ∈ idsOf function.1) :
    lookup? (ofFile file).branchFunction bid = some function.2 := by
  have keys : (owned (file.zipIdx 1)).map Prod.fst = file.flatMap idsOf := by
    rw [map_fst_owned, flatMap_idsOf_zipIdx]
  have below :
      AllBelow ((owned (file.zipIdx 1)).map Prod.fst)
        (List.replicate ((file.flatMap idsOf).foldl max 0 + 1).toNat
          0).length := by
    rw [keys, List.length_replicate]
    exact allBelow_size nonnegative
  rw [← keys] at nodup
  rw [branchFunction_ofFile]
  have isOwned : (bid, function.2) ∈ owned (file.zipIdx 1) :=
    List.mem_flatMap.mpr ⟨function, member, List.mem_map_of_mem named⟩
  exact lookup?_updateAll below nodup isOwned

omit nonnegative nodup in
/-- How many branches of numbered functions have a property of one number. -/
theorem countP_numbered
    (holds : BranchId → Bool)
    (j start : Nat)
    (decides :
      ∀ function ∈ file.zipIdx start, ∀ bid ∈ idsOf function.1,
        holds bid = decide (function.2 = j)) :
    (file.flatMap idsOf).countP holds =
      if start ≤ j then
        ((file[j - start]?).map fun pairs => 2 * pairs.length).getD 0
      else
        0 := by
  induction file generalizing start with
  | nil =>
      simp
  | cons pairs rest inductionHypothesis =>
      obtain ⟨here, later⟩ := List.forall_mem_cons.mp decides
      rw [List.flatMap_cons, List.countP_append,
        inductionHypothesis (start + 1) later]
      by_cases same : start = j
      · have all : (idsOf pairs).countP holds = (idsOf pairs).length :=
          List.countP_eq_length.mpr fun bid named => by
            rw [here bid named]
            exact decide_eq_true same
        rw [all, length_idsOf, if_neg (by omega), if_pos (by omega), same,
          Nat.sub_self]
        rfl
      · have none : (idsOf pairs).countP holds = 0 :=
          List.countP_eq_zero.mpr fun bid named => by
            rw [here bid named]
            simpa using same
        rw [none, Nat.zero_add]
        by_cases above : start + 1 ≤ j
        · have next : j - start = j - (start + 1) + 1 := by omega
          rw [if_pos above, if_pos (by omega), next, List.getElem?_cons_succ]
        · rw [if_neg above, if_neg (by omega)]

/-- A count is the number of the branches with the function. -/
theorem branchCount_eq
    {f count : Nat}
    (counted : (ofFile file).branchCount[f]? = some count) :
    count =
      ((ofFile file).branches.filter fun bid =>
        decide (lookup? (ofFile file).branchFunction bid = some f)).length := by
  have decides :
      ∀ function ∈ file.zipIdx 1, ∀ bid ∈ idsOf function.1,
        decide (lookup? (ofFile file).branchFunction bid = some f) =
          decide (function.2 = f) := by
    intro function member bid named
    rw [lookup?_branchFunction nonnegative nodup member named]
    simp
  have sorted : (ofFile file).branches.Perm (file.flatMap idsOf) :=
    List.mergeSort_perm _ _
  rw [← List.countP_eq_length_filter, sorted.countP_eq,
    countP_numbered _ f 1 decides]
  cases f with
  | zero =>
      exact (Option.some.inj counted).symm
  | succ f =>
      have entry :
          (file[f]?).map (fun pairs => 2 * pairs.length) = some count := by
        rw [← List.getElem?_map]
        exact counted
      rw [if_pos (by omega), Nat.add_sub_cancel, entry]
      rfl

end Properties

section Files

/-- Insert the branches of groups into a set. -/
def insertGroups (groups : List Group) : OrderedSet BranchId :=
  groups.foldl (fun branches group =>
    group.pairs.foldl
      (fun branches pair => (branches.insert pair.1).insert pair.2) branches) ∅

/-- `readBranches` of `process_cfg`. -/
def readBranches (text : List Char) : Option (OrderedSet BranchId) := do
  let groups ← groupsOf TextStream.readInt text
  return insertGroups groups

theorem mem_foldl_pairs
    {bid : BranchId}
    (pairs : Pairs)
    (branches : OrderedSet BranchId) :
    bid ∈
        pairs.foldl
          (fun branches pair => (branches.insert pair.1).insert pair.2)
          branches ↔
      bid ∈ branches ∨ bid ∈ idsOf pairs := by
  induction pairs generalizing branches with
  | nil =>
      simp [idsOf]
  | cons pair rest inductionHypothesis =>
      rw [List.foldl_cons, inductionHypothesis, OrderedSet.mem_insert_iff,
        OrderedSet.mem_insert_iff]
      simp only [idsOf, List.flatMap_cons, List.mem_append, List.mem_cons,
        List.not_mem_nil, or_false]
      tauto

/-- The branches that are inserted are those of the groups. -/
theorem mem_insertGroups
    {bid : BranchId}
    (groups : List Group) :
    bid ∈ insertGroups groups ↔
      bid ∈ groups.flatMap fun group => idsOf group.pairs := by
  suffices inserted :
      ∀ branches : OrderedSet BranchId,
        bid ∈
            groups.foldl
              (fun branches group =>
                group.pairs.foldl
                  (fun branches pair =>
                    (branches.insert pair.1).insert pair.2)
                  branches) branches ↔
          bid ∈ branches ∨
            bid ∈ groups.flatMap fun group => idsOf group.pairs by
    refine (inserted ∅).trans ?_
    simp
  induction groups with
  | nil =>
      simp
  | cons group rest inductionHypothesis =>
      intro branches
      refine (inductionHypothesis _).trans ?_
      rw [mem_foldl_pairs, List.flatMap_cons, List.mem_append, or_assoc]

/--
Files whose branches have distinct positive `int`s as ids, none so large that
the size of the tables is not an `int`, and as few functions.
-/
structure Recorded (files : List (List Pairs)) : Prop where
  regular : Regular files.flatten
  positive : ∀ bid ∈ files.flatten.flatMap idsOf, 0 < bid
  fewFunctions : files.flatten.length < 2 ^ 31

/--
The tables list the branches of the files; they pair those of each `if`
statement, give each branch the function that is printed for it, and count the
branches of each function.  Every id is in range.
-/
structure Reconstructed
    (files : List (List Pairs))
    (tables : BranchTables) : Prop where
  branches : tables.branches.Perm (files.flatten.flatMap idsOf)
  pairs :
    ∀ pair ∈ files.flatten.flatten,
      lookup? tables.pairedBranch pair.1 = some pair.2 ∧
        lookup? tables.pairedBranch pair.2 = some pair.1
  involution :
    ∀ bid ∈ tables.branches,
      ∃ paired ∈ tables.branches,
        paired ≠ bid ∧ lookup? tables.pairedBranch bid = some paired ∧
          lookup? tables.pairedBranch paired = some bid
  functions :
    ∀ entry ∈ entriesOf 0 files, ∀ bid ∈ idsOf entry.2,
      lookup? tables.branchFunction bid = some entry.1
  counted : tables.branchCount.length = files.flatten.length + 1
  counts :
    ∀ (f count : Nat),
      tables.branchCount[f]? = some count →
      count =
        (tables.branches.filter fun bid =>
          decide (lookup? tables.branchFunction bid = some f)).length
  inRange :
    ∀ bid ∈ tables.branches,
      0 ≤ bid ∧ bid < tables.pairedBranch.length ∧
        bid < tables.branchFunction.length ∧
        bid < (Coverage.uncovered tables).covered.length ∧
        bid < (Coverage.uncovered tables).totalCovered.length
  reached :
    ∀ function ∈ tables.branchFunction,
      function < (Coverage.uncovered tables).reached.length

/-- The pairs of a function in the order of the file. -/
def sortedPairs (pairs : Pairs) : Pairs :=
  pairs.reverse.mergeSort comparePairs

theorem sortedPairs_perm (pairs : Pairs) : (sortedPairs pairs).Perm pairs :=
  (List.mergeSort_perm _ _).trans (List.reverse_perm pairs)

variable {files : List (List Pairs)}

theorem map_snd_entriesOf (files : List (List Pairs)) :
    (entriesOf 0 files).map Prod.snd = files.flatten.map sortedPairs := by
  rw [entriesOf_eq, List.map_map, ← List.zipIdx_map_fst 1 files.flatten,
    List.map_map]
  rw [List.zipIdx_map_fst]
  rfl

/-- The file has the ids of the functions that are visited. -/
theorem idsOf_sortedPairs_perm (functions : List Pairs) :
    ((functions.map sortedPairs).flatMap idsOf).Perm
      (functions.flatMap idsOf) := by
  induction functions with
  | nil =>
      exact List.Perm.refl _
  | cons pairs rest inductionHypothesis =>
      rw [List.map_cons, List.flatMap_cons, List.flatMap_cons]
      refine List.Perm.append ?_ inductionHypothesis
      exact List.Perm.flatMap_right _ (sortedPairs_perm pairs)

/-- Distinct ids below a bound are no more than the bound. -/
theorem length_le_of_nodup
    {ids : List BranchId}
    {bound : Nat}
    (nodup : ids.Nodup)
    (inRange : ∀ bid ∈ ids, 0 ≤ bid ∧ bid < bound) :
    ids.length ≤ bound := by
  have subset : ids ⊆ (List.range bound).map Nat.cast := by
    intro bid member
    obtain ⟨nonnegative, below⟩ := inRange bid member
    refine List.mem_map.mpr ⟨bid.toNat, List.mem_range.mpr ?_, ?_⟩
    · exact (Int.toNat_lt nonnegative).mpr below
    · exact Int.toNat_of_nonneg nonnegative
  have few := nodup.length_le_of_subset subset
  rwa [List.length_map, List.length_range] at few

/-- The numbers of the file are `int`s. -/
theorem Recorded.hasInts
    (recorded : Recorded files)
    {entry : Nat × Pairs}
    (member : entry ∈ entriesOf 0 files) :
    HasInts entry := by
  rw [entriesOf_eq] at member
  obtain ⟨function, isFunction, rfl⟩ := List.mem_map.mp member
  have isPairs : function.1 ∈ files.flatten := List.fst_mem_of_mem_zipIdx isFunction
  have inFile : ∀ bid ∈ idsOf function.1, bid ∈ files.flatten.flatMap idsOf :=
    fun bid named => List.mem_flatMap.mpr ⟨function.1, isPairs, named⟩
  have inRange : ∀ bid ∈ idsOf function.1, 0 ≤ bid ∧ bid < (2 ^ 31 - 1 : Nat) := by
    intro bid named
    obtain ⟨nonnegative, below⟩ :=
      recorded.regular.inRange bid (inFile bid named)
    exact ⟨nonnegative, below⟩
  have isInt (bid : BranchId) (named : bid ∈ idsOf function.1) :
      0 ≤ bid ∧ IsInt bid := by
    obtain ⟨nonnegative, below⟩ := inRange bid named
    refine ⟨nonnegative, ?_, ?_⟩
    · exact Int.le_trans (by decide) nonnegative
    · exact Int.lt_trans below (by decide)
  have sorted := sortedPairs_perm function.1
  constructor
  · have below := List.snd_lt_of_mem_zipIdx isFunction
    have few := recorded.fewFunctions
    show IsInt function.2
    unfold IsInt
    omega
  · have nodup : (idsOf function.1).Nodup :=
      (List.nodup_flatMap.mp recorded.regular.nodup).1 function.1 isPairs
    have few := length_le_of_nodup nodup inRange
    rw [length_idsOf] at few
    show IsInt (sortedPairs function.1).length
    rw [sorted.length_eq]
    unfold IsInt
    omega
  · intro pair member
    have isPair := sorted.mem_iff.mp member
    exact
      ⟨isInt pair.1 (fst_mem_idsOf isPair),
        isInt pair.2 (snd_mem_idsOf isPair)⟩

/-- The tables of the file are those of the visited functions. -/
theorem reconstructed_ofFile (recorded : Recorded files) :
    Reconstructed files (ofFile ((entriesOf 0 files).map Prod.snd)) := by
  rw [map_snd_entriesOf]
  have perm := idsOf_sortedPairs_perm files.flatten
  have nodup : ((files.flatten.map sortedPairs).flatMap idsOf).Nodup :=
    perm.nodup_iff.mpr recorded.regular.nodup
  have nonnegative :
      ∀ bid ∈ (files.flatten.map sortedPairs).flatMap idsOf, 0 ≤ bid :=
    fun bid member =>
      (recorded.regular.inRange bid (perm.mem_iff.mp member)).1
  have sorted :
      (ofFile (files.flatten.map sortedPairs)).branches.Perm
        ((files.flatten.map sortedPairs).flatMap idsOf) :=
    List.mergeSort_perm _ _
  have owners := owners_ofFile (files.flatten.map sortedPairs)
  have isPaired (pair : BranchId × BranchId)
      (member : pair ∈ (files.flatten.map sortedPairs).flatten) :=
    lookup?_pairedBranch nonnegative nodup member
  constructor
  · exact sorted.trans perm
  · intro pair member
    refine isPaired pair ?_
    obtain ⟨pairs, isPairs, isPair⟩ := List.mem_flatten.mp member
    exact List.mem_flatten.mpr
      ⟨sortedPairs pairs, List.mem_map_of_mem isPairs,
        (sortedPairs_perm pairs).mem_iff.mpr isPair⟩
  · intro bid member
    have inFile := sorted.mem_iff.mp member
    rw [← idsOf_flatten] at inFile nodup sorted
    obtain ⟨pair, isPair, named⟩ := mem_idsOf_iff.mp inFile
    have different := fst_ne_snd_of_nodup nodup isPair
    have isFirst := fst_mem_idsOf isPair
    have isSecond := snd_mem_idsOf isPair
    obtain ⟨firstPaired, secondPaired⟩ := isPaired pair isPair
    rcases named with rfl | rfl
    · exact
        ⟨pair.2, sorted.mem_iff.mpr isSecond, different.symm, firstPaired,
          secondPaired⟩
    · exact
        ⟨pair.1, sorted.mem_iff.mpr isFirst, different, secondPaired,
          firstPaired⟩
  · intro entry member bid named
    rw [entriesOf_eq] at member
    obtain ⟨function, isFunction, rfl⟩ := List.mem_map.mp member
    have numbered :
        (sortedPairs function.1, function.2) ∈
          (files.flatten.map sortedPairs).zipIdx 1 := by
      rw [List.zipIdx_map]
      exact List.mem_map_of_mem isFunction
    exact lookup?_branchFunction nonnegative nodup numbered named
  · simp only [ofFile, List.length_cons, List.length_map]
  · intro f count counted
    exact branchCount_eq nonnegative nodup counted
  · intro bid member
    have below := allBelow_size nonnegative bid (sorted.mem_iff.mp member)
    simp only [Coverage.uncovered, List.length_replicate, pairedBranch_ofFile,
      length_updateAll, owners.length]
    exact ⟨below.1, below.2, below.2, below.2, below.2⟩
  · intro function member
    rw [Coverage.uncovered, List.length_replicate]
    exact owners.inRange function member

/-- A search reads the tables of the numbered functions. -/
theorem ofText_textOf (recorded : Recorded files) :
    ofText (textOf files) =
      some (ofFile ((entriesOf 0 files).map Prod.snd)) := by
  have haveInts : ∀ entry ∈ entriesOf 0 files, HasInts entry :=
    fun entry member => recorded.hasInts member
  have read :
      groupsOf TextStream.readUnsigned (textOf files) =
        some ((entriesOf 0 files).map groupOf) :=
    groupsOf_printEntries readsNumber_readUnsigned
      failsAtSpaces_readUnsigned haveInts
  rw [ofText, read]
  exact ofGroups_groupOf haveInts

/-- `process_cfg` reads the branches of the numbered functions. -/
theorem readBranches_textOf (recorded : Recorded files) :
    readBranches (textOf files) =
      some (insertGroups ((entriesOf 0 files).map groupOf)) := by
  have read :
      groupsOf TextStream.readInt (textOf files) =
        some ((entriesOf 0 files).map groupOf) :=
    groupsOf_printEntries readsNumber_readInt failsAtSpaces_readInt
      fun entry member => recorded.hasInts member
  rw [readBranches, read]
  rfl

/-- The inserted branches are those of the numbered functions. -/
theorem mem_insertGroups_groupOf (bid : BranchId) :
    bid ∈ insertGroups ((entriesOf 0 files).map groupOf) ↔
      bid ∈ ((entriesOf 0 files).map Prod.snd).flatMap idsOf := by
  rw [mem_insertGroups, List.flatMap_map, List.flatMap_map]
  rfl

/--
A search reconstructs the tables from what the runs have written, and
`process_cfg` reads the same branches.
-/
theorem reconstructed_textOf
    (files : List (List Pairs))
    (recorded : Recorded files) :
    ∃ tables branches,
      ofText (textOf files) = some tables ∧
        Reconstructed files tables ∧
        readBranches (textOf files) = some branches ∧
        ∀ bid, bid ∈ branches ↔ bid ∈ tables.branches := by
  refine
    ⟨ofFile ((entriesOf 0 files).map Prod.snd),
      insertGroups ((entriesOf 0 files).map groupOf),
      ofText_textOf recorded, reconstructed_ofFile recorded,
      readBranches_textOf recorded, fun bid => ?_⟩
  have sorted :
      (ofFile ((entriesOf 0 files).map Prod.snd)).branches.Perm
        (((entriesOf 0 files).map Prod.snd).flatMap idsOf) :=
    List.mergeSort_perm _ _
  rw [mem_insertGroups_groupOf, sorted.mem_iff]

/-- Two files, with a function that has no branches. -/
def twoFiles : List (List Pairs) :=
  [[[(2, 3)], []], [[(7, 8), (5, 6)]]]

/-- The text of the two files is read back. -/
theorem reconstructed_twoFiles :
    ∃ tables branches,
      ofText (textOf twoFiles) = some tables ∧
        Reconstructed twoFiles tables ∧
        readBranches (textOf twoFiles) = some branches ∧
        ∀ bid, bid ∈ branches ↔ bid ∈ tables.branches := by
  refine reconstructed_textOf twoFiles ?_
  constructor
  · constructor
    · decide
    · decide
  · decide
  · decide

end Files

end BranchTables

end Compi
