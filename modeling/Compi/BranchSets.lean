import Compi.BranchCoverage
import Mathlib.Data.Finset.Card
import Mathlib.Data.Finset.Image

/-!
# Vectors of bits as sets of branches

A vector such as `covered_` is read as the set of the branches whose bit is
set, and the tables of a search are shown to be well formed: each branch has a
bit, and a function that is in range.
-/

namespace Compi

namespace BranchTables

/-- The branches whose bit is set. -/
def setBits (table : List Bool) : Finset BranchId :=
  ((Finset.range table.length).filter fun i => table[i]? = some true).image
    Nat.cast

theorem mem_setBits
    {table : List Bool}
    {bid : BranchId} :
    bid ∈ setBits table ↔ lookup? table bid = some true := by
  rw [setBits, Finset.mem_image]
  constructor
  · rintro ⟨i, member, rfl⟩
    have set : table[i]? = some true := (Finset.mem_filter.mp member).2
    simp [lookup?, set]
  · intro found
    rw [lookup?] at found
    split at found
    · rename_i nonnegative
      obtain ⟨inRange, _⟩ := List.getElem?_eq_some_iff.mp found
      refine ⟨bid.toNat, ?_, Int.toNat_of_nonneg nonnegative⟩
      exact Finset.mem_filter.mpr ⟨Finset.mem_range.mpr inRange, found⟩
    · exact nomatch found

/-- The entry of a branch that is in the range of a table. -/
theorem lookup?_of_inRange
    {Entry : Type}
    {table : List Entry}
    {bid : BranchId}
    (inRange : 0 ≤ bid ∧ bid < table.length) :
    ∃ entry, lookup? table bid = some entry := by
  have below : bid.toNat < table.length :=
    (Int.toNat_lt inRange.1).mpr inRange.2
  refine ⟨table[bid.toNat], ?_⟩
  rw [lookup?, if_pos inRange.1, List.getElem?_eq_getElem below]

theorem lookup?_update
    {Entry : Type}
    {table : List Entry}
    {bid query : BranchId}
    {entry : Entry}
    (inRange : 0 ≤ bid ∧ bid < table.length) :
    lookup? (update table bid entry) query =
      if query = bid then some entry else lookup? table query := by
  by_cases same : query = bid
  · subst same
    have below : query.toNat < table.length :=
      (Int.toNat_lt inRange.1).mpr inRange.2
    rw [if_pos rfl, lookup?, if_pos inRange.1, update,
      List.getElem?_set_self below]
  · rw [if_neg same, lookup?, lookup?]
    split
    · rename_i nonnegative
      have apart : bid.toNat ≠ query.toNat := by
        intro sameIndex
        apply same
        calc
          query = query.toNat := (Int.toNat_of_nonneg nonnegative).symm
          _ = bid.toNat := by rw [sameIndex]
          _ = bid := Int.toNat_of_nonneg inRange.1
      rw [update, List.getElem?_set_ne apart]
    · rfl

@[simp] theorem length_update
    {Entry : Type}
    (table : List Entry)
    (bid : BranchId)
    (entry : Entry) :
    (update table bid entry).length = table.length :=
  List.length_set

theorem setBits_update
    {table : List Bool}
    {bid : BranchId}
    (inRange : 0 ≤ bid ∧ bid < table.length) :
    setBits (update table bid true) = insert bid (setBits table) := by
  ext query
  rw [Finset.mem_insert, mem_setBits, mem_setBits, lookup?_update inRange]
  by_cases same : query = bid
  · simp [same]
  · simp [same]

/-- No bit is set after `assign(size, false)`. -/
theorem setBits_map_false
    {Entry : Type}
    (entries : List Entry) :
    setBits (entries.map fun _ => false) = ∅ := by
  ext bid
  rw [mem_setBits, lookup?, List.getElem?_map]
  cases entries[bid.toNat]? with
  | none =>
      simp
  | some entry =>
      simp

/-- Two vectors of bits with the same set bits are the same. -/
theorem eq_of_set_iff
    {left right : List Bool}
    (sameLength : left.length = right.length)
    (same : ∀ i : Nat, left[i]? = some true ↔ right[i]? = some true) :
    left = right := by
  apply List.ext_getElem sameLength
  intro i inLeft inRight
  have sameBit := same i
  rw [List.getElem?_eq_getElem inLeft, List.getElem?_eq_getElem inRight,
    Option.some.injEq, Option.some.injEq] at sameBit
  exact Bool.eq_iff_iff.mpr sameBit

theorem eq_of_setBits_eq
    {left right : List Bool}
    (sameLength : left.length = right.length)
    (same : setBits left = setBits right) :
    left = right := by
  apply eq_of_set_iff sameLength
  intro i
  have sameMember :
      (i : BranchId) ∈ setBits left ↔ (i : BranchId) ∈ setBits right := by
    rw [same]
  rw [mem_setBits, mem_setBits] at sameMember
  simpa [lookup?] using sameMember

/-- The function of a branch. -/
def functionOf
    (tables : BranchTables)
    (bid : BranchId) : Nat :=
  (lookup? tables.branchFunction bid).getD 0

/-- The functions of some branches. -/
def functionsOf
    (tables : BranchTables)
    (branches : Finset BranchId) : Finset Nat :=
  branches.image tables.functionOf

/-- The tables of a program, whose branches have distinct `int`s as ids. -/
structure WellFormed (tables : BranchTables) : Prop where
  nodup : tables.branches.Nodup
  inRange :
    ∀ bid ∈ tables.branches,
      0 ≤ bid ∧ bid < tables.branchFunction.length
  hasFunction : ∀ function ∈ tables.branchFunction,
    function < tables.branchCount.length
  fewBranches : tables.branchFunction.length ≤ 2 ^ 31

/--
The ids in a file of a program: distinct `int`s, none so large that the size
of the tables is not an `int`.
-/
structure Regular (file : File) : Prop where
  nodup : (file.flatMap idsOf).Nodup
  inRange : ∀ bid ∈ file.flatMap idsOf, 0 ≤ bid ∧ bid < 2 ^ 31 - 1

theorem foldl_max_lt_iff
    {items : List BranchId}
    {start bound : BranchId} :
    items.foldl max start < bound ↔
      start < bound ∧ ∀ item ∈ items, item < bound := by
  induction items generalizing start with
  | nil =>
      simp
  | cons item rest inductionHypothesis =>
      rw [List.foldl_cons, inductionHypothesis, max_lt_iff]
      simp only [List.forall_mem_cons, and_assoc]

/-- A table of the given size whose entries are functions in range. -/
structure Owners
    (size functions : Nat)
    (table : List Nat) : Prop where
  length : table.length = size
  inRange : ∀ function ∈ table, function < functions

theorem Owners.update
    {size functions : Nat}
    {table : List Nat}
    (owners : Owners size functions table)
    {function : Nat}
    (inRange : function < functions)
    (bid : BranchId) :
    Owners size functions (update table bid function) := by
  constructor
  · exact (length_update _ _ _).trans owners.length
  · intro entry member
    rcases List.mem_or_eq_of_mem_set member with old | rfl
    · exact owners.inRange entry old
    · exact inRange

/-- The table of functions has an entry for each id up to the largest. -/
theorem owners_ofFile (file : File) :
    Owners ((file.flatMap idsOf).foldl max 0 + 1).toNat
      (ofFile file).branchCount.length (ofFile file).branchFunction := by
  have counts : (ofFile file).branchCount.length = file.length + 1 := by
    simp [ofFile]
  rw [counts]
  refine List.foldlRecOn
    (motive := Owners ((file.flatMap idsOf).foldl max 0 + 1).toNat
      (file.length + 1)) _ _ ?_ ?_
  · constructor
    · exact List.length_replicate
    · intro function member
      obtain rfl := List.eq_of_mem_replicate member
      exact Nat.succ_pos _
  · intro table owners entry member
    have inRange := List.snd_lt_of_mem_zipIdx member
    exact List.foldlRecOn
      (motive := Owners ((file.flatMap idsOf).foldl max 0 + 1).toNat
        (file.length + 1)) _ _ owners
      (fun _ owners bid _ => owners.update inRange bid)

/-- The tables of a search are well formed. -/
theorem wellFormed_ofFile
    {file : File}
    (regular : Regular file) :
    WellFormed (ofFile file) := by
  have owners := owners_ofFile file
  have sorted : (ofFile file).branches.Perm (file.flatMap idsOf) :=
    List.mergeSort_perm _ _
  have bounds :=
    foldl_max_lt_iff.mp (Int.lt_add_one_of_le
      (le_refl ((file.flatMap idsOf).foldl max 0)))
  constructor
  · exact sorted.nodup_iff.mpr regular.nodup
  · intro bid member
    have listed := sorted.mem_iff.mp member
    refine ⟨(regular.inRange bid listed).1, ?_⟩
    have below := bounds.2 bid listed
    rw [owners.length, Int.toNat_of_nonneg (Int.le_of_lt bounds.1)]
    exact below
  · exact owners.inRange
  · have largest :
        (file.flatMap idsOf).foldl max 0 < 2 ^ 31 - 1 :=
      foldl_max_lt_iff.mpr
        ⟨by norm_num, fun bid member => (regular.inRange bid member).2⟩
    have room : (2 ^ 31 - 1 : Int) ≤ (2 ^ 31 : Nat) := by
      omega
    rw [owners.length, Int.toNat_le]
    exact Int.le_trans largest room

namespace WellFormed

variable {tables : BranchTables} (wellFormed : WellFormed tables)

include wellFormed

/-- A branch has a function, and the function is in range. -/
theorem lookup?_branchFunction
    {bid : BranchId}
    (listed : bid ∈ tables.branches) :
    lookup? tables.branchFunction bid = some (tables.functionOf bid) ∧
      tables.functionOf bid < tables.branchCount.length := by
  have inRange := wellFormed.inRange bid listed
  obtain ⟨function, found⟩ := lookup?_of_inRange inRange
  have same : tables.functionOf bid = function := by
    rw [functionOf, found]
    rfl
  rw [same]
  refine ⟨found, ?_⟩
  rw [lookup?, if_pos inRange.1] at found
  exact wellFormed.hasFunction function (List.mem_of_getElem? found)

/-- There are no more branches than a table of branches has entries. -/
theorem card_le
    {bids : Finset BranchId}
    (listed : bids ⊆ tables.branches.toFinset) :
    bids.card ≤ 2 ^ 31 := by
  have within :
      bids ⊆ (Finset.range tables.branchFunction.length).image
        (Nat.cast : Nat → Int) := by
    intro bid member
    have inRange :=
      wellFormed.inRange bid (List.mem_toFinset.mp (listed member))
    have below : bid.toNat < tables.branchFunction.length :=
      (Int.toNat_lt inRange.1).mpr inRange.2
    exact Finset.mem_image.mpr
      ⟨bid.toNat, Finset.mem_range.mpr below,
        Int.toNat_of_nonneg inRange.1⟩
  calc
    bids.card
      ≤ ((Finset.range tables.branchFunction.length).image
          (Nat.cast : Nat → Int)).card := Finset.card_le_card within
    _ ≤ (Finset.range tables.branchFunction.length).card :=
        Finset.card_image_le
    _ = tables.branchFunction.length := Finset.card_range _
    _ ≤ 2 ^ 31 := wellFormed.fewBranches

end WellFormed

end BranchTables

end Compi
