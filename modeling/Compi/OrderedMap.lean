import Mathlib.Algebra.BigOperators.Finsupp.Basic
import Mathlib.Data.Finsupp.Order
import Std.Data.ExtTreeMap.Lemmas
import Std.Data.ExtTreeSet.Lemmas

/-!
# Ordered maps as finitely supported functions

Ordered maps are the extensional tree maps of the standard library.  A map
into a type with zero is read as a finitely supported function that is zero
off its keys, so that sums over the entries become `Finsupp` sums.
-/

namespace Compi

/-- A finite map iterated in increasing key order. -/
abbrev OrderedMap (Key Value : Type) [Ord Key] : Type :=
  Std.ExtTreeMap Key Value compare

/-- A finite set iterated in increasing order. -/
abbrev OrderedSet (Key : Type) [Ord Key] : Type :=
  Std.ExtTreeSet Key compare

namespace OrderedMap

variable {Key : Type} [Ord Key] [Std.TransOrd Key] [Std.LawfulEqOrd Key]

/-- An entry is listed exactly when the lookup of its key returns it. -/
theorem mem_toList_iff
    {Value : Type}
    {entries : OrderedMap Key Value}
    {entry : Key × Value} :
    entry ∈ entries.toList ↔ entries[entry.1]? = some entry.2 :=
  Std.ExtTreeMap.mem_toList_iff_getElem?_eq_some

/-- What holds of every lookup is decided by the listed entries. -/
theorem forall_getElem?_iff
    {Value : Type}
    {entries : OrderedMap Key Value}
    {holds : Key → Value → Prop} :
    (∀ key value, entries[key]? = some value → holds key value) ↔
      ∀ entry ∈ entries.toList, holds entry.1 entry.2 := by
  constructor
  · intro lookups entry member
    exact lookups entry.1 entry.2 (mem_toList_iff.mp member)
  · intro listed key value found
    exact listed (key, value) (mem_toList_iff.mpr found)

/-- A key after an insertion was there before or is the inserted key. -/
theorem mem_or_eq_of_mem_insert
    {Value : Type}
    {entries : OrderedMap Key Value}
    {key query : Key}
    {value : Value}
    (member : query ∈ entries.insert key value) :
    query ∈ entries ∨ query = key := by
  rcases Std.ExtTreeMap.mem_insert.mp member with same | old
  · exact Or.inr (Std.LawfulEqOrd.compare_eq_iff_eq.mp same).symm
  · exact Or.inl old

/--
If each update of a loop over the entries only adds the visited key, then a
key of the result was there at the start or is a key of the entries.
-/
theorem mem_of_mem_foldl
    {Value : Type}
    {update :
      OrderedMap Key Value → Key → Value → OrderedMap Key Value}
    (addsKey :
      ∀ {accumulated key value query},
        query ∈ update accumulated key value →
        query ∈ accumulated ∨ query = key)
    {entries accumulated : OrderedMap Key Value}
    {query : Key}
    (member : query ∈ entries.foldl update accumulated) :
    query ∈ accumulated ∨ query ∈ entries := by
  rw [Std.ExtTreeMap.foldl_eq_foldl_toList] at member
  have listed :
      ∀ (items : List (Key × Value)) (start : OrderedMap Key Value),
        query ∈ items.foldl
            (fun current item => update current item.1 item.2) start →
        query ∈ start ∨ query ∈ items.map Prod.fst := by
    intro items
    induction items with
    | nil =>
        intro start inStart
        exact Or.inl inStart
    | cons item rest inductionHypothesis =>
        intro start inFold
        rcases inductionHypothesis _ inFold with inUpdate | inRest
        · rcases addsKey inUpdate with inStart | isKey
          · exact Or.inl inStart
          · exact Or.inr (by simp [isKey])
        · exact Or.inr (List.mem_cons_of_mem _ inRest)
  rcases listed entries.toList accumulated member with
    inStart | inEntries
  · exact Or.inl inStart
  · rw [Std.ExtTreeMap.map_fst_toList_eq_keys] at inEntries
    exact Or.inr (Std.ExtTreeMap.mem_keys.mp inEntries)

/-- What every update of a loop over the entries keeps, the loop keeps. -/
theorem foldl_invariant
    {Value State : Type}
    {update : State → Key → Value → State}
    {entries : OrderedMap Key Value}
    (invariant : State → Prop)
    (preserved :
      ∀ state key value,
        entries[key]? = some value →
        invariant state →
        invariant (update state key value))
    {start : State}
    (initially : invariant start) :
    invariant (entries.foldl update start) := by
  rw [Std.ExtTreeMap.foldl_eq_foldl_toList]
  have listed (items : List (Key × Value)) :
      (∀ item ∈ items, entries[item.1]? = some item.2) →
      ∀ state,
        invariant state →
        invariant
          (items.foldl (fun current item => update current item.1 item.2)
            state) := by
    induction items with
    | nil =>
        intro _ state holds
        exact holds
    | cons item rest inductionHypothesis =>
        intro stored state holds
        apply inductionHypothesis
        · intro other member
          exact stored other (List.mem_cons_of_mem item member)
        · exact
            preserved state item.1 item.2 (stored item List.mem_cons_self)
              holds
  apply listed
  · intro item member
    exact mem_toList_iff.mp member
  · exact initially

/-- Listed keys are pairwise different. -/
theorem nodup_keys
    {Value : Type}
    (entries : OrderedMap Key Value) :
    entries.keys.Nodup := by
  have distinct := Std.ExtTreeMap.distinct_keys (t := entries)
  exact distinct.imp fun different same =>
    different (Std.LawfulEqOrd.compare_eq_iff_eq.mpr same)

/-- Inserting the listed entries into the empty map rebuilds the map. -/
theorem foldl_insert_toList
    [BEq Key]
    [Std.LawfulBEqOrd Key]
    {Value : Type}
    (entries : OrderedMap Key Value) :
    entries.toList.foldl
        (fun rebuilt entry => rebuilt.insert entry.1 entry.2)
        (∅ : OrderedMap Key Value) =
      entries := by
  have rebuilds :=
    Std.ExtTreeMap.insertMany_list_eq_foldl
      (t := (∅ : OrderedMap Key Value)) (l := entries.toList)
  rw [← rebuilds]
  apply Std.ExtTreeMap.ext_getElem?
  intro key
  cases found : entries[key]? with
  | some value =>
      apply Std.ExtTreeMap.getElem?_insertMany_list_of_mem
        Std.ReflOrd.compare_self
        Std.ExtTreeMap.distinct_keys_toList
      exact mem_toList_iff.mpr found
  | none =>
      have absent : (entries.toList.map Prod.fst).contains key = false := by
        rw [Std.ExtTreeMap.map_fst_toList_eq_keys]
        simpa using found
      rw [Std.ExtTreeMap.getElem?_insertMany_list_of_contains_eq_false
        absent]
      simp

/--
A loop over the entries of a map whose updates change the visited key alone
makes one change for each key.
-/
theorem getElem?_foldl
    [DecidableEq Key]
    {Value : Type}
    {update :
      OrderedMap Key Value → Key → Value → OrderedMap Key Value}
    (change : Option Value → Value → Option Value)
    (updates :
      ∀ accumulated key value query,
        (update accumulated key value)[query]? =
          if key = query then
            change accumulated[query]? value
          else
            accumulated[query]?)
    (entries accumulated : OrderedMap Key Value)
    (query : Key) :
    (entries.foldl update accumulated)[query]? =
      match entries[query]? with
      | none => accumulated[query]?
      | some value => change accumulated[query]? value := by
  have unvisited
      (items : List (Key × Value))
      (start : OrderedMap Key Value)
      (absent : query ∉ items.map Prod.fst) :
      (items.foldl
          (fun current item => update current item.1 item.2)
          start)[query]? =
        start[query]? := by
    induction items generalizing start with
    | nil =>
        rfl
    | cons item rest inductionHypothesis =>
        rw [List.map_cons, List.mem_cons, not_or] at absent
        rw [List.foldl_cons, inductionHypothesis _ absent.2, updates,
          if_neg (Ne.symm absent.1)]
  have visited
      (items : List (Key × Value))
      (start : OrderedMap Key Value)
      (distinct : (items.map Prod.fst).Nodup)
      {value : Value}
      (member : (query, value) ∈ items) :
      (items.foldl
          (fun current item => update current item.1 item.2)
          start)[query]? =
        change start[query]? value := by
    induction items generalizing start with
    | nil =>
        cases member
    | cons item rest inductionHypothesis =>
        rw [List.map_cons, List.nodup_cons] at distinct
        rw [List.foldl_cons]
        rcases List.mem_cons.mp member with rfl | later
        · rw [unvisited _ _ distinct.1, updates, if_pos rfl]
        · have other : item.1 ≠ query := by
            rintro rfl
            exact distinct.1 (List.mem_map.mpr ⟨_, later, rfl⟩)
          rw [inductionHypothesis _ distinct.2 later, updates, if_neg other]
  have keys : (entries.toList.map Prod.fst) = entries.keys :=
    Std.ExtTreeMap.map_fst_toList_eq_keys
  rw [Std.ExtTreeMap.foldl_eq_foldl_toList]
  cases found : entries[query]? with
  | none =>
      apply unvisited
      rw [keys, Std.ExtTreeMap.mem_keys]
      simpa using found
  | some value =>
      apply visited
      · rw [keys]
        exact nodup_keys entries
      · exact mem_toList_iff.mpr found
section Support

variable [DecidableEq Key] {R : Type} [AddCommGroup R] [DecidableEq R]

/-- The finitely supported function that agrees with the map on its keys. -/
def toFinsupp (entries : OrderedMap Key R) : Key →₀ R where
  support :=
    entries.keys.toFinset.filter fun key => entries.getD key 0 ≠ 0
  toFun key :=
    entries.getD key 0
  mem_support_toFun key := by
    simp only [Finset.mem_filter, List.mem_toFinset,
      Std.ExtTreeMap.mem_keys, and_iff_right_iff_imp]
    intro nonzero
    by_contra absent
    exact nonzero (Std.ExtTreeMap.getD_eq_fallback absent)

@[simp] theorem toFinsupp_apply
    (entries : OrderedMap Key R)
    (key : Key) :
    toFinsupp entries key = entries.getD key 0 :=
  rfl

/-- A sum over the listed entries is the sum over the support. -/
theorem sum_toList
    {M : Type}
    [AddCommMonoid M]
    (entries : OrderedMap Key R)
    (weight : Key → R → M)
    (weightZero : ∀ key, weight key 0 = 0) :
    (entries.toList.map fun entry => weight entry.1 entry.2).sum =
      (toFinsupp entries).sum weight := by
  have overKeys :
      (entries.toList.map fun entry => weight entry.1 entry.2) =
        entries.keys.map fun key => weight key (entries.getD key 0) := by
    rw [← Std.ExtTreeMap.map_fst_toList_eq_keys, List.map_map]
    apply List.map_congr_left
    intro entry member
    have found := mem_toList_iff.mp member
    simp [Std.ExtTreeMap.getD_eq_getD_getElem?, found]
  rw [overKeys, ← List.sum_toFinset _ (nodup_keys entries)]
  have supportListed :
      (toFinsupp entries).support ⊆ entries.keys.toFinset := by
    intro key member
    exact (Finset.mem_filter.mp member).1
  exact (Finsupp.sum_of_support_subset
    (toFinsupp entries) supportListed weight
    fun key _ => weightZero key).symm

/--
A loop over the entries of a map that adds `change value` to the coefficient
of each visited key adds, in total, the change of the map's own coefficient.
-/
theorem getD_foldl
    (change : R → R)
    (changeZero : change 0 = 0)
    {update : OrderedMap Key R → Key → R → OrderedMap Key R}
    (updates :
      ∀ accumulated key value query,
        (update accumulated key value).getD query 0 =
          accumulated.getD query 0 +
            if key = query then change value else 0)
    (entries accumulated : OrderedMap Key R)
    (query : Key) :
    (entries.foldl update accumulated).getD query 0 =
      accumulated.getD query 0 + change (entries.getD query 0) := by
  have listed (items : List (Key × R)) :
      ∀ start : OrderedMap Key R,
        (items.foldl
            (fun current item => update current item.1 item.2)
            start).getD query 0 =
          start.getD query 0 +
            (items.map fun item =>
              if item.1 = query then change item.2 else 0).sum := by
    induction items with
    | nil =>
        simp
    | cons item rest inductionHypothesis =>
        intro start
        rw [List.foldl_cons, inductionHypothesis, updates,
          List.map_cons, List.sum_cons, add_assoc]
  rw [Std.ExtTreeMap.foldl_eq_foldl_toList, listed,
    sum_toList entries
      (fun key value => if key = query then change value else 0)
      (by simp [changeZero])]
  congr 1
  rw [Finsupp.sum, Finset.sum_ite_eq']
  by_cases supported : query ∈ (toFinsupp entries).support
  · simp [supported]
  · have zero : entries.getD query 0 = 0 := by
      simpa using supported
    simp [supported, zero, changeZero]

end Support

end OrderedMap

namespace OrderedSet

theorem mem_insert_iff
    {Key : Type}
    [Ord Key]
    [Std.TransOrd Key]
    [Std.LawfulEqOrd Key]
    {entries : OrderedSet Key}
    {entry other : Key} :
    other ∈ entries.insert entry ↔ other = entry ∨ other ∈ entries := by
  rw [Std.ExtTreeSet.mem_insert, Std.LawfulEqOrd.compare_eq_iff_eq,
    eq_comm]

theorem mem_erase_iff
    {Key : Type}
    [Ord Key]
    [Std.TransOrd Key]
    [Std.LawfulEqOrd Key]
    {entries : OrderedSet Key}
    {entry other : Key} :
    other ∈ entries.erase entry ↔ other ≠ entry ∧ other ∈ entries := by
  rw [Std.ExtTreeSet.mem_erase, Ne, Std.LawfulEqOrd.compare_eq_iff_eq,
    eq_comm]

/-- A set is listed without repetitions. -/
theorem nodup_toList
    {Key : Type}
    [Ord Key]
    [Std.TransOrd Key]
    [Std.LawfulEqOrd Key]
    (items : OrderedSet Key) :
    items.toList.Nodup := by
  refine Std.ExtTreeSet.distinct_toList.imp fun {first second} different => ?_
  rintro rfl
  exact different Std.ReflCmp.compare_self

end OrderedSet

end Compi
