import Mathlib.Data.List.Basic

/-!
# Heaps of objects

Objects are created, changed in place through references, and deleted.  An
operation on a reference that is not live fails.
-/

namespace Compi

/-- Cells of objects; a cell is empty once its object has been deleted. -/
structure ObjectHeap (α : Type) where
  cells : List (Option α)

namespace ObjectHeap

variable {α : Type}

/-- A reference is the position of a cell. -/
abbrev Ref : Type :=
  Nat

def empty : ObjectHeap α where
  cells := []

section Operations

variable (heap : ObjectHeap α)

/-- Create an object. -/
def new (object : α) : ObjectHeap α × Ref :=
  ({ cells := heap.cells ++ [some object] }, heap.cells.length)

/-- Read an object, if it is live. -/
def deref? (ref : Ref) : Option α :=
  heap.cells[ref]?.join

/-- Change an object in place. -/
def modify (ref : Ref) (f : α → α) : Option (ObjectHeap α) :=
  (heap.deref? ref).map fun object =>
    { cells := heap.cells.set ref (some (f object)) }

/-- Delete an object. -/
def delete (ref : Ref) : Option (ObjectHeap α) :=
  (heap.deref? ref).map fun _ => { cells := heap.cells.set ref none }

/-- Delete the objects of several references in turn. -/
def deleteAll (heap : ObjectHeap α) : List Ref → Option (ObjectHeap α)
  | [] => some heap
  | ref :: rest => (heap.delete ref).bind fun next => next.deleteAll rest

end Operations

section Lemmas

variable {heap : ObjectHeap α} {object : α}

theorem lt_of_deref?
    {ref : Ref}
    (live : heap.deref? ref = some object) :
    ref < heap.cells.length := by
  obtain ⟨cell, isCell, -⟩ := Option.bind_eq_some_iff.mp live
  exact (List.getElem?_eq_some_iff.mp isCell).1

/-- A new object is live. -/
theorem deref?_new :
    (heap.new object).1.deref? (heap.new object).2 = some object := by
  simp [new, deref?]

/-- A new reference was not live before. -/
theorem deref?_new_ref
    (heap : ObjectHeap α)
    (object : α) :
    heap.deref? (heap.new object).2 = none := by
  simp [new, deref?]

/-- A new object leaves the others alone. -/
theorem deref?_new_of_live
    {other : α}
    {ref : Ref}
    (live : heap.deref? ref = some other) :
    (heap.new object).1.deref? ref = some other := by
  rw [← live]
  simp [new, deref?, List.getElem?_append_left (lt_of_deref? live)]

/-- A live object can be changed, and the others stay. -/
theorem exists_modify
    {ref : Ref}
    (f : α → α)
    (live : heap.deref? ref = some object) :
    ∃ next,
      heap.modify ref f = some next ∧
        next.deref? ref = some (f object) ∧
        ∀ other ≠ ref, next.deref? other = heap.deref? other := by
  refine
    ⟨{ cells := heap.cells.set ref (some (f object)) }, ?_, ?_, ?_⟩
  · rw [modify, live]
    rfl
  · simp [deref?, List.getElem?_set_self (lt_of_deref? live)]
  · intro other different
    simp [deref?, List.getElem?_set_ne different.symm]

/-- A live object can be deleted, and the others stay. -/
theorem exists_delete
    {ref : Ref}
    (live : heap.deref? ref = some object) :
    ∃ next,
      heap.delete ref = some next ∧
        ∀ other ≠ ref, next.deref? other = heap.deref? other := by
  refine ⟨{ cells := heap.cells.set ref none }, ?_, ?_⟩
  · rw [delete, live]
    rfl
  · intro other different
    simp [deref?, List.getElem?_set_ne different.symm]

/-- Live objects can be deleted one after the other, if each is named once. -/
theorem exists_deleteAll
    {refs : List Ref}
    (separate : refs.Nodup)
    (live : ∀ ref ∈ refs, ∃ object, heap.deref? ref = some object) :
    ∃ next, heap.deleteAll refs = some next := by
  induction refs generalizing heap with
  | nil =>
      exact ⟨heap, rfl⟩
  | cons ref rest inductionHypothesis =>
      obtain ⟨fresh, separateRest⟩ := List.nodup_cons.mp separate
      obtain ⟨object, isObject⟩ := live ref List.mem_cons_self
      obtain ⟨middle, deleted, others⟩ := exists_delete isObject
      have liveRest :
          ∀ other ∈ rest, ∃ object, middle.deref? other = some object := by
        intro other member
        rw [others other (ne_of_mem_of_not_mem member fresh)]
        exact live other (List.mem_cons_of_mem ref member)
      obtain ⟨next, deletedRest⟩ :=
        inductionHypothesis separateRest liveRest
      refine ⟨next, ?_⟩
      rw [deleteAll, deleted]
      exact deletedRest

end Lemmas

end ObjectHeap

end Compi
