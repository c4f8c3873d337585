import Mathlib.Data.Finset.Card

/-!
# Worklist search

A queue of marked elements is emptied one element at a time; the unmarked
neighbours of each are marked and enqueued.  The record of marked elements is
abstract: it only has to answer whether an element is marked, and marking an
element of a finite domain has to mark exactly that element.
-/

namespace Compi.Worklist

variable {α Seen : Type}

/-- A record of marked elements. -/
structure Marking (α Seen : Type) where
  isMarked : Seen → α → Bool
  mark : Seen → α → Seen

/-- Mark and enqueue the candidates that are not marked yet. -/
def visit (marking : Marking α Seen) :
    List α → List α → Seen → List α × Seen
  | [], queue, seen => (queue, seen)
  | candidate :: rest, queue, seen =>
      if marking.isMarked seen candidate then
        visit marking rest queue seen
      else
        visit marking rest (queue ++ [candidate])
          (marking.mark seen candidate)

/-- Empty the queue, within a number of steps. -/
def search
    (marking : Marking α Seen)
    (neighbours : α → List α) :
    Nat → List α → Seen → Option Seen
  | _, [], seen => some seen
  | 0, _ :: _, _ => none
  | fuel + 1, current :: queue, seen =>
      let visited := visit marking (neighbours current) queue seen
      search marking neighbours fuel visited.1 visited.2

section Invariant

variable {marking : Marking α Seen} {holds : Seen → Prop}

theorem visit_invariant
    (keeps : ∀ seen a, holds seen → holds (marking.mark seen a))
    {candidates queue : List α}
    {seen : Seen}
    (initially : holds seen) :
    holds (visit marking candidates queue seen).2 := by
  induction candidates generalizing queue seen with
  | nil =>
      exact initially
  | cons candidate rest inductionHypothesis =>
      unfold visit
      split
      · exact inductionHypothesis initially
      · exact inductionHypothesis (keeps seen candidate initially)

/-- What marking keeps true of the record holds of the result. -/
theorem search_invariant
    (keeps : ∀ seen a, holds seen → holds (marking.mark seen a))
    {neighbours : α → List α}
    {fuel : Nat}
    {queue : List α}
    {seen result : Seen}
    (initially : holds seen)
    (found : search marking neighbours fuel queue seen = some result) :
    holds result := by
  induction fuel generalizing queue seen with
  | zero =>
      cases queue with
      | nil =>
          cases found
          exact initially
      | cons current queue =>
          cases found
  | succ fuel inductionHypothesis =>
      cases queue with
      | nil =>
          cases found
          exact initially
      | cons current queue =>
          exact inductionHypothesis (visit_invariant keeps initially) found

end Invariant

section Laws

variable
  {marking : Marking α Seen}
  {domain : Finset α}
  (marks :
    ∀ seen a b,
      a ∈ domain →
      (marking.isMarked (marking.mark seen a) b = true ↔
        marking.isMarked seen b = true ∨ b = a))

include marks

/-- Visiting marks the candidates, and enqueues whatever it marks. -/
theorem visit_spec
    (candidates queue : List α)
    (seen : Seen)
    (inside : ∀ a ∈ candidates, a ∈ domain) :
    (∀ a,
        marking.isMarked (visit marking candidates queue seen).2 a = true ↔
          marking.isMarked seen a = true ∨ a ∈ candidates) ∧
      (∀ a ∈ queue, a ∈ (visit marking candidates queue seen).1) ∧
      (∀ a ∈ (visit marking candidates queue seen).1,
        a ∈ queue ∨ a ∈ candidates) ∧
      (∀ a ∈ candidates,
        marking.isMarked seen a = true ∨
          a ∈ (visit marking candidates queue seen).1) := by
  induction candidates generalizing queue seen with
  | nil =>
      refine ⟨?_, ?_, ?_, ?_⟩
      · simp [visit]
      · exact fun a member => member
      · exact fun a member => Or.inl member
      · intro a member
        cases member
  | cons candidate rest inductionHypothesis =>
      have restInside : ∀ a ∈ rest, a ∈ domain := fun a member =>
        inside a (List.mem_cons_of_mem _ member)
      by_cases old : marking.isMarked seen candidate = true
      · obtain ⟨marked, kept, origin, enqueued⟩ :=
          inductionHypothesis queue seen restInside
        simp only [visit, old, ↓reduceIte]
        refine ⟨?_, kept, ?_, ?_⟩
        · intro a
          rw [marked a, List.mem_cons]
          constructor
          · rintro (before | later)
            · exact Or.inl before
            · exact Or.inr (Or.inr later)
          · rintro (before | rfl | later)
            · exact Or.inl before
            · exact Or.inl old
            · exact Or.inr later
        · intro a member
          rcases origin a member with before | later
          · exact Or.inl before
          · exact Or.inr (List.mem_cons_of_mem _ later)
        · intro a member
          rcases List.mem_cons.mp member with rfl | later
          · exact Or.inl old
          · exact enqueued a later
      · obtain ⟨marked, kept, origin, enqueued⟩ :=
          inductionHypothesis (queue ++ [candidate])
            (marking.mark seen candidate) restInside
        have markedNow := fun b =>
          marks seen candidate b (inside candidate (by simp))
        simp only [visit, old, Bool.false_eq_true, ↓reduceIte]
        refine ⟨?_, ?_, ?_, ?_⟩
        · intro a
          rw [marked a, markedNow a, List.mem_cons, or_assoc]
        · intro a member
          exact kept a (List.mem_append_left _ member)
        · intro a member
          rcases origin a member with before | later
          · rcases List.mem_append.mp before with earlier | now
            · exact Or.inl earlier
            · rw [List.mem_singleton.mp now]
              exact Or.inr (by simp)
          · exact Or.inr (List.mem_cons_of_mem _ later)
        · intro a member
          rcases List.mem_cons.mp member with rfl | later
          · exact Or.inr (kept a (by simp))
          · rcases enqueued a later with before | now
            · rcases (markedNow a).mp before with earlier | rfl
              · exact Or.inl earlier
              · exact Or.inr (kept a (by simp))
            · exact Or.inr now

/-- Each enqueued element uses up an unmarked element of the domain. -/
theorem visit_budget
    (candidates queue : List α)
    (seen : Seen)
    (inside : ∀ a ∈ candidates, a ∈ domain) :
    (visit marking candidates queue seen).1.length +
        (domain.filter fun a =>
          marking.isMarked (visit marking candidates queue seen).2 a =
            false).card ≤
      queue.length +
        (domain.filter fun a => marking.isMarked seen a = false).card := by
  induction candidates generalizing queue seen with
  | nil =>
      exact le_rfl
  | cons candidate rest inductionHypothesis =>
      have restInside : ∀ a ∈ rest, a ∈ domain := fun a member =>
        inside a (List.mem_cons_of_mem _ member)
      by_cases old : marking.isMarked seen candidate = true
      · simp only [visit, old, ↓reduceIte]
        exact inductionHypothesis queue seen restInside
      · have candidateInside := inside candidate (by simp)
        have markedNow := fun b =>
          marks seen candidate b candidateInside
        have fewer :
            (domain.filter fun a =>
              marking.isMarked (marking.mark seen candidate) a =
                false).card <
              (domain.filter fun a =>
                marking.isMarked seen a = false).card := by
          apply Finset.card_lt_card
          rw [Finset.ssubset_iff_of_subset]
          · refine ⟨candidate, ?_, ?_⟩
            · simpa [candidateInside] using old
            · have marked := (markedNow candidate).mpr (Or.inr rfl)
              simp [marked]
          · intro a member
            obtain ⟨aInside, unmarked⟩ := Finset.mem_filter.mp member
            refine Finset.mem_filter.mpr ⟨aInside, ?_⟩
            by_contra before
            have marked :=
              (markedNow a).mpr (Or.inl (by simpa using before))
            simp [marked] at unmarked
        have later :=
          inductionHypothesis (queue ++ [candidate])
            (marking.mark seen candidate) restInside
        simp only [visit, old, Bool.false_eq_true, ↓reduceIte]
        simp only [List.length_append, List.length_singleton] at later
        omega

/--
Between steps, the queue and the marks stay in the domain, and every marked
element is still in the queue or has only marked neighbours.
-/
structure Frontier
    (marking : Marking α Seen)
    (domain : Finset α)
    (neighbours : α → List α)
    (queue : List α)
    (seen : Seen) : Prop where
  queueInside : ∀ a ∈ queue, a ∈ domain
  markedInside : ∀ a, marking.isMarked seen a = true → a ∈ domain
  pending :
    ∀ a,
      marking.isMarked seen a = true →
      a ∈ queue ∨ ∀ b ∈ neighbours a, marking.isMarked seen b = true

variable
  {neighbours : α → List α}
  (stays : ∀ a ∈ domain, ∀ b ∈ neighbours a, b ∈ domain)

include stays

theorem Frontier.step
    {current : α}
    {queue : List α}
    {seen : Seen}
    (frontier :
      Frontier marking domain neighbours (current :: queue) seen) :
    Frontier marking domain neighbours
      (visit marking (neighbours current) queue seen).1
      (visit marking (neighbours current) queue seen).2 := by
  have currentInside := frontier.queueInside current (by simp)
  have neighboursInside := stays current currentInside
  obtain ⟨marked, kept, origin, enqueued⟩ :=
    visit_spec marks (neighbours current) queue seen neighboursInside
  refine ⟨?_, ?_, ?_⟩
  · intro a member
    rcases origin a member with before | candidate
    · exact frontier.queueInside a (List.mem_cons_of_mem _ before)
    · exact neighboursInside a candidate
  · intro a isMarked
    rcases (marked a).mp isMarked with before | candidate
    · exact frontier.markedInside a before
    · exact neighboursInside a candidate
  · have stillPending :
        ∀ a,
          marking.isMarked seen a = true →
          a ∈ (visit marking (neighbours current) queue seen).1 ∨
            ∀ b ∈ neighbours a,
              marking.isMarked
                (visit marking (neighbours current) queue seen).2 b =
                  true := by
      intro a before
      rcases frontier.pending a before with inQueue | closed
      · rcases List.mem_cons.mp inQueue with rfl | later
        · exact Or.inr fun b candidate => (marked b).mpr (Or.inr candidate)
        · exact Or.inl (kept a later)
      · exact Or.inr fun b neighbour =>
          (marked b).mpr (Or.inl (closed b neighbour))
    intro a isMarked
    rcases (marked a).mp isMarked with before | candidate
    · exact stillPending a before
    · rcases enqueued a candidate with before | inQueue
      · exact stillPending a before
      · exact Or.inl inQueue

/-- With a step for every element of the domain the search ends. -/
theorem search_ends
    {fuel : Nat}
    {queue : List α}
    {seen : Seen}
    (frontier : Frontier marking domain neighbours queue seen)
    (enough :
      queue.length +
          (domain.filter fun a => marking.isMarked seen a = false).card ≤
        fuel) :
    ∃ result, search marking neighbours fuel queue seen = some result := by
  induction fuel generalizing queue seen with
  | zero =>
      cases queue with
      | nil =>
          exact ⟨seen, rfl⟩
      | cons current queue =>
          simp only [List.length_cons] at enough
          omega
  | succ fuel inductionHypothesis =>
      cases queue with
      | nil =>
          exact ⟨seen, rfl⟩
      | cons current queue =>
          have currentInside := frontier.queueInside current (by simp)
          have budget :=
            visit_budget marks (neighbours current) queue seen
              (stays current currentInside)
          apply inductionHypothesis (frontier.step marks stays)
          simp only [List.length_cons] at enough
          omega

/-- The result keeps the marks and is closed under neighbours. -/
theorem search_closed
    {fuel : Nat}
    {queue : List α}
    {seen result : Seen}
    (frontier : Frontier marking domain neighbours queue seen)
    (found : search marking neighbours fuel queue seen = some result) :
    (∀ a,
        marking.isMarked seen a = true →
        marking.isMarked result a = true) ∧
      Frontier marking domain neighbours [] result := by
  induction fuel generalizing queue seen with
  | zero =>
      cases queue with
      | nil =>
          cases found
          exact ⟨fun a marked => marked, frontier⟩
      | cons current queue =>
          cases found
  | succ fuel inductionHypothesis =>
      cases queue with
      | nil =>
          cases found
          exact ⟨fun a marked => marked, frontier⟩
      | cons current queue =>
          have currentInside := frontier.queueInside current (by simp)
          obtain ⟨marked, _⟩ :=
            visit_spec marks (neighbours current) queue seen
              (stays current currentInside)
          obtain ⟨kept, final⟩ :=
            inductionHypothesis (frontier.step marks stays) found
          refine ⟨?_, final⟩
          intro a before
          exact kept a ((marked a).mpr (Or.inl before))

end Laws

end Compi.Worklist
