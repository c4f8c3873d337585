import Compi.ObservedRun
import Compi.SearchStrategies

/-!
# Observed searches

The endless loop of a strategy, and the facts about the steps of a search that
do not depend on its state.
-/

namespace Compi

namespace ObservedSearch

open SearchRun StoppableRun

/-- A part of a search that is observed. -/
abbrev Observed (Observation Result : Type) : Type :=
  Program (World × List Observation) Stop Result

variable {Observation Locals : Type}

/-- `forever`, observed. -/
def forever
    (fuel : Nat)
    (body : Locals → Observed Observation Locals)
    (locals : Locals) : Observed Observation Unit := do
  let next ← loop
    (fun locals => do
      let locals ← body locals
      return (Next.again locals : Next Locals Unit))
    fuel locals
  match next with
  | .again _ => throw .outOfFuel
  | .done result => return result

theorem erases_forever
    {observed : Locals → Observed Observation Locals}
    {body : Locals → Run Locals}
    (step : ∀ locals, Erases (observed locals) (body locals))
    (fuel : Nat)
    (locals : Locals) :
    Erases (forever fuel observed locals)
      (SearchStrategies.forever fuel body locals) := by
  refine Erases.bind (Erases.loop ?_ fuel locals) fun next => ?_
  · intro locals
    exact Erases.bind (step locals) fun _ => Erases.pure
  · cases next with
    | again locals =>
        exact Erases.throw
    | done result =>
        exact Erases.pure

/-- An endless loop keeps what its body keeps. -/
theorem rule_forever
    {body : Locals → Observed Observation Locals}
    {held : World × List Observation → Prop}
    (known : Locals → Prop)
    (step :
      ∀ locals,
        known locals →
        Rule held held (body locals) fun next state => held state ∧ known next)
    (fuel : Nat)
    {locals : Locals}
    (initially : known locals) :
    Rule held held (forever fuel body locals) fun _ => held := by
  refine Rule.bind
    (Rule.loopKnowing known (fun _ : Unit => True) ?_ fuel initially) ?_
  · intro locals knownLocals
    refine Rule.bind (step locals knownLocals) fun next => ?_
    exact Rule.pure fun _ holds => holds
  · intro next
    cases next with
    | again locals =>
        exact Rule.throw fun _ holds => holds.1
    | done result =>
        exact Rule.pure fun _ holds => holds.1

/-- A round of an endless loop leaves one round less. -/
theorem run_forever
    {body : Locals → Observed Observation Locals}
    {locals next : Locals}
    {observed after : World × List Observation}
    (step : Yields (body locals) observed next after)
    (bound : Nat) :
    (forever (bound + 1) body locals).run.run observed =
      (forever bound body next).run.run after := by
  have again :
      Yields
        (do
          let locals ← body locals
          return (Next.again locals : Next Locals Unit))
        observed (.again next) after :=
    step.bind rfl
  have looped :
      (loop
          (fun locals => do
            let locals ← body locals
            return (Next.again locals : Next Locals Unit))
          (bound + 1) locals).run.run observed =
        (loop
          (fun locals => do
            let locals ← body locals
            return (Next.again locals : Next Locals Unit))
          bound next).run.run after :=
    again.run_loop bound
  simp only [forever, ExceptT.run_bind, StateT.run_bind, looped]

section Facts

variable {env : Environment}

/-- A required result is present. -/
theorem rule_require
    {Result : Type}
    (result : Option Result) :
    Rule (fun _ => True) (fun _ => True) (require result)
      fun value _ => result = some value := by
  cases result with
  | none =>
      exact Rule.throw fun _ _ => trivial
  | some value =>
      exact Rule.pure fun _ _ => rfl

/-- Go on from a state with a required result. -/
theorem requireFrom
    {Result Value : Type}
    {stopped : World → Prop}
    {world : World}
    {result : Option Result}
    {next : Result → Run Value}
    {post : Value → World → Prop}
    (rule :
      ∀ value,
        result = some value →
        Rule stopped (fun current => current = world) (next value) post)
    (stops : stopped world) :
    Rule stopped (fun current => current = world) (require result >>= next)
      post := by
  cases result with
  | none =>
      rintro current rfl
      exact stops
  | some value =>
      exact rule value rfl

/-- What a call of `UpdateCoverage` computes is returned and kept. -/
theorem yields_updateCoverage
    {ex : SymbolicExecution}
    {world : World}
    {coverage : Coverage}
    {found : Bool}
    {newBranches : OrderedSet BranchId}
    (updated :
      world.coverage.updateCoverage env.tables ex.path.branches
          (allOthers env world.search) =
        some (coverage, found, newBranches)) :
    Yields (SearchRun.updateCoverage env ex) world (found, newBranches)
      { world with coverage := coverage } := by
  have required :
      Yields
        (require
          (world.coverage.updateCoverage env.tables ex.path.branches
            (allOthers env world.search)))
        world (coverage, found, newBranches) world := by
    rw [updated]
    rfl
  exact Yields.bind rfl (required.bind rfl)

/-- A fold keeps what its steps keep true of their value. -/
theorem rule_foldlM
    {Value Item : Type}
    {fact : Value → Prop}
    {body : Value → Item → Run Value}
    (step :
      ∀ value item,
        fact value →
        Rule (fun _ => True) (fun _ => True) (body value item)
          fun next _ => fact next)
    (items : List Item)
    {value : Value}
    (initially : fact value) :
    Rule (fun _ => True) (fun _ => True) (items.foldlM body value)
      fun final _ => fact final := by
  induction items generalizing value with
  | nil =>
      exact Rule.pure fun _ _ => initially
  | cons item rest inductionHypothesis =>
      rw [List.foldlM_cons]
      exact Rule.bindFact (step value item initially)
        fun next isFact => inductionHypothesis isFact

/-- A run of the program returns an execution of the environment. -/
theorem rule_runProgram
    {fact : SymbolicExecution → Prop}
    (always : ∀ run ex, fact (env.execution run ex))
    (inputs : List Value)
    (ex : SymbolicExecution) :
    Rule (fun _ => True) (fun _ => True) (runProgram env inputs ex)
      fun newEx _ => fact newEx := by
  apply Rule.ofStates
  intro world _
  refine Rule.modifyFrom (Rule.getFrom ?_)
  split
  · exact Rule.throwFrom trivial
  · refine Rule.bind
      (Rule.strengthen (Rule.unconditional (launchProgram inputs))
        fun _ _ => trivial) fun _ => ?_
    exact Rule.pure fun _ _ => always _ ex

/-- Exchanging two entries adds none. -/
theorem swapAt_subset
    {Entry : Type}
    (items : List Entry)
    (i j : Nat) :
    swapAt items i j ⊆ items := by
  unfold swapAt
  split
  · next first second isFirst isSecond =>
      intro entry member
      rcases List.mem_or_eq_of_mem_set member with earlier | rfl
      · rcases List.mem_or_eq_of_mem_set earlier with original | rfl
        · exact original
        · exact List.mem_of_getElem? isSecond
      · exact List.mem_of_getElem? isFirst
  · exact List.Subset.refl _

@[simp] theorem length_swapAt
    {Entry : Type}
    (items : List Entry)
    (i j : Nat) :
    (swapAt items i j).length = items.length := by
  unfold swapAt
  split
  · rw [List.length_set, List.length_set]
  · rfl

/-- A shuffled vector has its size. -/
theorem rule_randomShuffle
    {Entry : Type}
    (items : List Entry) :
    Rule (fun _ => True) (fun _ => True) (randomShuffle env items)
      fun shuffled _ => shuffled.length = items.length := by
  refine rule_foldlM (fun shuffled i sized => ?_) _ rfl
  split
  · exact Rule.pure fun _ _ => sized
  · refine Rule.bind (Rule.unconditional (rand env)) fun r => ?_
    exact Rule.pure fun _ _ => (length_swapAt _ _ _).trans sized

/-- A random entry and the entries that are left are entries. -/
theorem rule_takeRandom
    {Entry : Type}
    (items : List Entry) :
    Rule (fun _ => True) (fun _ => True) (takeRandom env items)
      fun taken _ =>
        ∀ entry rest,
          taken = some (entry, rest) → entry ∈ items ∧ rest ⊆ items := by
  unfold takeRandom
  split
  · refine Rule.pure fun _ _ entry rest impossible => ?_
    cases impossible
  · refine Rule.bind (Rule.unconditional (rand env)) fun r => ?_
    refine Rule.pure fun _ _ entry rest isTaken => ?_
    obtain ⟨taken, found, same⟩ := Option.map_eq_some_iff.mp isTaken
    cases same
    constructor
    · exact List.mem_of_getElem? found
    · exact fun _ member =>
        swapAt_subset items _ _ (List.mem_of_mem_dropLast member)

end Facts

end ObservedSearch

end Compi
