/-!
# Runs of a partial deterministic machine

A machine is a function that takes a state and an event and either steps or
stops.  This module contains the vocabulary its clients share: the run over a
finite event list, properties that hold before every event of a run, and the
two induction rules that lift a one-step fact to whole runs.
-/

namespace Compi.PartialRun

variable {State Event : Type}

/-- Run a finite event list, stopping at the first event that cannot step. -/
def run?
    (step : State → Event → Option State) :
    State → List Event → Option State
  | state, [] => some state
  | state, event :: rest =>
      match step state event with
      | none => none
      | some next => run? step next rest

/--
`holds` is true of every event of the list together with the state the
machine is in when the event arrives.  Events after a stop never arrive.
-/
def Along
    (step : State → Event → Option State)
    (holds : State → Event → Prop) :
    State → List Event → Prop
  | _, [] => True
  | state, event :: rest =>
      holds state event ∧
        ∀ next,
          step state event = some next →
          Along step holds next rest

section Rules

variable {step : State → Event → Option State}

@[simp] theorem run?_nil (state : State) :
    run? step state [] = some state :=
  rfl

/-- A nonempty run is one step followed by the rest of the run. -/
theorem run?_cons_eq_some
    {state final : State}
    {event : Event}
    {rest : List Event} :
    run? step state (event :: rest) = some final ↔
      ∃ next,
        step state event = some next ∧
          run? step next rest = some final := by
  cases stepped : step state event with
  | none =>
      simp [run?, stepped]
  | some next =>
      simp [run?, stepped]

/-- A run over two lists is a run over the second one after the first. -/
theorem run?_append_eq_some
    {state final : State}
    {events rest : List Event} :
    run? step state (events ++ rest) = some final ↔
      ∃ middle,
        run? step state events = some middle ∧
          run? step middle rest = some final := by
  induction events generalizing state with
  | nil =>
      simp
  | cons event events inductionHypothesis =>
      rw [List.cons_append, run?_cons_eq_some]
      simp only [run?_cons_eq_some, inductionHypothesis]
      constructor
      · rintro ⟨next, stepped, middle, ran, restRan⟩
        exact ⟨middle, ⟨next, stepped, ran⟩, restRan⟩
      · rintro ⟨middle, ⟨next, stepped, ran⟩, restRan⟩
        exact ⟨next, stepped, middle, ran, restRan⟩

/-- A state fact preserved by every admissible step holds after every run. -/
theorem run?_invariant
    {admissible : State → Event → Prop}
    {invariant : State → Prop}
    (preserved :
      ∀ {state event next},
        invariant state →
        admissible state event →
        step state event = some next →
        invariant next)
    {initial final : State}
    {events : List Event}
    (initially : invariant initial)
    (along : Along step admissible initial events)
    (ran : run? step initial events = some final) :
    invariant final := by
  induction events generalizing initial with
  | nil =>
      simp only [run?_nil, Option.some.injEq] at ran
      subst final
      exact initially
  | cons event rest inductionHypothesis =>
      obtain ⟨next, stepped, restRan⟩ := run?_cons_eq_some.mp ran
      exact inductionHypothesis
        (preserved initially along.1 stepped)
        (along.2 next stepped)
        restRan

/--
If an invariant is preserved by admissible steps and makes `conclusion` true
of each admissible event, then `conclusion` is true along the whole run.
-/
theorem along_of_invariant
    {admissible conclusion : State → Event → Prop}
    {invariant : State → Prop}
    (preserved :
      ∀ {state event next},
        invariant state →
        admissible state event →
        step state event = some next →
        invariant next)
    (concluded :
      ∀ {state event},
        invariant state →
        admissible state event →
        conclusion state event)
    {initial : State}
    {events : List Event}
    (initially : invariant initial)
    (along : Along step admissible initial events) :
    Along step conclusion initial events := by
  induction events generalizing initial with
  | nil =>
      trivial
  | cons event rest inductionHypothesis =>
      refine ⟨concluded initially along.1, ?_⟩
      intro next stepped
      exact inductionHypothesis
        (preserved initially along.1 stepped)
        (along.2 next stepped)

/--
Two properties that agree under an invariant on the events of a list hold
along the same runs of it, if steps with the second property preserve the
invariant.
-/
theorem along_iff_of_allowed
    {allowed : Event → Prop}
    {left right : State → Event → Prop}
    {invariant : State → Prop}
    (agree :
      ∀ {state event},
        invariant state →
        allowed event →
        (left state event ↔ right state event))
    (preserved :
      ∀ {state event next},
        invariant state →
        allowed event →
        right state event →
        step state event = some next →
        invariant next)
    {initial : State}
    {events : List Event}
    (initially : invariant initial)
    (everyAllowed : ∀ event ∈ events, allowed event) :
    Along step left initial events ↔ Along step right initial events := by
  induction events generalizing initial with
  | nil =>
      exact Iff.rfl
  | cons event rest inductionHypothesis =>
      have isAllowed : allowed event := everyAllowed event List.mem_cons_self
      have restAllowed : ∀ event ∈ rest, allowed event :=
        fun event member => everyAllowed event (List.mem_cons_of_mem _ member)
      have later :
          ∀ next,
            right initial event →
            step initial event = some next →
            (Along step left next rest ↔ Along step right next rest) :=
        fun next holds stepped =>
          inductionHypothesis (preserved initially isAllowed holds stepped)
            restAllowed
      constructor
      · intro along
        have holds := (agree initially isAllowed).mp along.1
        exact ⟨holds, fun next stepped =>
          (later next holds stepped).mp (along.2 next stepped)⟩
      · intro along
        exact ⟨(agree initially isAllowed).mpr along.1, fun next stepped =>
          (later next along.1 stepped).mpr (along.2 next stepped)⟩

/--
Two properties that agree under an invariant hold along the same runs, if
steps with the second property preserve the invariant.
-/
theorem along_iff_of_invariant
    {left right : State → Event → Prop}
    {invariant : State → Prop}
    (agree :
      ∀ {state event},
        invariant state →
        (left state event ↔ right state event))
    (preserved :
      ∀ {state event next},
        invariant state →
        right state event →
        step state event = some next →
        invariant next)
    {initial : State}
    {events : List Event}
    (initially : invariant initial) :
    Along step left initial events ↔ Along step right initial events := by
  have everyAllowed : ∀ event ∈ events, (fun _ => True) event :=
    fun _ _ => trivial
  refine along_iff_of_allowed ?_ ?_ initially everyAllowed
  · intro state event holds _
    exact agree holds
  · intro state event next holds _ meets stepped
    exact preserved holds meets stepped

/--
If under an invariant each step keeps a state good exactly if it has a
property, then a run ends in a good state exactly if it starts in one and its
steps have the property.
-/
theorem run?_iff_along
    {holds : State → Event → Prop}
    {good invariant : State → Prop}
    (preserved :
      ∀ {state event next},
        invariant state →
        step state event = some next →
        invariant next)
    (keeps :
      ∀ {state event next},
        invariant state →
        step state event = some next →
        (good next ↔ good state ∧ holds state event))
    {initial final : State}
    {events : List Event}
    (initially : invariant initial)
    (ran : run? step initial events = some final) :
    good final ↔ good initial ∧ Along step holds initial events := by
  induction events generalizing initial with
  | nil =>
      obtain rfl := Option.some.inj ran
      exact ⟨fun isGood => ⟨isGood, trivial⟩, fun both => both.1⟩
  | cons event rest inductionHypothesis =>
      obtain ⟨next, stepped, restRan⟩ := run?_cons_eq_some.mp ran
      rw [inductionHypothesis (preserved initially stepped) restRan,
        keeps initially stepped]
      constructor
      · rintro ⟨⟨isGood, first⟩, later⟩
        refine ⟨isGood, first, ?_⟩
        intro other otherStepped
        obtain rfl := Option.some.inj (stepped.symm.trans otherStepped)
        exact later
      · rintro ⟨isGood, first, later⟩
        exact ⟨⟨isGood, first⟩, later next stepped⟩

/-- What holds of all events holds along every run over them. -/
theorem along_of_forall
    {allowed : Event → Prop}
    {events : List Event}
    (everyAllowed : ∀ event ∈ events, allowed event)
    (state : State) :
    Along step (fun _ event => allowed event) state events := by
  induction events generalizing state with
  | nil =>
      trivial
  | cons event rest inductionHypothesis =>
      refine ⟨everyAllowed event List.mem_cons_self, fun next _ => ?_⟩
      exact inductionHypothesis
        (fun other member => everyAllowed other (List.mem_cons_of_mem _ member))
        next

/-- What holds of every step holds along every run. -/
theorem along_true (state : State) (events : List Event) :
    Along step (fun _ _ => True) state events :=
  along_of_forall (fun _ _ => trivial) state

/-- A property holds along a run if it does at its first step and after. -/
theorem Along.cons
    {holds : State → Event → Prop}
    {state next : State}
    {event : Event}
    {rest : List Event}
    (first : holds state event)
    (stepped : step state event = some next)
    (later : Along step holds next rest) :
    Along step holds state (event :: rest) := by
  refine ⟨first, ?_⟩
  intro other otherStepped
  have same : next = other :=
    Option.some.inj (stepped.symm.trans otherStepped)
  exact same ▸ later

/-- A property along a run holds along what is left after a part of it. -/
theorem Along.after
    {holds : State → Event → Prop}
    {initial middle : State}
    {events rest : List Event}
    (along : Along step holds initial (events ++ rest))
    (ran : run? step initial events = some middle) :
    Along step holds middle rest := by
  induction events generalizing initial with
  | nil =>
      simp only [run?_nil, Option.some.injEq] at ran
      subst middle
      exact along
  | cons event events inductionHypothesis =>
      obtain ⟨next, stepped, restRan⟩ := run?_cons_eq_some.mp ran
      exact inductionHypothesis (along.2 next stepped) restRan

/-- A decidable property of steps is decided along a run by running it. -/
instance Along.decidable
    {holds : State → Event → Prop}
    [decidableHolds : ∀ state event, Decidable (holds state event)] :
    ∀ state events, Decidable (Along step holds state events)
  | _, [] => isTrue trivial
  | state, event :: rest =>
      match stepped : step state event with
      | none =>
          decidable_of_iff (holds state event) (by simp [Along, stepped])
      | some next =>
          have later : Decidable (Along step holds next rest) :=
            Along.decidable next rest
          decidable_of_iff (holds state event ∧ Along step holds next rest)
            (by simp [Along, stepped])

/-- Two properties that hold along a run hold together along it. -/
theorem Along.and
    {left right : State → Event → Prop}
    {state : State}
    {events : List Event}
    (leftAlong : Along step left state events)
    (rightAlong : Along step right state events) :
    Along step (fun current event => left current event ∧ right current event)
      state events := by
  induction events generalizing state with
  | nil =>
      trivial
  | cons event rest inductionHypothesis =>
      refine ⟨⟨leftAlong.1, rightAlong.1⟩, ?_⟩
      intro next stepped
      exact inductionHypothesis
        (leftAlong.2 next stepped) (rightAlong.2 next stepped)

end Rules

/--
A loop that can take each of its steps whatever it has processed before takes
all of them, and ends with what it has to process processed.
-/
theorem foldlM_of_steps
    {Item : Type}
    {body : State → Item → Option State}
    {items : List Item}
    (processed : List Item → State → Prop)
    (steps :
      ∀ {before state item},
        item ∈ items →
        processed before state →
        ∃ next,
          body state item = some next ∧
            processed (before ++ [item]) next)
    {before : List Item}
    {state : State}
    (initially : processed before state) :
    ∃ final,
      items.foldlM body state = some final ∧
        processed (before ++ items) final := by
  induction items generalizing before state with
  | nil =>
      exact ⟨state, rfl, by simpa using initially⟩
  | cons item rest inductionHypothesis =>
      obtain ⟨next, stepped, after⟩ := steps List.mem_cons_self initially
      obtain ⟨final, folded, processedAll⟩ :=
        inductionHypothesis
          (fun member => steps (List.mem_cons_of_mem _ member)) after
      refine ⟨final, ?_, ?_⟩
      · rw [List.foldlM_cons, stepped]
        exact folded
      · rw [List.append_assoc] at processedAll
        exact processedAll

/-- The same from the start: nothing is processed first, everything last. -/
theorem foldlM_of_all_steps
    {Item : Type}
    (body : State → Item → Option State)
    (items : List Item)
    (state : State)
    (processed : List Item → State → Prop)
    (steps :
      ∀ {before state item},
        item ∈ items →
        processed before state →
        ∃ next,
          body state item = some next ∧
            processed (before ++ [item]) next)
    (initially : processed [] state) :
    ∃ final,
      items.foldlM body state = some final ∧ processed items final :=
  foldlM_of_steps processed steps initially

/-- A loop takes all of its steps if it can take each one that it reaches. -/
theorem foldlM_isSome_iff
    {Item : Type}
    (body : State → Item → Option State)
    (items : List Item)
    (state : State) :
    (items.foldlM body state).isSome = true ↔
      ∀ done item rest,
        items = done ++ item :: rest →
        ∀ reached,
          done.foldlM body state = some reached →
          (body reached item).isSome = true := by
  induction items generalizing state with
  | nil =>
      simp
  | cons first later inductionHypothesis =>
      rw [List.foldlM_cons]
      constructor
      · intro folded done item rest split reached isReached
        obtain ⟨final, isFinal⟩ := Option.isSome_iff_exists.mp folded
        obtain ⟨next, stepped, restFolded⟩ :=
          Option.bind_eq_some_iff.mp isFinal
        cases done with
        | nil =>
            obtain ⟨rfl, rfl⟩ := List.cons.inj split
            obtain rfl := Option.some.inj isReached
            rw [stepped]
            rfl
        | cons head doneRest =>
            obtain ⟨rfl, laterSplit⟩ := List.cons.inj split
            rw [List.foldlM_cons, stepped] at isReached
            refine (inductionHypothesis next).mp ?_ doneRest item rest
              laterSplit reached isReached
            rw [restFolded]
            rfl
      · intro steps
        have firstStep := steps [] first later rfl state rfl
        obtain ⟨next, stepped⟩ := Option.isSome_iff_exists.mp firstStep
        rw [stepped]
        refine (inductionHypothesis next).mpr ?_
        intro done item rest split reached isReached
        refine steps (first :: done) item rest (by rw [split]; rfl) reached ?_
        rw [List.foldlM_cons, stepped]
        exact isReached

end Compi.PartialRun
