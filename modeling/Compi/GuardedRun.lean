import Compi.ObservedRun

/-!
# Guarded observed programs

What is shown of the observations of a run may need an assumption about them.
A guarded rule concludes nothing as soon as an observation breaks the
assumption; until then it speaks about a view of the state like an ordinary
rule, and every observation keeps its guarantee.
-/

namespace Compi.StoppableRun

variable {State Stop Observation View Value Result Locals : Type}

/-- If all observations meet the assumption, all have the guarantee. -/
def Guarantees
    (assumption guarantee : Observation → Prop)
    (log : List Observation) : Prop :=
  (∀ observation ∈ log, assumption observation) →
    ∀ observation ∈ log, guarantee observation

/-- While all observations meet the assumption, the view is as said. -/
def Sees
    (view : State → View)
    (assumption guarantee : Observation → Prop)
    (holds : View → Prop)
    (observed : State × List Observation) : Prop :=
  (∀ observation ∈ observed.2, assumption observation) →
    (∀ observation ∈ observed.2, guarantee observation) ∧
      holds (view observed.1)

/-- A rule about a view of the state of an observed program. -/
structure Guarded
    (view : State → View)
    (assumption guarantee : Observation → Prop)
    (pre : View → Prop)
    (program : Program (State × List Observation) Stop Value)
    (post : Value → View → Prop) : Prop where
  rule :
    Rule (fun observed => Guarantees assumption guarantee observed.2)
      (Sees view assumption guarantee pre) program
      fun value => Sees view assumption guarantee (post value)
  grows : Extends (Sees view assumption guarantee pre) program

theorem Sees.weaken
    {view : State → View}
    {assumption guarantee : Observation → Prop}
    {stronger weaker : View → Prop}
    {observed : State × List Observation}
    (sees : Sees view assumption guarantee stronger observed)
    (implies : ∀ seen, stronger seen → weaker seen) :
    Sees view assumption guarantee weaker observed :=
  fun assumed => ⟨(sees assumed).1, implies _ (sees assumed).2⟩

namespace Guarded

variable
  {view : State → View}
  {assumption guarantee : Observation → Prop}
  {pre : View → Prop}
  {program : Program (State × List Observation) Stop Value}
  {post : Value → View → Prop}

theorem pure
    {value : Value}
    (holds : ∀ seen, pre seen → post value seen) :
    Guarded view assumption guarantee pre
      (Pure.pure value : Program (State × List Observation) Stop Value)
      post where
  rule := Rule.pure fun _ sees => sees.weaken holds
  grows := Extends.pure

theorem throw
    {stop : Stop} :
    Guarded view assumption guarantee pre
      (MonadExcept.throw stop :
        Program (State × List Observation) Stop Value)
      post where
  rule := Rule.throw fun _ sees assumed => (sees assumed).1
  grows := Extends.throw

theorem bind
    {next : Value → Program (State × List Observation) Stop Result}
    {final : Result → View → Prop}
    (first : Guarded view assumption guarantee pre program post)
    (second :
      ∀ value,
        Guarded view assumption guarantee (post value) (next value) final) :
    Guarded view assumption guarantee pre (program >>= next) final where
  rule := Rule.bind first.rule fun value => (second value).rule
  grows :=
    Extends.bind first.grows first.rule fun value => (second value).grows

theorem weaken
    {strongerPre : View → Prop}
    {weakerPost : Value → View → Prop}
    (guarded : Guarded view assumption guarantee pre program post)
    (before : ∀ seen, strongerPre seen → pre seen)
    (after : ∀ value seen, post value seen → weakerPost value seen) :
    Guarded view assumption guarantee strongerPre program weakerPost where
  rule :=
    Rule.weaken guarded.rule (fun _ sees => sees.weaken before)
      fun value _ sees => sees.weaken (after value)
  grows := fun observed sees => guarded.grows observed (sees.weaken before)

theorem strengthen
    {strongerPre : View → Prop}
    (guarded : Guarded view assumption guarantee pre program post)
    (before : ∀ seen, strongerPre seen → pre seen) :
    Guarded view assumption guarantee strongerPre program post :=
  guarded.weaken before fun _ _ holds => holds

/-- A rule about the whole state is one about a view of it. -/
theorem ofState
    (guarded :
      Guarded (fun state : State => state) assumption guarantee
        (fun state => pre (view state)) program
        fun value state => post value (view state)) :
    Guarded view assumption guarantee pre program post where
  rule := guarded.rule
  grows := guarded.grows

/-- Fix what the view is before the program. -/
theorem ofView
    (guarded :
      ∀ before,
        Guarded view assumption guarantee
          (fun seen => pre seen ∧ seen = before) program post) :
    Guarded view assumption guarantee pre program post := by
  have fixed :
      ∀ observed,
        Sees view assumption guarantee pre observed →
        Sees view assumption guarantee
          (fun seen => pre seen ∧ seen = view observed.1) observed :=
    fun _ sees assumed => ⟨(sees assumed).1, (sees assumed).2, rfl⟩
  exact {
    rule := fun observed sees =>
      (guarded (view observed.1)).rule observed (fixed observed sees)
    grows := fun observed sees =>
      (guarded (view observed.1)).grows observed (fixed observed sees) }

/-- What is known independently of the state stays known. -/
theorem frame
    (known : Prop)
    (guarded : Guarded view assumption guarantee pre program post) :
    Guarded view assumption guarantee (fun seen => pre seen ∧ known) program
      fun value seen => post value seen ∧ known where
  rule := by
    intro observed sees
    have reached :=
      guarded.rule observed (sees.weaken fun _ holds => holds.1)
    obtain ⟨added, logged⟩ :=
      guarded.grows observed (sees.weaken fun _ holds => holds.1)
    revert reached logged
    split
    · next ran =>
        rw [ran]
        intro reached logged assumed
        have earlier : ∀ observation ∈ observed.2, assumption observation :=
          fun observation member =>
            assumed observation
              (logged ▸ List.mem_append_right added member)
        exact ⟨(reached assumed).1, (reached assumed).2,
          (sees earlier).2.2⟩
    · intro reached _
      exact reached
  grows := fun observed sees =>
    guarded.grows observed (sees.weaken fun _ holds => holds.1)

theorem loop
    {body :
      Locals →
      Program (State × List Observation) Stop (Next Locals Result)}
    (invariant : Locals → View → Prop)
    (post : Result → View → Prop)
    (step :
      ∀ locals,
        Guarded view assumption guarantee (invariant locals) (body locals)
          fun next seen => next.Holds (invariant · seen) (post · seen))
    (bound : Nat)
    (locals : Locals) :
    Guarded view assumption guarantee (invariant locals)
      (StoppableRun.loop body bound locals)
      fun next seen => next.Holds (invariant · seen) (post · seen) := by
  induction bound generalizing locals with
  | zero =>
      exact Guarded.pure fun _ holds => holds
  | succ bound inductionHypothesis =>
      refine Guarded.bind (step locals) fun next => ?_
      cases next with
      | again locals =>
          exact inductionHypothesis locals
      | done result =>
          exact Guarded.pure fun _ holds => holds

/-- A program that leaves the log alone, by a rule about the state. -/
theorem lift
    {program : Program State Stop Value}
    (rule :
      Rule (fun _ => True) (fun state => pre (view state)) program
        fun value state => post value (view state)) :
    Guarded view assumption guarantee pre (StoppableRun.lift program)
      post where
  rule := by
    apply Rule.lift
    intro log state sees
    by_cases assumed : ∀ observation ∈ log, assumption observation
    · have reached := rule state (sees assumed).2
      revert reached
      dsimp only
      split
      · intro holds _
        exact ⟨(sees assumed).1, holds⟩
      · intro _ _
        exact (sees assumed).1
    · dsimp only
      split
      · exact fun impossible => absurd impossible assumed
      · exact fun impossible => absurd impossible assumed
  grows := Extends.lift program

/-- A program that leaves the view alone. -/
theorem liftKeeps
    {program : Program State Stop Value}
    (keeps : Keeps view program) :
    Guarded view assumption guarantee pre (StoppableRun.lift program)
      fun _ => pre :=
  Guarded.lift
    (Keeps.rule pre (fun _ => True) keeps fun _ _ => trivial)

/--
Go on knowing what is true of the value of a program whatever its state is.
-/
theorem bindKnowing
    {program : Program State Stop Value}
    {next : Value → Program (State × List Observation) Stop Result}
    {final : Result → View → Prop}
    {fact : Value → Prop}
    (known :
      Rule (fun _ => True) (fun _ => True) program fun value _ => fact value)
    (keeps : Keeps view program)
    (second :
      ∀ value,
        fact value →
        Guarded view assumption guarantee pre (next value) final) :
    Guarded view assumption guarantee pre
      (StoppableRun.lift program >>= next) final := by
  have isFact :=
    Rule.keepLogKnowing (fun _ : List Observation => True) known
  have both :
      Rule (fun observed => Guarantees assumption guarantee observed.2)
        (Sees view assumption guarantee pre) (StoppableRun.lift program)
        fun value observed =>
          Sees view assumption guarantee pre observed ∧ fact value :=
    (Rule.also (Guarded.liftKeeps keeps).rule
      (isFact.strengthen fun _ _ => trivial)).weaken
      (fun _ holds => holds) fun _ _ holds => ⟨holds.1, holds.2.2⟩
  exact {
    rule :=
      Rule.bind both fun value =>
        Rule.fact fun isFact => (second value isFact).rule
    grows :=
      Extends.bind (Extends.lift program) both
        fun value observed holds =>
          (second value holds.2).grows observed holds.1 }

/-- A note must have its guarantee, and may use its assumption. -/
theorem noteThen
    {observe : State → Observation}
    {next : Unit → Program (State × List Observation) Stop Result}
    {final : Result → View → Prop}
    (noted : View → Prop)
    (holds :
      ∀ state,
        pre (view state) →
        assumption (observe state) →
        guarantee (observe state) ∧ noted (view state))
    (second : Guarded view assumption guarantee noted (next ()) final) :
    Guarded view assumption guarantee pre (note observe >>= next)
      final := by
  have entered :
      ∀ state log,
        Sees view assumption guarantee pre (state, log) →
        Sees view assumption guarantee noted
          (state, observe state :: log) := by
    intro state log sees assumed
    obtain ⟨guarantees, before⟩ := sees fun observation member =>
      assumed observation (List.mem_cons_of_mem _ member)
    obtain ⟨guaranteed, after⟩ :=
      holds state before (assumed _ List.mem_cons_self)
    refine ⟨?_, after⟩
    intro observation member
    rcases List.mem_cons.mp member with rfl | earlier
    · exact guaranteed
    · exact guarantees observation earlier
  exact {
    rule := Rule.noteThen _ entered second.rule
    grows := Extends.noteThen _ entered second.grows }

/-- All observations of a run that meet the assumption have the guarantee. -/
theorem guarantees_of_run
    (guarded : Guarded view assumption guarantee pre program post)
    {state : State}
    (initially : pre (view state)) :
    Guarantees assumption guarantee (program.run.run (state, [])).2.2 := by
  have start :
      Sees view assumption guarantee pre
        (state, ([] : List Observation)) := by
    intro _
    refine ⟨?_, initially⟩
    intro observation impossible
    cases impossible
  exact (Rule.weaken guarded.rule (fun _ holds => holds)
    fun _ _ sees assumed => (sees assumed).1).afterRun start

end Guarded

end Compi.StoppableRun
