import Compi.VariableIndices

/-!
# What a process marks

The marking calls of a process, in order, are kept beside its interpreter.
The variable with an index is the one that the call at this position marked:
its type, its limit and its list are those of the call, and a value that the
input file has for it is the one at its index.
-/

namespace Compi

open SymbolicInterpreter

section Conversions

/-- A conversion of a converted value changes nothing. -/
theorem castTo_castTo (value : Value) (type : CType) :
    castTo (castTo value type) type = castTo value type := by
  cases type with
  | uChar | uShort | uInt => exact Int.emod_emod_of_dvd _ (dvd_refl _)
  | char | short | int => exact Int.bmod_bmod
  | uLong | long | uLongLong | longLong => rfl

theorem emod_le_self
    {value : Int}
    (nonneg : 0 ≤ value)
    (m : Nat) :
    value % (m : Int) ≤ value := by
  obtain ⟨n, rfl⟩ := Int.eq_ofNat_of_zero_le nonneg
  exact Int.ofNat_le.mpr (Nat.mod_le n m)

/-- A conversion does not enlarge a value that is not negative. -/
theorem castTo_le
    {value : Value}
    (nonneg : 0 ≤ value)
    (type : CType) :
    castTo value type ≤ value := by
  have unsigned : ∀ m : Nat, value % (m : Int) ≤ value :=
    emod_le_self nonneg
  have signed : ∀ m : Nat, Int.bmod value m ≤ value := by
    intro m
    apply Int.le_trans _ (unsigned m)
    rw [Int.bmod_eq_emod]
    split
    · omega
    · omega
  cases type with
  | uChar => exact unsigned (2 ^ 8)
  | uShort => exact unsigned (2 ^ 16)
  | uInt => exact unsigned (2 ^ 32)
  | char | short | int => exact signed _
  | uLong | long | uLongLong | longLong => exact le_rfl

/-- A value in the range that the solver asserts is a value of the type. -/
theorem castTo_of_inRange
    {value : Value}
    {type : CType}
    (inRange : type.InRange value) :
    castTo value type = value := by
  obtain ⟨lower, upper⟩ := inRange
  cases type with
  | uChar | uShort | uInt =>
      exact Int.emod_eq_of_lt lower (Int.lt_of_le_of_lt upper (by decide))
  | char | short | int =>
      exact Int.bmod_eq_of_le (Int.le_trans (by decide) lower)
        (Int.lt_of_le_of_lt upper (by decide))
  | uLong | long | uLongLong | longLong => rfl

/-- The types that conversion to makes narrower. -/
def CType.narrow : CType → Bool
  | uChar | char | uShort | short | uInt | int => true
  | uLong | long | uLongLong | longLong => false

/-- What is converted to a narrow type is at most its largest value. -/
theorem castTo_le_maxValue
    {type : CType}
    (narrow : type.narrow = true)
    (value : Value) :
    castTo value type ≤ type.maxValue := by
  cases type with
  | uChar | uShort | uInt =>
      exact Int.le_of_lt_add_one (Int.emod_lt_of_pos _ (by decide))
  | char | short | int => exact Int.bmod_le (by decide)
  | uLong | long | uLongLong | longLong => cases narrow

/-- What is drawn below a limit is at most the limit, whatever its type. -/
theorem castTo_drawn_le
    {limit : Value}
    (positive : 1 ≤ limit)
    (draw : Nat)
    (type : CType) :
    castTo (castTo (Int.tmod draw limit) type) type ≤ limit := by
  have drawn : Int.tmod draw limit = (draw : Int) % limit :=
    Int.tmod_eq_emod_of_nonneg (Int.natCast_nonneg draw)
  have below : (draw : Int) % limit < limit :=
    Int.emod_lt_of_pos _ (Int.lt_of_lt_of_le Int.zero_lt_one positive)
  have nonneg : 0 ≤ (draw : Int) % limit :=
    Int.emod_nonneg _ (Int.ne_of_gt
      (Int.lt_of_lt_of_le Int.zero_lt_one positive))
  rw [castTo_castTo, drawn]
  exact Int.le_trans (castTo_le nonneg type) (Int.le_of_lt below)

end Conversions

/-- The event that a marking call passes to the interpreter. -/
def TargetCall.event? : TargetCall → Option Event
  | .marks event => some event
  | .inserted here (.rank addr) =>
      some (.newInputRank .uInt (here.addr addr))
  | .inserted here (.rankNonDefaultComm1 addr) =>
      some (.newInputRankNonDefaultComm .uInt (here.addr addr))
  | .inserted here (.worldSizeWithLimit addr limit) =>
      some (.newInputWorldSizeWithLimit .uInt (here.addr addr) limit)
  | .inserted _ _ => none

/-- What a call marks, if it is a marking call. -/
def TargetCall.marking? (call : TargetCall) : Option Marking :=
  call.event?.bind Event.marking

/-- Whether a call patches the variable marked last. -/
def TargetCall.patches : TargetCall → Bool
  | .inserted _ call => Crest.isPatch call
  | .marks _ => false

namespace Crest

variable {crest next : Crest}

/-- The variables and what is recorded of them are left alone. -/
structure LeavesVariables (crest next : Crest) : Prop where
  numInputs : next.si.numInputs = crest.si.numInputs
  ex : next.si.ex = { crest.si.ex with path := next.si.ex.path }

theorem leavesVariables_forward
    {event : Event}
    (unmarked : event.marking = none)
    (forwarded : crest.forward event = some next) :
    LeavesVariables crest next := by
  obtain ⟨si, stepped, rfl⟩ := Option.map_eq_some_iff.mp forwarded
  obtain ⟨keeps, _⟩ := keepsRecord_of_step unmarked stepped
  exact ⟨keeps.numInputs, keeps.ex⟩

theorem leavesVariables_forwardTracked
    {event : Event}
    (unmarked : event.marking = none)
    (forwarded : crest.forwardTracked event = some next) :
    LeavesVariables crest next := by
  unfold forwardTracked at forwarded
  split at forwarded
  · obtain rfl := Option.some.inj forwarded
    exact ⟨rfl, rfl⟩
  · exact leavesVariables_forward unmarked forwarded

/-- What one call does to the variables. -/
inductive Effect (crest : Crest) (call : TargetCall) (next : Crest) : Prop where
  | marks
      (event : Event)
      (marking : Marking)
      (isEvent : call.event? = some event)
      (isMarking : event.marking = some marking)
      (stepped : crest.si.step event = some next.si)
  | patches
      (unmarked : call.marking? = none)
      (isPatch : call.patches = true)
      (marked : 0 < crest.si.numInputs)
      (here : Circumstances)
      (addr : Cil.Exp)
      (isNext : next = crest.rankNonDefaultComm2 here addr)
  | leaves
      (unmarked : call.marking? = none)
      (leaves : LeavesVariables crest next)

theorem effect_mark
    {call : TargetCall}
    {event : Event}
    {marking : Marking}
    (isEvent : call.event? = some event)
    (isMarking : event.marking = some marking)
    (marked : crest.mark event = some next) :
    Effect crest call next := by
  obtain ⟨si, stepped, rfl⟩ := Option.map_eq_some_iff.mp marked
  exact .marks event marking isEvent isMarking stepped

theorem effect_perform
    {here : Circumstances}
    {call : Cil.RuntimeCall}
    (guarded : ¬(isPatch call = true ∧ crest.si.numInputs = 0))
    (performed : crest.perform here call = some next) :
    Effect crest (.inserted here call) next := by
  cases call with
  | load | store | clearStack | apply1 | apply2 | handleReturn =>
      obtain ⟨event, unmarked, forwarded⟩ := exists_tracked rfl performed
      exact .leaves rfl (leavesVariables_forwardTracked unmarked forwarded)
  | branch bid taken =>
      obtain rfl := Option.some.inj performed
      refine .leaves rfl ⟨?_, ?_⟩
      · cases crest.preSymbolic with
        | true => rfl
        | false => rfl
      · cases crest.preSymbolic with
        | true => rfl
        | false => rfl
  | branchOnly | call | returns =>
      exact .leaves rfl (leavesVariables_forward rfl performed)
  | rank | rankNonDefaultComm1 | worldSizeWithLimit =>
      exact effect_mark rfl rfl performed
  | rankNonDefaultComm2 comm addr =>
      have marked : 0 < crest.si.numInputs :=
        Nat.pos_of_ne_zero fun unmarked => guarded ⟨rfl, unmarked⟩
      exact .patches rfl rfl marked here addr
        (Option.some.inj performed).symm
  | getMPIInfo =>
      obtain rfl := Option.some.inj performed
      exact .leaves rfl ⟨rfl, rfl⟩

/-- Every call marks a variable, patches one, or leaves them alone. -/
theorem effect_of_step
    {call : TargetCall}
    (stepped : crest.step call = some next) :
    Effect crest call next := by
  cases call with
  | marks event =>
      simp only [step] at stepped
      split at stepped
      · next isSome =>
          obtain ⟨marking, isMarking⟩ := Option.isSome_iff_exists.mp isSome
          exact effect_mark rfl isMarking stepped
      · cases stepped
  | inserted here call =>
      simp only [step] at stepped
      split at stepped
      · cases stepped
      · next guarded =>
          exact effect_perform guarded stepped

end Crest

/-- A process, and what it has marked so far. -/
structure MarkedProcess where
  crest : Crest
  marks : List Marking

namespace MarkedProcess

/-- The process before its first call. -/
def start
    (file : List Value)
    (execTimes : Nat)
    (rank targetRank worldSize : Int) : MarkedProcess where
  crest := Crest.start file execTimes rank targetRank worldSize
  marks := []

/-- One call of the process. -/
def step
    (process : MarkedProcess)
    (call : TargetCall) : Option MarkedProcess :=
  (process.crest.step call).map fun crest =>
    { crest := crest
      marks := process.marks ++ call.marking?.toList }

/-- The limit under which a variable was marked by `NewInputWithLimit`. -/
def CappedBy
    (marks : List Marking)
    (index : Nat)
    (type : CType)
    (limit : Value) : Prop :=
  ∃ marking,
    marks[index]? = some marking ∧
      marking.type = type ∧
      marking.limit = some limit ∧
      marking.list = none

/--
The record of the interpreter is that of the calls: types, limits and lists
are theirs, and a capped variable has an input within its limit.
-/
structure Tracks (process : MarkedProcess) : Prop where
  numInputs : process.crest.si.numInputs = process.marks.length
  vars :
    ∀ (index : Nat) (marking : Marking),
      process.marks[index]? = some marking →
      process.crest.si.ex.vars[index]? = some marking.type
  limits :
    ∀ (index : Nat) (marking : Marking),
      process.marks[index]? = some marking →
      marking.list = none →
      process.crest.si.ex.limits.lookup (index : Id) = marking.limit
  lists :
    ∀ list : IndexList, ∀ index : Nat,
      (index : Id) ∈ list.of process.crest.si.ex →
      ∃ marking,
        process.marks[index]? = some marking ∧ marking.list = some list
  values :
    ∀ (index : Nat) (type : CType) (limit : Value),
      CappedBy process.marks index type limit →
      1 ≤ limit →
      ∃ value,
        process.crest.si.ex.inputs[index]? = some value ∧
          castTo value type ≤ limit

/-- What is still to be read is what the input file has. -/
def Unread (file : List Value) (process : MarkedProcess) : Prop :=
  ∀ index,
    process.crest.si.numInputs ≤ index →
    process.crest.si.ex.inputs[index]? = file[index]?

/-- `NewInputWithLimit` hands over at most its limit. -/
def HandsCapped (process : MarkedProcess) (call : TargetCall) : Prop :=
  match call.event? with
  | some event@(.newInputWithLimit type _ limit _ _) =>
      1 ≤ limit → castTo (process.crest.si.returned event) type ≤ limit
  | _ => True

/-- No value of a type exceeds a limit. -/
def NeverExceeds (type : CType) (limit : Value) : Prop :=
  type.narrow = true ∧ type.maxValue ≤ limit

/-- A broadcast value that process 0 draws for the type below the limit. -/
def DrawnFor (type : CType) (limit broadcast : Value) : Prop :=
  ∃ draw : Nat, ∃ bound : Value,
    1 ≤ bound ∧ bound ≤ limit ∧
      broadcast = castTo (Int.tmod draw bound) type

/--
What a call has to heed: a capped variable that the input file has a value for
was promised a value within the limit, a value from a broadcast was drawn for
the same type below the limit, and only ranks in other communicators are
patched.
-/
def Heeds
    (promised : Nat → CType → Value → Prop)
    (process : MarkedProcess)
    (call : TargetCall) : Prop :=
  (call.patches = true →
      ∃ marking,
        process.marks.getLast? = some marking ∧
          marking.list = some .rankNonDefaultComm) ∧
    match call.event? with
    | some (.newInputWithLimit type _ limit _ broadcast) =>
        1 ≤ limit →
        NeverExceeds type limit ∨
          if process.crest.si.numInputs <
              process.crest.si.ex.inputs.length then
            promised process.crest.si.numInputs type limit
          else
            process.crest.si.rank = 0 ∨ DrawnFor type limit broadcast
    | _ => True

/-- The promises of a file are kept by what is in it. -/
def KeepsPromises
    (promised : Nat → CType → Value → Prop)
    (file : List Value) : Prop :=
  ∀ index type limit,
    promised index type limit →
    ∀ value, file[index]? = some value → castTo value type ≤ limit

section Steps

variable {process next : MarkedProcess} {file : List Value}

theorem tracks_start
    (file : List Value)
    (execTimes : Nat)
    (rank targetRank worldSize : Int) :
    (start file execTimes rank targetRank worldSize).Tracks where
  numInputs := rfl
  vars := by
    intro index marking isMarked
    cases isMarked
  limits := by
    intro index marking isMarked
    cases isMarked
  lists := by
    intro list index member
    cases list <;> cases member
  values := by
    rintro index type limit ⟨marking, isMarked, _⟩
    cases isMarked

theorem unread_start
    (file : List Value)
    (execTimes : Nat)
    (rank targetRank worldSize : Int) :
    (start file execTimes rank targetRank worldSize).Unread file :=
  fun _ _ => rfl

/-- Heeding the promises of the file hands over capped values. -/
theorem handsCapped_of_heeds
    {promised : Nat → CType → Value → Prop}
    (keeps : KeepsPromises promised file)
    (unread : process.Unread file)
    {call : TargetCall}
    (heeds : process.Heeds promised call) :
    process.HandsCapped call := by
  unfold HandsCapped
  split
  · next event type addr limit draw broadcast isEvent =>
      intro positive
      obtain ⟨_, asked⟩ := heeds
      rw [isEvent] at asked
      rcases asked positive with ⟨narrow, below⟩ | asked
      · exact Int.le_trans (castTo_le_maxValue narrow _) below
      · split at asked
        · next inside =>
            have given := List.getElem?_eq_getElem inside
            have fromFile := unread _ le_rfl
            rw [given] at fromFile
            unfold returned
            rw [given]
            exact keeps _ _ _ asked _ fromFile.symm
        · next outside =>
            have absent := List.getElem?_eq_none (not_lt.mp outside)
            unfold returned generated
            rw [absent]
            dsimp only [Option.map_none, Option.getD_none]
            rcases asked with isRoot | ⟨drawn, bound, atLeast, within, rfl⟩
            · rw [if_pos isRoot]
              exact castTo_drawn_le positive draw type
            · split
              · exact castTo_drawn_le positive draw type
              · exact Int.le_trans (castTo_drawn_le atLeast drawn type)
                  within
  · trivial

theorem lt_of_marked
    {marks : List Marking}
    {marking : Marking}
    {index : Nat}
    (isMarked : marks[index]? = some marking) :
    index < marks.length :=
  (List.getElem?_eq_some_iff.mp isMarked).1

/-- A capped variable is marked by `NewInputWithLimit` and returns its value. -/
theorem HandsCapped.returned
    {call : TargetCall}
    (hands : process.HandsCapped call)
    {event : Event}
    {marking : Marking}
    (isEvent : call.event? = some event)
    (isMarking : event.marking = some marking)
    {limit : Value}
    (isLimit : marking.limit = some limit)
    (unlisted : marking.list = none)
    (positive : 1 ≤ limit) :
    castTo (process.crest.si.returned event) marking.type ≤ limit := by
  unfold HandsCapped at hands
  rw [isEvent] at hands
  cases event with
  | newInputWithLimit type addr bound draw broadcast =>
      obtain rfl := Option.some.inj isMarking
      obtain rfl := Option.some.inj isLimit
      exact hands positive
  | newInput =>
      obtain rfl := Option.some.inj isMarking
      cases isLimit
  | newInputRank | newInputRankNonDefaultComm | newInputWorldSize =>
      obtain rfl := Option.some.inj isMarking
      cases isLimit
  | newInputWorldSizeWithLimit =>
      obtain rfl := Option.some.inj isMarking
      cases unlisted
  | _ => cases isMarking

/-- A marking call records its variable after those before. -/
theorem Tracks.records
    (tracks : process.Tracks)
    (indexed :
      Indexed process.crest.si.numInputs process.crest.si.ex)
    {marking : Marking}
    {value : Value}
    (records : Records process.crest.si marking value next.crest.si)
    (marks : next.marks = process.marks ++ [marking])
    (capped :
      ∀ limit,
        marking.limit = some limit →
        marking.list = none →
        1 ≤ limit →
        castTo value marking.type ≤ limit) :
    next.Tracks := by
  have isNew :
      ∀ {index : Nat},
        index = process.marks.length →
        index = process.crest.si.numInputs :=
    fun same => same.trans tracks.numInputs.symm
  have isOld :
      ∀ {index : Nat} {other : Marking},
        process.marks[index]? = some other →
        index ≠ process.crest.si.numInputs := by
    intro index other isMarked
    rw [tracks.numInputs]
    exact Nat.ne_of_lt (lt_of_marked isMarked)
  constructor
  · rw [records.numInputs, marks, List.length_append, List.length_singleton,
      tracks.numInputs]
  · intro index other isMarked
    rw [marks] at isMarked
    rw [records.vars, Std.ExtTreeMap.getElem?_insertIfNew]
    rcases getElem?_concat_cases isMarked with old | ⟨same, rfl⟩
    · rw [if_neg]
      · exact tracks.vars index other old
      · rintro ⟨same, _⟩
        exact isOld old (Std.LawfulEqOrd.compare_eq_iff_eq.mp same).symm
    · rw [if_pos]
      refine ⟨Std.LawfulEqOrd.compare_eq_iff_eq.mpr (isNew same).symm, ?_⟩
      intro member
      rw [← Std.ExtTreeMap.mem_keys, indexed.keys, List.mem_range] at member
      exact lt_irrefl _ member
  · intro index other isMarked unlisted
    rw [marks] at isMarked
    rw [records.limits]
    unfold limitsAfter
    rcases getElem?_concat_cases isMarked with old | ⟨same, rfl⟩
    · have apart : (index : Id) ≠ (process.crest.si.numInputs : Id) :=
        fun same => isOld old (Int.ofNat.inj same)
      split
      · rw [AList.lookup_insert_ne apart]
        exact tracks.limits index other old unlisted
      · exact tracks.limits index other old unlisted
    · rw [isNew same]
      split
      · next limit isLimit =>
          rw [AList.lookup_insert, isLimit]
      · next noLimit =>
          rw [noLimit, AList.lookup_eq_none]
          intro member
          exact lt_irrefl _ (indexed.limits _ member).2
  · intro list index member
    rw [records.of_list] at member
    rw [marks]
    rcases mem_listAfter member with old | ⟨isListed, isLast⟩
    · obtain ⟨other, isMarked, isList⟩ := tracks.lists list index old
      refine ⟨other, ?_, isList⟩
      rw [List.getElem?_append_left (lt_of_marked isMarked)]
      exact isMarked
    · refine ⟨marking, ?_, isListed⟩
      rw [Int.ofNat.inj isLast, tracks.numInputs]
      exact List.getElem?_concat_length
  · rintro index type limit ⟨other, isMarked, rfl, isLimit, unlisted⟩ positive
    rw [marks] at isMarked
    rw [records.inputs]
    rcases getElem?_concat_cases isMarked with old | ⟨same, rfl⟩
    · rw [getElem?_inputsAfter_old indexed.covered (isOld old)]
      exact tracks.values index other.type limit
        ⟨other, old, rfl, isLimit, unlisted⟩ positive
    · rw [isNew same, getElem?_inputsAfter_new indexed.covered]
      exact ⟨value, rfl, capped limit isLimit unlisted positive⟩

/-- A call that leaves the variables alone. -/
theorem Tracks.leaves
    (tracks : process.Tracks)
    (leaves : Crest.LeavesVariables process.crest next.crest)
    (marks : next.marks = process.marks) :
    next.Tracks := by
  have lists :
      ∀ list : IndexList,
        list.of next.crest.si.ex = list.of process.crest.si.ex := by
    intro list
    rw [leaves.ex]
    cases list <;> rfl
  constructor
  · rw [leaves.numInputs, marks]
    exact tracks.numInputs
  · rw [marks, leaves.ex]
    exact tracks.vars
  · rw [marks, leaves.ex]
    exact tracks.limits
  · intro list index member
    rw [lists] at member
    rw [marks]
    exact tracks.lists list index member
  · rw [marks, leaves.ex]
    exact tracks.values

/-- A patch of a rank in another communicator. -/
theorem Tracks.patch
    (tracks : process.Tracks)
    (marked : 0 < process.crest.si.numInputs)
    {last : Marking}
    (isLast : process.marks.getLast? = some last)
    (isRank : last.list = some .rankNonDefaultComm)
    {here : Circumstances}
    {addr : Cil.Exp}
    (patched :
      next.crest = process.crest.rankNonDefaultComm2 here addr)
    (marks : next.marks = process.marks) :
    next.Tracks := by
  have positive : 0 < process.marks.length := tracks.numInputs ▸ marked
  have lastIndex :
      process.marks[process.crest.si.numInputs - 1]? = some last := by
    rw [tracks.numInputs, ← List.getLast?_eq_getElem?]
    exact isLast
  have elsewhere :
      ∀ {index : Nat} {marking : Marking},
        process.marks[index]? = some marking →
        marking.list = none →
        index ≠ process.crest.si.numInputs - 1 := by
    rintro index marking isMarked unlisted rfl
    rw [lastIndex] at isMarked
    obtain rfl := Option.some.inj isMarked
    rw [isRank] at unlisted
    cases unlisted
  unfold Crest.rankNonDefaultComm2 at patched
  split at patched
  · exact tracks.leaves (by rw [patched]; exact ⟨rfl, rfl⟩) marks
  · split at patched
    · constructor
      · rw [patched, marks]
        exact tracks.numInputs
      · rw [patched, marks]
        exact tracks.vars
      · intro index marking isMarked unlisted
        rw [marks] at isMarked
        have apart := elsewhere isMarked unlisted
        have apartIds :
            (index : Id) ≠ ((process.crest.si.numInputs - 1 : Nat) : Id) :=
          fun same => apart (Int.ofNat.inj same)
        rw [patched]
        exact (AList.lookup_insert_ne apartIds).trans
          (tracks.limits index marking isMarked unlisted)
      · intro list index member
        rw [marks]
        apply tracks.lists list index
        rw [patched] at member
        cases list <;> exact member
      · rintro index type limit ⟨marking, isMarked, facts⟩ atLeast
        rw [marks] at isMarked
        have apart := elsewhere isMarked facts.2.2
        rw [patched]
        dsimp only
        rw [List.getElem?_set_ne apart.symm]
        exact tracks.values index type limit ⟨marking, isMarked, facts⟩
          atLeast
    · exact tracks.leaves (by rw [patched]; exact ⟨rfl, rfl⟩) marks

/-- What is still unread after a call. -/
theorem Unread.step
    (unread : process.Unread file)
    (indexed : Indexed process.crest.si.numInputs process.crest.si.ex)
    {call : TargetCall}
    (stepped : process.crest.step call = some next.crest) :
    next.Unread file := by
  cases Crest.effect_of_step stepped with
  | marks event marking isEvent isMarking stepped =>
      have records := records_of_step isMarking stepped
      intro index unreadIndex
      rw [records.numInputs] at unreadIndex
      rw [records.inputs,
        getElem?_inputsAfter_old indexed.covered
          (Nat.ne_of_gt unreadIndex)]
      exact unread index (Nat.le_of_succ_le unreadIndex)
  | patches unmarked isPatch marked here addr isNext =>
      intro index unreadIndex
      rw [isNext] at unreadIndex ⊢
      unfold Crest.rankNonDefaultComm2 at unreadIndex ⊢
      split at unreadIndex
      · rw [if_pos ‹_›]
        exact unread index unreadIndex
      · rw [if_neg ‹_›]
        split at unreadIndex
        · rw [if_pos ‹_›]
          dsimp only at unreadIndex ⊢
          rw [List.getElem?_set_ne (by omega)]
          exact unread index unreadIndex
        · rw [if_neg ‹_›]
          exact unread index unreadIndex
  | leaves unmarked leaves =>
      intro index unreadIndex
      rw [leaves.numInputs] at unreadIndex
      rw [leaves.ex]
      exact unread index unreadIndex

/-- A call that heeds the promises keeps the record that of the calls. -/
theorem Tracks.step
    {promised : Nat → CType → Value → Prop}
    (tracks : process.Tracks)
    (indexed : Indexed process.crest.si.numInputs process.crest.si.ex)
    {call : TargetCall}
    (heeds : process.Heeds promised call)
    (hands : process.HandsCapped call)
    (stepped : process.step call = some next) :
    next.Tracks := by
  obtain ⟨crest, crestStepped, rfl⟩ := Option.map_eq_some_iff.mp stepped
  cases Crest.effect_of_step crestStepped with
  | marks event marking isEvent isMarking eventStepped =>
      have isMarked : call.marking? = some marking := by
        rw [TargetCall.marking?, isEvent, Option.bind_some, isMarking]
      refine tracks.records indexed (records_of_step isMarking eventStepped)
        (by rw [isMarked]; rfl) ?_
      intro limit isLimit unlisted positive
      exact hands.returned isEvent isMarking isLimit unlisted positive
  | patches unmarked isPatch marked here addr isNext =>
      obtain ⟨last, isLast, isRank⟩ := heeds.1 isPatch
      exact tracks.patch marked isLast isRank isNext
        (by rw [unmarked]; exact List.append_nil _)
  | leaves unmarked leaves =>
      exact tracks.leaves leaves
        (by rw [unmarked]; exact List.append_nil _)

end Steps

section Runs

variable {file : List Value} {promised : Nat → CType → Value → Prop}

/-- What holds of a process while it heeds the promises of the file. -/
structure Kept (file : List Value) (process : MarkedProcess) : Prop where
  markedOnly : process.crest.si.MarkedOnly
  tracks : process.Tracks
  unread : process.Unread file

theorem kept_start
    (file : List Value)
    (execTimes : Nat)
    (rank targetRank worldSize : Int) :
    (start file execTimes rank targetRank worldSize).Kept file where
  markedOnly := markedOnly_fresh file execTimes rank targetRank worldSize
  tracks := tracks_start file execTimes rank targetRank worldSize
  unread := unread_start file execTimes rank targetRank worldSize

theorem Kept.step
    (keeps : KeepsPromises promised file)
    {process next : MarkedProcess}
    {call : TargetCall}
    (kept : process.Kept file)
    (heeds : process.Heeds promised call)
    (stepped : process.step call = some next) :
    next.Kept file := by
  have hands := handsCapped_of_heeds keeps kept.unread heeds
  have tracks :=
    kept.tracks.step kept.markedOnly.record heeds hands stepped
  obtain ⟨crest, crestStepped, rfl⟩ := Option.map_eq_some_iff.mp stepped
  exact
    { markedOnly := Crest.markedOnly_step kept.markedOnly crestStepped
      tracks := tracks
      unread := kept.unread.step kept.markedOnly.record crestStepped }

/-- A process that heeds the promises of its file hands over capped values. -/
theorem along_handsCapped
    (keeps : KeepsPromises promised file)
    {process : MarkedProcess}
    (kept : process.Kept file)
    {calls : List TargetCall}
    (heeds : PartialRun.Along MarkedProcess.step (Heeds promised) process calls) :
    PartialRun.Along MarkedProcess.step HandsCapped process calls :=
  PartialRun.along_of_invariant
    (fun kept heeds stepped => kept.step keeps heeds stepped)
    (fun kept heeds => handsCapped_of_heeds keeps kept.unread heeds)
    kept heeds

/-- The record at the end of such a run is that of its calls. -/
theorem Kept.run
    (keeps : KeepsPromises promised file)
    {process final : MarkedProcess}
    (kept : process.Kept file)
    {calls : List TargetCall}
    (heeds : PartialRun.Along MarkedProcess.step (Heeds promised) process calls)
    (ran : PartialRun.run? MarkedProcess.step process calls = some final) :
    final.Kept file :=
  PartialRun.run?_invariant
    (fun kept heeds stepped => kept.step keeps heeds stepped)
    kept heeds ran

end Runs

end MarkedProcess

end Compi
