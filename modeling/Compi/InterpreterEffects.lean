import Compi.SymbolicInterpreter

/-!
# The effects of interpreter events

Each event changes a part of the interpreter.  Marking calls record a new
variable; the other events leave the recorded execution alone, up to its path.
-/

namespace Compi

namespace SymbolicInterpreter

/-- The path after an event. -/
def pathAfter (si : SymbolicInterpreter) : Event → SymbolicPath
  | .call _ => si.ex.path.pushReached kCallId
  | .returns => si.ex.path.pushReached kReturnId
  | .branch bid predValue =>
      si.ex.path.push bid (si.branchConstraint predValue)
        (if predValue then .true else .false)
  | .branchOnly bid => si.ex.path.pushReached bid
  | _ => si.ex.path

/-- Everything but the path, the stack, the memory and the registers is kept. -/
structure KeepsRecord (si next : SymbolicInterpreter) : Prop where
  ex : next.ex = { si.ex with path := next.ex.path }
  numInputs : next.numInputs = si.numInputs
  worldSize : next.worldSize = si.worldSize
  rank : next.rank = si.rank
  targetRank : next.targetRank = si.targetRank

/-- The lists of variables that are marked for MPI. -/
inductive IndexList where
  | rank
  | rankNonDefaultComm
  | worldSize
  deriving DecidableEq

/-- The entries of a list of an execution. -/
def IndexList.of
    (ex : SymbolicExecution) : IndexList → List Id
  | rank => ex.rankIndices
  | rankNonDefaultComm => ex.rankNonDefaultCommIndices
  | worldSize => ex.worldSizeIndices

/-- Enter a variable in a list. -/
def IndexList.enter
    (index : Id)
    (ex : SymbolicExecution) : IndexList → SymbolicExecution
  | rank => { ex with rankIndices := ex.rankIndices ++ [index] }
  | rankNonDefaultComm =>
      { ex with
        rankNonDefaultCommIndices := ex.rankNonDefaultCommIndices ++ [index] }
  | worldSize =>
      { ex with worldSizeIndices := ex.worldSizeIndices ++ [index] }

/-- What a marking call records of its variable. -/
structure Marking where
  type : CType
  addr : Addr
  limit : Option Value
  list : Option IndexList
  deriving DecidableEq

/-- What an event records, if it is a marking call. -/
def Event.marking : Event → Option Marking
  | .newInput type addr _ _ _ =>
      some { type := type, addr := addr, limit := none, list := none }
  | .newInputWithLimit type addr limit _ _ =>
      some { type := type, addr := addr, limit := some limit, list := none }
  | .newInputRank type addr =>
      some { type := type, addr := addr, limit := none, list := some .rank }
  | .newInputRankNonDefaultComm type addr =>
      some
        { type := type
          addr := addr
          limit := none
          list := some .rankNonDefaultComm }
  | .newInputWorldSize type addr =>
      some
        { type := type, addr := addr, limit := none, list := some .worldSize }
  | .newInputWorldSizeWithLimit type addr limit =>
      some
        { type := type
          addr := addr
          limit := some limit
          list := some .worldSize }
  | _ => none

/-- What a marking call makes of a value in the input file. -/
def fromFile (si : SymbolicInterpreter) (event : Event) (given : Value) : Value :=
  match event with
  | .newInputRank type _ => castTo si.rank type
  | _ => given

/-- What a marking call returns if the input file has no value for it. -/
def generated (si : SymbolicInterpreter) : Event → Value
  | .newInput type _ limit draw broadcast =>
      if si.rank = 0 then castTo (Int.tmod draw limit) type else broadcast
  | .newInputWithLimit type _ limit draw broadcast =>
      if si.rank = 0 then castTo (Int.tmod draw limit) type else broadcast
  | .newInputRank type _ => castTo si.rank type
  | .newInputRankNonDefaultComm type _ => castTo 0 type
  | .newInputWorldSize type _ => castTo si.worldSize type
  | .newInputWorldSizeWithLimit type _ _ => castTo si.worldSize type
  | _ => 0

/-- What a marking call returns. -/
def returned (si : SymbolicInterpreter) (event : Event) : Value :=
  ((si.ex.inputs[si.numInputs]?).map (si.fromFile event)).getD
    (si.generated event)

/-- An index list after a marking call of the process under test. -/
def listAfter
    (si : SymbolicInterpreter)
    (marking : Marking)
    (list : IndexList)
    (indices : List Id) : List Id :=
  if si.targetRank = si.rank ∧ marking.list = some list then
    indices ++ [(si.numInputs : Id)]
  else
    indices

/-- The limits after a marking call. -/
def limitsAfter
    (si : SymbolicInterpreter)
    (marking : Marking) : UnorderedMap Id Value :=
  match marking.limit with
  | some limit => si.ex.limits.insert si.numInputs limit
  | none => si.ex.limits

/-- The inputs after a marking call that returns a value. -/
def inputsAfter (si : SymbolicInterpreter) (ret : Value) : List Value :=
  if si.numInputs < si.ex.inputs.length then
    si.ex.inputs.set si.numInputs ret
  else
    si.ex.inputs ++ [ret]

/-- The effect of a marking call that returns a value. -/
structure Records
    (si : SymbolicInterpreter)
    (marking : Marking)
    (ret : Value)
    (next : SymbolicInterpreter) : Prop where
  mem : next.mem = si.mem.insert marking.addr (.ofTerm 1 si.numInputs)
  stack : next.stack = si.stack
  pred : next.pred = si.pred
  returnValue : next.returnValue = si.returnValue
  numInputs : next.numInputs = si.numInputs + 1
  worldSize : next.worldSize = si.worldSize
  rank : next.rank = si.rank
  targetRank : next.targetRank = si.targetRank
  path : next.ex.path = si.ex.path
  executionTag : next.ex.executionTag = si.ex.executionTag
  vars : next.ex.vars = si.ex.vars.insertIfNew si.numInputs marking.type
  inputs : next.ex.inputs = si.inputsAfter ret
  limits : next.ex.limits = si.limitsAfter marking
  rankIndices :
    next.ex.rankIndices = si.listAfter marking .rank si.ex.rankIndices
  rankNonDefaultCommIndices :
    next.ex.rankNonDefaultCommIndices =
      si.listAfter marking .rankNonDefaultComm
        si.ex.rankNonDefaultCommIndices
  rankNonDefaultCommMap :
    next.ex.rankNonDefaultCommMap = si.ex.rankNonDefaultCommMap
  worldSizeIndices :
    next.ex.worldSizeIndices =
      si.listAfter marking .worldSize si.ex.worldSizeIndices

section Inputs

variable {si : SymbolicInterpreter}

theorem length_inputsAfter
    (covered : si.numInputs ≤ si.ex.inputs.length)
    (value : Value) :
    (si.inputsAfter value).length =
      max si.ex.inputs.length (si.numInputs + 1) := by
  unfold inputsAfter
  split
  · rw [List.length_set]
    omega
  · rw [List.length_append, List.length_singleton]
    omega

/-- A marking call leaves the other inputs alone. -/
theorem getElem?_inputsAfter_old
    (covered : si.numInputs ≤ si.ex.inputs.length)
    {index : Nat}
    (isOld : index ≠ si.numInputs)
    (value : Value) :
    (si.inputsAfter value)[index]? = si.ex.inputs[index]? := by
  unfold inputsAfter
  split
  · exact List.getElem?_set_ne isOld.symm
  · next outside =>
      rw [le_antisymm covered (not_lt.mp outside)] at isOld
      rw [List.getElem?_append]
      split
      · rfl
      · next beyond =>
          rw [List.getElem?_eq_none (not_lt.mp beyond)]
          apply List.getElem?_eq_none
          rw [List.length_singleton]
          omega

theorem getElem?_inputsAfter_new
    (covered : si.numInputs ≤ si.ex.inputs.length)
    (value : Value) :
    (si.inputsAfter value)[si.numInputs]? = some value := by
  unfold inputsAfter
  split
  · next inside =>
      exact List.getElem?_set_self inside
  · next outside =>
      rw [le_antisymm covered (not_lt.mp outside)]
      exact List.getElem?_concat_length

end Inputs

section Effects

variable {si next : SymbolicInterpreter} {event : Event}

/-- Operations on the stack leave the record alone. -/
theorem KeepsRecord.of_ex
    (ex : next.ex = si.ex)
    (numInputs : next.numInputs = si.numInputs)
    (worldSize : next.worldSize = si.worldSize)
    (rank : next.rank = si.rank)
    (targetRank : next.targetRank = si.targetRank) :
    KeepsRecord si next ∧ next.ex.path = si.ex.path := by
  refine ⟨⟨?_, numInputs, worldSize, rank, targetRank⟩, ?_⟩
  · rw [ex]
  · rw [ex]

theorem keepsRecord_store
    {addr : Addr}
    (stepped : si.store addr = some next) :
    KeepsRecord si next ∧ next.ex.path = si.ex.path := by
  unfold store at stepped
  split at stepped
  · cases stepped
  · obtain rfl := Option.some.inj stepped
    exact KeepsRecord.of_ex rfl rfl rfl rfl rfl

theorem keepsRecord_applyUnaryOp
    {op : UnaryOp}
    {value : Value}
    (stepped : si.applyUnaryOp op value = some next) :
    KeepsRecord si next ∧ next.ex.path = si.ex.path := by
  unfold applyUnaryOp at stepped
  split at stepped
  · cases stepped
  · split at stepped
    all_goals
      obtain rfl := Option.some.inj stepped
      exact KeepsRecord.of_ex rfl rfl rfl rfl rfl

theorem keepsRecord_applyBinaryOp
    {op : BinaryOp}
    {value : Value}
    (stepped : si.applyBinaryOp op value = some next) :
    KeepsRecord si next ∧ next.ex.path = si.ex.path := by
  unfold applyBinaryOp at stepped
  split at stepped
  · obtain rfl := Option.some.inj stepped
    exact KeepsRecord.of_ex rfl rfl rfl rfl rfl
  · cases stepped

theorem keepsRecord_applyCompareOp
    {op : CompareOp}
    {value : Value}
    (stepped : si.applyCompareOp op value = some next) :
    KeepsRecord si next ∧ next.ex.path = si.ex.path := by
  unfold applyCompareOp at stepped
  split at stepped
  · obtain rfl := Option.some.inj stepped
    exact KeepsRecord.of_ex rfl rfl rfl rfl rfl
  · cases stepped

theorem keepsRecord_handleReturn
    {value : Value}
    (stepped : si.handleReturn value = some next) :
    KeepsRecord si next ∧ next.ex.path = si.ex.path := by
  unfold handleReturn at stepped
  split at stepped
  · split at stepped
    · obtain rfl := Option.some.inj stepped
      exact KeepsRecord.of_ex rfl rfl rfl rfl rfl
    · cases stepped
  · obtain rfl := Option.some.inj stepped
    exact KeepsRecord.of_ex rfl rfl rfl rfl rfl

theorem keepsRecord_returns
    (stepped : si.returns = some next) :
    KeepsRecord si next ∧
      next.ex.path = si.ex.path.pushReached kReturnId := by
  unfold returns at stepped
  split at stepped
  · obtain rfl := Option.some.inj stepped
    exact ⟨⟨rfl, rfl, rfl, rfl, rfl⟩, rfl⟩
  · cases stepped

/-- An event that marks nothing changes at most the path of the record. -/
theorem keepsRecord_of_step
    (unmarked : event.marking = none)
    (stepped : si.step event = some next) :
    KeepsRecord si next ∧ next.ex.path = si.pathAfter event := by
  cases event with
  | clearStack | load =>
      obtain rfl := Option.some.inj stepped
      exact KeepsRecord.of_ex rfl rfl rfl rfl rfl
  | call | branch | branchOnly =>
      obtain rfl := Option.some.inj stepped
      exact ⟨⟨rfl, rfl, rfl, rfl, rfl⟩, rfl⟩
  | store addr => exact keepsRecord_store stepped
  | applyUnaryOp op value => exact keepsRecord_applyUnaryOp stepped
  | applyBinaryOp op value => exact keepsRecord_applyBinaryOp stepped
  | applyCompareOp op value => exact keepsRecord_applyCompareOp stepped
  | handleReturn value => exact keepsRecord_handleReturn stepped
  | returns => exact keepsRecord_returns stepped
  | _ => cases unmarked

theorem listAfter_unlisted
    (si : SymbolicInterpreter)
    {marking : Marking}
    (unlisted : marking.list = none)
    (list : IndexList)
    (indices : List Id) :
    si.listAfter marking list indices = indices := by
  unfold listAfter
  rw [unlisted, if_neg]
  rintro ⟨_, impossible⟩
  cases impossible

theorem IndexList.of_enter
    (index : Id)
    (ex : SymbolicExecution)
    (entered list : IndexList) :
    list.of (entered.enter index ex) =
      if some entered = some list then list.of ex ++ [index]
      else list.of ex := by
  cases entered <;> cases list <;> rfl

/-- What the marking calls share, for a variable in no list. -/
theorem records_takeInput
    (si : SymbolicInterpreter)
    (type : CType)
    (addr : Addr)
    (fromFile : Value → Value)
    (generated : Value) :
    Records si { type := type, addr := addr, limit := none, list := none }
      (((si.ex.inputs[si.numInputs]?).map fromFile).getD generated)
      (si.takeInput type addr fromFile generated).2 := by
  refine
    { mem := rfl
      stack := rfl
      pred := rfl
      returnValue := rfl
      numInputs := rfl
      worldSize := rfl
      rank := rfl
      targetRank := rfl
      path := rfl
      executionTag := rfl
      vars := rfl
      inputs := ?_
      limits := rfl
      rankIndices := (si.listAfter_unlisted rfl _ _).symm
      rankNonDefaultCommIndices := (si.listAfter_unlisted rfl _ _).symm
      rankNonDefaultCommMap := rfl
      worldSizeIndices := (si.listAfter_unlisted rfl _ _).symm }
  unfold takeInput inputsAfter
  by_cases given : si.numInputs < si.ex.inputs.length
  · rw [if_pos given, List.getElem?_eq_getElem given]
    rfl
  · rw [if_neg given, List.getElem?_eq_none (Nat.le_of_not_lt given)]
    rfl

theorem takeInput_fst
    (si : SymbolicInterpreter)
    (type : CType)
    (addr : Addr)
    (fromFile : Value → Value)
    (generated : Value) :
    (si.takeInput type addr fromFile generated).1 =
      ((si.ex.inputs[si.numInputs]?).map fromFile).getD generated := by
  unfold takeInput
  cases si.ex.inputs[si.numInputs]? with
  | none => rfl
  | some given => rfl

/-- The lists after a marking call. -/
theorem Records.of_list
    {marking : Marking}
    {ret : Value}
    (records : Records si marking ret next)
    (list : IndexList) :
    list.of next.ex = si.listAfter marking list (list.of si.ex) := by
  cases list with
  | rank => exact records.rankIndices
  | rankNonDefaultComm => exact records.rankNonDefaultCommIndices
  | worldSize => exact records.worldSizeIndices

/-- A marking call of the process under test may enter a list. -/
theorem Records.enter
    {type : CType}
    {addr : Addr}
    {ret : Value}
    (records :
      Records si { type := type, addr := addr, limit := none, list := none }
        ret next)
    (list : IndexList) :
    Records si
      { type := type, addr := addr, limit := none, list := some list } ret
      (next.recordIfTarget fun ex => list.enter si.numInputs ex) := by
  have before : ∀ other : IndexList, other.of next.ex = other.of si.ex := by
    intro other
    rw [records.of_list, si.listAfter_unlisted rfl]
  have lists :
      ∀ other : IndexList,
        other.of
            (next.recordIfTarget fun ex => list.enter si.numInputs ex).ex =
          si.listAfter
            { type := type, addr := addr, limit := none, list := some list }
            other (other.of si.ex) := by
    intro other
    unfold recordIfTarget listAfter
    rw [records.targetRank, records.rank]
    by_cases isTarget : si.targetRank = si.rank
    · rw [if_pos isTarget, IndexList.of_enter, before]
      simp [isTarget]
    · rw [if_neg isTarget, before]
      simp [isTarget]
  have ranks := lists .rank
  have nonDefault := lists .rankNonDefaultComm
  have sizes := lists .worldSize
  unfold recordIfTarget at ranks nonDefault sizes ⊢
  split at ranks
  · next isTarget =>
      rw [if_pos isTarget] at nonDefault sizes ⊢
      cases list
      all_goals
        exact
          { records with
            rankIndices := ranks
            rankNonDefaultCommIndices := nonDefault
            worldSizeIndices := sizes }
  · next notTarget =>
      rw [if_neg notTarget] at nonDefault sizes ⊢
      exact
        { records with
          rankIndices := ranks
          rankNonDefaultCommIndices := nonDefault
          worldSizeIndices := sizes }

/-- A marking call with a limit records it first. -/
theorem Records.of_setLimit
    {type : CType}
    {addr : Addr}
    {limit ret : Value}
    {list : Option IndexList}
    (records :
      Records (si.setLimit limit)
        { type := type, addr := addr, limit := none, list := list } ret
        next) :
    Records si
      { type := type, addr := addr, limit := some limit, list := list } ret
      next :=
  { records with
    vars := records.vars
    inputs := records.inputs
    limits := records.limits
    rankIndices := records.rankIndices
    rankNonDefaultCommIndices := records.rankNonDefaultCommIndices
    worldSizeIndices := records.worldSizeIndices }

/-- `NewInput` records its variable. -/
theorem records_newInput
    {type : CType}
    {addr : Addr}
    {limit : Value}
    {draw : Nat}
    {broadcast : Value}
    {marked : Value × SymbolicInterpreter}
    (taken : si.newInput type addr limit draw broadcast = some marked) :
    marked.1 = si.returned (.newInput type addr limit draw broadcast) ∧
      Records si { type := type, addr := addr, limit := none, list := none }
        (si.returned (.newInput type addr limit draw broadcast)) marked.2 := by
  unfold newInput at taken
  split at taken
  · cases taken
  · obtain rfl := Option.some.inj taken
    exact ⟨takeInput_fst si type addr id _,
      records_takeInput si type addr id _⟩

/-- What a marking call returns and records. -/
theorem records_of_marking
    {marking : Marking}
    {marked : Value × SymbolicInterpreter}
    (marks : event.marking = some marking)
    (isMarked : (si.marking? event).bind Prod.snd = some marked) :
    marked.1 = si.returned event ∧
      Records si marking (si.returned event) marked.2 := by
  cases event with
  | newInput type addr limit draw broadcast =>
      obtain rfl := Option.some.inj marks
      exact records_newInput isMarked
  | newInputWithLimit type addr limit draw broadcast =>
      obtain rfl := Option.some.inj marks
      obtain ⟨isRet, records⟩ := records_newInput isMarked
      exact ⟨isRet, records.of_setLimit⟩
  | newInputRank type addr =>
      obtain rfl := Option.some.inj marks
      obtain rfl := Option.some.inj isMarked
      exact ⟨takeInput_fst si type addr _ _,
        (records_takeInput si type addr _ _).enter .rank⟩
  | newInputRankNonDefaultComm type addr =>
      obtain rfl := Option.some.inj marks
      obtain rfl := Option.some.inj isMarked
      exact ⟨takeInput_fst si type addr _ _,
        (records_takeInput si type addr _ _).enter .rankNonDefaultComm⟩
  | newInputWorldSize type addr =>
      obtain rfl := Option.some.inj marks
      obtain rfl := Option.some.inj isMarked
      exact ⟨takeInput_fst si type addr _ _,
        (records_takeInput si type addr _ _).enter .worldSize⟩
  | newInputWorldSizeWithLimit type addr limit =>
      obtain rfl := Option.some.inj marks
      obtain rfl := Option.some.inj isMarked
      exact ⟨takeInput_fst (si.setLimit limit) type addr _ _,
        ((records_takeInput _ type addr _ _).enter
          .worldSize).of_setLimit⟩
  | _ => cases marks

/-- The events that mark something are those with a marked address. -/
theorem marking?_map_fst
    (si : SymbolicInterpreter)
    (event : Event) :
    (si.marking? event).map Prod.fst = event.marking.map Marking.addr := by
  cases event <;> rfl

theorem marking_of_marking?_eq_none
    (unmarked : si.marking? event = none) :
    event.marking = none := by
  have sameAddr := marking?_map_fst si event
  rw [unmarked] at sameAddr
  exact Option.map_eq_none_iff.mp sameAddr.symm

/-- A marking call steps to what it makes of its variable. -/
theorem step_of_marking?
    {addr : Addr}
    {result : Option (Value × SymbolicInterpreter)}
    (marks : si.marking? event = some (addr, result)) :
    si.step event = result.map Prod.snd := by
  have viaMarking :
      si.step event = ((si.marking? event).bind Prod.snd).map Prod.snd := by
    cases event <;> first | rfl | cases marks
  rw [viaMarking, marks]
  rfl

/-- A marking call records its variable. -/
theorem records_of_step
    {marking : Marking}
    (marks : event.marking = some marking)
    (stepped : si.step event = some next) :
    Records si marking (si.returned event) next := by
  have sameAddr := marking?_map_fst si event
  rw [marks] at sameAddr
  obtain ⟨⟨addr, result⟩, isMarking, _⟩ :=
    Option.map_eq_some_iff.mp sameAddr
  rw [step_of_marking? isMarking] at stepped
  obtain ⟨marked, isResult, rfl⟩ := Option.map_eq_some_iff.mp stepped
  have isMarked : (si.marking? event).bind Prod.snd = some marked := by
    rw [isMarking]
    exact isResult
  exact (records_of_marking marks isMarked).2

end Effects

end SymbolicInterpreter

end Compi
