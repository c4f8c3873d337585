import Compi.InterpreterEffects
import Mathlib.Data.List.Range
import Mathlib.Logic.Function.Basic

/-!
# Marking in lock-step

All processes of a job read the same input file and make the same marking
calls, each at its own pace.  A value that the file does not have is drawn by
process 0 and reaches the others by a broadcast, which every process has to
enter.  The broadcasts of process 0 are a list that the others read in order.
-/

namespace Compi

open SymbolicInterpreter

/-- A marking call without what is particular to a process. -/
inductive MarkingCall where
  | newInput (type : CType) (limit : Value)
  | newInputWithLimit (type : CType) (limit : Value)
  | newInputRank (type : CType)
  | newInputRankNonDefaultComm (type : CType)
  | newInputWorldSize (type : CType)
  | newInputWorldSizeWithLimit (type : CType) (limit : Value)
  deriving DecidableEq

namespace MarkingCall

/-- The call with an address, a draw and a broadcast value. -/
def event (addr : Addr) (draw : Nat) (broadcast : Value) :
    MarkingCall → Event
  | newInput type limit => .newInput type addr limit draw broadcast
  | newInputWithLimit type limit =>
      .newInputWithLimit type addr limit draw broadcast
  | newInputRank type => .newInputRank type addr
  | newInputRankNonDefaultComm type => .newInputRankNonDefaultComm type addr
  | newInputWorldSize type => .newInputWorldSize type addr
  | newInputWorldSizeWithLimit type limit =>
      .newInputWorldSizeWithLimit type addr limit

/-- Whether the call draws a value that the input file does not have. -/
def draws : MarkingCall → Bool
  | newInput _ _ => true
  | newInputWithLimit _ _ => true
  | _ => false

/-- The value that a call draws. -/
def drawn (draw : Nat) : MarkingCall → Value
  | newInput type limit => castTo (Int.tmod draw limit) type
  | newInputWithLimit type limit => castTo (Int.tmod draw limit) type
  | _ => 0

/-- Whether the call marks the rank in `MPI_COMM_WORLD`. -/
def isRank : MarkingCall → Bool
  | newInputRank _ => true
  | _ => false

/-- A limit that a value is drawn below is not zero. -/
def Drawable : MarkingCall → Prop
  | newInput _ limit => limit ≠ 0
  | newInputWithLimit _ limit => limit ≠ 0
  | _ => True

/--
What every process records in the call if the file has no value, given what is
broadcast; ranks have nothing in common.
-/
def common
    (worldSize : Nat)
    (broadcast : Option Value) : MarkingCall → Option Value
  | newInput _ _ => broadcast
  | newInputWithLimit _ _ => broadcast
  | newInputRank _ => none
  | newInputRankNonDefaultComm type => some (castTo 0 type)
  | newInputWorldSize type => some (castTo worldSize type)
  | newInputWorldSizeWithLimit type _ => some (castTo worldSize type)

/-- Whether a process enters the broadcast in the call. -/
def EntersBcast (call : MarkingCall) (si : SymbolicInterpreter) : Prop :=
  call.draws = true ∧ si.ex.inputs.length ≤ si.numInputs

instance (call : MarkingCall) (si : SymbolicInterpreter) :
    Decidable (call.EntersBcast si) :=
  inferInstanceAs (Decidable (_ ∧ _))

end MarkingCall

/-- A process, the calls it has made, and the broadcasts it has entered. -/
structure Process where
  si : SymbolicInterpreter
  position : Nat
  entered : Nat

/-- The processes of a job, and the values that process 0 has broadcast. -/
structure Job (size : Nat) where
  processes : Fin size → Process
  broadcasts : List Value

/-- The next call of a process, at an address and with a draw of its own. -/
structure Turn (size : Nat) where
  rank : Fin size
  addr : Addr
  draw : Nat

namespace Job

variable {size : Nat}

/-- The processes before their first calls. -/
def start
    (size : Nat)
    (input : List Value)
    (execTimes : Nat)
    (targetRank : Int) : Job size where
  processes := fun rank =>
    { si := fresh input execTimes (rank.val : Int) targetRank size
      position := 0
      entered := 0 }
  broadcasts := []

/-- The value that a process leaves a broadcast with, unless it has to wait. -/
def broadcast?
    (job : Job size)
    (turn : Turn size)
    (call : MarkingCall) : Option Value :=
  if turn.rank.val = 0 then
    some (call.drawn turn.draw)
  else
    job.broadcasts[(job.processes turn.rank).entered]?

/-- A process makes its next call; there is no step if it has to wait. -/
def step
    (calls : List MarkingCall)
    (job : Job size)
    (turn : Turn size) : Option (Job size) :=
  let process := job.processes turn.rank
  calls[process.position]?.bind fun call =>
    if call.EntersBcast process.si then
      (job.broadcast? turn call).bind fun value =>
        (process.si.step (call.event turn.addr turn.draw value)).map fun si =>
          { processes :=
              Function.update job.processes turn.rank
                { si := si
                  position := process.position + 1
                  entered := process.entered + 1 }
            broadcasts :=
              if turn.rank.val = 0 then
                job.broadcasts ++ [value]
              else
                job.broadcasts }
    else
      (process.si.step (call.event turn.addr turn.draw 0)).map fun si =>
        { job with
          processes :=
            Function.update job.processes turn.rank
              { si := si
                position := process.position + 1
                entered := process.entered } }

/-- Whether an index is marked as a rank by the first calls. -/
def MarkedAsRank
    (calls : List MarkingCall)
    (position index : Nat) : Prop :=
  index < position ∧ ∃ call, calls[index]? = some call ∧ call.isRank = true

/--
Two processes have marked as many variables and have as many inputs, enter the
same broadcasts, and have the same inputs but for ranks.
-/
structure InStep
    (calls : List MarkingCall)
    (process other : Process) : Prop where
  numInputs : process.si.numInputs = other.si.numInputs
  length : process.si.ex.inputs.length = other.si.ex.inputs.length
  entersBcast :
    ∀ call : MarkingCall,
      call.EntersBcast process.si ↔ call.EntersBcast other.si
  inputs :
    ∀ index,
      ¬MarkedAsRank calls process.position index →
      process.si.ex.inputs[index]? = other.si.ex.inputs[index]?

section Agreement

variable {calls : List MarkingCall} {input : List Value}

/-- Whether the call at an index enters a broadcast. -/
def entersAt
    (calls : List MarkingCall)
    (input : List Value)
    (index : Nat) : Bool :=
  decide (input.length ≤ index) && (calls[index]?).any MarkingCall.draws

/-- How many of the first calls enter a broadcast. -/
def entered
    (calls : List MarkingCall)
    (input : List Value)
    (position : Nat) : Nat :=
  (List.range position).countP (entersAt calls input)

/-- What all processes have as an input that is not a rank. -/
def agreed
    (size : Nat)
    (calls : List MarkingCall)
    (input broadcasts : List Value)
    (index : Nat) : Option Value :=
  input[index]?.or
    (calls[index]?.bind fun call =>
      call.common size broadcasts[entered calls input index]?)

theorem entered_succ (position : Nat) :
    entered calls input (position + 1) =
      entered calls input position +
        if entersAt calls input position then 1 else 0 := by
  unfold entered
  rw [List.range_succ, List.countP_append, List.countP_singleton]

theorem entered_mono
    {position later : Nat}
    (before : position ≤ later) :
    entered calls input position ≤ entered calls input later := by
  induction later, before using Nat.le_induction with
  | base => exact le_rfl
  | succ later before inductionHypothesis =>
      rw [entered_succ]
      omega

/-- What is agreed stays so when more values are broadcast. -/
theorem agreed_append
    {broadcasts more : List Value}
    {index : Nat}
    {value : Value}
    (isAgreed :
      agreed size calls input broadcasts index = some value) :
    agreed size calls input (broadcasts ++ more) index = some value := by
  unfold agreed at isAgreed ⊢
  cases given : input[index]? with
  | some fromFile =>
      rw [given] at isAgreed
      exact isAgreed
  | none =>
      rw [given, Option.none_or] at isAgreed
      rw [Option.none_or]
      obtain ⟨call, isCall, isCommon⟩ := Option.bind_eq_some_iff.mp isAgreed
      rw [isCall, Option.bind_some]
      cases call with
      | newInputRankNonDefaultComm | newInputWorldSize
        | newInputWorldSizeWithLimit => exact isCommon
      | newInputRank => cases isCommon
      | newInput | newInputWithLimit =>
          obtain ⟨inBounds, _⟩ := List.getElem?_eq_some_iff.mp isCommon
          exact (List.getElem?_append_left inBounds).trans isCommon

/-- Where a process is after its first calls. -/
structure Follows
    (calls : List MarkingCall)
    (input broadcasts : List Value)
    (rank : Fin size)
    (process : Process) : Prop where
  rank : process.si.rank = (rank.val : Int)
  worldSize : process.si.worldSize = size
  numInputs : process.si.numInputs = process.position
  length :
    process.si.ex.inputs.length = max input.length process.position
  entered : process.entered = entered calls input process.position
  broadcast : process.entered ≤ broadcasts.length
  inputs :
    ∀ index,
      ¬MarkedAsRank calls process.position index →
      index < process.si.ex.inputs.length →
      ∃ value,
        process.si.ex.inputs[index]? = some value ∧
          agreed size calls input broadcasts index = some value

variable {broadcasts more : List Value} {rank : Fin size} {process : Process}
  {call : MarkingCall}

theorem Follows.append
    (follows : Follows calls input broadcasts rank process)
    (more : List Value) :
    Follows calls input (broadcasts ++ more) rank process :=
  { follows with
    broadcast := by
      have few := follows.broadcast
      rw [List.length_append]
      omega
    inputs := by
      intro index unmarked inBounds
      obtain ⟨value, isInput, isAgreed⟩ :=
        follows.inputs index unmarked inBounds
      exact ⟨value, isInput, agreed_append isAgreed⟩ }

theorem Follows.covered
    (follows : Follows calls input broadcasts rank process) :
    process.si.numInputs ≤ process.si.ex.inputs.length := by
  rw [follows.numInputs, follows.length]
  exact le_max_right _ _

/-- Entering a broadcast is decided by the position. -/
theorem Follows.entersBcast_iff
    (follows : Follows calls input broadcasts rank process)
    (call : MarkingCall) :
    call.EntersBcast process.si ↔
      call.draws = true ∧ input.length ≤ process.position := by
  unfold MarkingCall.EntersBcast
  rw [follows.length, follows.numInputs]
  refine and_congr_right fun _ => ?_
  omega

theorem Follows.entersAt_eq
    (follows : Follows calls input broadcasts rank process)
    (isCall : calls[process.position]? = some call) :
    entersAt calls input process.position =
      decide (call.EntersBcast process.si) := by
  rw [Bool.eq_iff_iff, decide_eq_true_iff, follows.entersBcast_iff]
  unfold entersAt
  rw [isCall, Option.any_some, Bool.and_eq_true, decide_eq_true_iff, and_comm]

/-- What a call makes of a given value, and what it generates otherwise. -/
theorem returned_cases
    (si : SymbolicInterpreter)
    (event : Event) :
    (∃ given,
        si.ex.inputs[si.numInputs]? = some given ∧
          si.returned event = si.fromFile event given) ∨
      (si.ex.inputs[si.numInputs]? = none ∧
        si.returned event = si.generated event) := by
  unfold returned
  cases si.ex.inputs[si.numInputs]? with
  | some given => exact Or.inl ⟨given, rfl, rfl⟩
  | none => exact Or.inr ⟨rfl, rfl⟩

theorem fromFile_event
    (si : SymbolicInterpreter)
    (addr : Addr)
    (draw : Nat)
    (value given : Value)
    (notRank : call.isRank = false) :
    si.fromFile (call.event addr draw value) given = given := by
  cases call with
  | newInputRank => cases notRank
  | _ => rfl

/-- A value that the file does not have is the common one. -/
theorem Follows.common_generated
    (follows : Follows calls input broadcasts rank process)
    (addr : Addr)
    (draw : Nat)
    (value : Value)
    (notRank : call.isRank = false)
    (isDrawn : rank.val = 0 → value = call.drawn draw) :
    call.common size (some value) =
      some (process.si.generated (call.event addr draw value)) := by
  have isWorldSize := follows.worldSize
  have drawnOrGiven :
      ∀ drawnValue : Value,
        (rank.val = 0 → value = drawnValue) →
        (if process.si.rank = 0 then drawnValue else value) = value := by
    intro drawnValue isSame
    rw [follows.rank]
    split
    · next isRoot => exact (isSame (Int.ofNat_eq_zero.mp isRoot)).symm
    · rfl
  cases call with
  | newInput type limit =>
      exact congrArg some (drawnOrGiven _ isDrawn).symm
  | newInputWithLimit type limit =>
      exact congrArg some (drawnOrGiven _ isDrawn).symm
  | newInputRank => cases notRank
  | newInputRankNonDefaultComm => rfl
  | newInputWorldSize type =>
      change some (castTo size type) = some (castTo process.si.worldSize type)
      rw [isWorldSize]
  | newInputWorldSizeWithLimit type limit =>
      change some (castTo size type) = some (castTo process.si.worldSize type)
      rw [isWorldSize]

/-- A call that draws nothing has no use for a broadcast. -/
theorem common_of_not_draws
    (silent : call.draws = false)
    (broadcast other : Option Value) :
    call.common size broadcast = call.common size other := by
  cases call with
  | newInput | newInputWithLimit => cases silent
  | _ => rfl

/-- What a process records in a call is what is agreed for its index. -/
theorem Follows.agreed_returned
    (follows : Follows calls input broadcasts rank process)
    (isCall : calls[process.position]? = some call)
    (addr : Addr)
    (draw : Nat)
    (value : Value)
    (notRank : call.isRank = false)
    (isDrawn :
      call.EntersBcast process.si →
      rank.val = 0 → value = call.drawn draw)
    (delivered :
      call.EntersBcast process.si →
      (broadcasts ++ more)[process.entered]? = some value) :
    agreed size calls input (broadcasts ++ more) process.position =
      some (process.si.returned (call.event addr draw value)) := by
  have isLength := follows.length
  rcases returned_cases process.si (call.event addr draw value) with
    ⟨given, isGiven, isReturned⟩ | ⟨isAbsent, isReturned⟩
  · rw [follows.numInputs] at isGiven
    obtain ⟨inBounds, _⟩ := List.getElem?_eq_some_iff.mp isGiven
    have unmarked : ¬MarkedAsRank calls process.position process.position :=
      fun marked => absurd marked.1 (lt_irrefl _)
    obtain ⟨agreedValue, isInput, isAgreed⟩ :=
      follows.inputs process.position unmarked inBounds
    obtain rfl := Option.some.inj (isGiven.symm.trans isInput)
    rw [isReturned, fromFile_event _ _ _ _ _ notRank]
    exact agreed_append isAgreed
  · rw [follows.numInputs] at isAbsent
    have outside := List.getElem?_eq_none_iff.mp isAbsent
    have notGiven : input.length ≤ process.position := by
      omega
    unfold agreed
    rw [List.getElem?_eq_none notGiven, Option.none_or, isCall,
      Option.bind_some, ← follows.entered, isReturned]
    cases draws : call.draws with
    | true =>
        have enters : call.EntersBcast process.si :=
          (follows.entersBcast_iff call).mpr ⟨draws, notGiven⟩
        rw [delivered enters]
        exact follows.common_generated addr draw value notRank
          (isDrawn enters)
    | false =>
        rw [common_of_not_draws draws _ (some (call.drawn draw))]
        have generatedSame :
            process.si.generated (call.event addr draw value) =
              process.si.generated
                (call.event addr draw (call.drawn draw)) := by
          cases call with
          | newInput | newInputWithLimit => cases draws
          | _ => rfl
        rw [generatedSame]
        exact follows.common_generated addr draw _ notRank fun _ => rfl

/-- The marking of a call. -/
theorem exists_marking
    (call : MarkingCall)
    (addr : Addr)
    (draw : Nat)
    (value : Value) :
    ∃ marking, (call.event addr draw value).marking = some marking := by
  cases call <;> exact ⟨_, rfl⟩

/-- A process that makes its next call follows the sequence. -/
theorem Follows.makes
    (follows : Follows calls input broadcasts rank process)
    (isCall : calls[process.position]? = some call)
    {addr : Addr}
    {draw : Nat}
    {value : Value}
    {si : SymbolicInterpreter}
    (isDrawn :
      call.EntersBcast process.si →
      rank.val = 0 → value = call.drawn draw)
    (delivered :
      call.EntersBcast process.si →
      (broadcasts ++ more)[process.entered]? = some value)
    (stepped :
      process.si.step (call.event addr draw value) = some si) :
    Follows calls input (broadcasts ++ more) rank
      { si := si
        position := process.position + 1
        entered :=
          if call.EntersBcast process.si then
            process.entered + 1
          else
            process.entered } := by
  obtain ⟨marking, marks⟩ := exists_marking call addr draw value
  have records := records_of_step marks stepped
  have isLength := follows.length
  have isCount := follows.numInputs
  refine
    { rank := records.rank.trans follows.rank
      worldSize := records.worldSize.trans follows.worldSize
      numInputs := by rw [records.numInputs, follows.numInputs]
      length := ?_
      entered := ?_
      broadcast := ?_
      inputs := ?_ }
  · rw [records.inputs, length_inputsAfter follows.covered]
    dsimp only
    omega
  · dsimp only
    rw [entered_succ, follows.entersAt_eq isCall, follows.entered]
    by_cases enters : call.EntersBcast process.si
    · simp [enters]
    · simp [enters]
  · dsimp only
    split
    · next enters =>
        exact (List.getElem?_eq_some_iff.mp (delivered enters)).1
    · exact (follows.append more).broadcast
  · intro index unmarked inBounds
    dsimp only at unmarked inBounds ⊢
    rw [records.inputs] at inBounds ⊢
    by_cases isNew : index = process.position
    · subst isNew
      have notRank : call.isRank = false := by
        rw [Bool.eq_false_iff]
        intro isRank
        exact unmarked ⟨Nat.lt_succ_self _, call, isCall, isRank⟩
      refine ⟨_, ?_,
        follows.agreed_returned isCall addr draw value notRank isDrawn
          delivered⟩
      rw [← isCount]
      exact getElem?_inputsAfter_new follows.covered _
    · have isOld : index ≠ process.si.numInputs := by
        rw [isCount]
        exact isNew
      rw [length_inputsAfter follows.covered] at inBounds
      have wasUnmarked : ¬MarkedAsRank calls process.position index :=
        fun marked => unmarked ⟨Nat.lt_succ_of_lt marked.1, marked.2⟩
      have wasInBounds : index < process.si.ex.inputs.length := by
        omega
      obtain ⟨old, isInput, isAgreed⟩ :=
        follows.inputs index wasUnmarked wasInBounds
      refine ⟨old, ?_, agreed_append isAgreed⟩
      rw [getElem?_inputsAfter_old follows.covered isOld]
      exact isInput

end Agreement

section Runs

variable {calls : List MarkingCall} {input : List Value} {job next : Job size}
  {turn : Turn size}

/-- What a turn of a process does. -/
structure Takes
    (calls : List MarkingCall)
    (job : Job size)
    (turn : Turn size)
    (next : Job size)
    (call : MarkingCall)
    (value : Value)
    (si : SymbolicInterpreter)
    (more : List Value) : Prop where
  isCall : calls[(job.processes turn.rank).position]? = some call
  stepped :
    (job.processes turn.rank).si.step
      (call.event turn.addr turn.draw value) = some si
  processes :
    next.processes =
      Function.update job.processes turn.rank
        { si := si
          position := (job.processes turn.rank).position + 1
          entered :=
            if call.EntersBcast (job.processes turn.rank).si then
              (job.processes turn.rank).entered + 1
            else
              (job.processes turn.rank).entered }
  broadcasts : next.broadcasts = job.broadcasts ++ more
  root :
    turn.rank.val = 0 →
    call.EntersBcast (job.processes turn.rank).si →
    value = call.drawn turn.draw ∧ more = [value]
  other :
    turn.rank.val ≠ 0 →
    call.EntersBcast (job.processes turn.rank).si →
    job.broadcasts[(job.processes turn.rank).entered]? = some value
  silent :
    ¬(turn.rank.val = 0 ∧ call.EntersBcast (job.processes turn.rank).si) →
    more = []

theorem takes_of_step (stepped : job.step calls turn = some next) :
    ∃ call value si more, Takes calls job turn next call value si more := by
  obtain ⟨call, isCall, stepped⟩ := Option.bind_eq_some_iff.mp stepped
  split at stepped
  · next enters =>
      obtain ⟨value, isValue, stepped⟩ := Option.bind_eq_some_iff.mp stepped
      obtain ⟨si, siStepped, rfl⟩ := Option.map_eq_some_iff.mp stepped
      unfold broadcast? at isValue
      by_cases isRoot : turn.rank.val = 0
      · rw [if_pos isRoot] at isValue
        refine ⟨call, value, si, [value], ?_⟩
        exact
          { isCall := isCall
            stepped := siStepped
            processes := by simp [enters]
            broadcasts := by simp [isRoot]
            root := fun _ _ => ⟨(Option.some.inj isValue).symm, rfl⟩
            other := fun notRoot => absurd isRoot notRoot
            silent := fun notBoth => absurd ⟨isRoot, enters⟩ notBoth }
      · rw [if_neg isRoot] at isValue
        refine ⟨call, value, si, [], ?_⟩
        exact
          { isCall := isCall
            stepped := siStepped
            processes := by simp [enters]
            broadcasts := by simp [isRoot]
            root := fun root => absurd root isRoot
            other := fun _ _ => isValue
            silent := fun _ => rfl }
  · next skips =>
      obtain ⟨si, siStepped, rfl⟩ := Option.map_eq_some_iff.mp stepped
      refine ⟨call, 0, si, [], ?_⟩
      exact
        { isCall := isCall
          stepped := siStepped
          processes := by simp [skips]
          broadcasts := by simp
          root := fun _ enters => absurd enters skips
          other := fun _ enters => absurd enters skips
          silent := fun _ => rfl }

/-- All processes follow the sequence, and process 0 leads the broadcasts. -/
structure Consistent
    (calls : List MarkingCall)
    (input : List Value)
    (job : Job size) : Prop where
  follows :
    ∀ rank, Follows calls input job.broadcasts rank (job.processes rank)
  root :
    ∀ rank : Fin size,
      rank.val = 0 →
      (job.processes rank).entered = job.broadcasts.length

theorem consistent_start
    (calls : List MarkingCall)
    (input : List Value)
    (execTimes : Nat)
    (targetRank : Int) :
    (start size input execTimes targetRank).Consistent calls input where
  follows := by
    intro rank
    exact
      { rank := rfl
        worldSize := rfl
        numInputs := rfl
        length := (Nat.max_zero _).symm
        entered := rfl
        broadcast := Nat.zero_le _
        inputs := by
          intro index _ inBounds
          have isGiven : input[index]? = some input[index] :=
            List.getElem?_eq_getElem inBounds
          refine ⟨input[index], isGiven, ?_⟩
          unfold agreed
          rw [isGiven]
          rfl }
  root := fun _ _ => rfl

theorem Consistent.step
    (consistent : job.Consistent calls input)
    (stepped : job.step calls turn = some next) :
    next.Consistent calls input := by
  obtain ⟨call, value, si, more, takes⟩ := takes_of_step stepped
  have follows := consistent.follows turn.rank
  have isDrawn :
      call.EntersBcast (job.processes turn.rank).si →
      turn.rank.val = 0 → value = call.drawn turn.draw :=
    fun enters isRoot => (takes.root isRoot enters).1
  have delivered :
      call.EntersBcast (job.processes turn.rank).si →
      (job.broadcasts ++ more)[(job.processes turn.rank).entered]? =
        some value := by
    intro enters
    by_cases isRoot : turn.rank.val = 0
    · rw [(takes.root isRoot enters).2, consistent.root turn.rank isRoot]
      exact List.getElem?_concat_length
    · have received := takes.other isRoot enters
      obtain ⟨inBounds, _⟩ := List.getElem?_eq_some_iff.mp received
      rw [List.getElem?_append_left inBounds]
      exact received
  constructor
  · intro rank
    rw [takes.processes, takes.broadcasts]
    by_cases isTurn : rank = turn.rank
    · subst isTurn
      rw [Function.update_self]
      exact follows.makes takes.isCall isDrawn delivered takes.stepped
    · rw [Function.update_of_ne isTurn]
      exact (consistent.follows rank).append more
  · intro rank isRoot
    rw [takes.processes, takes.broadcasts, List.length_append]
    by_cases isTurn : rank = turn.rank
    · subst isTurn
      rw [Function.update_self, ← consistent.root turn.rank isRoot]
      dsimp only
      split
      · next enters =>
          rw [(takes.root isRoot enters).2]
          rfl
      · next skips =>
          rw [takes.silent fun both => skips both.2]
          rfl
    · have notRoot : turn.rank.val ≠ 0 :=
        fun isZero => isTurn (Fin.ext (isRoot.trans isZero.symm))
      rw [Function.update_of_ne isTurn, consistent.root rank isRoot,
        takes.silent fun both => notRoot both.1]
      rfl

/-- Broadcasts are only added. -/
theorem broadcasts_of_run
    {turns : List (Turn size)}
    (ran : PartialRun.run? (step calls) job turns = some next) :
    ∃ more, next.broadcasts = job.broadcasts ++ more := by
  induction turns generalizing job with
  | nil =>
      obtain rfl := Option.some.inj ran
      exact ⟨[], (List.append_nil _).symm⟩
  | cons turn rest inductionHypothesis =>
      obtain ⟨middle, stepped, restRan⟩ := PartialRun.run?_cons_eq_some.mp ran
      obtain ⟨_, _, _, first, takes⟩ := takes_of_step stepped
      obtain ⟨later, isLater⟩ := inductionHypothesis restRan
      refine ⟨first ++ later, ?_⟩
      rw [isLater, takes.broadcasts, List.append_assoc]

theorem consistent_of_run
    {turns : List (Turn size)}
    (consistent : job.Consistent calls input)
    (ran : PartialRun.run? (step calls) job turns = some next) :
    next.Consistent calls input :=
  PartialRun.run?_invariant
    (fun holds _ stepped => Consistent.step holds stepped)
    consistent (PartialRun.along_true job turns) ran

/-- Two processes that have made the same calls are in step. -/
theorem inStep_of_follows
    {broadcasts more : List Value}
    {rank other : Fin size}
    {process later : Process}
    (follows : Follows calls input broadcasts rank process)
    (otherFollows : Follows calls input (broadcasts ++ more) other later)
    (samePosition : process.position = later.position) :
    InStep calls process later := by
  have sameLength :
      process.si.ex.inputs.length = later.si.ex.inputs.length := by
    rw [follows.length, otherFollows.length, samePosition]
  refine
    { numInputs := ?_
      length := sameLength
      entersBcast := ?_
      inputs := ?_ }
  · rw [follows.numInputs, otherFollows.numInputs, samePosition]
  · intro call
    rw [follows.entersBcast_iff, otherFollows.entersBcast_iff, samePosition]
  · intro index unmarked
    by_cases inBounds : index < process.si.ex.inputs.length
    · obtain ⟨value, isInput, isAgreed⟩ :=
        follows.inputs index unmarked inBounds
      obtain ⟨otherValue, isOther, otherAgreed⟩ :=
        otherFollows.inputs index (samePosition ▸ unmarked)
          (sameLength ▸ inBounds)
      have sameValue : some value = some otherValue :=
        (agreed_append isAgreed).symm.trans otherAgreed
      rw [isInput, isOther, sameValue]
    · have outside := not_lt.mp inBounds
      rw [List.getElem?_eq_none outside,
        List.getElem?_eq_none (sameLength ▸ outside)]

/-- A call with a limit other than zero can be made. -/
theorem exists_step_event
    {call : MarkingCall}
    (drawable : call.Drawable)
    (si : SymbolicInterpreter)
    (addr : Addr)
    (draw : Nat)
    (value : Value) :
    ∃ after, si.step (call.event addr draw value) = some after := by
  cases call with
  | newInput type limit =>
      have notZero : ¬(si.ex.inputs.length ≤ si.numInputs ∧ limit = 0) :=
        fun both => drawable both.2
      simp [MarkingCall.event, SymbolicInterpreter.step, marking?, newInput,
        notZero]
  | newInputWithLimit type limit =>
      have notZero : ¬(si.ex.inputs.length ≤ si.numInputs ∧ limit = 0) :=
        fun both => drawable both.2
      simp [MarkingCall.event, SymbolicInterpreter.step, marking?,
        newInputWithLimit, newInput, setLimit, notZero]
  | _ => exact ⟨_, rfl⟩

/-- A process can make its next call if it need not wait for a broadcast. -/
theorem exists_step_of_ready
    {rank : Fin size}
    {call : MarkingCall}
    (isCall : calls[(job.processes rank).position]? = some call)
    (drawable : call.Drawable)
    (ready :
      call.EntersBcast (job.processes rank).si →
      rank.val = 0 ∨
        (job.processes rank).entered < job.broadcasts.length) :
    ∃ turn after, job.step calls turn = some after := by
  let turn : Turn size := { rank := rank, addr := 0, draw := 0 }
  refine ⟨turn, ?_⟩
  unfold step
  simp only [turn, isCall, Option.bind_some]
  split
  · next enters =>
      obtain ⟨value, isValue⟩ :
          ∃ value, job.broadcast? turn call = some value := by
        unfold broadcast?
        split
        · exact ⟨_, rfl⟩
        · next notRoot =>
            rcases ready enters with isRoot | inBounds
            · exact absurd isRoot notRoot
            · exact ⟨_, List.getElem?_eq_getElem inBounds⟩
      obtain ⟨si, stepped⟩ :=
        exists_step_event drawable (job.processes rank).si 0 0 value
      exact ⟨_, by rw [isValue, Option.bind_some, stepped]; rfl⟩
  · obtain ⟨si, stepped⟩ :=
      exists_step_event drawable (job.processes rank).si 0 0 0
    exact ⟨_, by rw [stepped]; rfl⟩

/-- As long as a process has calls to make, some process can make one. -/
theorem Consistent.exists_step
    (consistent : job.Consistent calls input)
    (drawable : ∀ call ∈ calls, call.Drawable)
    {rank : Fin size}
    (unfinished : (job.processes rank).position < calls.length) :
    ∃ turn after, job.step calls turn = some after := by
  let root : Fin size := ⟨0, lt_of_le_of_lt (Nat.zero_le _) rank.isLt⟩
  by_cases rootUnfinished : (job.processes root).position < calls.length
  · have isCall := List.getElem?_eq_getElem rootUnfinished
    exact exists_step_of_ready isCall
      (drawable _ (List.getElem_mem rootUnfinished)) fun _ => Or.inl rfl
  · have isCall := List.getElem?_eq_getElem unfinished
    refine exists_step_of_ready isCall
      (drawable _ (List.getElem_mem unfinished)) fun enters => Or.inr ?_
    -- process 0 has made all calls, so it has entered this broadcast too
    have follows := consistent.follows rank
    have rootFollows := consistent.follows root
    have entersHere :
        entersAt calls input (job.processes rank).position = true := by
      rw [follows.entersAt_eq isCall]
      exact decide_eq_true enters
    have isAhead :
        (job.processes rank).position + 1 ≤ (job.processes root).position :=
      le_trans unfinished (not_lt.mp rootUnfinished)
    have counted :
        entered calls input ((job.processes rank).position + 1) ≤
          entered calls input (job.processes root).position :=
      entered_mono isAhead
    rw [entered_succ, entersHere, if_pos rfl, ← follows.entered,
      ← rootFollows.entered, consistent.root root rfl] at counted
    exact counted

/--
Processes that start from the same input file and make the same marking calls
with limits other than zero are in step after every number of calls, whenever
each of them gets there, and some process can always go on.
-/
theorem inStep_of_run
    (size : Nat)
    (input : List Value)
    (execTimes : Nat)
    (targetRank : Int)
    (calls : List MarkingCall)
    (drawable : ∀ call ∈ calls, call.Drawable)
    (turns others : List (Turn size))
    (job later : Job size)
    (ran :
      PartialRun.run? (step calls) (start size input execTimes targetRank)
        turns = some job)
    (ranOn : PartialRun.run? (step calls) job others = some later) :
    (∀ rank other,
      (job.processes rank).position = (later.processes other).position →
      InStep calls (job.processes rank) (later.processes other)) ∧
    ((∃ rank, (job.processes rank).position < calls.length) →
      ∃ turn next, job.step calls turn = some next) := by
  have consistent : job.Consistent calls input :=
    consistent_of_run (consistent_start calls input execTimes targetRank) ran
  have laterConsistent : later.Consistent calls input :=
    consistent_of_run consistent ranOn
  obtain ⟨more, isMore⟩ := broadcasts_of_run ranOn
  constructor
  · intro rank other samePosition
    have otherFollows := laterConsistent.follows other
    rw [isMore] at otherFollows
    exact inStep_of_follows (consistent.follows rank) otherFollows
      samePosition
  · rintro ⟨rank, unfinished⟩
    exact consistent.exists_step drawable unfinished

/-- The rank is marked, and then a value below 10. -/
def rankAndDraw : List MarkingCall :=
  [.newInputRank .uInt, .newInputWithLimit .int 10]

/-- Process 1 has marked its rank, and process 0 has made both calls. -/
def rootAhead : Job 2 :=
  (PartialRun.run? (step rankAndDraw) (start 2 [] 0 0)
    [⟨1, 8, 0⟩, ⟨0, 16, 3⟩, ⟨0, 24, 47⟩]).getD (start 2 [] 0 0)

/-- Process 1 has received the value that process 0 has drawn. -/
def bothDone : Job 2 :=
  (PartialRun.run? (step rankAndDraw) rootAhead [⟨1, 32, 5⟩]).getD
    (start 2 [] 0 0)

theorem inStep_of_run_rankAndDraw :
    InStep rankAndDraw (rootAhead.processes 0) (bothDone.processes 1) := by
  have drawable : ∀ call ∈ rankAndDraw, call.Drawable := by
    intro call member
    rcases List.mem_cons.mp member with rfl | member
    · trivial
    · rw [List.mem_singleton.mp member]
      exact (by decide : (10 : Value) ≠ 0)
  have inStep :=
    inStep_of_run 2 [] 0 0 rankAndDraw drawable
      [⟨1, 8, 0⟩, ⟨0, 16, 3⟩, ⟨0, 24, 47⟩] [⟨1, 32, 5⟩] rootAhead bothDone
      rfl rfl
  exact inStep.1 0 1 rfl

end Runs

end Job

end Compi
