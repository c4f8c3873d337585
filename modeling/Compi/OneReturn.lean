import Compi.LabelPositions
import Compi.StatementMeaning

/-!
# One return for each function

`oneret` keeps at most one `return` of a function, its last statement.  The
others store their value in a variable and go there.
-/

namespace Compi.Cil

/-- What `oneret` makes the last statement of a function with. -/
structure ReturnSite where
  hasRet : Bool
  retVar : Varinfo

namespace ReturnSite

/-- The label of the last statement, if something goes there. -/
def returnLabel : String :=
  "return_label"

variable (site : ReturnSite)

/-- `getRetStmt`, with its label if there are gotos to it. -/
def retStmt (haveGoto : Bool) : Stmt Instr :=
  .ret (-1) (if haveGoto then [returnLabel] else [])
    (if site.hasRet then some (.lval (.var site.retVar .noOffset)) else none)

/-- What a `return` becomes. -/
def setReturn (sid : Int) (labels : List String) (retval : Option Exp) : Stmt Instr :=
  match retval with
  | some rval => .instr sid labels [.set (.var site.retVar .noOffset) rval]
  | none => .instr sid labels []

/-- The `goto` behind a `return` that is not the last statement. -/
def gotoReturn : Stmt Instr :=
  .goto (-1) [] returnLabel

end ReturnSite

/-- A return of a variable. -/
def returnsVariable : Option Exp → Bool
  | some (.lval (.var _ .noOffset)) => true
  | _ => false

/-- No statement. -/
def Block.isNil {Inst : Type} : Block Inst → Bool
  | .nil => true
  | .cons _ _ => false

section Translation

variable (site : ReturnSite)

mutual

/--
`scanStmts` on the blocks of a statement other than a `return`, with whether
there is a `goto` so far.
-/
def Stmt.scanBlocks (haveGoto : Bool) : Stmt Instr → Option (Stmt Instr × Bool)
  | .ite sid labels condition thenBlock elseBlock =>
      (thenBlock.scanStmts false haveGoto).bind fun first =>
        (elseBlock.scanStmts false first.2).map fun second =>
          (.ite sid labels condition first.1 second.1, second.2)
  | .loop sid labels body =>
      (body.scanStmts false haveGoto).map fun inner =>
        (.loop sid labels inner.1, inner.2)
  | .block sid labels body =>
      (body.scanStmts false haveGoto).map fun inner =>
        (.block sid labels inner.1, inner.2)
  | s => some (s, haveGoto)

/--
`scanStmts`.  There is no result if a function with a value returns without one
or the other way round.
-/
def Block.scanStmts
    (mainbody : Bool)
    (haveGoto : Bool) : Block Instr → Option (Block Instr × Bool)
  | .nil =>
      if mainbody then
        some (.cons (site.retStmt haveGoto) .nil, haveGoto)
      else
        some (.nil, haveGoto)
  | .cons (.ret sid labels retval) rests =>
      if mainbody && rests.isNil && returnsVariable retval && !haveGoto then
        some (.cons (.ret sid labels retval) .nil, haveGoto)
      else if site.hasRet ≠ retval.isSome then
        none
      else if mainbody && rests.isNil then
        (rests.scanStmts mainbody haveGoto).map fun later =>
          (.cons (site.setReturn sid labels retval) later.1, later.2)
      else
        (rests.scanStmts mainbody true).map fun later =>
          (.cons (site.setReturn sid labels retval)
            (.cons ReturnSite.gotoReturn later.1), later.2)
  | .cons s rests =>
      (s.scanBlocks haveGoto).bind fun first =>
        (rests.scanStmts mainbody first.2).map fun later =>
          (.cons first.1 later.1, later.2)

end

end Translation

/-- Whether a function returns something; there is no answer for other types. -/
def hasRet? : Typ → Option Bool
  | .fn rt _ => some (decide (rt.unrollType ≠ .void))
  | _ => none

/-- `oneret`, with the variable that `makeTempVar` makes. -/
def oneret (retVar : Varinfo) (f : Fundec Instr) : Option (Fundec Instr) :=
  (hasRet? f.svar.vtype).bind fun hasRet =>
    (f.sbody.scanStmts { hasRet := hasRet, retVar := retVar } true false).map
      fun scanned => { f with sbody := scanned.1 }

section Shape

variable (site : ReturnSite) (haveGoto : Bool)

mutual

/-- What a statement other than a `return` becomes, given whether gotos are made. -/
inductive ScannedStmt : Stmt Instr → Stmt Instr → Prop where
  | instr
      {sid : Int}
      {labels : List String}
      {is : List Instr} :
      ScannedStmt (.instr sid labels is) (.instr sid labels is)
  | goto
      {sid : Int}
      {labels : List String}
      {target : String}
      (notReturn : target ≠ ReturnSite.returnLabel) :
      ScannedStmt (.goto sid labels target) (.goto sid labels target)
  | computedGoto
      {sid : Int}
      {labels : List String}
      {target : Exp} :
      ScannedStmt (.computedGoto sid labels target)
        (.computedGoto sid labels target)
  | ite
      {sid : Int}
      {labels : List String}
      {condition : Exp}
      {thenBlock elseBlock thenText elseText : Block Instr}
      (first : ScannedBlock false thenBlock thenText)
      (second : ScannedBlock false elseBlock elseText) :
      ScannedStmt (.ite sid labels condition thenBlock elseBlock)
        (.ite sid labels condition thenText elseText)
  | loop
      {sid : Int}
      {labels : List String}
      {body text : Block Instr}
      (inner : ScannedBlock false body text) :
      ScannedStmt (.loop sid labels body) (.loop sid labels text)
  | block
      {sid : Int}
      {labels : List String}
      {body text : Block Instr}
      (inner : ScannedBlock false body text) :
      ScannedStmt (.block sid labels body) (.block sid labels text)

/-- What a block becomes, which is the main body or is inside. -/
inductive ScannedBlock : Bool → Block Instr → Block Instr → Prop where
  | nil : ScannedBlock false .nil .nil
  | last : ScannedBlock true .nil (.cons (site.retStmt haveGoto) .nil)
  | kept
      {sid : Int}
      {labels : List String}
      {retval : Option Exp}
      (noGoto : haveGoto = false)
      (isVariable : returnsVariable retval = true) :
      ScannedBlock true (.cons (.ret sid labels retval) .nil)
        (.cons (.ret sid labels retval) .nil)
  | set
      {sid : Int}
      {labels : List String}
      {retval : Option Exp}
      (agrees : site.hasRet = retval.isSome) :
      ScannedBlock true (.cons (.ret sid labels retval) .nil)
        (.cons (site.setReturn sid labels retval)
          (.cons (site.retStmt haveGoto) .nil))
  | jump
      {mainbody : Bool}
      {sid : Int}
      {labels : List String}
      {retval : Option Exp}
      {rests text : Block Instr}
      (agrees : site.hasRet = retval.isSome)
      (hasGoto : haveGoto = true)
      (later : ScannedBlock mainbody rests text) :
      ScannedBlock mainbody (.cons (.ret sid labels retval) rests)
        (.cons (site.setReturn sid labels retval)
          (.cons ReturnSite.gotoReturn text))
  | cons
      {mainbody : Bool}
      {s text : Stmt Instr}
      {rests restText : Block Instr}
      (first : ScannedStmt s text)
      (later : ScannedBlock mainbody rests restText) :
      ScannedBlock mainbody (.cons s rests) (.cons text restText)

end

variable {site haveGoto}

/-- A block without statements is the empty one. -/
theorem eq_nil_of_isNil
    {b : Block Instr}
    (isNil : b.isNil = true) :
    b = .nil := by
  cases b with
  | nil => rfl
  | cons s rest => cases isNil

mutual

/-- What the scan of a statement answers. -/
theorem scanBlocks_spec
    {before after final : Bool}
    (s : Stmt Instr)
    {text : Stmt Instr}
    (noReturn : ∀ sid labels retval, s ≠ .ret sid labels retval)
    (notTarget : ReturnSite.returnLabel ∉ s.gotoTargets)
    (known : after = true → final = true)
    (done : s.scanBlocks site before = some (text, after)) :
    ScannedStmt site final s text ∧ (before = true → after = true) := by
  cases s with
  | ite sid labels condition thenBlock elseBlock =>
      obtain ⟨first, isFirst, done⟩ := Option.bind_eq_some_iff.mp done
      obtain ⟨second, isSecond, isResult⟩ := Option.map_eq_some_iff.mp done
      obtain ⟨rfl, rfl⟩ := Prod.mk.inj isResult
      have notInElse := fun member => notTarget (List.mem_append_right _ member)
      have notInThen := fun member => notTarget (List.mem_append_left _ member)
      have inElse := scanStmts_spec elseBlock notInElse known (by simp) isSecond
      have inThen :=
        scanStmts_spec thenBlock notInThen (fun flag => known (inElse.2 flag))
          (by simp) isFirst
      exact ⟨.ite inThen.1 inElse.1, fun flag => inElse.2 (inThen.2 flag)⟩
  | loop sid labels body =>
      obtain ⟨inner, isInner, isResult⟩ := Option.map_eq_some_iff.mp done
      obtain ⟨rfl, rfl⟩ := Prod.mk.inj isResult
      have inBody := scanStmts_spec body notTarget known (by simp) isInner
      exact ⟨.loop inBody.1, inBody.2⟩
  | block sid labels body =>
      obtain ⟨inner, isInner, isResult⟩ := Option.map_eq_some_iff.mp done
      obtain ⟨rfl, rfl⟩ := Prod.mk.inj isResult
      have inBody := scanStmts_spec body notTarget known (by simp) isInner
      exact ⟨.block inBody.1, inBody.2⟩
  | ret sid labels retval =>
      exact absurd rfl (noReturn sid labels retval)
  | instr sid labels is =>
      obtain ⟨rfl, rfl⟩ := Prod.mk.inj (Option.some.inj done)
      exact ⟨.instr, id⟩
  | goto sid labels target =>
      obtain ⟨rfl, rfl⟩ := Prod.mk.inj (Option.some.inj done)
      have notReturn : target ≠ ReturnSite.returnLabel := fun same =>
        notTarget (List.mem_singleton.mpr same.symm)
      exact ⟨.goto notReturn, id⟩
  | computedGoto sid labels target =>
      obtain ⟨rfl, rfl⟩ := Prod.mk.inj (Option.some.inj done)
      exact ⟨.computedGoto, id⟩

/-- What the scan of a block answers. -/
theorem scanStmts_spec
    {mainbody before after final : Bool}
    (b : Block Instr)
    {text : Block Instr}
    (notTarget : ReturnSite.returnLabel ∉ b.gotoTargets)
    (known : after = true → final = true)
    (isFinal : mainbody = true → final = after)
    (done : b.scanStmts site mainbody before = some (text, after)) :
    ScannedBlock site final mainbody b text ∧
      (before = true → after = true) := by
  cases b with
  | nil =>
      unfold Block.scanStmts at done
      split at done
      · next isMain =>
          obtain ⟨rfl, rfl⟩ := Prod.mk.inj (Option.some.inj done)
          subst isMain
          rw [← isFinal rfl]
          exact ⟨.last, fun flag => flag⟩
      · next notMain =>
          obtain ⟨rfl, rfl⟩ := Prod.mk.inj (Option.some.inj done)
          rw [Bool.not_eq_true] at notMain
          subst notMain
          exact ⟨.nil, id⟩
  | cons s rests =>
      cases s with
      | ret sid labels retval =>
          unfold Block.scanStmts at done
          split at done
          · next isKept =>
              obtain ⟨rfl, rfl⟩ := Prod.mk.inj (Option.some.inj done)
              simp only [Bool.and_eq_true, Bool.not_eq_true'] at isKept
              obtain ⟨⟨⟨rfl, isNil⟩, isVariable⟩, rfl⟩ := isKept
              obtain rfl := eq_nil_of_isNil isNil
              exact ⟨.kept (isFinal rfl) isVariable, fun flag => flag⟩
          · split at done
            · cases done
            · next agrees =>
                rw [ne_eq, not_not] at agrees
                split at done
                · next isLast =>
                    obtain ⟨later, isLater, isResult⟩ :=
                      Option.map_eq_some_iff.mp done
                    obtain ⟨rfl, rfl⟩ := Prod.mk.inj isResult
                    rw [Bool.and_eq_true] at isLast
                    obtain ⟨rfl, isNil⟩ := isLast
                    obtain rfl := eq_nil_of_isNil isNil
                    obtain rfl := Option.some.inj isLater
                    have sameFlag : final = before := isFinal rfl
                    rw [← sameFlag]
                    exact ⟨.set agrees, fun flag => flag⟩
                · next notLast =>
                    obtain ⟨later, isLater, isResult⟩ :=
                      Option.map_eq_some_iff.mp done
                    obtain ⟨rfl, rfl⟩ := Prod.mk.inj isResult
                    have inRests :=
                      scanStmts_spec rests notTarget known isFinal isLater
                    have hasGoto := inRests.2 rfl
                    exact
                      ⟨.jump agrees (known hasGoto) inRests.1,
                        fun _ => hasGoto⟩
      | _ =>
          obtain ⟨first, isFirst, done⟩ := Option.bind_eq_some_iff.mp done
          obtain ⟨later, isLater, isResult⟩ := Option.map_eq_some_iff.mp done
          obtain ⟨rfl, rfl⟩ := Prod.mk.inj isResult
          have notInRests := fun member =>
            notTarget (List.mem_append_right _ member)
          have notInFirst := fun member =>
            notTarget (List.mem_append_left _ member)
          have inRests :=
            scanStmts_spec rests notInRests known isFinal isLater
          have inFirst :=
            scanBlocks_spec _ (fun _ _ _ same => by cases same) notInFirst
              (fun flag => known (inRests.2 flag)) isFirst
          exact
            ⟨.cons inFirst.1 inRests.1,
              fun flag => inRests.2 (inFirst.2 flag)⟩

end

mutual

/-- What the `return`s in a statement return, in their order. -/
def Stmt.returns : Stmt Instr → List (Option Exp)
  | .ret _ _ retval => [retval]
  | .ite _ _ _ thenBlock elseBlock => thenBlock.returns ++ elseBlock.returns
  | .loop _ _ body => body.returns
  | .block _ _ body => body.returns
  | _ => []

/-- What the `return`s in a block return. -/
def Block.returns : Block Instr → List (Option Exp)
  | .nil => []
  | .cons s rests => s.returns ++ rests.returns

end

/-- The `return` that is made, or the one that was there and returns a variable. -/
inductive IsLastReturn (site : ReturnSite) : Bool → Stmt Instr → Prop where
  | made {haveGoto : Bool} : IsLastReturn site haveGoto (site.retStmt haveGoto)
  | kept
      {sid : Int}
      {labels : List String}
      {retval : Option Exp}
      (isVariable : returnsVariable retval = true) :
      IsLastReturn site false (.ret sid labels retval)

theorem returns_setReturn
    (sid : Int)
    (labels : List String)
    (retval : Option Exp) :
    (site.setReturn sid labels retval).returns = [] := by
  cases retval <;> rfl

mutual

/-- No `return` is left in a statement. -/
theorem returns_scannedStmt
    (s : Stmt Instr)
    {text : Stmt Instr}
    (scanned : ScannedStmt site haveGoto s text) :
    text.returns = [] := by
  cases scanned with
  | ite first second =>
      unfold Stmt.returns
      rw [returns_scannedBlock _ first, returns_scannedBlock _ second]
      rfl
  | loop inner =>
      unfold Stmt.returns
      exact returns_scannedBlock _ inner
  | block inner =>
      unfold Stmt.returns
      exact returns_scannedBlock _ inner
  | _ =>
      rfl

/-- No `return` is left in a block other than the main body. -/
theorem returns_scannedBlock
    (b : Block Instr)
    {text : Block Instr}
    (scanned : ScannedBlock site haveGoto false b text) :
    text.returns = [] := by
  cases b with
  | nil =>
      cases scanned with
      | nil =>
          rfl
  | cons s rests =>
      cases scanned with
      | jump agrees hasGoto later =>
          unfold Block.returns
          rw [returns_setReturn, Block.returns, returns_scannedBlock _ later]
          rfl
      | cons first later =>
          unfold Block.returns
          rw [returns_scannedStmt _ first, returns_scannedBlock _ later]
          rfl

end

/-- The main body ends with a `return`, and has no other one. -/
theorem exists_lastReturn
    (b : Block Instr)
    {text : Block Instr}
    (scanned : ScannedBlock site haveGoto true b text) :
    ∃ before last,
      text.toList = before ++ [last] ∧
        (∀ s ∈ before, s.returns = []) ∧ IsLastReturn site haveGoto last := by
  cases b with
  | nil =>
      cases scanned with
      | last =>
          exact ⟨[], _, rfl, List.forall_mem_nil _, .made⟩
  | cons s rests =>
      cases scanned with
      | kept noGoto isVariable =>
          subst noGoto
          exact ⟨[], _, rfl, List.forall_mem_nil _, .kept isVariable⟩
      | set agrees =>
          refine ⟨[_], _, rfl, ?_, .made⟩
          exact List.forall_mem_singleton.mpr (returns_setReturn _ _ _)
      | jump agrees hasGoto later =>
          obtain ⟨before, last, isText, noReturn, isLast⟩ :=
            exists_lastReturn rests later
          refine
            ⟨_ :: ReturnSite.gotoReturn :: before, last,
              congrArg (_ :: ReturnSite.gotoReturn :: ·) isText, ?_, isLast⟩
          refine List.forall_mem_cons.mpr ⟨returns_setReturn _ _ _, ?_⟩
          exact List.forall_mem_cons.mpr ⟨rfl, noReturn⟩
      | cons first later =>
          obtain ⟨before, last, isText, noReturn, isLast⟩ :=
            exists_lastReturn rests later
          refine
            ⟨_ :: before, last, congrArg (_ :: ·) isText, ?_, isLast⟩
          exact
            List.forall_mem_cons.mpr ⟨returns_scannedStmt _ first, noReturn⟩

end Shape

end Compi.Cil
