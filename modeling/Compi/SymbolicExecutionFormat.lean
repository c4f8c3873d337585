import Compi.ByteStream
import Compi.SymbolicExecution

/-!
# The execution format

The focus process writes its execution as bytes and the driver reads it back
into an object that it reuses from run to run.  Four classes write and read
their own part: expressions, predicates, paths and executions.

A short stream is only noticed at a few places, and what a read leaves in an
uninitialised variable is then used, so the readers take these contents as an
argument.
-/

namespace Compi

open ByteStream

/-- What the uninitialised local variables of the readers hold. -/
structure Uninitialised where
  len : Nat
  var : Var
  value : Value
  id : Id

/-- `resize` of a vector. -/
def resize (size : Nat) (fill : α) (items : List α) : List α :=
  items.take size ++ List.replicate (size - items.length) fill

namespace SymbolicExpr

/-- `Serialize`, with its assertion on the number of terms. -/
def serialize (e : SymbolicExpr) : Option (List UInt8) :=
  if e.coeff.size < 128 then
    some ([UInt8.ofNat e.coeff.size] ++ (toBytes 8 e.const ++
      e.coeff.toList.flatMap fun term =>
        toBytes 4 term.1 ++ toBytes 8 term.2))
  else
    none

/-- The loop of `Parse` over the terms. -/
def parseTerms
    (garbage : Uninitialised) :
    Nat → OrderedMap Var Value → Reader (OrderedMap Var Value)
  | 0, coeff => pure coeff
  | count + 1, coeff => do
      let v ← readUnsigned 4 garbage.var
      let c ← readSigned 8 garbage.value
      parseTerms garbage count (coeff.insert v c)

/-- `Parse`: at the end of the stream the number of terms is `SIZE_MAX`. -/
def parse
    (garbage : Uninitialised)
    (e : SymbolicExpr) : Reader (Bool × SymbolicExpr) := do
  let len ← getByte
  let const ← readSigned 8 e.const
  match ← fail with
  | true => return (false, { e with const := const })
  | false =>
      let coeff ←
        parseTerms garbage (len.elim (2 ^ 64 - 1) UInt8.toNat) ∅
      let failed ← fail
      return (!failed, { const := const, coeff := coeff })

end SymbolicExpr

namespace SymbolicPred

/-- `Serialize`. -/
def serialize (p : SymbolicPred) : Option (List UInt8) :=
  p.expr.serialize.map fun expr => [UInt8.ofNat p.op.code] ++ expr

/-- `Parse` into a new predicate. -/
def parse (garbage : Uninitialised) : Reader (Bool × SymbolicPred) := do
  let op ← getByte
  let (parsed, expr) ← SymbolicExpr.parse garbage (.ofConst 0)
  let failed ← fail
  return (parsed && !failed,
    { op := CompareOp.ofCode (op.elim 255 UInt8.toNat), expr := expr })

end SymbolicPred

/-- What a failed `Parse` leaves behind the pointer to a constraint. -/
inductive ConstraintSlot where
  | live (p : SymbolicPred)
  | unfinished (p : SymbolicPred)
  | dead

/-- What a failed `Parse` leaves of a path. -/
structure PathRemains where
  branches : List BranchId
  constraintsIdx : List Nat
  constraints : List ConstraintSlot

/-- A path whose constraints are all live. -/
def PathRemains.ofPath (path : SymbolicPath) : PathRemains where
  branches := path.branches
  constraintsIdx := path.constraintsIdx
  constraints := path.constraints.map .live

namespace SymbolicPath

/-- `Serialize`. -/
def serialize (path : SymbolicPath) : Option (List UInt8) := do
  let constraints ← path.constraints.mapM SymbolicPred.serialize
  return toBytes 8 path.branches.length ++
    (path.branches.flatMap (toBytes 4) ++
      (toBytes 8 path.constraints.length ++
        ((path.constraintsIdx.take path.constraints.length).flatMap
            (fun idx : Nat => toBytes 8 idx) ++
          constraints.flatten)))

/-- The loop of `Parse` over the constraints. -/
def parseConstraints
    (garbage : Uninitialised) :
    Nat → Reader (Except (List ConstraintSlot) (List SymbolicPred))
  | 0 => return .ok []
  | count + 1 => do
      match ← SymbolicPred.parse garbage with
      | (true, p) =>
          match ← parseConstraints garbage count with
          | .ok rest => return .ok (p :: rest)
          | .error rest => return .error (.live p :: rest)
      | (false, p) =>
          return .error (.unfinished p :: List.replicate count .dead)

/--
`Parse`: a short list of branches is cut to what was read; the old
constraints are deleted only after that.
-/
def parse
    (garbage : Uninitialised)
    (path : SymbolicPath) :
    Reader (Except PathRemains SymbolicPath) := do
  let len ← readUnsigned 8 garbage.len
  let (bytes, available) ←
    read ((resize len 0 path.branches).flatMap (toBytes 4))
  let branches :=
    ofBlock (fun bytes => toSigned 32 (ofBytes bytes)) 4 len bytes
  match ← fail with
  | true =>
      return .error (.ofPath
        { path with branches := resize (available / 4) 0 branches })
  | false =>
      let len ← readUnsigned 8 len
      let (bytes, _) ←
        read ((resize len 0 path.constraintsIdx).flatMap
          fun idx : Nat => toBytes 8 idx)
      let constraintsIdx := ofBlock ofBytes 8 len bytes
      let constraints ← parseConstraints garbage len
      let failed ← fail
      match constraints with
      | .error constraints =>
          return .error
            { branches := branches
              constraintsIdx := constraintsIdx
              constraints := constraints }
      | .ok constraints =>
          let path : SymbolicPath :=
            { path with
              branches := branches
              constraintsIdx := constraintsIdx
              constraints := constraints }
          return if failed then .error (.ofPath path) else .ok path

end SymbolicPath

namespace SymbolicExecution

/-- A vector of identifiers behind its length. -/
def serializeIds (ids : List Id) : List UInt8 :=
  toBytes 8 ids.length ++ ids.flatMap (toBytes 4)

/-- `Serialize`. -/
def serialize (ex : SymbolicExecution) : Option (List UInt8) := do
  let path ← ex.path.serialize
  return toBytes 8 ex.vars.size ++
    (ex.vars.toList.flatMap
        (fun var =>
          [UInt8.ofNat var.2.code] ++
            toBytes 8 (ex.inputs.getD var.1 0)) ++
      (toBytes 8 ex.executionTag ++
        (toBytes 8 ex.limits.entries.length ++
          (ex.limits.entries.flatMap
              (fun limit => toBytes 4 limit.1 ++ toBytes 8 limit.2) ++
            (serializeIds ex.rankIndices ++
              (serializeIds ex.rankNonDefaultCommIndices ++
                (toBytes 8 ex.rankNonDefaultCommMap.length ++
                  (ex.rankNonDefaultCommMap.flatMap serializeIds ++
                    (serializeIds ex.worldSizeIndices ++ path)))))))))

/-- Read the entries of a cleared and resized vector of identifiers. -/
def parseIds (len : Nat) : Reader (List Id) :=
  (List.replicate len 0).mapM (readSigned 4)

/-- The loop of `Parse` over the limits. -/
def parseLimits :
    Nat → Id → Value → UnorderedMap Id Value →
      Reader (UnorderedMap Id Value)
  | 0, _, _, limits => pure limits
  | count + 1, first, second, limits => do
      let first ← readSigned 4 first
      let second ← readSigned 8 second
      parseLimits count first second (limits.insert first second)

/-- `vars_[i] = type` for the types read, in order. -/
def varsOf (types : List CType) : OrderedMap Var CType :=
  types.zipIdx.foldl
    (fun vars entry => vars.insert (entry.2 % 2 ^ 32) entry.1) ∅

/-- `Parse`; a failure leaves the other fields overwritten. -/
def parse
    (garbage : Uninitialised)
    (ex : SymbolicExecution) :
    Reader (Except (SymbolicExecution × PathRemains) SymbolicExecution) := do
  let len ← readUnsigned 8 garbage.len
  let entries ←
    (resize len 0 ex.inputs).mapM fun input => do
      let type ← getByte
      let input ← readSigned 8 input
      return (CType.ofCode (type.elim 255 UInt8.toNat), input)
  let executionTag ← readUnsigned 8 ex.executionTag
  let len ← readUnsigned 8 len
  let limits ← parseLimits len garbage.id garbage.value ∅
  let len ← readUnsigned 8 len
  let rankIndices ← parseIds len
  let len ← readUnsigned 8 len
  let rankNonDefaultCommIndices ← parseIds len
  let len ← readUnsigned 8 len
  let rankNonDefaultCommMap ←
    (List.replicate len ()).mapM fun _ => do
      let len2 ← readUnsigned 8 garbage.len
      parseIds len2
  let len ← readUnsigned 8 len
  let worldSizeIndices ← parseIds len
  let path ← ex.path.parse garbage
  let parsed : SymbolicExecution :=
    { limits := limits
      rankIndices := rankIndices
      rankNonDefaultCommIndices := rankNonDefaultCommIndices
      rankNonDefaultCommMap := rankNonDefaultCommMap
      worldSizeIndices := worldSizeIndices
      executionTag := executionTag
      vars := varsOf (entries.map Prod.fst)
      inputs := entries.map Prod.snd
      path := ex.path }
  let failed ← fail
  match path with
  | .ok path =>
      return if failed then
        .error (parsed, .ofPath path)
      else
        .ok { parsed with path := path }
  | .error remains => return .error (parsed, remains)

end SymbolicExecution

end Compi
