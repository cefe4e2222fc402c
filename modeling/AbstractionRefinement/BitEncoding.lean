import AbstractionRefinement.DecisionDiagramQueries
import AbstractionRefinement.SolverAnswers
import AbstractionRefinement.SolverConfiguration
import AbstractionRefinement.TimeIndexing

/-!
# Encoding formulas as decision diagrams

Every symbol owns a block of diagram levels that hold, in binary, the offset of
its value in its domain: a truth value takes one level, an integer of a
configured interval its distance from the lower end, and a bitvector its bits.
Boolean connectives become diagram operations, and every other atom is compiled
by enumerating the values of its symbols.  Rational numbers and arrays have no
finite encoding.
-/

namespace AbstractionRefinement

/-- The values a symbol is encoded over. -/
inductive BitDomain where
  | bool
  | int (low : Int)
  | bitVec (width : Nat)
deriving DecidableEq, Inhabited

/-- The value at an offset of a domain. -/
def BitDomain.value : BitDomain → Nat → Value
  | bool, offset => .bool (offset ≠ 0)
  | int low, offset => .int (low + offset)
  | bitVec width, offset => .bitVec offset width

/-- The encoding of one symbol. -/
structure SymbolBits where
  domain : BitDomain
  /-- Levels of the offset, least significant bit first. -/
  bits : List Nat
  /-- Number of values of the domain. -/
  size : Nat
  /-- The constraint that the offset lies in the domain. -/
  valid : Edge
deriving Inhabited

/-- The state of an encoding. -/
structure Encoder where
  manager : DiagramManager
  config : SolverConfig
  symbols : List (Symbol × SymbolBits)
  owners : Std.TreeMap Nat Symbol
  nextLevel : Nat

/-- A computation over the state of an encoding that may be inconclusive.  What
was encoded before stays. -/
abbrev Encoding := ExceptT UnknownCause (StateM Encoder)

/-- Number of binary digits of a number. -/
def binaryLength (number : Nat) : Nat :=
  if number = 0 then 0 else number.log2 + 1

namespace Encoder

/-- An encoder without symbols. -/
def new (config : SolverConfig) : Encoder where
  manager := .new config.cacheBits config.nodeLimit
  config := config
  symbols := []
  owners := ∅
  nextLevel := 1

/-- Perform a diagram operation. -/
def diagram {α : Type} (operation : DiagramManager → α × DiagramManager) : Encoding α :=
  fun encoder =>
    let (result, manager) := operation encoder.manager
    (.ok result, { encoder with manager })

/-- Stop when the manager is exhausted. -/
def checkExhausted : Encoding Unit := fun encoder =>
  let encoder := { encoder with manager := encoder.manager.noticeDeadline }
  match encoder.manager.exhaustion with
  | none => (.ok (), encoder)
  | some .nodeLimit => (.error .resourceLimit, encoder)
  | some .deadline => (.error .timeout, encoder)

/-- The constraint that a binary number is below a constant. -/
def lessThan (bits : List Nat) (constant : Nat) : Encoding Edge :=
  if 64 ≤ bits.length || Nat.pow 2 bits.length ≤ constant then pure .one
  else
    bits.zipIdx.foldlM
      (fun (below : Edge) (level, position) => do
        let bit ← diagram (DiagramManager.makeVariable level)
        if constant.testBit position then diagram (DiagramManager.disj (-bit) below)
        else diagram (DiagramManager.conj (-bit) below))
      .zero

/-- The domain of a symbol with the number of its values. -/
def domainOf (config : SolverConfig) (symbol : Symbol) :
    Except UnknownCause (BitDomain × Nat) :=
  match symbol.ty with
  | .bool => .ok (.bool, 2)
  | .int =>
      let (low, high) := config.rangeOf symbol.decl.name
      let size := saturateInt64 (saturateInt64 (high - low) + 1)
      .ok (.int low, (max size 1).toNat)
  | .bitVec width =>
      if width ≤ config.maxBitVecWidth then .ok (.bitVec width, shiftedOne width)
      else .error (.unsupported ("symbol " ++ symbol.display ++ " of type " ++
        symbol.ty.display))
  | ty => .error (.unsupported ("symbol " ++ symbol.display ++ " of type " ++ ty.display))

/-- The encoding of a symbol, with new levels when it has none yet. -/
def encodingOf (symbol : Symbol) : Encoding SymbolBits := do
  match OrderedMap.find? symbol (← get).symbols with
  | some known => return known
  | none => do
      let (domain, size) ← (domainOf (← get).config symbol : Except _ _)
      let first := (← get).nextLevel
      let bits := List.range' first (binaryLength (size - 1))
      modify fun encoder => { encoder with nextLevel := first + bits.length }
      let valid ← lessThan bits size
      let encoded : SymbolBits := { domain, bits, size, valid }
      modify fun encoder =>
        { encoder with
          symbols := OrderedMap.insert symbol encoded encoder.symbols
          owners := bits.foldl (fun owners level => owners.insert level symbol) encoder.owners }
      return encoded

/-- The constraint that a symbol has the value at an offset. -/
def offsetCube (encoded : SymbolBits) (offset : Nat) : Encoding Edge :=
  let literals := encoded.bits.zipIdx.map fun (level, position) =>
    if offset.testBit position then (level : Int) else -(level : Int)
  diagram (DiagramManager.cubeOfDescending literals.reverse)

/-- The constraint that every symbol of a formula has a value of its domain. -/
def domainConstraint (formula : Expr) : Encoding Edge :=
  formula.symbols.foldlM
    (fun (total : Edge) symbol => do
      let encoded ← encodingOf symbol
      diagram (DiagramManager.conj total encoded.valid))
    .one

/-- The diagram of a predicate on assignments, compiled by enumerating the
values of the listed symbols.  An undefined truth value counts as false. -/
def enumerate (holds : (Symbol → Option Value) → Option Bool) :
    List (Symbol × SymbolBits) → (Symbol → Option Value) → Encoding Edge
  | [], assignment =>
      pure (if holds assignment = some true then .one else .zero)
  | (symbol, encoded) :: rest, assignment =>
      (List.range encoded.size).foldlM
        (fun (total : Edge) offset => do
          let value := encoded.domain.value offset
          let inner ← enumerate holds rest fun other =>
            if other = symbol then some value else assignment other
          if inner.isZero then return total
          else do
            let cube ← offsetCube encoded offset
            let part ← diagram (DiagramManager.conj cube inner)
            diagram (DiagramManager.disj total part))
        .zero

/-- The greatest number of assignments that is counted exactly. -/
def maxCountedAssignments : Nat := 18446744073709551615

/-- Compile an atom by enumeration. -/
def encodeAtom (formula : Expr) : Encoding Edge := do
  if formula.hasPrime then
    throw (.unsupported ("primed expression " ++ formula.display))
  let encodings ← formula.symbols.mapM fun symbol => return (symbol, ← encodingOf symbol)
  let assignments := encodings.foldl (fun total (_, encoded) => total * encoded.size) 1
  if (← get).config.maxAtomAssignments < min assignments maxCountedAssignments then
    throw .resourceLimit
  enumerate (fun assignment => formula.evalBool assignment) encodings fun _ => none

/-- The edge, unless the manager is exhausted. -/
def settled (edge : Edge) : Encoding Edge := do
  checkExhausted
  return edge

mutual

/-- The diagram of a Boolean formula. -/
def encode : Expr → Encoding Edge
  | .lit (.bool truth) => settled (if truth then .one else .zero)
  | .lit value => do settled (← encodeAtom (.lit value))
  | .sym symbol => do
      if symbol.ty.isBool then
        let encoded ← encodingOf symbol
        settled (← diagram (DiagramManager.makeVariable (encoded.bits.headD 0)))
      else settled (← encodeAtom (.sym symbol))
  | .unary operator operand ty => do
      match operator with
      | .not => settled (-(← encode operand))
      | _ => settled (← encodeAtom (.unary operator operand ty))
  | .binary operator left right ty => do
      let combine : Option (Edge → Edge → DiagramManager → Edge × DiagramManager) :=
        match operator with
        | .imply => some DiagramManager.imply
        | .iff => some DiagramManager.equiv
        | .eq => if left.ty.isBool then some DiagramManager.equiv else none
        | .neq => if left.ty.isBool then some DiagramManager.xor else none
        | _ => none
      match combine with
      | some operation => do
          let first ← encode left
          let second ← encode right
          settled (← diagram (operation first second))
      | none => settled (← encodeAtom (.binary operator left right ty))
  | .ternary operator first second third ty => do
      if operator = .ite ∧ second.ty.isBool then
        let condition ← encode first
        let positive ← encode second
        let negative ← encode third
        settled (← diagram (DiagramManager.ite condition positive negative))
      else settled (← encodeAtom (.ternary operator first second third ty))
  | .nary operator operands ty => do
      match operator with
      | .and => settled (← encodeConjunction .one operands)
      | .or => settled (← encodeDisjunction .zero operands)
      | _ => settled (← encodeAtom (.nary operator operands ty))

/-- The conjunction of a function with several formulas. -/
def encodeConjunction (total : Edge) : List Expr → Encoding Edge
  | [] => pure total
  | operand :: operands => do
      let edge ← encode operand
      encodeConjunction (← diagram (DiagramManager.conj total edge)) operands

/-- The disjunction of a function with several formulas. -/
def encodeDisjunction (total : Edge) : List Expr → Encoding Edge
  | [] => pure total
  | operand :: operands => do
      let edge ← encode operand
      encodeDisjunction (← diagram (DiagramManager.disj total edge)) operands

end

/-- The diagram of a formula within the domains of its symbols. -/
def encodeValid (formula : Expr) : Encoding Edge := do
  let edge ← encode formula
  let valid ← domainConstraint formula
  diagram (DiagramManager.conj edge valid)

/-- The diagram of a conjunction within the domains of its symbols. -/
def encodeAllValid (formulas : List Expr) : Encoding Edge := do
  let total ← formulas.foldlM
    (fun (total : Edge) formula => do
      let edge ← encodeValid formula
      diagram (DiagramManager.conj total edge))
    .one
  checkExhausted
  return total

/-- The levels that encode the given symbols. -/
def levelsOf (encoder : Encoder) (symbols : List Symbol) : List Nat :=
  symbols.flatMap fun symbol =>
    match OrderedMap.find? symbol encoder.symbols with
    | some encoded => encoded.bits
    | none => []

end Encoder

end AbstractionRefinement
