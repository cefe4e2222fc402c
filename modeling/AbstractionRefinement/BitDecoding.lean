import AbstractionRefinement.BitEncoding

/-!
# Decoding decision diagrams as formulas

A satisfying path fixes some bits of some symbols.  As a model it gives every
symbol a value, the bits it leaves open being zero.  As a formula it becomes a
conjunction that constrains each symbol to the offsets agreeing with its fixed
bits, and a diagram becomes the disjunction over all its paths.
-/

namespace AbstractionRefinement

namespace Encoder

/-- The offset whose bits are the positive literals of a path. -/
def offsetOnPath (path : List Int) (encoded : SymbolBits) : Nat :=
  encoded.bits.zipIdx.foldl
    (fun offset (level, position) =>
      if path.contains (level : Int) then offset + Nat.pow 2 position else offset)
    0

/-- The model given by a satisfying path. -/
def modelOfPath (encoder : Encoder) (path : List Int) (symbols : List Symbol) : Valuation :=
  .ofList (symbols.filterMap fun symbol =>
    (OrderedMap.find? symbol encoder.symbols).map fun encoded =>
      (symbol, encoded.domain.value (offsetOnPath path encoded)))

/-- The maximal intervals of consecutive numbers in an increasing list. -/
def intervals : List Nat → List (Nat × Nat)
  | [] => []
  | number :: numbers =>
      match intervals numbers with
      | (low, high) :: rest =>
          if number + 1 = low then (number, high) :: rest
          else (number, number) :: (low, high) :: rest
      | [] => [(number, number)]

/-- Construction inside decoding; a refused formula makes it inconclusive. -/
def decodeFormula {α : Type} (construction : Except FormulaError α) :
    Except UnknownCause α :=
  construction.mapError fun error => .unavailable error.message

/-- The constraint that a symbol has an offset between two others.  An interval
of integers that touches an end of the domain stays open there. -/
def decodeInterval (symbol : Symbol) (encoded : SymbolBits) (interval : Nat × Nat) :
    Except UnknownCause Expr := do
  let (low, high) := interval
  let operand := symbol.toExpr
  let literal (offset : Nat) : Expr := .lit (encoded.domain.value offset)
  if low = high then decodeFormula (Expr.mkEq operand (literal low))
  else
    match encoded.domain with
    | .int _ => do
        let lower ←
          if 0 < low then do
            pure [← decodeFormula (Expr.mkComparison .leq (literal low) operand)]
          else pure []
        let upper ←
          if high + 1 < encoded.size then do
            pure [← decodeFormula (Expr.mkComparison .leq operand (literal high))]
          else pure []
        decodeFormula (Expr.mkAnd (lower ++ upper))
    | _ => do
        let equations ← (List.range' low (high + 1 - low)).mapM fun offset =>
          decodeFormula (Expr.mkEq operand (literal offset))
        decodeFormula (Expr.mkOr equations)

/-- The constraint on a symbol that some of its bits are fixed as the literals
say, if it excludes any value. -/
def decodeSymbol (config : SolverConfig) (symbol : Symbol) (encoded : SymbolBits)
    (literals : List Int) : Except UnknownCause (Option Expr) := do
  if config.maxAtomAssignments < encoded.size then throw .resourceLimit
  let positions (sign : Int) : Nat :=
    encoded.bits.zipIdx.foldl
      (fun mask (level, position) =>
        if literals.contains (sign * level) then mask + Nat.pow 2 position else mask)
      0
  let ones := positions 1
  let fixed := ones ||| positions (-1)
  let offsets := (List.range encoded.size).filter fun offset => offset &&& fixed = ones
  if offsets.length = encoded.size then return none
  match encoded.domain with
  | .bool =>
      match offsets with
      | [1] => return some symbol.toExpr
      | [0] => return some (← decodeFormula (Expr.mkNot symbol.toExpr))
      | _ => return some .bottom
  | _ =>
      let parts ← (intervals offsets).mapM (decodeInterval symbol encoded)
      return some (← decodeFormula (Expr.mkOr parts))

/-- The literals of a path by the symbols that own their levels. -/
def groupByOwner (encoder : Encoder) :
    List Int → List (Symbol × List Int) → Except UnknownCause (List (Symbol × List Int))
  | [], groups => .ok groups
  | literal :: literals, groups =>
      match encoder.owners[literal.natAbs]? with
      | none => .error (.unavailable ("unowned BDD variable " ++ toString literal))
      | some owner =>
          let known := (OrderedMap.find? owner groups).getD []
          encoder.groupByOwner literals
            (OrderedMap.insert owner (known ++ [literal]) groups)

/-- The conjunction described by a path. -/
def decodePath (encoder : Encoder) (path : List Int) : Except UnknownCause Expr := do
  let groups ← encoder.groupByOwner path []
  let conjuncts ← groups.filterMapM fun (symbol, literals) =>
    match OrderedMap.find? symbol encoder.symbols with
    | some encoded => decodeSymbol encoder.config symbol encoded literals
    | none => .error (.unavailable ("no encoding for " ++ symbol.display))
  decodeFormula (Expr.mkAnd conjuncts)

/-- The disjunction of paths after some others, up to a valid one. -/
def decodePaths (encoder : Encoder) (disjuncts : List Expr) :
    List (List Int) → Except UnknownCause Expr
  | [] => decodeFormula (Expr.mkOr disjuncts)
  | path :: paths => do
      let disjunct ← encoder.decodePath path
      if disjunct.isTop then return .top
      else encoder.decodePaths (disjuncts ++ [disjunct]) paths

/-- A diagram over encoded symbols as a formula. -/
def decode (encoder : Encoder) (edge : Edge) : Except UnknownCause Expr :=
  match encoder.manager.paths? edge encoder.config.maxPaths with
  | none => .error .resourceLimit
  | some paths => encoder.decodePaths [] paths

end Encoder

end AbstractionRefinement
