import AbstractionRefinement.DescriptionTrees
import AbstractionRefinement.TimeIndexing

/-!
# Descriptions of formulas

A literal describes itself, a text names a variable, and a list applies the
operator named first to the operands that follow.  Operands are read from left
to right before the operator is looked at, and every node is built by its
checked constructor.
-/

namespace AbstractionRefinement

/-- The variables a description may speak about, by the key it uses. -/
abbrev Vocabulary := List (String × VarDecl)

/-- A type. -/
def Ty.ofDescription : Description → Reading Ty
  | .text "Bool" => .ok .bool
  | .text "Int" => .ok .int
  | .text "Rat" => .ok .rat
  | .list [.text "bv", width] => return .bitVec (← width.asWord32)
  | .list [.text "array", index, element] => do
      let index ← Ty.ofDescription index
      return .array index (← Ty.ofDescription element)
  | _ => malformed

/-- A number: its numerator, with its denominator unless that is one.  The
denominator zero gives no number. -/
def RationalNumber.ofDescription : Description → Reading (Option RationalNumber)
  | .list [num] => return some (.integer (← num.asInt64))
  | .list [num, den] => do
      let num ← num.asInt64
      return normalize num (← den.asInt64)
  | _ => malformed

/-- A variable under its key, or a record of its name and type. -/
def VarDecl.ofDescription (key : String) (description : Description) : Reading VarDecl := do
  match description with
  | .record _ => do
      let name ← (← description.field "name").asText
      return ⟨name, ← Ty.ofDescription (← description.field "type")⟩
  | _ => return ⟨key, ← Ty.ofDescription description⟩

namespace Vocabulary

/-- The variables declared by a record. -/
def ofDescription (description : Description) : Reading Vocabulary := do
  (← description.asRecord).mapM fun (key, declared) =>
    return (key, ← VarDecl.ofDescription key declared)

def ofKey (vocabulary : Vocabulary) (key : String) : Reading VarDecl :=
  match vocabulary.lookup key with
  | some decl => .ok decl
  | none => malformed

/-- The variable named by a description. -/
def var (vocabulary : Vocabulary) (description : Description) : Reading VarDecl := do
  vocabulary.ofKey (← description.asText)

/-- A list of variables. -/
def vars (vocabulary : Vocabulary) : Description → Reading (List VarDecl) :=
  Description.asListOf vocabulary.var

/-- A record from variables to what is read for each. -/
def perVar {α : Type} (vocabulary : Vocabulary) (read : Description → Reading α)
    (description : Description) : Reading (List (VarDecl × α)) := do
  (← description.asRecord).mapM fun (key, value) => do
    let decl ← vocabulary.ofKey key
    return (decl, ← read value)

end Vocabulary

namespace Expr

/-- The operator a text names between two operands. -/
def binaryNamed : String → Option BinaryOperator
  | "=>" => some .imply
  | "iff" => some .iff
  | "=" => some .eq
  | "/=" => some .neq
  | "<" => some .lt
  | "<=" => some .leq
  | ">" => some .gt
  | ">=" => some .geq
  | "-" => some .sub
  | "div" => some .div
  | "mod" => some .mod
  | "read" => some .read
  | "bvand" => some .bvAnd
  | "bvor" => some .bvOr
  | "bvxor" => some .bvXor
  | "bvadd" => some .bvAdd
  | "bvult" => some .bvUlt
  | _ => none

/-- Apply the operator a text names. -/
def applyNamed (operator : String) (operands : List Expr) : Reading Expr :=
  match operator, operands with
  | "and", _ => readFormula (mkAnd operands)
  | "or", _ => readFormula (mkOr operands)
  | "+", _ => readFormula (mkAdd operands)
  | "*", _ => readFormula (mkMul operands)
  | "'", [operand] => readFormula (mkPrime operand)
  | "not", [operand] => readFormula (mkNot operand)
  | "-", [operand] => readFormula (mkNegate operand)
  | "bvnot", [operand] => readFormula (mkBvNot operand)
  | "ite", [condition, positive, negative] =>
      readFormula (mkIte condition positive negative)
  | "write", [array, index, element] => readFormula (mkWrite array index element)
  | _, [left, right] =>
      match binaryNamed operator with
      | some named => readFormula (mkBinary named left right)
      | none => malformed
  | _, _ => malformed

/-- A value is a formula that turns out to be a literal. -/
def toValue (formula : Expr) : Reading Value :=
  match formula.asLiteral with
  | some value => .ok value
  | none => malformed

mutual

/-- A formula. -/
def ofDescription (vocabulary : Vocabulary) : Description → Reading Expr
  | .truth value => .ok (.ofBool value)
  | .number value => return .ofInt (← (Description.number value).asInt64)
  | .text name => return (← vocabulary.ofKey name).toExpr
  | .list (.text "@" :: operands) =>
      match operands with
      | [name, step] => do
          let decl ← vocabulary.var name
          return decl.atStep (← step.asWord32)
      | _ => malformed
  | .list (.text "rat" :: operands) =>
      match operands with
      | [num, den] => do
          let num ← num.asInt64
          readFormula (ofRatio num (← den.asInt64))
      | _ => malformed
  | .list (.text "bv" :: operands) =>
      match operands with
      | [bits, width] => do
          let bits ← bits.asWord64
          readFormula (ofBits bits (← width.asWord32))
      | _ => malformed
  | .list (.text "arr" :: index :: default :: entries) => do
      let index ← Ty.ofDescription index
      let default ← (← ofDescription vocabulary default).toValue
      match entries with
      | [] | [.empty] => return .lit (.constantArray index default)
      | [.list entries] =>
          return .lit (← storeAll vocabulary (.constantArray index default) entries)
      | _ => malformed
  | .list (.text "prime_n" :: operands) =>
      match operands with
      | [operand, count] => do
          let operand ← ofDescription vocabulary operand
          readFormula (operand.mkPrimes (← count.asWord32))
      | _ => malformed
  | .list (.text operator :: operands) => do
      applyNamed operator (← ofDescriptions vocabulary operands)
  | _ => malformed

/-- Several formulas. -/
def ofDescriptions (vocabulary : Vocabulary) : List Description → Reading (List Expr)
  | [] => .ok []
  | operand :: operands => do
      let operand ← ofDescription vocabulary operand
      return operand :: (← ofDescriptions vocabulary operands)

/-- An array with the listed elements stored one after the other. -/
def storeAll (vocabulary : Vocabulary) (array : Value) : List Description → Reading Value
  | [] => .ok array
  | .list [index, element] :: entries => do
      let index ← (← ofDescription vocabulary index).toValue
      let element ← (← ofDescription vocabulary element).toValue
      storeAll vocabulary ((array.store index element).getD array) entries
  | _ => malformed

end

end Expr

/-- A value. -/
def Value.ofDescription (vocabulary : Vocabulary) (description : Description) :
    Reading Value := do
  (← Expr.ofDescription vocabulary description).toValue

/-- A symbol. -/
def Symbol.ofDescription (vocabulary : Vocabulary) (description : Description) :
    Reading Symbol := do
  match (← Expr.ofDescription vocabulary description).asSymbol with
  | some symbol => return symbol
  | none => malformed

/-- A valuation: a record of unindexed variables, or a list of pairs. -/
def Valuation.ofDescription (vocabulary : Vocabulary) (description : Description) :
    Reading Valuation := do
  match description with
  | .record _ => do
      let pairs ← vocabulary.perVar (Value.ofDescription vocabulary) description
      return .ofList (pairs.map fun (decl, value) => (⟨decl, none⟩, value))
  | _ => do
      let pairs ← description.asListOf fun
        | .list [symbol, value] => do
            let symbol ← Symbol.ofDescription vocabulary symbol
            return (symbol, ← Value.ofDescription vocabulary value)
        | _ => malformed
      return .ofList pairs

/-- An indexing: the default step, and optionally a record of offsets. -/
def Indexing.ofDescription (vocabulary : Vocabulary) (description : Description) :
    Reading Indexing := do
  match description with
  | .list [default] | .list [default, .empty] => return .constant (← default.asWord32)
  | .list [default, offsets] => do
      let start := Indexing.constant (← default.asWord32)
      let offsets ← vocabulary.perVar Description.asWord32 offsets
      return offsets.foldl (fun indexing (decl, step) => indexing.withOffset decl step) start
  | _ => malformed

end AbstractionRefinement
