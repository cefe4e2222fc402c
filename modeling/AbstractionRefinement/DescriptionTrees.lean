import AbstractionRefinement.FormulaErrors

/-!
# Description trees

Formulas, models and verification tasks are described from outside by trees of
truth values, numbers, texts, lists and records.  Reading a description either
succeeds, or finds it malformed, or finds a formula in it that is refused.  A
record field that is absent and one that is empty are the same.
-/

namespace AbstractionRefinement

/-- A tree that describes a formula, a model or a task. -/
inductive Description where
  | empty
  | truth (value : Bool)
  | number (value : Int)
  | text (content : String)
  | list (items : List Description)
  | record (fields : List (String × Description))
  | other
deriving Inhabited

/-- Why a description could not be read. -/
inductive ReadingError where
  | malformed
  | formula (error : FormulaError)
deriving DecidableEq, Inhabited

/-- The outcome of reading a description. -/
abbrev Reading := Except ReadingError

def malformed {α : Type} : Reading α :=
  .error .malformed

/-- A checked construction as part of reading. -/
def readFormula {α : Type} : Except FormulaError α → Reading α :=
  Except.mapError .formula

namespace Description

def isEmpty : Description → Bool
  | empty => true
  | _ => false

/-- The field of a record, if it is present. -/
def field? (description : Description) (name : String) : Option Description :=
  match description with
  | record fields =>
      match fields.lookup name with
      | some empty => none
      | found => found
  | _ => none

/-- The field of a record. -/
def field (description : Description) (name : String) : Reading Description :=
  match description.field? name with
  | some value => .ok value
  | none => malformed

/-- Whether a record has the field. -/
def hasField (description : Description) (name : String) : Bool :=
  (description.field? name).isSome

/-- Read an optional field, with a value for its absence. -/
def fieldOr {α : Type} (description : Description) (name : String)
    (read : Description → Reading α) (absent : α) : Reading α :=
  match description.field? name with
  | some value => read value
  | none => .ok absent

def asTruth : Description → Reading Bool
  | truth value => .ok value
  | _ => malformed

def asText : Description → Reading String
  | text content => .ok content
  | _ => malformed

def asList : Description → Reading (List Description)
  | list items => .ok items
  | _ => malformed

def asRecord : Description → Reading (List (String × Description))
  | record fields => .ok fields
  | _ => malformed

/-- An integer within bounds. -/
def asIntBetween (low high : Int) : Description → Reading Int
  | number value => if low ≤ value ∧ value ≤ high then .ok value else malformed
  | _ => malformed

/-- A signed 32-bit integer. -/
def asInt32 : Description → Reading Int :=
  asIntBetween (-2147483648) 2147483647

/-- A signed 64-bit integer. -/
def asInt64 : Description → Reading Int :=
  asIntBetween (-9223372036854775808) 9223372036854775807

/-- An unsigned 64-bit integer. -/
def asWord64 (description : Description) : Reading Nat :=
  return (← asIntBetween 0 18446744073709551615 description).toNat

/-- An unsigned 32-bit integer. -/
def asWord32 (description : Description) : Reading Nat :=
  return (← asIntBetween 0 4294967295 description).toNat

/-- A list whose items are read in order. -/
def asListOf {α : Type} (read : Description → Reading α) (description : Description) :
    Reading (List α) := do
  (← description.asList).mapM read

/-- A list field whose absence means no items. -/
def listField {α : Type} (description : Description) (name : String)
    (read : Description → Reading α) : Reading (List α) :=
  description.fieldOr name (asListOf read) []

end Description

end AbstractionRefinement
