/-!
# Types of formulas

Every formula has a type.  Types are ordered by their constructor first and by
their parameters next; the order is used wherever formulas are kept in ordered
collections.
-/

namespace AbstractionRefinement

/-- The type of a formula or of a value. -/
inductive Ty where
  | bool
  | int
  | rat
  | bitVec (width : Nat)
  | array (index element : Ty)
deriving DecidableEq, Inhabited

namespace Ty

/-- Integers and rationals carry arithmetic and a linear order. -/
def isNumeric : Ty → Bool
  | int | rat => true
  | _ => false

def isBool : Ty → Bool
  | bool => true
  | _ => false

def isBitVec : Ty → Bool
  | bitVec _ => true
  | _ => false

/-- Position of the outermost constructor in the order of types. -/
def rank : Ty → Nat
  | bool => 0
  | int => 1
  | rat => 2
  | bitVec _ => 3
  | array .. => 4

/-- The order of types. -/
def compareWith : Ty → Ty → Ordering
  | bitVec first, bitVec second => compare first second
  | array index element, array index' element' =>
      (index.compareWith index').then (element.compareWith element')
  | first, second => compare first.rank second.rank

instance : Ord Ty := ⟨compareWith⟩

/-- The written form of a type. -/
def display : Ty → String
  | bool => "Bool"
  | int => "Int"
  | rat => "Rat"
  | bitVec width => "BitVec[" ++ toString width ++ "]"
  | array index element => "Array[" ++ index.display ++ " -> " ++ element.display ++ "]"

instance : ToString Ty := ⟨display⟩

end Ty

end AbstractionRefinement
