import AbstractionRefinement.FormulaErrors
import AbstractionRefinement.OrderedCollections
import AbstractionRefinement.RationalNumbers

/-!
# Values of formulas

A value is a truth value, an integer, a rational number, a bitvector or an
array.  An array maps every index to an element: it stores a default element
and the finitely many entries that differ from it, in the order of their
indices.  Values are compared by their representation.
-/

namespace AbstractionRefinement

/-- The value of a formula.  A bitvector is a number below `2 ^ width`. -/
inductive Value where
  | bool (truth : Bool)
  | int (number : Int)
  | rat (number : RationalNumber)
  | bitVec (bits width : Nat)
  | array (index : Ty) (default : Value) (entries : List (Value × Value))
deriving Inhabited

namespace Value

/-- The type of a value.  The element type of an array is that of its default
element. -/
def ty : Value → Ty
  | bool _ => .bool
  | int _ => .int
  | rat _ => .rat
  | bitVec _ width => .bitVec width
  | array index default _ => .array index default.ty

/-- Position of the constructor in the order of values. -/
def rank : Value → Nat
  | bool _ => 0
  | int _ => 1
  | rat _ => 2
  | bitVec .. => 3
  | array .. => 4

mutual

/-- The order of values: by constructor, then by content. -/
def compareWith : Value → Value → Ordering
  | bool first, bool second => compare first second
  | int first, int second => compare first second
  | rat first, rat second => compare first second
  | bitVec bits width, bitVec bits' width' =>
      (compare bits bits').then (compare width width')
  | array index default entries, array index' default' entries' =>
      ((compare index index').then (compare default.ty default'.ty)).then
        ((compareWith default default').then (compareEntries entries entries'))
  | first, second => compare first.rank second.rank

/-- The lexicographic order of stored array entries. -/
def compareEntries : List (Value × Value) → List (Value × Value) → Ordering
  | [], [] => .eq
  | [], _ :: _ => .lt
  | _ :: _, [] => .gt
  | (index, element) :: entries, (index', element') :: entries' =>
      ((compareWith index index').then (compareWith element element')).then
        (compareEntries entries entries')

end

instance : Ord Value := ⟨compareWith⟩

mutual

/-- Equality of values is decidable. -/
def decideEq : (first second : Value) → Decidable (first = second)
  | bool first, bool second =>
      if equal : first = second then isTrue (by rw [equal]) else isFalse (by simp [equal])
  | int first, int second =>
      if equal : first = second then isTrue (by rw [equal]) else isFalse (by simp [equal])
  | rat first, rat second =>
      if equal : first = second then isTrue (by rw [equal]) else isFalse (by simp [equal])
  | bitVec bits width, bitVec bits' width' =>
      if equal : bits = bits' ∧ width = width' then isTrue (by rw [equal.1, equal.2])
      else isFalse (by simpa using equal)
  | array index default entries, array index' default' entries' =>
      if sameIndex : index = index' then
        match decideEq default default', decideEqEntries entries entries' with
        | isTrue sameDefault, isTrue sameEntries =>
            isTrue (by rw [sameIndex, sameDefault, sameEntries])
        | isFalse differs, _ => isFalse (by simp [differs])
        | _, isFalse differs => isFalse (by simp [differs])
      else isFalse (by simp [sameIndex])
  | bool _, int _ | bool _, rat _ | bool _, bitVec .. | bool _, array ..
  | int _, bool _ | int _, rat _ | int _, bitVec .. | int _, array ..
  | rat _, bool _ | rat _, int _ | rat _, bitVec .. | rat _, array ..
  | bitVec .., bool _ | bitVec .., int _ | bitVec .., rat _ | bitVec .., array ..
  | array .., bool _ | array .., int _ | array .., rat _ | array .., bitVec .. =>
      isFalse (by simp)

/-- Equality of stored array entries is decidable. -/
def decideEqEntries : (first second : List (Value × Value)) → Decidable (first = second)
  | [], [] => isTrue rfl
  | [], _ :: _ => isFalse (by simp)
  | _ :: _, [] => isFalse (by simp)
  | (index, element) :: entries, (index', element') :: entries' =>
      match decideEq index index', decideEq element element',
          decideEqEntries entries entries' with
      | isTrue sameIndex, isTrue sameElement, isTrue sameEntries =>
          isTrue (by rw [sameIndex, sameElement, sameEntries])
      | isFalse differs, _, _ => isFalse (by simp [differs])
      | _, isFalse differs, _ => isFalse (by simp [differs])
      | _, _, isFalse differs => isFalse (by simp [differs])

end

instance : DecidableEq Value := decideEq

/-- The bitvector of a number, reduced to its width. -/
def ofBits (bits width : Nat) : Except FormulaError Value :=
  if width = 0 ∨ 64 < width then .error (.bitVecWidth width)
  else .ok (.bitVec (bits % Nat.pow 2 width) width)

def asBool : Value → Option Bool
  | bool truth => some truth
  | _ => none

def asInt : Value → Option Int
  | int number => some number
  | _ => none

/-- Numeric comparison of two integers or of two rational numbers. -/
def compareNumeric : Value → Value → Option Ordering
  | int first, int second => some (compare first second)
  | rat first, rat second => some (first.compareNumeric second)
  | _, _ => none

/-- The array whose every element is the default. -/
def constantArray (index : Ty) (default : Value) : Value :=
  .array index default []

/-- The element of an array at an index. -/
def select : Value → Value → Option Value
  | array _ default entries, index =>
      some ((OrderedMap.find? index entries).getD default)
  | _, _ => none

/-- The array with one element replaced.  Writing the default element forgets
the entry, so that an entry always differs from the default. -/
def store : Value → Value → Value → Option Value
  | array indexTy default entries, index, element =>
      some (.array indexTy default
        (if element = default then OrderedMap.erase index entries
         else OrderedMap.insert index element entries))
  | _, _, _ => none

mutual

/-- The written form of a value. -/
def display : Value → String
  | bool truth => if truth then "true" else "false"
  | int number => toString number
  | rat number => number.display
  | bitVec bits width => toString bits ++ "bv" ++ toString width
  | array _ default entries =>
      "(array" ++ displayEntries entries ++ " default<-" ++ default.display ++ ")"

/-- The written form of stored array entries, each after a blank. -/
def displayEntries : List (Value × Value) → String
  | [] => ""
  | (index, element) :: entries =>
      " " ++ index.display ++ "<-" ++ element.display ++ displayEntries entries

end

instance : ToString Value := ⟨display⟩

end Value

end AbstractionRefinement
