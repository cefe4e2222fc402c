/-!
# Ordered collections

Finite sets and maps over an ordered type are kept as lists that strictly
increase in the order of their elements or keys.  Two such lists with the same
members are equal, so equality of the lists is equality of the sets, and the
order in which members are listed is the order of the type.
-/

namespace AbstractionRefinement

/-- Lexicographic comparison of two lists; a list precedes its extensions. -/
def compareLists {α : Type} (order : α → α → Ordering) :
    List α → List α → Ordering
  | [], [] => .eq
  | [], _ :: _ => .lt
  | _ :: _, [] => .gt
  | first :: firsts, second :: seconds =>
      (order first second).then (compareLists order firsts seconds)

/-- Comparison of optional values; an absent value comes first. -/
def compareOptions {α : Type} (order : α → α → Ordering) :
    Option α → Option α → Ordering
  | none, none => .eq
  | none, some _ => .lt
  | some _, none => .gt
  | some first, some second => order first second

namespace OrderedSet

variable {α : Type} [Ord α]

/-- Add an element unless the set has it. -/
def insert (element : α) : List α → List α
  | [] => [element]
  | head :: tail =>
      match compare element head with
      | .lt => element :: head :: tail
      | .eq => head :: tail
      | .gt => head :: insert element tail

/-- The set of the listed elements. -/
def ofList (elements : List α) : List α :=
  elements.foldl (fun members element => insert element members) []

/-- Membership, decided along the order. -/
def contains (element : α) : List α → Bool
  | [] => false
  | head :: tail =>
      match compare element head with
      | .lt => false
      | .eq => true
      | .gt => contains element tail

/-- The elements of either set. -/
def union (first second : List α) : List α :=
  second.foldl (fun members element => insert element members) first

/-- Every element of the first set belongs to the second. -/
def isSubset (first second : List α) : Bool :=
  first.all fun element => contains element second

end OrderedSet

namespace OrderedMap

variable {κ β : Type} [Ord κ]

/-- The value stored for a key. -/
def find? (key : κ) : List (κ × β) → Option β
  | [] => none
  | (head, value) :: tail =>
      match compare key head with
      | .lt => none
      | .eq => some value
      | .gt => find? key tail

/-- Store a value for a key, replacing the old one. -/
def insert (key : κ) (value : β) : List (κ × β) → List (κ × β)
  | [] => [(key, value)]
  | (head, old) :: tail =>
      match compare key head with
      | .lt => (key, value) :: (head, old) :: tail
      | .eq => (head, value) :: tail
      | .gt => (head, old) :: insert key value tail

/-- Forget a key. -/
def erase (key : κ) : List (κ × β) → List (κ × β)
  | [] => []
  | (head, old) :: tail =>
      match compare key head with
      | .lt => (head, old) :: tail
      | .eq => tail
      | .gt => (head, old) :: erase key tail

/-- The map of the listed pairs; the last pair of a key wins. -/
def ofList (pairs : List (κ × β)) : List (κ × β) :=
  pairs.foldl (fun entries pair => insert pair.1 pair.2 entries) []

end OrderedMap

end AbstractionRefinement
