import Std.Data.TreeMap

/-!
# Computed tables

A computed table remembers results of operations under the hash of their
operands.  It has `2 ^ bits` slots and is direct mapped: the low bits of a hash
select the slot, and a store evicts what the slot held.  A slot answers only to
the hash it was stored under.  Lookups are counted.
-/

namespace AbstractionRefinement

/-- The quotient rounded to the nearest number; a half goes to the even
neighbour. -/
def roundQuotient (numerator denominator : Nat) : Nat :=
  let quotient := numerator / denominator
  let twice := 2 * (numerator % denominator)
  if twice < denominator then quotient
  else if denominator < twice then quotient + 1
  else quotient + quotient % 2

/-- The binary fraction with 53 significant bits nearest to a positive quotient
below `2 ^ 52`, as a numerator and a number of fractional bits. -/
def nearestBinaryFraction (numerator denominator : Nat) : Nat × Nat :=
  let scale := 53 + denominator.log2 - numerator.log2
  let scale :=
    if numerator * Nat.pow 2 scale / denominator < Nat.pow 2 53 then scale else scale - 1
  (roundQuotient (numerator * Nat.pow 2 scale) denominator, scale)

/-- A part of a total in percent with one decimal: the nearest binary fraction
of the percentage, rounded to tenths. -/
def percentText (part total : Nat) : String :=
  let fraction :=
    if part = 0 then (0, 0) else nearestBinaryFraction (100 * part) total
  let tenths := roundQuotient (fraction.1 * 10) (Nat.pow 2 fraction.2)
  toString (tenths / 10) ++ "." ++ toString (tenths % 10) ++ "%"

/-- How often a lookup found its result. -/
structure LookupCounts where
  hits : Nat := 0
  misses : Nat := 0
deriving DecidableEq, Inhabited

/-- The written form of the counts. -/
def LookupCounts.display (counts : LookupCounts) : String :=
  let total := counts.hits + counts.misses
  if total = 0 then "no lookups"
  else
    toString counts.hits ++ " hits / " ++ toString total ++ " lookups (" ++
      percentText counts.hits total ++ ")"

/-- A direct-mapped table of results.  Only occupied slots are stored. -/
structure ComputedTable (β : Type) where
  mask : UInt64
  slots : Std.TreeMap UInt64 (UInt64 × β) := ∅
  counts : LookupCounts := {}

namespace ComputedTable

variable {β : Type}

/-- The greatest number of address bits of a table. -/
def maxBits : Nat := 31

/-- An empty table of `2 ^ bits` slots. -/
def new (bits : Nat) : ComputedTable β where
  mask := UInt64.ofNat (Nat.pow 2 bits - 1)

/-- The result stored for a hash, if its slot still holds it. -/
def peek (table : ComputedTable β) (hash : UInt64) : Option β :=
  match table.slots[hash &&& table.mask]? with
  | some (stored, result) => if stored = hash then some result else none
  | none => none

/-- Count a lookup. -/
def countLookup (table : ComputedTable β) (found : Bool) : ComputedTable β :=
  { table with
    counts :=
      if found then { table.counts with hits := table.counts.hits + 1 }
      else { table.counts with misses := table.counts.misses + 1 } }

/-- Look a hash up and count the lookup. -/
def lookup (table : ComputedTable β) (hash : UInt64) : Option β × ComputedTable β :=
  let found := table.peek hash
  (found, table.countLookup found.isSome)

/-- Store a result, evicting what its slot held. -/
def store (table : ComputedTable β) (hash : UInt64) (result : β) : ComputedTable β :=
  { table with slots := table.slots.insert (hash &&& table.mask) (hash, result) }

/-- Forget all results; the counts stay. -/
def clear (table : ComputedTable β) : ComputedTable β :=
  { table with slots := ∅ }

end ComputedTable

end AbstractionRefinement
