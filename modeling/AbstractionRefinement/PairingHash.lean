/-!
# Pairing of machine words

A pair of words is mapped to one word by the square-shell enumeration of pairs,
in arithmetic modulo `2 ^ 64`.  On words below `2 ^ 32` nothing wraps and the
map is injective.  A triple is a pair whose first component is a pair.
-/

namespace AbstractionRefinement

/-- The number of a pair in the square-shell enumeration. -/
def pairWords (first second : UInt64) : UInt64 :=
  if first < second then second * second + first
  else first * first + first + second

/-- The number of a triple. -/
def pairThreeWords (first second third : UInt64) : UInt64 :=
  pairWords (pairWords first second) third

end AbstractionRefinement
