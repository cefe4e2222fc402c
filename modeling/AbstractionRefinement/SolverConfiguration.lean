import AbstractionRefinement.MachineIntegers
import AbstractionRefinement.OrderedCollections

/-!
# Configuration of the finite-domain solver

Integer symbols range over configured intervals.  When an unsatisfiable answer
is confirmed, every interval is stretched over the integer literals of the
query and then widened by a margin on both sides.
-/

namespace AbstractionRefinement

/-- Settings of the finite-domain solver. -/
structure SolverConfig where
  /-- Node limit of a session's decision diagrams. -/
  nodeLimit : Nat := 4194304
  /-- Address bits of a session's computed table. -/
  cacheBits : Nat := 16
  /-- Time limit of one check in milliseconds. -/
  timeout : Option Nat := none
  /-- Interval of integer variables without one of their own. -/
  defaultRange : Int × Int := (-16, 16)
  /-- Intervals by variable name. -/
  ranges : List (String × (Int × Int)) := []
  /-- Widening of intervals when an unsatisfiable answer is confirmed; zero
  trusts the configured intervals. -/
  margin : Int := 16
  maxBitVecWidth : Nat := 12
  /-- Greatest number of assignments enumerated for one atom. -/
  maxAtomAssignments : Nat := 65536
  /-- Greatest number of paths decoded into a formula. -/
  maxPaths : Nat := 4096
deriving DecidableEq, Inhabited

namespace SolverConfig

/-- Set the default interval; an empty one shrinks to its lower end. -/
def withDefaultRange (config : SolverConfig) (low high : Int) : SolverConfig :=
  { config with defaultRange := (low, max high low) }

/-- Set the interval of a variable; an empty one shrinks to its lower end. -/
def withRange (config : SolverConfig) (name : String) (low high : Int) : SolverConfig :=
  { config with ranges := OrderedMap.insert name (low, max high low) config.ranges }

/-- Set the margin; a negative one counts as zero. -/
def withMargin (config : SolverConfig) (margin : Int) : SolverConfig :=
  { config with margin := max margin 0 }

/-- The interval of an integer variable. -/
def rangeOf (config : SolverConfig) (name : String) : Int × Int :=
  (OrderedMap.find? name config.ranges).getD config.defaultRange

/-- A time limit of zero has passed as soon as it is set. -/
def timeoutPasses (config : SolverConfig) : Bool :=
  config.timeout = some 0

/-- An interval stretched over the literals and widened by the margin. -/
def widenRange (margin : Int) (literals : Option (Int × Int)) (range : Int × Int) :
    Int × Int :=
  let (low, high) :=
    match literals with
    | some (least, greatest) => (min range.1 least, max range.2 greatest)
    | none => range
  (saturateInt64 (low - margin), saturateInt64 (high + margin))

/-- The configuration with every interval widened. -/
def widened (config : SolverConfig) (literals : Option (Int × Int)) : SolverConfig :=
  { config with
    defaultRange := widenRange config.margin literals config.defaultRange
    ranges := config.ranges.map fun (name, range) =>
      (name, widenRange config.margin literals range) }

end SolverConfig

end AbstractionRefinement
