import AbstractionRefinement.Analyses
import AbstractionRefinement.DifferenceBounds

/-!
# Clock zones

A zone is a conjunction of difference constraints over the tracked clocks.  It
is stored as a matrix of bounds: the entry in row `i` and column `j` bounds the
difference of clock `i` and clock `j`, where number zero stands for the constant
zero.  Operations leave the matrix in canonical form, in which every bound is
the tightest one.  Clock constraints are handled here exactly and take no part
in the formulas of states and actions.
-/

namespace AbstractionRefinement

/-- A matrix of difference bounds over some clocks. -/
structure Zone where
  clocks : List VarDecl
  rows : List (List Bound)
deriving DecidableEq, Inhabited

namespace Zone

/-- Number of rows and columns. -/
def dimension (zone : Zone) : Nat :=
  zone.clocks.length + 1

/-- The bound in a row and column. -/
def get (zone : Zone) (row column : Nat) : Bound :=
  (zone.rows.getD row []).getD column .zero

/-- The bound with a number, when entries are counted row after row. -/
def bound? (zone : Zone) (number : Nat) : Option Bound :=
  zone.rows.flatten[number]?

/-- The matrix with the given entries. -/
def tabulate (clocks : List VarDecl) (entry : Nat → Nat → Bound) : Zone :=
  let indices := List.range (clocks.length + 1)
  ⟨clocks, indices.map fun row => indices.map fun column => entry row column⟩

/-- The matrix with every entry replaced. -/
def mapEntries (zone : Zone) (entry : Nat → Nat → Bound → Bound) : Zone :=
  tabulate zone.clocks fun row column => entry row column (zone.get row column)

/-- A matrix with non-negative clocks, zero on the diagonal and one bound
elsewhere. -/
def filled (clocks : List VarDecl) (bound : Bound) : Zone :=
  tabulate clocks fun row column => if row = column ∨ row = 0 then .zero else bound

/-- All clocks are zero. -/
def origin (clocks : List VarDecl) : Zone :=
  filled clocks .zero

/-- All clocks are non-negative. -/
def top (clocks : List VarDecl) : Zone :=
  filled clocks .infinity

/-- The number of a clock, from one on. -/
def indexOf? (zone : Zone) (clock : VarDecl) : Option Nat :=
  (zone.clocks.findIdx? (· = clock)).map (· + 1)

/-- Tighten a row by the detours over a clock.  The detours start with the
entry the row had before. -/
def relaxRow (via : Nat) (zone : Zone) (row : Nat) : Zone :=
  let first := zone.get row via
  if first.isInfinite then zone
  else
    let tightened :=
      List.zipWith
        (fun direct second =>
          let detour := first.add second
          if detour < direct then detour else direct)
        (zone.rows.getD row []) (zone.rows.getD via [])
    { zone with rows := zone.rows.set row tightened }

/-- Tighten every row by the detours over a clock, row after row. -/
def relaxAll (zone : Zone) (via : Nat) : Zone :=
  (List.range zone.dimension).foldl (relaxRow via) zone

/-- The tightest bounds, by allowing detours over one clock after the other. -/
def canonize (zone : Zone) : Zone :=
  (List.range zone.dimension).foldl relaxAll zone

/-- A canonical matrix is contradictory when a diagonal bound is below zero. -/
def isEmpty (zone : Zone) : Bool :=
  (List.range zone.dimension).any fun index => zone.get index index < .zero

/-- Drop the upper bounds of all clocks. -/
def up (zone : Zone) : Zone :=
  zone.mapEntries fun row column bound =>
    if column = 0 ∧ row ≠ 0 then .infinity else bound

/-- Set a clock to a value; an untracked clock has no effect. -/
def reset (zone : Zone) (clock : VarDecl) (value : Int) : Zone :=
  match zone.indexOf? clock with
  | none => zone
  | some index =>
      zone.mapEntries fun row column bound =>
        if row = index ∧ column = index then .zero
        else if row = index then (Bound.atMost value).add (zone.get 0 column)
        else if column = index then (zone.get row 0).add (.atMost (-value))
        else bound

/-- The number of one side of a constraint, unless its clock is untracked. -/
def sideIndex? (zone : Zone) : Option VarDecl → Option Nat
  | none => some 0
  | some clock => zone.indexOf? clock

/-- Conjoin a constraint; one over untracked clocks has no effect. -/
def constrain (zone : Zone) (constraint : ClockConstraint) : Zone :=
  match zone.sideIndex? constraint.left, zone.sideIndex? constraint.right with
  | some left, some right =>
      zone.mapEntries fun row column bound =>
        if row = left ∧ column = right ∧ constraint.toBound < bound then constraint.toBound
        else bound
  | _, _ => zone

/-- Inclusion of canonical matrices. -/
def leq (zone other : Zone) : Bool :=
  zone.isEmpty ||
    (zone.clocks = other.clocks &&
      (List.range zone.dimension).all fun row =>
        (List.range zone.dimension).all fun column =>
          zone.get row column ≤ other.get row column)

/-- The greatest constant that matters for each clock. -/
abbrev ClockConstants := List (VarDecl × Int)

/-- The constant of a row or column; the constant zero has zero. -/
def constantAt (zone : Zone) (constants : ClockConstants) : Nat → Option Int
  | 0 => some 0
  | index + 1 => do OrderedMap.find? (← zone.clocks[index]?) constants

/-- Forget bounds beyond the greatest constants: an upper bound above the
constant of its row is dropped, and a lower bound beyond the constant of its
column is weakened to it.  Clocks without a constant keep their bounds. -/
def extrapolate (zone : Zone) (constants : ClockConstants) : Zone :=
  let weakened := zone.mapEntries fun row column bound =>
    if row = column ∨ bound.isInfinite then bound
    else
      let exceeds : Bool :=
        match zone.constantAt constants row with
        | some greatest => row ≠ 0 && Bound.atMost greatest < bound
        | none => false
      if exceeds then .infinity
      else
        match zone.constantAt constants column with
        | some greatest =>
            if column ≠ 0 ∧ bound < .below (-greatest) then .below (-greatest) else bound
        | none => bound
  weakened.canonize

/-- Apply a clock operation and restore the canonical form. -/
def apply (zone : Zone) (operation : ClockOperation) : Zone :=
  let changed :=
    match operation with
    | .guard constraint | .invariant constraint => zone.constrain constraint
    | .reset clock value => zone.reset clock value
    | .delay => zone.up
  changed.canonize

/-- The written form of a matrix: its bounds row by row, without the diagonal,
the infinite ones and the lower bounds by zero. -/
def display (zone : Zone) : String :=
  let name : Nat → String
    | 0 => "0"
    | index + 1 => (zone.clocks.getD index default).name
  let indices := List.range zone.dimension
  let entries := indices.flatMap fun row => indices.filterMap fun column =>
    let bound := zone.get row column
    if row = column ∨ bound.isInfinite ∨ (row = 0 ∧ bound = .zero) then none
    else if column = 0 then some (name row ++ " " ++ bound.display)
    else some (name row ++ " - " ++ name column ++ " " ++ bound.display)
  "[" ++ ", ".intercalate entries ++ "]"

end Zone

/-- The set of tracked clocks. -/
structure ZonePrecision where
  clocks : List VarDecl := []
deriving DecidableEq, Inhabited

namespace ZonePrecision

def ofList (clocks : List VarDecl) : ZonePrecision :=
  ⟨OrderedSet.ofList clocks⟩

instance : Precision ZonePrecision where
  join first second := ⟨OrderedSet.union first.clocks second.clocks⟩
  size precision := precision.clocks.length

instance : Display ZonePrecision :=
  ⟨fun precision => displaySet (precision.clocks.map VarDecl.name)⟩

end ZonePrecision

/-- A zone, or no state at all. -/
inductive ZoneState where
  | bottom
  | zone (bounds : Zone)
deriving DecidableEq, Inhabited

namespace ZoneState

/-- The state of a canonical matrix. -/
def ofZone (bounds : Zone) : ZoneState :=
  if bounds.isEmpty then bottom else zone bounds

instance : ExprState ZoneState where
  toExpr
    | bottom => .bottom
    | zone _ => .top

instance : Display ZoneState where
  display
    | bottom => bottomText
    | zone bounds => bounds.display

/-- A state is subsumed by one that includes it. -/
def leq : ZoneState → ZoneState → Bool
  | bottom, _ => true
  | _, bottom => false
  | zone first, zone second => first.leq second

/-- The domain of zones, without joins. -/
def domain : Domain ZoneState ZonePrecision where
  top precision := zone (.top precision.clocks)
  isBottom state := state = bottom
  leq _ := leq
  join _ _ _ := none
  hasExactJoin := false

/-- All clocks start at zero, and time elapses within the invariants. -/
def initialZone (invariants : List ClockConstraint) (precision : ZonePrecision) : Zone :=
  let restrict (bounds : Zone) : Zone :=
    invariants.foldl (fun bounds constraint => bounds.apply (.invariant constraint)) bounds
  restrict ((restrict (.origin precision.clocks)).apply .delay)

/-- Apply clock operations one after the other, as long as the zone is not
empty. -/
def applyAll (bounds : Zone) : List ClockOperation → Option Zone
  | [] => some bounds
  | operation :: operations =>
      let bounds := bounds.apply operation
      if bounds.isEmpty then none else applyAll bounds operations

/-- The greatest constants read off some constraints. -/
def constantsOf (constraints : List ClockConstraint) : Zone.ClockConstants :=
  constraints.foldl
    (fun constants constraint =>
      constraint.clocks.foldl
        (fun constants clock =>
          let known := (OrderedMap.find? clock constants).getD 0
          OrderedMap.insert clock (max known (constraint.bound.natAbs : Int)) constants)
        constants)
    []

/-- The zone analysis: the clock operations of an action are applied, and the
result is extrapolated with the greatest constants. -/
def analysis {ω α : Type} [ClockAction α] (invariants : List ClockConstraint)
    (constants : Zone.ClockConstants) : Analysis ω ZoneState α ZonePrecision where
  toDomain := domain
  initialStates precision :=
    match ofZone (initialZone invariants precision) with
    | bottom => return []
    | state => return [state]
  successors _ state action :=
    match state with
    | bottom => return []
    | zone bounds =>
        match applyAll bounds (ClockAction.clockOperations action) with
        | none => return []
        | some result => return [ofZone (result.extrapolate constants)]

end ZoneState

end AbstractionRefinement
