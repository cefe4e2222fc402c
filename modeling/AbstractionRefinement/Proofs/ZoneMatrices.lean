import AbstractionRefinement.ClockZones

/-!
# Entries of zones

Every operation on a square matrix gives a square matrix over the same clocks.  This file
says what the entries of the result are, and takes the canonical form apart into single
relaxations of a row.
-/

namespace AbstractionRefinement

namespace Zone

variable {zone : Zone} {row column via : Nat}

/-- There are as many rows and columns as the clocks ask for. -/
structure Square (zone : Zone) : Prop where
  rows : zone.rows.length = zone.dimension
  columns : ∀ entries ∈ zone.rows, entries.length = zone.dimension

instance (zone : Zone) : Decidable zone.Square :=
  decidable_of_iff (zone.rows.length = zone.dimension ∧
      ∀ entries ∈ zone.rows, entries.length = zone.dimension)
    ⟨fun ⟨rows, columns⟩ => ⟨rows, columns⟩, fun square => ⟨square.rows, square.columns⟩⟩

theorem square_tabulate (clocks : List VarDecl) (entry : Nat → Nat → Bound) :
    (tabulate clocks entry).Square where
  rows := by simp [tabulate, dimension]
  columns := by simp [tabulate, dimension]

theorem get_tabulate {clocks : List VarDecl} (entry : Nat → Nat → Bound)
    (inRow : row < clocks.length + 1) (inColumn : column < clocks.length + 1) :
    (tabulate clocks entry).get row column = entry row column := by
  simp [tabulate, get, inRow, inColumn]

@[simp] theorem clocks_mapEntries (zone : Zone) (entry : Nat → Nat → Bound → Bound) :
    (zone.mapEntries entry).clocks = zone.clocks :=
  rfl

@[simp] theorem dimension_mapEntries (zone : Zone) (entry : Nat → Nat → Bound → Bound) :
    (zone.mapEntries entry).dimension = zone.dimension :=
  rfl

theorem square_mapEntries (zone : Zone) (entry : Nat → Nat → Bound → Bound) :
    (zone.mapEntries entry).Square :=
  square_tabulate ..

theorem get_mapEntries (entry : Nat → Nat → Bound → Bound) (inRow : row < zone.dimension)
    (inColumn : column < zone.dimension) :
    (zone.mapEntries entry).get row column = entry row column (zone.get row column) :=
  get_tabulate _ inRow inColumn

/-- The effect of a clock operation before the canonical form is restored. -/
def changed (zone : Zone) : ClockOperation → Zone
  | .guard constraint | .invariant constraint => zone.constrain constraint
  | .reset clock value => zone.reset clock value
  | .delay => zone.up

theorem apply_eq (zone : Zone) (operation : ClockOperation) :
    zone.apply operation = (zone.changed operation).canonize := by
  cases operation <;> rfl

theorem constrain_cases (zone : Zone) (constraint : ClockConstraint) :
    zone.constrain constraint = zone ∨ ∃ left right, zone.constrain constraint =
      zone.mapEntries fun row column bound =>
        if row = left ∧ column = right ∧ constraint.toBound < bound then constraint.toBound
        else bound := by
  unfold constrain
  split
  · exact .inr ⟨_, _, rfl⟩
  · exact .inl rfl

theorem square_constrain (square : zone.Square) (constraint : ClockConstraint) :
    (zone.constrain constraint).Square := by
  rcases zone.constrain_cases constraint with same | ⟨left, right, same⟩
  · rwa [same]
  · rw [same]
    exact square_mapEntries ..

theorem clocks_constrain (zone : Zone) (constraint : ClockConstraint) :
    (zone.constrain constraint).clocks = zone.clocks := by
  rcases zone.constrain_cases constraint with same | ⟨left, right, same⟩ <;> rw [same]
  rfl

theorem square_reset (square : zone.Square) (clock : VarDecl) (value : Int) :
    (zone.reset clock value).Square := by
  unfold reset
  split
  · exact square
  · exact square_mapEntries ..

theorem clocks_reset (zone : Zone) (clock : VarDecl) (value : Int) :
    (zone.reset clock value).clocks = zone.clocks := by
  unfold reset
  split <;> rfl

theorem square_changed (square : zone.Square) (operation : ClockOperation) :
    (zone.changed operation).Square := by
  cases operation with
  | guard constraint | invariant constraint => exact square_constrain square constraint
  | reset clock value => exact square_reset square clock value
  | delay => exact square_mapEntries ..

theorem clocks_changed (zone : Zone) (operation : ClockOperation) :
    (zone.changed operation).clocks = zone.clocks := by
  cases operation with
  | guard constraint | invariant constraint => exact clocks_constrain zone constraint
  | reset clock value => exact clocks_reset zone clock value
  | delay => rfl

/-- A bound without what exceeds the greatest constants of its row and column. -/
def weakenedBound (upper lower : Option Int) (row column : Nat) (bound : Bound) : Bound :=
  if row = column ∨ bound.isInfinite then bound
  else if upper.any fun greatest => row ≠ 0 && Bound.atMost greatest < bound then .infinity
  else
    match lower with
    | some greatest =>
        if column ≠ 0 ∧ bound < .below (-greatest) then .below (-greatest) else bound
    | none => bound

/-- Extrapolation before the canonical form is restored. -/
def weakened (zone : Zone) (constants : ClockConstants) : Zone :=
  zone.mapEntries fun row column =>
    weakenedBound (zone.constantAt constants row) (zone.constantAt constants column) row column

theorem extrapolate_eq (zone : Zone) (constants : ClockConstants) :
    zone.extrapolate constants = (zone.weakened constants).canonize := by
  unfold extrapolate weakened
  dsimp only
  congr 2
  funext row column bound
  unfold weakenedBound
  cases zone.constantAt constants row <;> rfl

theorem constantAt_congr {other : Zone} (sameClocks : zone.clocks = other.clocks)
    (constants : ClockConstants) (index : Nat) :
    zone.constantAt constants index = other.constantAt constants index := by
  cases index with
  | zero => rfl
  | succ index => rw [constantAt, constantAt, sameClocks]

/-- The lower one of two bounds, the second one if they are equal. -/
def tighterBound (first second : Bound) : Bound :=
  if first < second then first else second

/-- The rows to relax one after the other, each with the clock of the detours. -/
def relaxations (zone : Zone) : List (Nat × Nat) :=
  (List.range zone.dimension).flatMap fun via =>
    (List.range zone.dimension).map fun row => (via, row)

def relaxed (zone : Zone) (steps : List (Nat × Nat)) : Zone :=
  steps.foldl (fun zone step => zone.relaxRow step.1 step.2) zone

variable (zone row via) in
@[simp] theorem clocks_relaxRow : (zone.relaxRow via row).clocks = zone.clocks := by
  unfold relaxRow
  dsimp only
  split <;> rfl

variable (zone row via) in
@[simp] theorem dimension_relaxRow : (zone.relaxRow via row).dimension = zone.dimension := by
  unfold dimension
  rw [clocks_relaxRow]

theorem Square.length_getD (square : zone.Square) (inRow : row < zone.dimension) :
    (zone.rows.getD row []).length = zone.dimension := by
  have inRow' : row < zone.rows.length := square.rows.symm ▸ inRow
  rw [List.getD_eq_getElem?_getD, List.getElem?_eq_getElem inRow', Option.getD_some]
  exact square.columns _ (List.getElem_mem inRow')

theorem square_relaxRow (square : zone.Square) (inRow : row < zone.dimension)
    (inVia : via < zone.dimension) : (zone.relaxRow via row).Square := by
  have tightened : ∀ combine : Bound → Bound → Bound, (List.zipWith combine
      (zone.rows.getD row []) (zone.rows.getD via [])).length = zone.dimension := fun combine => by
    rw [List.length_zipWith, square.length_getD inRow, square.length_getD inVia, Nat.min_self]
  unfold relaxRow
  dsimp only
  split
  · exact square
  · refine ⟨(List.length_set ..).trans square.rows, fun entries member => ?_⟩
    rcases List.mem_or_eq_of_mem_set member with kept | rfl
    · exact square.columns entries kept
    · exact tightened _

theorem getD_set_self {rows : List (List Bound)} (inRow : row < rows.length)
    (entries : List Bound) : (rows.set row entries).getD row [] = entries := by
  rw [List.getD_eq_getElem?_getD, List.getElem?_set_self inRow, Option.getD_some]

theorem getD_set_ne {rows : List (List Bound)} {index : Nat} (differ : index ≠ row)
    (entries : List Bound) : (rows.set row entries).getD index [] = rows.getD index [] := by
  rw [List.getD_eq_getElem?_getD, List.getElem?_set_ne differ.symm, ← List.getD_eq_getElem?_getD]

theorem getD_zipWith (combine : Bound → Bound → Bound) {firsts seconds : List Bound}
    (inFirsts : column < firsts.length) (inSeconds : column < seconds.length) :
    (List.zipWith combine firsts seconds).getD column .zero =
      combine (firsts.getD column .zero) (seconds.getD column .zero) := by
  simp only [List.getD_eq_getElem?_getD, List.getElem?_zipWith,
    List.getElem?_eq_getElem inFirsts, List.getElem?_eq_getElem inSeconds, Option.getD_some]

/-- Only the entries of the row change, each to the tighter one of itself and the detour. -/
theorem get_relaxRow (square : zone.Square) (inRow : row < zone.dimension)
    (inVia : via < zone.dimension) {index : Nat} (inColumn : column < zone.dimension) :
    (zone.relaxRow via row).get index column =
      if index = row ∧ (zone.get row via).isInfinite = false then
        tighterBound ((zone.get row via).add (zone.get via column)) (zone.get row column)
      else zone.get index column := by
  unfold relaxRow
  dsimp only
  cases infinite : (zone.get row via).isInfinite with
  | true => simp
  | false =>
      rw [if_neg (by decide)]
      by_cases same : index = row
      · rw [if_pos ⟨same, rfl⟩, get, same, getD_set_self (square.rows.symm ▸ inRow), getD_zipWith]
        · rfl
        · rwa [square.length_getD inRow]
        · rwa [square.length_getD inVia]
      · rw [if_neg fun both => same both.1, get, getD_set_ne same]
        rfl

@[simp] theorem clocks_relaxed (zone : Zone) (steps : List (Nat × Nat)) :
    (zone.relaxed steps).clocks = zone.clocks := by
  induction steps generalizing zone with
  | nil => rfl
  | cons step steps ih => exact (ih _).trans (clocks_relaxRow zone _ _)

@[simp] theorem dimension_relaxed (zone : Zone) (steps : List (Nat × Nat)) :
    (zone.relaxed steps).dimension = zone.dimension := by
  rw [dimension, clocks_relaxed, dimension]

theorem square_relaxed (square : zone.Square) {steps : List (Nat × Nat)}
    (inside : ∀ step ∈ steps, step.1 < zone.dimension ∧ step.2 < zone.dimension) :
    (zone.relaxed steps).Square := by
  induction steps generalizing zone with
  | nil => exact square
  | cons step steps ih =>
      obtain ⟨⟨inVia, inRow⟩, inside⟩ := List.forall_mem_cons.mp inside
      exact ih (square_relaxRow square inRow inVia) (by rwa [dimension_relaxRow])

/-- The canonical form relaxes every row by the detours over every clock. -/
theorem canonize_eq (zone : Zone) : zone.canonize = zone.relaxed zone.relaxations := by
  have rounds (vias : List Nat) (current : Zone) (sameClocks : current.clocks = zone.clocks) :
      vias.foldl relaxAll current = current.relaxed (vias.flatMap fun via =>
        (List.range zone.dimension).map fun row => (via, row)) := by
    induction vias generalizing current with
    | nil => rfl
    | cons via vias ih =>
        have round : current.relaxAll via = current.relaxed
            ((List.range zone.dimension).map fun row => (via, row)) := by
          rw [relaxed, List.foldl_map, relaxAll, dimension, sameClocks]
          rfl
        rw [List.foldl_cons, List.flatMap_cons, ih, round, relaxed, relaxed, relaxed,
          List.foldl_append]
        rw [round, clocks_relaxed, sameClocks]
  exact rounds _ zone rfl

@[simp] theorem clocks_canonize (zone : Zone) : zone.canonize.clocks = zone.clocks := by
  rw [canonize_eq, clocks_relaxed]

@[simp] theorem dimension_canonize (zone : Zone) : zone.canonize.dimension = zone.dimension := by
  rw [canonize_eq, dimension_relaxed]

theorem mem_relaxations {step : Nat × Nat} : step ∈ zone.relaxations ↔
    step.1 < zone.dimension ∧ step.2 < zone.dimension := by
  obtain ⟨via, row⟩ := step
  simp [relaxations]

theorem square_canonize (square : zone.Square) : zone.canonize.Square := by
  rw [canonize_eq]
  exact square_relaxed square fun _ => mem_relaxations.mp

end Zone

end AbstractionRefinement
