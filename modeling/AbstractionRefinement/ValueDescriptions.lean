import AbstractionRefinement.ClockZones
import AbstractionRefinement.DescriptionTrees
import AbstractionRefinement.DiagramEdges

/-!
# Descriptions of values

The counterpart of reading: answers are described by the same trees.  Numbers,
truth values and texts describe themselves, formulas and other values of the
domain are described by their written forms, and a missing value by the empty
tree.
-/

namespace AbstractionRefinement

/-- Values that have a description. -/
class Describable (α : Type) where
  toDescription : α → Description

export Describable (toDescription)

namespace Describable

variable {α : Type}

instance : Describable Description := ⟨id⟩
instance : Describable Unit := ⟨fun _ => .empty⟩
instance : Describable Bool := ⟨.truth⟩
instance : Describable Int := ⟨.number⟩
instance : Describable Nat := ⟨fun value => .number value⟩
instance : Describable String := ⟨.text⟩

/-- An order is described by its sign. -/
instance : Describable Ordering where
  toDescription
    | .lt => .number (-1)
    | .eq => .number 0
    | .gt => .number 1

instance [Describable α] : Describable (Option α) :=
  ⟨fun value => (value.map toDescription).getD .empty⟩

instance [Describable α] : Describable (List α) :=
  ⟨fun items => .list (items.map toDescription)⟩

instance : Describable Ty := ⟨fun ty => .text ty.display⟩
instance : Describable Symbol := ⟨fun symbol => .text symbol.display⟩
instance : Describable VarDecl := ⟨fun decl => .text decl.describe⟩
instance : Describable Expr := ⟨fun formula => .text formula.display⟩
instance : Describable Value := ⟨fun value => .text value.display⟩
instance : Describable Valuation := ⟨fun valuation => .text valuation.display⟩
instance : Describable Indexing := ⟨fun indexing => .text indexing.display⟩
instance : Describable RationalNumber := ⟨fun number => .text number.display⟩
instance : Describable Edge := ⟨fun edge => .text edge.display⟩
instance : Describable Bound := ⟨fun bound => .text bound.display⟩
instance : Describable ClockConstraint := ⟨fun constraint => .text constraint.display⟩
instance : Describable ClockOperation := ⟨fun operation => .text operation.display⟩
instance : Describable SolverStatus := ⟨fun status => .text status.display⟩

/-- The numbers of sessions, checks and inconclusive checks. -/
instance : Describable SolverStatistics :=
  ⟨fun counts => toDescription [counts.sessions, counts.checks, counts.unknowns]⟩

/-- A matrix with all its entries. -/
instance : Describable Zone where
  toDescription zone :=
    let indices := List.range zone.dimension
    .record [
      ("dbm", .text zone.display),
      ("m", toDescription (indices.map fun row => indices.map (zone.get row))),
      ("empty", .truth zone.isEmpty)]

end Describable

/-- Everything that the structure of a formula shows. -/
def Expr.report (formula : Expr) : Description :=
  .record [
    ("show", toDescription formula),
    ("type", toDescription formula.ty),
    ("numeric", toDescription formula.ty.isNumeric),
    ("is_true", toDescription formula.isTop),
    ("is_false", toDescription formula.isBottom),
    ("lit", toDescription formula.asLiteral),
    ("symbol", toDescription formula.asSymbol),
    ("children", toDescription formula.children),
    ("symbols", toDescription formula.symbols),
    ("vars", toDescription formula.vars),
    ("atoms", toDescription formula.atoms),
    ("conjuncts", toDescription formula.conjuncts),
    ("ponate", toDescription formula.stripNegations),
    ("has_prime", toDescription formula.hasPrime),
    ("is_indexed", toDescription formula.isIndexed)]

end AbstractionRefinement
