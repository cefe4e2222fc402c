import AbstractionRefinement.ExplicitValues
import AbstractionRefinement.PredicateCubes
import AbstractionRefinement.ProductAnalyses

/-!
# Refutations of traces

A refutation explains why a trace is infeasible, and names the first state from
which the reachability graph has to be built again.  It also yields the
information that a refined precision tracks in addition to the old one.
-/

namespace AbstractionRefinement

/-- One interpolant per state of a trace over unindexed variables: what the
actions before the state can reach and the rest of the trace contradicts. -/
structure InterpolantRefutation where
  interpolants : List Expr
  pruneIndex : Nat
deriving DecidableEq, Inhabited

namespace InterpolantRefutation

/-- The refutation of some interpolants; an index past the last one is moved to
the last one. -/
def new (interpolants : List Expr) (pruneIndex : Nat) : InterpolantRefutation :=
  ⟨interpolants, min pruneIndex (interpolants.length - 1)⟩

/-- The set of atoms of the interpolants. -/
def atoms (refutation : InterpolantRefutation) : List Expr :=
  Expr.collectAtomsAll refutation.interpolants []

/-- The set of variables of the interpolants. -/
def vars (refutation : InterpolantRefutation) : List VarDecl :=
  OrderedSet.ofList (refutation.interpolants.flatMap Expr.vars)

/-- The written form of a refutation. -/
def display (refutation : InterpolantRefutation) : String :=
  "[" ++ ", ".intercalate (refutation.interpolants.map Expr.display) ++ "] (prune at " ++
    toString refutation.pruneIndex ++ ")"

end InterpolantRefutation

/-- Formulas of a trace over indexed symbols that are unsatisfiable together. -/
structure CoreRefutation where
  core : List Expr
  pruneIndex : Nat
deriving DecidableEq, Inhabited

namespace CoreRefutation

/-- The set of variables of the core. -/
def vars (refutation : CoreRefutation) : List VarDecl :=
  OrderedSet.ofList (refutation.core.flatMap Expr.vars)

/-- The written form of a refutation. -/
def display (refutation : CoreRefutation) : String :=
  "core of " ++ toString refutation.core.length ++ " formula(s) (prune at " ++
    toString refutation.pruneIndex ++ ")"

end CoreRefutation

/-- An explanation of an infeasible trace. -/
inductive Refutation where
  | interpolants (refutation : InterpolantRefutation)
  | core (refutation : CoreRefutation)
deriving DecidableEq, Inhabited

namespace Refutation

/-- The first state from which the graph has to be built again. -/
def pruneIndex : Refutation → Nat
  | interpolants refutation => refutation.pruneIndex
  | core refutation => refutation.pruneIndex

/-- The set of variables a refutation speaks about. -/
def vars : Refutation → List VarDecl
  | interpolants refutation => refutation.vars
  | core refutation => refutation.vars

end Refutation

/-- A way to extend a precision by what a refutation shows. -/
abbrev PrecisionRefiner (π : Type) := π → Refutation → π

/-- Track the variables of the refutation in addition. -/
def ExplicitPrecision.refine : PrecisionRefiner ExplicitPrecision :=
  fun precision refutation => Precision.join precision (.ofList refutation.vars)

/-- Track the atoms of the interpolants in addition. -/
def PredicatePrecision.refine : PrecisionRefiner PredicatePrecision :=
  fun precision refutation =>
    match refutation with
    | .interpolants refutation => Precision.join precision (.ofList refutation.atoms)
    | .core _ => precision

namespace PrecisionRefiner

variable {π ρ : Type}

/-- Refine the first component of a pair of precisions. -/
def first (refine : PrecisionRefiner π) : PrecisionRefiner (π × ρ) :=
  fun precision refutation => (refine precision.1 refutation, precision.2)

/-- Refine the second component of a pair of precisions. -/
def second (refine : PrecisionRefiner ρ) : PrecisionRefiner (π × ρ) :=
  fun precision refutation => (precision.1, refine precision.2 refutation)

end PrecisionRefiner

end AbstractionRefinement
