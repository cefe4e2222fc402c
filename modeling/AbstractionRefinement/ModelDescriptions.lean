import AbstractionRefinement.ControlFlowAutomata
import AbstractionRefinement.FormulaDescriptions
import AbstractionRefinement.TransitionSystems

/-!
# Descriptions of models

Clock constraints, statements and actions are described by lists that begin with
the name of what they are.  An automaton is described by its locations, edges
and error location, and a transition system by its three formulas.  Edges are
validated in order while they are read, and encoded when all were read.
-/

namespace AbstractionRefinement

/-- An action given by its parts. -/
structure ClockedAction where
  formula : Expr := .top
  next : Indexing := .constant 0
  clockOperations : List ClockOperation := []
deriving DecidableEq, Inhabited

instance : ExprAction ClockedAction where
  toExpr action := action.formula
  nextIndexing action := action.next

instance : ClockAction ClockedAction where
  clockOperations action := action.clockOperations

/-- A bound: its constant with its strictness, or none. -/
def Bound.ofDescription : Description → Reading Bound
  | .text "inf" => .ok infinity
  | .list [constant, strict] => do
      let constant ← constant.asInt64
      return .new constant (← strict.asTruth)
  | _ => malformed

/-- A clock constraint. -/
def ClockConstraint.ofDescription (vocabulary : Vocabulary) :
    Description → Reading ClockConstraint
  | .list [.text "<=", clock, constant] => do
      return atMost (← vocabulary.var clock) (← constant.asInt64)
  | .list [.text "<", clock, constant] => do
      return below (← vocabulary.var clock) (← constant.asInt64)
  | .list [.text ">=", clock, constant] => do
      return atLeast (← vocabulary.var clock) (← constant.asInt64)
  | .list [.text ">", clock, constant] => do
      return above (← vocabulary.var clock) (← constant.asInt64)
  | .list [.text "diff", first, second, constant] => do
      return differenceAtMost (← vocabulary.var first) (← vocabulary.var second)
        (← constant.asInt64)
  | .list [.text "raw", left, right, bound, strict] => do
      let side : Description → Reading (Option VarDecl)
        | .empty => return none
        | clock => some <$> vocabulary.var clock
      return ⟨← side left, ← side right, ← bound.asInt64, ← strict.asTruth⟩
  | _ => malformed

/-- A clock operation. -/
def ClockOperation.ofDescription (vocabulary : Vocabulary) :
    Description → Reading ClockOperation
  | .list [.text "guard", constraint] =>
      guard <$> ClockConstraint.ofDescription vocabulary constraint
  | .list [.text "inv", constraint] =>
      invariant <$> ClockConstraint.ofDescription vocabulary constraint
  | .list [.text "reset", clock, value] => do
      return reset (← vocabulary.var clock) (← value.asInt64)
  | .list [.text "delay"] => return delay
  | _ => malformed

/-- An action; without a formula it has no condition. -/
def ClockedAction.ofDescription (vocabulary : Vocabulary) (description : Description) :
    Reading ClockedAction := do
  let fields ← description.asRecord
  let record := Description.record fields
  return {
    formula := ← record.fieldOr "expr" (Expr.ofDescription vocabulary) .top
    next := ← record.fieldOr "next" (Indexing.ofDescription vocabulary) (.constant 0)
    clockOperations :=
      ← record.listField "clocks" (ClockOperation.ofDescription vocabulary) }

/-- A statement. -/
def Statement.ofDescription (vocabulary : Vocabulary) : Description → Reading Statement
  | .list [.text "assume", condition] =>
      assume <$> Expr.ofDescription vocabulary condition
  | .list [.text "assign", target, value] => do
      return assign (← vocabulary.var target) (← Expr.ofDescription vocabulary value)
  | .list [.text "havoc", target] => havoc <$> vocabulary.var target
  | .list [.text "guard", constraint] =>
      clockGuard <$> ClockConstraint.ofDescription vocabulary constraint
  | .list [.text "reset", clock, value] => do
      return clockReset (← vocabulary.var clock) (← value.asInt64)
  | _ => malformed

/-- A location: its name, or a record of its parts. -/
def Location.ofDescription (vocabulary : Vocabulary) : Description → Reading Location
  | .text name => return { name }
  | description => do
      return {
        name := ← (← description.field "name").asText
        invariants :=
          ← description.listField "inv" (ClockConstraint.ofDescription vocabulary)
        urgent := description.hasField "urgent" }

/-- Greatest number by which a description may name a location. -/
def greatestLocation : Nat := 1000

/-- The number of a location, which need not exist. -/
def locationOfDescription (description : Description) : Reading Nat :=
  return (← description.asIntBetween 0 greatestLocation).toNat

namespace ControlFlowAutomaton

/-- The end points and the validated statements of an edge. -/
def edgeOfDescription (vocabulary : Vocabulary) :
    Description → Reading (Nat × Nat × List Statement)
  | .list [source, target, statements] => do
      let source ← locationOfDescription source
      let target ← locationOfDescription target
      let statements ← statements.asListOf (Statement.ofDescription vocabulary)
      statements.forM fun statement => readFormula statement.validate
      return (source, target, statements)
  | _ => malformed

/-- An automaton, which has at least one location. -/
def ofDescription (vocabulary : Vocabulary) (description : Description) :
    Reading ControlFlowAutomaton := do
  let locations ← (← description.field "locs").asListOf (Location.ofDescription vocabulary)
  if locations.isEmpty then malformed
  else
    let error ←
      description.fieldOr "error" (fun d => some <$> locationOfDescription d) none
    let edges ← (← description.field "edges").asListOf (edgeOfDescription vocabulary)
    readFormula (build locations edges error)

end ControlFlowAutomaton

/-- A transition system. -/
def TransitionSystem.ofDescription (vocabulary : Vocabulary) (description : Description) :
    Reading TransitionSystem := do
  let formula (name : String) : Reading Expr := do
    Expr.ofDescription vocabulary (← description.field name)
  let initial ← formula "init"
  let transition ← formula "trans"
  readFormula (TransitionSystem.new initial transition (← formula "prop"))

end AbstractionRefinement
