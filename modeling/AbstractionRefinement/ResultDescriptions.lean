import AbstractionRefinement.ControlFlowAutomata
import AbstractionRefinement.ErrorDescriptions
import AbstractionRefinement.TaskPortfolios
import AbstractionRefinement.TransitionSystems
import AbstractionRefinement.ValueDescriptions

/-!
# Descriptions of results

Models, graphs, refutations and the results of verification runs are described
by records of their parts.
-/

namespace AbstractionRefinement

instance : Describable ControlEdge where
  toDescription edge := .record [
    ("show", .text (display edge)),
    ("from", toDescription edge.source),
    ("to", toDescription edge.target),
    ("stmts", toDescription (edge.statements.map Statement.display)),
    ("expr", toDescription edge.formula),
    ("next", toDescription edge.next),
    ("clocks", toDescription edge.clockOperations)]

instance : Describable Location where
  toDescription location := .record [
    ("name", .text location.name),
    ("inv", toDescription location.invariants),
    ("urgent", .truth location.urgent)]

/-- An automaton; the targets of outgoing edges are listed also for the number
after the last location. -/
instance : Describable ControlFlowAutomaton where
  toDescription automaton := .record [
    ("edges", toDescription automaton.edges),
    ("locs", toDescription automaton.locations),
    ("outgoing",
      toDescription ((List.range (automaton.locations.length + 1)).map fun location =>
        (automaton.outgoing location).map ControlEdge.target)),
    ("init", toDescription ControlFlowAutomaton.initial),
    ("err_loc", toDescription automaton.error),
    ("err_name",
      toDescription (automaton.error.bind fun location =>
        automaton.locations[location]?.map Location.name)),
    ("vars", toDescription automaton.vars),
    ("clocks", toDescription (automaton.clocks.map VarDecl.name)),
    ("max_consts",
      .list (automaton.clockConstants.map fun (clock, constant) =>
        .list [.text clock.name, .number constant]))]

/-- The description of a system, given the violation of its property. -/
def TransitionSystem.report (system : TransitionSystem) (violation : Expr) : Description :=
  .record [
    ("vars", toDescription system.vars),
    ("init", toDescription system.initial),
    ("trans", toDescription system.transition),
    ("prop", toDescription system.property),
    ("negated", toDescription violation),
    ("action", .text (display system.action)),
    ("expr", toDescription (ExprAction.toExpr system.action)),
    ("next", toDescription (ExprAction.nextIndexing system.action))]

namespace ReachabilityGraph

variable {σ α : Type}

/-- The numbers of some nodes. -/
def numbersOf (nodes : List (GraphNode σ α)) : Description :=
  toDescription (nodes.map GraphNode.id)

/-- The size and the state of a graph, and whether its invariants hold. -/
def summary (graph : ReachabilityGraph σ α) : Description :=
  .record [
    ("size", toDescription graph.size),
    ("depth", toDescription graph.depth),
    ("safe", toDescription graph.isSafe),
    ("initialized", toDescription graph.initialized),
    ("inits", toDescription graph.initial),
    ("incomplete", numbersOf graph.incompleteNodes),
    ("targets", numbersOf graph.targetNodes),
    ("well_formed",
      match graph.defect? with
      | none => .truth true
      | some reason => .text (EngineError.inconsistentGraph reason).message)]

/-- All live nodes with everything that is known about them. -/
def listing [Display σ] [Display α] (graph : ReachabilityGraph σ α) : Description :=
  .list (graph.live.map fun node => .record [
    ("id", .text (displayNode node.id)),
    ("state", .text (display node.state)),
    ("parent", toDescription node.parent),
    ("action", toDescription (node.origin.map fun origin => display origin.2)),
    ("children", toDescription node.children),
    ("covered_by", toDescription node.coveredBy),
    ("covers", toDescription node.covers),
    ("flags", toDescription [node.expanded, node.isCovered, node.target, node.isIncomplete]),
    ("depth", toDescription node.depth),
    ("key", toDescription node.key),
    ("version", toDescription node.version)])

end ReachabilityGraph

/-- A refutation with the information it gives. -/
instance : Describable Refutation where
  toDescription
    | .interpolants refutation => .record [
        ("show", .text refutation.display),
        ("itps", toDescription refutation.interpolants),
        ("size", toDescription refutation.interpolants.length),
        ("prune", toDescription refutation.pruneIndex),
        ("atoms", toDescription refutation.atoms),
        ("vars", toDescription (refutation.vars.map VarDecl.name)),
        ("last", toDescription refutation.interpolants.getLast?)]
    | .core refutation => .record [
        ("show", .text refutation.display),
        ("core", toDescription refutation.core),
        ("prune", toDescription refutation.pruneIndex),
        ("vars", toDescription (refutation.vars.map VarDecl.name))]

/-- The fields of the outcome of a feasibility check. -/
def Feasibility.fields : Feasibility → List (String × Description)
  | feasible concrete => [("feasible", .truth true), ("concrete", toDescription concrete)]
  | infeasible refutation =>
      [("feasible", .truth false), ("refutation", toDescription refutation)]

/-- The description of what a refiner found out under a precision. -/
def RefinementResult.report {π : Type} [Display π] [Precision π] [DecidableEq π]
    (precision : π) : RefinementResult π → Description
  | feasible concrete => .record [("concrete", toDescription concrete)]
  | spurious refined pruneIndex => .record [
      ("prec", .text (display refined)),
      ("size", toDescription (Precision.size refined)),
      ("same", .truth (refined = precision)),
      ("prune", toDescription pruneIndex)]

namespace Summary

/-- The fields of a summary. -/
def fields (summary : Summary) : List (String × Description) :=
  [("verdict", .text summary.verdict.display),
    ("reason",
      match summary.reason with
      | none => .empty
      | some reason => .list [.text reason.display, .truth reason.isDefect]),
    ("stats", .text summary.statistics.display)]

instance : Describable Summary := ⟨fun summary => .record summary.fields⟩

end Summary

namespace SafetyResult

variable {σ α π : Type} [Display σ] [Display α] [Display π]

/-- The fields that show the final graph. -/
def graphFields (graph : ReachabilityGraph σ α) (precision : π) : List (String × Description) :=
  [("prec", .text (display precision)), ("arg", graph.summary), ("nodes", graph.listing)]

/-- The fields of a result, given the last status of the explorer. -/
def fields (result : SafetyResult σ α π) (status : ExplorationStatus) :
    List (String × Description) :=
  let verdict := result.outcome.verdict
  (Summary.ofResult result).fields ++
    [("flags",
        .list ([Verdict.safe, .violated, .unknown].map fun other => .truth (verdict = other))),
      ("abstractor", .text status.display)] ++
    match result.outcome with
    | .safe graph precision => graphFields graph precision
    | .violated trace concrete graph precision =>
        graphFields graph precision ++
          [("cex", .text trace.display), ("length", toDescription trace.length),
            ("concrete", toDescription concrete)]
    | .unknown _ => []

end SafetyResult

end AbstractionRefinement
