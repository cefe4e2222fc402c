import AbstractionRefinement.DecisionDiagrams
import AbstractionRefinement.OrderedCollections
import Std.Data.TreeSet

/-!
# Queries of decision diagrams

Reading a function off its diagram: the variables it tests, its size, one
satisfying path or all of them, and the number of satisfying assignments.
Every query descends along edges, which lead to smaller indices, so the index
of the root bounds the depth.
-/

namespace AbstractionRefinement

namespace DiagramManager

/-- Add the nodes reachable from an index to a set. -/
def collectReachable (manager : DiagramManager) :
    Nat → Nat → Std.TreeSet Nat → Std.TreeSet Nat
  | 0, _, visited => visited
  | fuel + 1, index, visited =>
      if visited.contains index then visited
      else
        let visited := visited.insert index
        if index = 1 then visited
        else
          let node := manager.nodeAt index
          manager.collectReachable fuel node.low.index
            (manager.collectReachable fuel node.high.index visited)

/-- The indices of the nodes of a function, the terminal included. -/
def reachable (manager : DiagramManager) (edge : Edge) : Std.TreeSet Nat :=
  manager.collectReachable (edge.index + 1) edge.index ∅

/-- The variables tested by the nodes of a function, in increasing order. -/
def support (manager : DiagramManager) (edge : Edge) : List Nat :=
  OrderedSet.ofList
    (((manager.reachable edge).toList.filter (· ≠ 1)).map fun index =>
      (manager.nodeAt index).level)

/-- Number of nodes of a function, the terminal included. -/
def nodeCount (manager : DiagramManager) (edge : Edge) : Nat :=
  (manager.reachable edge).size

/-- The positive literal of a level.  Literals are signed 32-bit numbers, so that a
level from `2 ^ 31` on is written as the congruent negative number. -/
def literalOf (level : Nat) : Int :=
  (level : Int).bmod 4294967296

/-- The literals on a satisfying path, which takes the high edge unless that is
false. -/
def pathFrom (manager : DiagramManager) : Nat → Edge → List Int
  | 0, _ => []
  | fuel + 1, edge =>
      if edge.isOne then []
      else
        let literal := literalOf (manager.levelOf edge)
        let high := manager.highOf edge
        if high.isZero then -literal :: manager.pathFrom fuel (manager.lowOf edge)
        else literal :: manager.pathFrom fuel high

/-- One satisfying path as signed variables, if the function is satisfiable. -/
def onePath? (manager : DiagramManager) (edge : Edge) : Option (List Int) :=
  if edge.isZero then none else some (manager.pathFrom (edge.index + 1) edge)

/-- Append the satisfying paths of an edge to the found ones, high edges first;
there is no result beyond the limit. -/
def collectPaths (manager : DiagramManager) (limit : Nat) :
    Nat → Edge → List Int → Array (List Int) → Option (Array (List Int))
  | 0, _, _, found => some found
  | fuel + 1, edge, above, found =>
      if edge.isZero then some found
      else if edge.isOne then
        if found.size < limit then some (found.push above.reverse) else none
      else
        let literal := literalOf (manager.levelOf edge)
        match manager.collectPaths limit fuel (manager.highOf edge) (literal :: above) found with
        | none => none
        | some found =>
            manager.collectPaths limit fuel (manager.lowOf edge) (-literal :: above) found

/-- All satisfying paths as signed variables, unless there are more than the
limit. -/
def paths? (manager : DiagramManager) (edge : Edge) (limit : Nat) :
    Option (List (List Int)) :=
  (manager.collectPaths limit (edge.index + 1) edge [] #[]).map Array.toList

theorem literalOf_eq_self {level : Nat} (small : level < 2147483648) :
    literalOf level = level := by
  unfold literalOf
  exact Int.bmod_eq_of_le (by omega) (by omega)

/-- Number of satisfying assignments of an edge among the given total, with
remembered results. -/
def countWithin (manager : DiagramManager) (total : Nat) :
    Nat → Edge → Std.TreeMap Edge Nat → Nat × Std.TreeMap Edge Nat
  | 0, _, known => (0, known)
  | fuel + 1, edge, known =>
      if edge.isZero then (0, known)
      else if edge.isOne then (total, known)
      else
        match known[edge]? with
        | some count => (count, known)
        | none =>
            let node := manager.nodeAt edge.index
            let (low, known) := manager.countWithin total fuel node.low known
            let (high, known) := manager.countWithin total fuel node.high known
            let count := (low + high) / 2
            let count := if edge.isNegated then total - count else count
            (count, known.insert edge count)

/-- Number of satisfying assignments of the first variables. -/
def countAssignments (manager : DiagramManager) (edge : Edge) (levels : Nat) : Nat :=
  (manager.countWithin (Nat.pow 2 levels) (edge.index + 1) edge ∅).1

end DiagramManager

end AbstractionRefinement
