import AbstractionRefinement.Analyses
import AbstractionRefinement.ReachabilityGraphs

/-!
# Traces and counterexamples

A trace alternates states and actions, from its first state on.  A
counterexample is the trace along a path of the reachability graph from an
initial node to a target.
-/

namespace AbstractionRefinement

/-- A first state, followed by actions with the states they lead to. -/
structure Trace (σ α : Type) where
  first : σ
  steps : List (α × σ)
deriving DecidableEq, Inhabited

namespace Trace

variable {σ α : Type}

/-- The trace of some states and the actions between them; there has to be one
more state than actions. -/
def ofLists? (states : List σ) (actions : List α) : Option (Trace σ α) :=
  match states with
  | [] => none
  | first :: rest =>
      if rest.length = actions.length then some ⟨first, actions.zip rest⟩ else none

def states (trace : Trace σ α) : List σ :=
  trace.first :: trace.steps.map Prod.snd

def actions (trace : Trace σ α) : List α :=
  trace.steps.map Prod.fst

/-- Number of actions. -/
def length (trace : Trace σ α) : Nat :=
  trace.steps.length

@[simp] theorem length_actions (trace : Trace σ α) : trace.actions.length = trace.length := by
  simp [actions, length]

@[simp] theorem length_states (trace : Trace σ α) :
    trace.states.length = trace.length + 1 := by
  simp [states, length]

/-- A trace has the states it was made of. -/
theorem states_of_ofLists? {states : List σ} {actions : List α} {trace : Trace σ α}
    (made : ofLists? states actions = some trace) : trace.states = states := by
  cases states with
  | nil => simp [ofLists?] at made
  | cons first rest =>
      simp only [ofLists?, Option.ite_none_right_eq_some, Option.some.injEq] at made
      obtain ⟨lengths, rfl⟩ := made
      simp [Trace.states, List.map_snd_zip, lengths]

/-- A trace has the actions it was made of. -/
theorem actions_of_ofLists? {states : List σ} {actions : List α} {trace : Trace σ α}
    (made : ofLists? states actions = some trace) : trace.actions = actions := by
  cases states with
  | nil => simp [ofLists?] at made
  | cons first rest =>
      simp only [ofLists?, Option.ite_none_right_eq_some, Option.some.injEq] at made
      obtain ⟨lengths, rfl⟩ := made
      simp [Trace.actions, List.map_fst_zip, lengths]

/-- The written form of a trace. -/
def display [Display σ] [Display α] (trace : Trace σ α) : String :=
  Display.display trace.first ++
    String.join (trace.steps.map fun (action, state) =>
      " -[" ++ Display.display action ++ "]-> " ++ Display.display state)

end Trace

/-- A path of a reachability graph with its trace. -/
structure Counterexample (σ α : Type) where
  nodes : List Nat
  trace : Trace σ α

namespace Counterexample

variable {σ α : Type}

/-- The path to a node and its trace. -/
def ofGraph (graph : ReachabilityGraph σ α) (target : Nat) :
    Except EngineError (Counterexample σ α) := do
  let path ← graph.pathTo target
  let nodes ← path.mapM graph.lookup
  let actions := nodes.filterMap fun node => node.origin.map Prod.snd
  match Trace.ofLists? (nodes.map GraphNode.state) actions with
  | some trace => return ⟨path, trace⟩
  | none =>
      throw (.inconsistentGraph
        ("path to " ++ displayNode target ++ " does not start at an initial node"))

end Counterexample

end AbstractionRefinement
