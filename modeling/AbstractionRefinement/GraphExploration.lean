import AbstractionRefinement.Traces
import AbstractionRefinement.Waitlists

/-!
# Exploration of the reachability graph

An explorer extends a reachability graph under a precision until a stop
criterion holds or nothing is left to expand.  On the way nodes are closed by
existing ones that cover them.  Only incomplete nodes are expanded, so that a
pruned graph is explored again from the pruned points.
-/

namespace AbstractionRefinement

/-- What an explorer is doing or has found. -/
inductive ExplorationStatus where
  | idle
  | exploring
  /-- A target node exists. -/
  | targetFound
  /-- Nothing is left to expand, and there is no target. -/
  | exhausted
deriving DecidableEq, Inhabited

def ExplorationStatus.display : ExplorationStatus → String
  | idle => "idle"
  | exploring => "exploring"
  | targetFound => "target found"
  | exhausted => "exhausted"

/-- When to stop exploring. -/
inductive StopCriterion where
  | firstTarget
  | never
  | targets (count : Nat)
deriving DecidableEq, Inhabited

/-- Number of targets after which exploration stops. -/
def StopCriterion.targetCount : StopCriterion → Option Nat
  | firstTarget => some 1
  | never => none
  | targets count => some (max count 1)

/-- How nodes are closed by existing ones. -/
inductive CoverageMode where
  | none
  /-- By a single node. -/
  | single
  /-- By a single node, or by the exact join of several. -/
  | join
deriving DecidableEq, Inhabited

/-- Limits of a verification run. -/
structure ResourceLimits where
  /-- Greatest number of abstraction steps. -/
  iterations : Option Nat := none
  /-- Time limit in milliseconds; only a limit of zero is ever exceeded. -/
  timeout : Option Nat := none
  /-- Greatest number of solver checks. -/
  solverCalls : Option Nat := none
  /-- Cancellation was requested. -/
  cancelled : Bool := false
deriving DecidableEq, Inhabited

/-- The limits of one run together with what was used before it. -/
structure Budget (ω : Type) where
  limits : ResourceLimits
  /-- Number of solver checks counted so far. -/
  checks : ω → Nat
  checksAtStart : Nat

namespace Budget

variable {ω : Type}

/-- The budget of a run that starts in a state. -/
def start (limits : ResourceLimits) (checks : ω → Nat) (state : ω) : Budget ω :=
  ⟨limits, checks, checks state⟩

/-- Number of solver checks since the start. -/
def solverCalls (budget : Budget ω) (state : ω) : Nat :=
  budget.checks state - budget.checksAtStart

/-- The first exceeded limit. -/
def exceeded? (budget : Budget ω) (state : ω) : Option EngineError :=
  if budget.limits.cancelled then some .cancelled
  else if budget.limits.timeout = some 0 then some (.resourceExhausted .wallClock)
  else if budget.limits.solverCalls.any (· ≤ budget.solverCalls state) then
    some (.resourceExhausted .solverCalls)
  else none

end Budget

/-- An analysis with everything that shapes its exploration. -/
structure Explorer (ω σ α π : Type) where
  analysis : Analysis ω σ α π
  enabled : TransitionLabels σ α
  target : TargetPredicate ω σ
  /-- Only states with the same projection may cover each other. -/
  projection : σ → Nat
  strategy : SearchStrategy
  stop : StopCriterion
  coverage : CoverageMode

/-- The state of an exploration: that of the analysis, the graph, and the
status of the last check. -/
structure ExplorationState (ω σ α : Type) where
  world : ω
  graph : ReachabilityGraph σ α
  status : ExplorationStatus

/-- A computation that extends a graph. -/
abbrev Exploration (ω σ α : Type) := Computation (ExplorationState ω σ α)

namespace Exploration

variable {ω σ α β : Type}

/-- A computation of the analysis during exploration. -/
def ofAnalysis (computation : Computation ω β) : Exploration ω σ α β := fun state =>
  let (result, world) := computation state.world
  (result, { state with world })

/-- An operation on the graph during exploration. -/
def onGraph (operation : ReachabilityGraph.Operation σ α β) : Exploration ω σ α β :=
  fun state =>
    let (result, graph) := operation state.graph
    (result, { state with graph })

/-- Stop when a limit is exceeded. -/
def poll (budget : Budget ω) : Exploration ω σ α Unit := do
  match budget.exceeded? (← get).world with
  | some error => throw error
  | none => return ()

end Exploration

namespace Explorer

open Exploration (ofAnalysis onGraph)

variable {ω σ α π : Type}

/-- The data of a node for a state. -/
def nodeData (explorer : Explorer ω σ α π) (version : Nat) (state : σ) :
    Exploration ω σ α (NodeData σ) := do
  let target ← ofAnalysis (explorer.target state)
  return { state, target, key := explorer.projection state, version }

/-- Add an initial node for every state that is not bottom. -/
def addInitialStates (explorer : Explorer ω σ α π) (version : Nat) :
    List σ → Exploration ω σ α (List Nat)
  | [] => return []
  | state :: states => do
      if explorer.analysis.isBottom state then explorer.addInitialStates version states
      else
        let data ← explorer.nodeData version state
        let id := (← get).graph.nodes.size
        modify fun exploration =>
          { exploration with graph := exploration.graph.addInitial data }
        return id :: (← explorer.addInitialStates version states)

/-- Create the initial nodes. -/
def createInitial (explorer : Explorer ω σ α π) (precision : π) (version : Nat) :
    Exploration ω σ α (List Nat) := do
  let states ← ofAnalysis (explorer.analysis.initialStates precision)
  let nodes ← explorer.addInitialStates version states
  modify fun exploration =>
    { exploration with graph := { exploration.graph with initialized := true } }
  return nodes

/-- Add a successor node for every state that is not bottom. -/
def addSuccessorStates (explorer : Explorer ω σ α π) (version parent : Nat) (action : α) :
    List σ → Exploration ω σ α (List Nat)
  | [] => return []
  | state :: states => do
      if explorer.analysis.isBottom state then
        explorer.addSuccessorStates version parent action states
      else
        let data ← explorer.nodeData version state
        let id ← onGraph (ReachabilityGraph.addSuccessor parent action data)
        return id :: (← explorer.addSuccessorStates version parent action states)

/-- Create the successors of a node under every action. -/
def expandActions (explorer : Explorer ω σ α π) (precision : π) (version parent : Nat)
    (state : σ) : List α → Exploration ω σ α (List Nat)
  | [] => return []
  | action :: actions => do
      let states ← ofAnalysis (explorer.analysis.successors precision state action)
      let first ← explorer.addSuccessorStates version parent action states
      return first ++ (← explorer.expandActions precision version parent state actions)

/-- Create all successors of a node and mark it as expanded. -/
def expand (explorer : Explorer ω σ α π) (precision : π) (version id : Nat) :
    Exploration ω σ α (List Nat) := do
  let node ← onGraph (ReachabilityGraph.getNode id)
  let nodes ← explorer.expandActions precision version id node.state
    (explorer.enabled node.state)
  onGraph (ReachabilityGraph.setExpanded id)
  return nodes

/-- The first single node that covers a state. -/
def singleCover? (explorer : Explorer ω σ α π) (precision : π) (state : σ)
    (candidates : List (GraphNode σ α)) : Option (List Nat) :=
  (candidates.find? fun node => explorer.analysis.leq precision state node.state).map
    fun node => [node.id]

/-- Join candidates one after the other to what was joined before, skipping
those that cannot be joined exactly, until several of them cover a state. -/
def joinedCover? (explorer : Explorer ω σ α π) (precision : π) (state : σ)
    (joined : σ) (coverers : List Nat) : List (GraphNode σ α) → Option (List Nat)
  | [] => none
  | node :: candidates =>
      let (joined, coverers) :=
        match explorer.analysis.join precision joined node.state with
        | some union => (union, coverers ++ [node.id])
        | none => (joined, coverers)
      if 1 < coverers.length && explorer.analysis.leq precision state joined then
        some coverers
      else explorer.joinedCover? precision state joined coverers candidates

/-- The nodes of the graph that cover a node under the coverage mode. -/
def coverers? (explorer : Explorer ω σ α π) (precision : π) (graph : ReachabilityGraph σ α)
    (node : GraphNode σ α) : Option (List Nat) :=
  let candidates := (graph.withKey node.key).filter fun candidate =>
    candidate.id ≠ node.id && !candidate.isCovered && !candidate.target
  match explorer.singleCover? precision node.state candidates with
  | some coverers => some coverers
  | none =>
      if explorer.coverage = .join && explorer.analysis.hasExactJoin then
        match candidates with
        | [] => none
        | first :: rest =>
            explorer.joinedCover? precision node.state first.state [first.id] rest
      else none

/-- Cover a node by existing ones if possible. -/
def close (explorer : Explorer ω σ α π) (precision : π) (id : Nat) :
    Exploration ω σ α Bool := do
  if explorer.coverage = .none then return false
  else
    let graph := (← get).graph
    let node ← onGraph (ReachabilityGraph.getNode id)
    match explorer.coverers? precision graph node with
    | some coverers => do
        onGraph (ReachabilityGraph.cover id coverers)
        return true
    | none => return false

/-- Whether enough targets were found. -/
def canStop (explorer : Explorer ω σ α π) (graph : ReachabilityGraph σ α) : Bool :=
  match explorer.stop.targetCount with
  | none => false
  | some count => count ≤ graph.targetNodes.length

/-- Put the new nodes that are neither targets nor covered on the waitlist. -/
def enqueue (explorer : Explorer ω σ α π) (precision : π) :
    List Nat → Waitlist RandomStream → Exploration ω σ α (Waitlist RandomStream)
  | [], list => return list
  | id :: ids, list => do
      let node ← onGraph (ReachabilityGraph.getNode id)
      if node.target then explorer.enqueue precision ids list
      else if ← explorer.close precision id then explorer.enqueue precision ids list
      else explorer.enqueue precision ids (list.add id node.depth)

/-- Explore waiting nodes until the stop criterion holds or none is left. -/
def exploreWithin (explorer : Explorer ω σ α π) (precision : π) (version : Nat)
    (budget : Budget ω) : Nat → Waitlist RandomStream → Exploration ω σ α Unit
  | 0, _ => throw .outOfFuel
  | fuel + 1, list => do
      if explorer.canStop (← get).graph then return ()
      else
        match list.remove with
        | none => return ()
        | some (id, list) => do
            Exploration.poll budget
            if !((← get).graph.node? id).any GraphNode.isIncomplete then
              explorer.exploreWithin precision version budget fuel list
            else if ← explorer.close precision id then
              explorer.exploreWithin precision version budget fuel list
            else do
              let nodes ← explorer.expand precision version id
              let list ← explorer.enqueue precision nodes list
              explorer.exploreWithin precision version budget fuel list

/-- Extend the graph under a precision and tell what was found. -/
def explore (explorer : Explorer ω σ α π) (fuel : Nat) (precision : π) (version : Nat)
    (budget : Budget ω) : Exploration ω σ α ExplorationStatus := do
  if !(← get).graph.initialized then
    discard (explorer.createInitial precision version)
  let waiting := (← get).graph.incompleteNodes.map fun node => (node.id, node.depth)
  explorer.exploreWithin precision version budget fuel
    ((Waitlist.new explorer.strategy).addAll waiting)
  return if (← get).graph.targetNodes.isEmpty then .exhausted else .targetFound

/-- Extend the graph under a precision and keep the status; an error leaves the
explorer idle. -/
def check (explorer : Explorer ω σ α π) (fuel : Nat) (precision : π) (version : Nat)
    (budget : Budget ω) : Exploration ω σ α ExplorationStatus := fun state =>
  let (result, state) := explorer.explore fuel precision version budget
    { state with status := .exploring }
  match result with
  | .ok status => (.ok status, { state with status })
  | .error error => (.error error, { state with status := .idle })

end Explorer

end AbstractionRefinement
