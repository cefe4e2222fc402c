import AbstractionRefinement.EngineErrors
import AbstractionRefinement.OrderedCollections

/-!
# Abstract reachability graphs

The nodes of the graph form a forest of abstract states: a node keeps the edge
that generated it and the numbers of its children.  A node may be covered by
others, which is stored at both ends.  Nodes are numbered in the order of their
creation, numbers are never used again, and a removed node leaves a gap.  The
numbers of the nodes with each key are listed, so that nodes that may cover each
other are found without a search.

Operations return the graph also when they fail, as far as they had changed it.
-/

namespace AbstractionRefinement

/-- A node: an abstract state with its place in the forest. -/
structure GraphNode (σ α : Type) where
  id : Nat
  state : σ
  /-- The parent and the action that generated the node; none if initial. -/
  origin : Option (Nat × α)
  children : List Nat
  /-- Nodes whose states together subsume this one. -/
  coveredBy : List Nat
  /-- Nodes this one helps to cover. -/
  covers : List Nat
  expanded : Bool
  target : Bool
  depth : Nat
  /-- Only nodes with equal keys may cover each other. -/
  key : Nat
  /-- Version of the precision under which the state was computed. -/
  version : Nat

namespace GraphNode

variable {σ α : Type}

def parent (node : GraphNode σ α) : Option Nat :=
  node.origin.map Prod.fst

def isCovered (node : GraphNode σ α) : Bool :=
  !node.coveredBy.isEmpty

/-- Neither expanded, nor covered, nor a target. -/
def isIncomplete (node : GraphNode σ α) : Bool :=
  !node.expanded && !node.target && !node.isCovered

end GraphNode

/-- What a new node is made of. -/
structure NodeData (σ : Type) where
  state : σ
  target : Bool
  key : Nat
  version : Nat

/-- A forest of abstract states with coverage. -/
structure ReachabilityGraph (σ α : Type) where
  nodes : Array (Option (GraphNode σ α)) := #[]
  initial : List Nat := []
  initialized : Bool := false
  /-- The numbers of the nodes with each key, in creation order. -/
  byKey : List (Nat × List Nat) := []

/-- The written form of a node number. -/
def displayNode (id : Nat) : String :=
  "#" ++ toString id

namespace ReachabilityGraph

variable {σ α : Type}

/-- The graph without nodes. -/
def empty : ReachabilityGraph σ α := {}

/-- The live node with a number. -/
def node? (graph : ReachabilityGraph σ α) (id : Nat) : Option (GraphNode σ α) :=
  graph.nodes[id]?.join

/-- The live node with a number, which has to exist. -/
def lookup (graph : ReachabilityGraph σ α) (id : Nat) : Except EngineError (GraphNode σ α) :=
  match graph.node? id with
  | some node => .ok node
  | none => .error (.inconsistentGraph ("node " ++ displayNode id ++ " does not exist"))

def contains (graph : ReachabilityGraph σ α) (id : Nat) : Bool :=
  (graph.node? id).isSome

/-- The live nodes in creation order. -/
def live (graph : ReachabilityGraph σ α) : List (GraphNode σ α) :=
  graph.nodes.toList.filterMap id

/-- Number of live nodes. -/
def size (graph : ReachabilityGraph σ α) : Nat :=
  graph.live.length

/-- The greatest depth of a live node. -/
def depth (graph : ReachabilityGraph σ α) : Nat :=
  graph.live.foldl (fun greatest node => max greatest node.depth) 0

/-- The numbers that are listed under a key. -/
def numbersWithKey (graph : ReachabilityGraph σ α) (key : Nat) : List Nat :=
  (OrderedMap.find? key graph.byKey).getD []

/-- The live nodes that are listed under a key. -/
def withKey (graph : ReachabilityGraph σ α) (key : Nat) : List (GraphNode σ α) :=
  (graph.numbersWithKey key).filterMap graph.node?

/-- The nodes that still need to be expanded, in creation order. -/
def incompleteNodes (graph : ReachabilityGraph σ α) : List (GraphNode σ α) :=
  graph.live.filter GraphNode.isIncomplete

def targetNodes (graph : ReachabilityGraph σ α) : List (GraphNode σ α) :=
  graph.live.filter GraphNode.target

/-- Initialized, without targets, and with nothing left to expand. -/
def isSafe (graph : ReachabilityGraph σ α) : Bool :=
  graph.initialized &&
    graph.live.all fun node => !node.target && !node.isIncomplete

/-- Change a node if it is live. -/
def modifyNode (graph : ReachabilityGraph σ α) (id : Nat)
    (change : GraphNode σ α → GraphNode σ α) : ReachabilityGraph σ α :=
  { graph with nodes := graph.nodes.modify id (Option.map change) }

/-- Append a node. -/
def append (graph : ReachabilityGraph σ α) (data : NodeData σ) (origin : Option (Nat × α))
    (depth : Nat) : ReachabilityGraph σ α :=
  { graph with
    nodes := graph.nodes.push (some
      { id := graph.nodes.size
        state := data.state
        origin
        children := []
        coveredBy := []
        covers := []
        expanded := false
        target := data.target
        depth
        key := data.key
        version := data.version })
    byKey := OrderedMap.insert data.key
      (graph.numbersWithKey data.key ++ [graph.nodes.size]) graph.byKey }

/-- Add an initial node; its number is the number of nodes ever created. -/
def addInitial (graph : ReachabilityGraph σ α) (data : NodeData σ) : ReachabilityGraph σ α :=
  let id := graph.nodes.size
  let graph := graph.append data none 0
  { graph with initial := graph.initial ++ [id] }

/-- Stop covering a node and forget it at the nodes that covered it. -/
def dropCover (graph : ReachabilityGraph σ α) (node : GraphNode σ α) : ReachabilityGraph σ α :=
  node.coveredBy.foldl
    (fun graph coverer =>
      graph.modifyNode coverer fun other =>
        { other with covers := other.covers.filter (· ≠ node.id) })
    (graph.modifyNode node.id fun other => { other with coveredBy := [] })

/-- The nodes of a subtree, the root first and later children before earlier
ones.  Children have greater numbers, which bounds the depth. -/
def subtreeWithin (graph : ReachabilityGraph σ α) : Nat → Nat → List Nat
  | 0, _ => []
  | fuel + 1, id =>
      match graph.node? id with
      | none => []
      | some node => id :: node.children.reverse.flatMap (graph.subtreeWithin fuel)

/-- The nodes of the subtrees at some roots, later roots before earlier ones. -/
def descendants (graph : ReachabilityGraph σ α) (roots : List Nat) : List Nat :=
  roots.reverse.flatMap (graph.subtreeWithin graph.nodes.size)

/-- Remove all nodes. -/
def pruneAll (graph : ReachabilityGraph σ α) : ReachabilityGraph σ α :=
  { nodes := graph.nodes.map fun _ => none
    initial := []
    initialized := false
    byKey := [] }

/-- Undo the coverage that a node takes part in, among the nodes that stay. -/
def detach (removed : List Nat) (graph : ReachabilityGraph σ α) (id : Nat) :
    ReachabilityGraph σ α :=
  match graph.node? id with
  | none => graph
  | some node =>
      let graph :=
        node.covers.foldl
          (fun graph covered =>
            if removed.contains covered then graph
            else
              match graph.node? covered with
              | some other => graph.dropCover other
              | none => graph)
          graph
      node.coveredBy.foldl
        (fun graph coverer =>
          graph.modifyNode coverer fun other =>
            { other with covers := other.covers.filter (· ≠ id) })
        graph

/-- Strike a node off the numbers that are listed under its key. -/
def unlist (graph : ReachabilityGraph σ α) (byKey : List (Nat × List Nat)) (id : Nat) :
    List (Nat × List Nat) :=
  match graph.node? id with
  | none => byKey
  | some node =>
      match OrderedMap.find? node.key byKey with
      | none => byKey
      | some numbers => OrderedMap.insert node.key (numbers.filter (· ≠ id)) byKey

/-- Remove nodes.  A node that one of them helped to cover is uncovered. -/
def remove (graph : ReachabilityGraph σ α) (removed : List Nat) : ReachabilityGraph σ α :=
  let detached := removed.foldl (detach removed) graph
  { detached with
    nodes := removed.foldl (fun nodes id => nodes.modify id fun _ => none) detached.nodes
    initial := detached.initial.filter fun id => !removed.contains id
    byKey := removed.foldl detached.unlist detached.byKey }

/-- The numbers from a node up to the root of its tree. -/
def pathUpWithin (graph : ReachabilityGraph σ α) : Nat → Nat → Except EngineError (List Nat)
  | 0, _ => .error .outOfFuel
  | fuel + 1, id => do
      let node ← graph.lookup id
      match node.parent with
      | none => return [id]
      | some parent => return id :: (← graph.pathUpWithin fuel parent)

/-- The numbers from a root down to a node. -/
def pathTo (graph : ReachabilityGraph σ α) (id : Nat) : Except EngineError (List Nat) :=
  (graph.pathUpWithin (graph.nodes.size + 1) id).map List.reverse

/-! ## Operations that may fail -/

/-- A computation that changes a graph. -/
abbrev Operation (σ α : Type) := Computation (ReachabilityGraph σ α)

/-- The live node with a number, which has to exist. -/
def getNode (id : Nat) : Operation σ α (GraphNode σ α) := do
  ((← get).lookup id : Except EngineError (GraphNode σ α))

/-- Change a node, which has to exist. -/
def updateNode (id : Nat) (change : GraphNode σ α → GraphNode σ α) : Operation σ α Unit := do
  discard (getNode id)
  modify fun graph => graph.modifyNode id change

/-- Add a successor of a node. -/
def addSuccessor (parent : Nat) (action : α) (data : NodeData σ) : Operation σ α Nat := do
  let node ← getNode parent
  let id := (← get).nodes.size
  modify fun graph =>
    (graph.append data (some (parent, action)) (node.depth + 1)).modifyNode parent
      fun other => { other with children := other.children ++ [id] }
  return id

/-- Mark a node as expanded. -/
def setExpanded (id : Nat) : Operation σ α Unit :=
  updateNode id fun node => { node with expanded := true }

/-- Cover a node by the union of some others. -/
def cover (id : Nat) (coverers : List Nat) : Operation σ α Unit := do
  if coverers.isEmpty || coverers.contains id then
    throw (.inconsistentGraph (displayNode id ++ " cannot cover itself"))
  let node ← getNode id
  if node.isCovered || !node.children.isEmpty then
    throw (.inconsistentGraph (displayNode id ++ " is already covered or expanded"))
  coverers.forM fun coverer =>
    updateNode coverer fun other => { other with covers := other.covers ++ [id] }
  updateNode id fun other => { other with coveredBy := coverers }

/-- Stop covering a node. -/
def uncover (id : Nat) : Operation σ α Unit := do
  let node ← getNode id
  modify fun graph => graph.dropCover node

/-- Remove a node with its siblings and all their descendants, and let the
parent be expanded again.  Pruning at an initial node removes everything. -/
def prune (id : Nat) : Operation σ α Unit := do
  match (← getNode id).parent with
  | none => modify pruneAll
  | some parent => do
      let children := (← getNode parent).children
      updateNode parent fun node => { node with children := [] }
      modify fun graph => graph.remove (graph.descendants children)
      updateNode parent fun node => { node with expanded := false }

/-! ## Structural invariants -/

/-- The first violated invariant at a node. -/
def nodeDefect? (graph : ReachabilityGraph σ α) (node : GraphNode σ α) : Option String :=
  let name := displayNode node.id
  let originDefect : Option String :=
    match node.origin with
    | none =>
        if graph.initial.contains node.id then none
        else some (name ++ " has no parent and is not initial")
    | some (source, _) =>
        match graph.node? source with
        | none => some ("parent of " ++ name ++ " is gone")
        | some parent =>
            if !parent.children.contains node.id then
              some ("edge " ++ displayNode source ++ " -> " ++ name ++ " is broken")
            else if parent.depth + 1 ≠ node.depth then some ("wrong depth at " ++ name)
            else none
  let shapeDefect : Option String :=
    if node.isCovered && !node.children.isEmpty then
      some (name ++ " is covered but has children")
    else if node.target && !node.children.isEmpty then
      some ("target " ++ name ++ " has children")
    else none
  let covererDefect (coverer : Nat) : Option String :=
    match graph.node? coverer with
    | some other =>
        if other.covers.contains node.id && other.key = node.key then none
        else some ("cover of " ++ name ++ " by " ++ displayNode coverer ++ " is broken")
    | none => some ("cover of " ++ name ++ " by " ++ displayNode coverer ++ " is broken")
  let coveredDefect (covered : Nat) : Option String :=
    if (graph.node? covered).any fun other => other.coveredBy.contains node.id then none
    else some (name ++ " covers " ++ displayNode covered ++ " one-sidedly")
  originDefect <|> shapeDefect <|> node.coveredBy.findSome? covererDefect <|>
    node.covers.findSome? coveredDefect

/-- The first violated invariant of a graph. -/
def defect? (graph : ReachabilityGraph σ α) : Option String :=
  graph.live.findSome? graph.nodeDefect?

end ReachabilityGraph

end AbstractionRefinement
