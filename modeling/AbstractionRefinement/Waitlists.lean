import AbstractionRefinement.RandomStreams

/-!
# Waitlists

A waitlist holds the numbers of nodes that wait for their exploration and hands
them out in the order of a search strategy.  The order affects which nodes are
explored first, never which nodes are handed out in the end.
-/

namespace AbstractionRefinement

/-- The order in which nodes are explored. -/
inductive SearchStrategy where
  /-- First in, first out. -/
  | breadthFirst
  /-- Last in, first out. -/
  | depthFirst
  /-- Random, reproducible from the seed. -/
  | random (seed : Nat)
  /-- Highest priority first, computed from a node's number and depth; ties are
  broken in insertion order. -/
  | priority (rank : Nat → Nat → Int)

def SearchStrategy.display : SearchStrategy → String
  | breadthFirst => "Bfs"
  | depthFirst => "Dfs"
  | random seed => "Random(" ++ toString seed ++ ")"
  | priority _ => "Priority"

/-- A waiting node with its priority and the running number of its addition. -/
structure RankedNode where
  priority : Int
  number : Nat
  node : Nat
deriving DecidableEq, Inhabited

/-- The order of the triples of the priority, the reversed number and the node. -/
def RankedNode.le (first second : RankedNode) : Bool :=
  first.priority < second.priority ||
    first.priority = second.priority &&
      (second.number < first.number || second.number = first.number && first.node ≤ second.node)

/-- The greatest of some nodes. -/
def RankedNode.greatest (first : RankedNode) (others : List RankedNode) : RankedNode :=
  others.foldl (fun best other => if best.le other then other else best) first

/-- The waiting nodes, stored as their strategy needs them. -/
inductive WaitingNodes (γ : Type) where
  /-- The oldest nodes in order, and the newest ones in reverse order. -/
  | queue (front back : List Nat)
  /-- The newest node first. -/
  | stack (nodes : List Nat)
  | bag (nodes : Array Nat) (source : γ)
  /-- Nodes with their priorities, and the number of the next addition. -/
  | ranked (nodes : List RankedNode) (next : Nat) (rank : Nat → Nat → Int)

namespace WaitingNodes

variable {γ : Type}

/-- No waiting nodes. -/
def start [IndexSource γ] : SearchStrategy → WaitingNodes γ
  | .breadthFirst => queue [] []
  | .depthFirst => stack []
  | .random seed => bag #[] (IndexSource.ofSeed seed)
  | .priority rank => ranked [] 0 rank

def add (node depth : Nat) : WaitingNodes γ → WaitingNodes γ
  | queue front back => queue front (node :: back)
  | stack nodes => stack (node :: nodes)
  | bag nodes source => bag (nodes.push node) source
  | ranked nodes next rank => ranked (nodes ++ [⟨rank node depth, next, node⟩]) (next + 1) rank

/-- Take the next node out.  A randomly chosen node is replaced by the last
one. -/
def remove [IndexSource γ] : WaitingNodes γ → Option (Nat × WaitingNodes γ)
  | queue (node :: front) back => some (node, queue front back)
  | queue [] back =>
      match back.reverse with
      | [] => none
      | node :: front => some (node, queue front [])
  | stack [] => none
  | stack (node :: nodes) => some (node, stack nodes)
  | bag nodes source =>
      match nodes.back? with
      | none => none
      | some last =>
          let (index, source) := IndexSource.drawBelow source nodes.size
          some (nodes.getD index last, bag (nodes.setIfInBounds index last).pop source)
  | ranked [] _ _ => none
  | ranked (first :: others) next rank =>
      let best := RankedNode.greatest first others
      some (best.node, ranked ((first :: others).erase best) next rank)

/-- Number of waiting nodes. -/
def size : WaitingNodes γ → Nat
  | queue front back => front.length + back.length
  | stack nodes => nodes.length
  | bag nodes _ => nodes.size
  | ranked nodes _ _ => nodes.length

@[simp] theorem size_start [IndexSource γ] (strategy : SearchStrategy) :
    (start strategy : WaitingNodes γ).size = 0 := by
  cases strategy <;> rfl

@[simp] theorem size_add (node depth : Nat) (waiting : WaitingNodes γ) :
    (waiting.add node depth).size = waiting.size + 1 := by
  cases waiting <;> simp [add, size, Nat.add_assoc]

end WaitingNodes

/-- Waiting nodes with their search strategy. -/
structure Waitlist (γ : Type) where
  strategy : SearchStrategy
  waiting : WaitingNodes γ

namespace Waitlist

variable {γ : Type}

/-- The waitlist without nodes. -/
def new [IndexSource γ] (strategy : SearchStrategy) : Waitlist γ :=
  ⟨strategy, .start strategy⟩

def add (list : Waitlist γ) (node depth : Nat) : Waitlist γ :=
  { list with waiting := list.waiting.add node depth }

/-- Add nodes with their depths one after the other. -/
def addAll (list : Waitlist γ) (nodes : List (Nat × Nat)) : Waitlist γ :=
  nodes.foldl (fun list (node, depth) => list.add node depth) list

/-- Take the next node out. -/
def remove [IndexSource γ] (list : Waitlist γ) : Option (Nat × Waitlist γ) :=
  list.waiting.remove.map fun (node, waiting) => (node, { list with waiting })

def size (list : Waitlist γ) : Nat :=
  list.waiting.size

/-- Forget all nodes and start over, random choices included. -/
def clear [IndexSource γ] (list : Waitlist γ) : Waitlist γ :=
  new list.strategy

/-- Take out the given number of nodes, or all when there are fewer. -/
def drain [IndexSource γ] : Nat → Waitlist γ → List Nat × Waitlist γ
  | 0, list => ([], list)
  | count + 1, list =>
      match list.remove with
      | none => ([], list)
      | some (node, list) =>
          let (nodes, list) := drain count list
          (node :: nodes, list)

end Waitlist

end AbstractionRefinement
