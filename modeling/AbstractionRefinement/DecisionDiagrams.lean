import AbstractionRefinement.ComputedTable
import AbstractionRefinement.DiagramEdges
import AbstractionRefinement.MachineIntegers
import AbstractionRefinement.PairingHash

/-!
# Decision diagrams with complement edges

A manager owns the nodes of reduced ordered decision diagrams.  Every node
tests a variable, whose number from `1` on is the level of the node, and has a
low and a high edge; smaller levels are closer to the root.  Nodes are shared,
a node never has two equal edges, and its high edge is never complemented, so
that a function has one representation.

A manager has a node limit and a deadline.  Once one of them is exceeded the
manager is exhausted: no node is allocated any more and later results are
meaningless.
-/

namespace AbstractionRefinement

/-- A decision node. -/
structure DiagramNode where
  level : Nat
  low : Edge
  high : Edge
deriving DecidableEq, Inhabited

/-- Nodes are ordered by level, then by their edges. -/
instance : Ord DiagramNode :=
  ⟨compareLex (compareOn DiagramNode.level)
    (compareLex (compareOn DiagramNode.low) (compareOn DiagramNode.high))⟩

/-- Why a manager stopped allocating nodes. -/
inductive Exhaustion where
  | nodeLimit
  | deadline
deriving DecidableEq, Inhabited

def Exhaustion.display : Exhaustion → String
  | .nodeLimit => "NodeLimit"
  | .deadline => "Deadline"

/-- The owner of the nodes of decision diagrams. -/
structure DiagramManager where
  /-- Allocated nodes by index; the first two are the unused index and the
  terminal. -/
  nodes : Array DiagramNode
  /-- The index of every allocated node. -/
  unique : Std.TreeMap DiagramNode Nat
  /-- Remembered results of the if-then-else operation. -/
  computed : ComputedTable Edge
  nodeLimit : Nat
  /-- A deadline is set and has passed. -/
  deadlinePassed : Bool
  exhaustion : Option Exhaustion

namespace DiagramManager

/-- A manager without decision nodes. -/
def new (cacheBits nodeLimit : Nat) : DiagramManager where
  nodes := #[⟨0, ⟨0⟩, ⟨0⟩⟩, ⟨0, ⟨0⟩, ⟨0⟩⟩]
  unique := ∅
  computed := .new cacheBits
  nodeLimit := nodeLimit
  deadlinePassed := false
  exhaustion := none

/-- The usual number of address bits of the computed table. -/
def defaultCacheBits : Nat := 16

/-- The usual node limit. -/
def defaultNodeLimit : Nat := 4194304

/-- Number of allocated nodes, the terminal included. -/
def size (manager : DiagramManager) : Nat :=
  manager.nodes.size - 1

/-- Set or remove a deadline that has passed. -/
def setDeadline (manager : DiagramManager) (passed : Bool) : DiagramManager :=
  { manager with deadlinePassed := passed }

/-- Notice a passed deadline unless the manager is already exhausted. -/
def noticeDeadline (manager : DiagramManager) : DiagramManager :=
  if manager.exhaustion.isNone && manager.deadlinePassed then
    { manager with exhaustion := some .deadline }
  else manager

def nodeAt (manager : DiagramManager) (index : Nat) : DiagramNode :=
  manager.nodes[index]?.getD ⟨0, ⟨0⟩, ⟨0⟩⟩

/-- The level of the root of an edge; `0` at a terminal. -/
def levelOf (manager : DiagramManager) (edge : Edge) : Nat :=
  (manager.nodeAt edge.index).level

/-- The low cofactor of an edge at its root. -/
def lowOf (manager : DiagramManager) (edge : Edge) : Edge :=
  let low := (manager.nodeAt edge.index).low
  if edge.isNegated then -low else low

/-- The high cofactor of an edge at its root. -/
def highOf (manager : DiagramManager) (edge : Edge) : Edge :=
  let high := (manager.nodeAt edge.index).high
  if edge.isNegated then -high else high

/-- The given node, whose high edge is uncomplemented:
shared when it exists, allocated when the limits allow it, and false
otherwise. -/
def shareNode (node : DiagramNode) (manager : DiagramManager) : Edge × DiagramManager :=
  if node.low = node.high then (node.low, manager)
  else
    match manager.unique[node]? with
    | some index => (.toNode index, manager)
    | none =>
        let index := manager.nodes.size
        if manager.exhaustion.isSome then (.zero, manager)
        else if manager.nodeLimit ≤ index then
          (.zero, { manager with exhaustion := some .nodeLimit })
        else if index % 1024 = 0 && manager.deadlinePassed then
          (.zero, { manager with exhaustion := some .deadline })
        else
          (.toNode index,
            { manager with
              nodes := manager.nodes.push node
              unique := manager.unique.insert node index })

/-- The function that is `high` where the variable of the level holds and `low`
elsewhere.
A complemented high edge is moved to the result. -/
def makeNode (level : Nat) (low high : Edge) (manager : DiagramManager) :
    Edge × DiagramManager :=
  if high.isNegated then
    let (edge, manager) := shareNode ⟨level, -low, -high⟩ manager
    (-edge, manager)
  else shareNode ⟨level, low, high⟩ manager

/-- Like `makeNode`, refusing the level reserved for the terminal. -/
def makeNode? (level : Nat) (low high : Edge) (manager : DiagramManager) :
    Option (Edge × DiagramManager) :=
  if level = 0 then none else some (makeNode level low high manager)

/-- The function of a single variable. -/
def makeVariable (level : Nat) (manager : DiagramManager) : Edge × DiagramManager :=
  makeNode level .zero .one manager

/-- The conjunction of literals given as signed variables in decreasing order
of their variables. -/
def cubeOfDescending (literals : List Int) (manager : DiagramManager) :
    Edge × DiagramManager :=
  literals.foldl
    (fun (current, manager) (literal : Int) =>
      if literal < 0 then makeNode literal.natAbs current .zero manager
      else makeNode literal.natAbs .zero current manager)
    (.one, manager)

/-- The literals in decreasing order of their variables; that of the least 32-bit
integer counts as negative. -/
def descendingLiterals (literals : List Int) : List Int :=
  (literals.mergeSort fun first second => wrappedAbs first ≤ wrappedAbs second).reverse

/-- The conjunction of literals given as signed variables in any order. -/
def cube? (literals : List Int) (manager : DiagramManager) :
    Option (Edge × DiagramManager) :=
  if literals.contains 0 then none
  else some (cubeOfDescending (descendingLiterals literals) manager)

/-- The cofactors of an edge by the variable of a level not below its root. -/
def cofactors (manager : DiagramManager) (level : Nat) (edge : Edge) : Edge × Edge :=
  if edge.isTerminal || level < manager.levelOf edge then (edge, edge)
  else (manager.lowOf edge, manager.highOf edge)

/-- Like `cofactors`, refusing the reserved level and one below the root. -/
def cofactors? (manager : DiagramManager) (level : Nat) (edge : Edge) :
    Option (Edge × Edge) :=
  if level = 0 then none
  else if edge.isTerminal || level ≤ manager.levelOf edge then
    some (manager.cofactors level edge)
  else none

/-- What can be done about an if-then-else call without looking at cofactors. -/
inductive IteStep where
  | done (result : Edge)
  | again (condition positive negative : Edge)
  | open
deriving DecidableEq, Inhabited

/-- Decide a call that has a constant or an operand as its result, or replace
it by an equivalent one closer to the normal form: repeated operands become
constants, and of the equivalent calls the one whose condition has the least
root level is chosen. -/
def iteStep (manager : DiagramManager) (f g h : Edge) : IteStep :=
  if f.isOne then .done g
  else if f.isZero then .done h
  else if g = h then .done g
  else if g.isOne && h.isZero then .done f
  else if g.isZero && h.isOne then .done (-f)
  else if g.isOne && h = -f then .done .one
  else if g = f && h.isOne then .done .one
  else if g = -f && h.isZero then .done .zero
  else if g.isZero && h = f then .done f
  else if g = f then .again f .one h
  else if h = f then .again f g .zero
  else if g = -f then .again f .zero h
  else if h = -f then .again f g .one
  else
    let i := manager.levelOf f
    let j := manager.levelOf g
    let k := manager.levelOf h
    if g.isOne && k ≠ 0 && k < i then .again h .one f
    else if h.isZero && j ≠ 0 && j < i then .again g f .zero
    else if h.isOne && j ≠ 0 && j < i then .again (-g) (-f) .one
    else if g.isZero && k ≠ 0 && k < i then .again (-h) .zero (-f)
    else if g = -h && j ≠ 0 && j < i then .again g f (-f)
    else .open

/-- The key of an if-then-else call in the computed table. -/
def iteKey (f g h : Edge) : UInt64 :=
  pairThreeWords (.ofNat f.unsigned) (.ofNat g.unsigned) (.ofNat h.unsigned)

/-- The least root level of the three operands; the first is no terminal. -/
def topLevel (manager : DiagramManager) (f g h : Edge) : Nat :=
  let least (current : Nat) (edge : Edge) : Nat :=
    let level := manager.levelOf edge
    if level = 0 then current else min current level
  least (least (manager.levelOf f) g) h

/-- If-then-else with bounded recursion depth. -/
def iteWithin : Nat → Edge → Edge → Edge → DiagramManager → Edge × DiagramManager
  | 0, _, _, _, manager => (.zero, manager)
  | fuel + 1, f, g, h, manager =>
      match manager.iteStep f g h with
      | .done result => (result, manager)
      | .again f g h => iteWithin fuel f g h manager
      | .open =>
          -- Make the condition and then the positive branch uncomplemented.
          let (f, g, h) := if f.isNegated then (-f, h, g) else (f, g, h)
          let negate := g.isNegated
          let (g, h) := if negate then (-g, -h) else (g, h)
          let key := iteKey f g h
          let (found, computed) := manager.computed.lookup key
          let manager := { manager with computed }
          let (result, manager) :=
            match found with
            | some result => (result, manager)
            | none =>
                let top := manager.topLevel f g h
                let (f0, f1) := manager.cofactors top f
                let (g0, g1) := manager.cofactors top g
                let (h0, h1) := manager.cofactors top h
                let (low, manager) := iteWithin fuel f0 g0 h0 manager
                let (high, manager) := iteWithin fuel f1 g1 h1 manager
                let (result, manager) := makeNode top low high manager
                (result, { manager with computed := manager.computed.store key result })
          (if negate then -result else result, manager)

/-- The function `(f ∧ g) ∨ (¬f ∧ h)`.  Edges lead to smaller indices and every
call is put into normal form in a few steps, which bounds the depth. -/
def ite (f g h : Edge) (manager : DiagramManager) : Edge × DiagramManager :=
  iteWithin (4 * (f.index + g.index + h.index) + 4) f g h manager

def conj (f g : Edge) : DiagramManager → Edge × DiagramManager :=
  ite f g .zero

def disj (f g : Edge) : DiagramManager → Edge × DiagramManager :=
  ite f .one g

def xor (f g : Edge) : DiagramManager → Edge × DiagramManager :=
  ite f (-g) g

def equiv (f g : Edge) : DiagramManager → Edge × DiagramManager :=
  ite f g (-g)

def imply (f g : Edge) : DiagramManager → Edge × DiagramManager :=
  ite f g .one

/-- The conjunction of several functions, up to the first false one. -/
def conjAllFrom (total : Edge) : List Edge → DiagramManager → Edge × DiagramManager
  | [], manager => (total, manager)
  | edge :: edges, manager =>
      let (total, manager) := conj total edge manager
      if total.isZero then (total, manager) else conjAllFrom total edges manager

/-- The conjunction of several functions. -/
def conjAll (edges : List Edge) (manager : DiagramManager) : Edge × DiagramManager :=
  conjAllFrom .one edges manager

/-- The disjunction of several functions, up to the first true one. -/
def disjAllFrom (total : Edge) : List Edge → DiagramManager → Edge × DiagramManager
  | [], manager => (total, manager)
  | edge :: edges, manager =>
      let (total, manager) := disj total edge manager
      if total.isOne then (total, manager) else disjAllFrom total edges manager

/-- The disjunction of several functions. -/
def disjAll (edges : List Edge) (manager : DiagramManager) : Edge × DiagramManager :=
  disjAllFrom .zero edges manager

/-- Whether the first function implies the second. -/
def implies (f g : Edge) (manager : DiagramManager) : Bool × DiagramManager :=
  let (difference, manager) := conj f (-g) manager
  (difference.isZero, manager)

/-- Existential quantification with bounded recursion depth and remembered
results. -/
def quantifyWithin (quantified : Nat → Bool) :
    Nat → Edge → Std.TreeMap Edge Edge → DiagramManager →
      Edge × Std.TreeMap Edge Edge × DiagramManager
  | 0, edge, known, manager => (edge, known, manager)
  | fuel + 1, edge, known, manager =>
      if edge.isTerminal then (edge, known, manager)
      else
        match known[edge]? with
        | some result => (result, known, manager)
        | none =>
            let level := manager.levelOf edge
            let low := manager.lowOf edge
            let high := manager.highOf edge
            let (low, known, manager) := quantifyWithin quantified fuel low known manager
            let (high, known, manager) := quantifyWithin quantified fuel high known manager
            let (result, manager) :=
              if quantified level then disj low high manager
              else makeNode level low high manager
            (result, known.insert edge result, manager)

/-- Existential quantification of some variables. -/
def quantify (quantified : Nat → Bool) (edge : Edge) (manager : DiagramManager) :
    Edge × DiagramManager :=
  let (result, _, manager) := quantifyWithin quantified (edge.index + 1) edge ∅ manager
  (result, manager)

/-- The written form of a manager. -/
def display (manager : DiagramManager) : String :=
  let exhaustion :=
    match manager.exhaustion with
    | none => "None"
    | some cause => "Some(" ++ cause.display ++ ")"
  "Bdd \x7b nodes: " ++ toString manager.size ++ ", node_limit: " ++
    toString manager.nodeLimit ++ ", exhausted: " ++ exhaustion ++ " \x7d"

end DiagramManager

end AbstractionRefinement
