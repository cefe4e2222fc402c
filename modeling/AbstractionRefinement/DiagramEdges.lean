/-!
# Edges of decision diagrams

An edge refers to a node of a decision diagram by its index and may complement
the function of that node.  The complement is the sign of the edge's code, so
complementing twice gives the edge back.  Node `1` is the terminal of the
constant functions; index `0` is never used by a function.
-/

namespace AbstractionRefinement

/-- A reference to a node, negative when the node's function is complemented. -/
structure Edge where
  code : Int
deriving DecidableEq, Inhabited

namespace Edge

/-- Edges are ordered by their codes. -/
instance : Ord Edge := ⟨compareOn code⟩

/-- The uncomplemented edge to a node. -/
def toNode (index : Nat) : Edge :=
  ⟨index⟩

def isNegated (edge : Edge) : Bool :=
  edge.code < 0

/-- The edge of the complemented function. -/
def complement (edge : Edge) : Edge :=
  ⟨-edge.code⟩

instance : Neg Edge := ⟨complement⟩

/-- The index of the node referred to. -/
def index (edge : Edge) : Nat :=
  edge.code.natAbs

/-- An injective code of edges in the natural numbers. -/
def unsigned (edge : Edge) : Nat :=
  2 * edge.index + edge.isNegated.toNat

/-- The edge of the constant true function. -/
def one : Edge := ⟨1⟩

/-- The edge of the constant false function. -/
def zero : Edge := ⟨-1⟩

def isOne (edge : Edge) : Bool :=
  edge = one

def isZero (edge : Edge) : Bool :=
  edge = zero

def isTerminal (edge : Edge) : Bool :=
  edge.isZero || edge.isOne

/-- The written form of an edge. -/
def display (edge : Edge) : String :=
  (if edge.isNegated then "~@" else "@") ++ toString edge.index

instance : ToString Edge := ⟨display⟩

@[simp]
theorem neg_neg (edge : Edge) : - -edge = edge := by
  show complement (complement edge) = edge
  simp [complement]

end Edge

end AbstractionRefinement
