import AbstractionRefinement.Proofs.IfThenElseCalls

/-!
# Construction of decision diagrams

A well-formed manager keeps its nodes well placed and remembers only results of
the if-then-else operation.  The operations that allocate nodes keep a manager
well formed.  What they return stands for the function it should stand for,
unless the manager is exhausted afterwards.
-/

namespace AbstractionRefinement

namespace DiagramManager

/-- The edge chooses between two functions by the variable of a level. -/
structure Selects (manager : DiagramManager) (level : Nat) (low high edge : Edge) : Prop where
  value_eq (assignment : Nat → Bool) : manager.value assignment edge =
    if assignment level then manager.value assignment high else manager.value assignment low
  below {above : Nat} : above < level → manager.Below above edge

/-- The edge is the result of an if-then-else call.  It chooses between two functions by the
third one exactly if the call does not overlap. -/
structure Chooses (manager : DiagramManager) (f g h edge : Edge) : Prop where
  value_iff : (∀ assignment, manager.value assignment edge =
    if manager.value assignment f then manager.value assignment g
      else manager.value assignment h) ↔ ¬ manager.Overlaps f g h
  below {level : Nat} : manager.Below level f → manager.Below level g →
    manager.Below level h → manager.Below level edge

theorem Chooses.value_eq {manager : DiagramManager} {f g h edge : Edge}
    (chooses : manager.Chooses f g h edge) (connective : Connective g h)
    (assignment : Nat → Bool) :
    manager.value assignment edge =
      if manager.value assignment f then manager.value assignment g
      else manager.value assignment h :=
  chooses.value_iff.mpr connective.not_overlaps assignment

/-- A call of the if-then-else operation in normal form that has the key has the
edge as its result. -/
def ResultOfKey (manager : DiagramManager) (key : UInt64) (edge : Edge) : Prop :=
  ∃ f g h, manager.Owns f ∧ manager.Owns g ∧ manager.Owns h ∧ f.isNegated = false ∧
    g.isNegated = false ∧ iteKey f g h = key ∧ manager.Chooses f g h edge

/-- The nodes are well placed and few enough, and what is remembered is right
unless the manager is exhausted. -/
structure WellFormed (manager : DiagramManager) (bound : Nat) : Prop extends
    manager.Ordered bound where
  size_le : manager.nodes.size ≤ max 2 manager.nodeLimit
  remembers {slot key : UInt64} {edge : Edge} :
    manager.computed.slots[slot]? = some (key, edge) →
      manager.Owns edge ∧ (manager.exhaustion = none → manager.ResultOfKey key edge)

/-- An operation on a manager extends it and returns an edge with the described
meaning. -/
structure Delivers (before : DiagramManager) (bound : Nat) (outcome : Edge × DiagramManager)
    (meaning : DiagramManager → Edge → Prop) : Prop where
  wellFormed : outcome.2.WellFormed bound
  grown : before.Extends outcome.2
  owns : outcome.2.Owns outcome.1
  meaning : outcome.2.exhaustion = none → meaning outcome.2 outcome.1

theorem Delivers.mono {before : DiagramManager} {bound : Nat} {outcome : Edge × DiagramManager}
    {meaning meaning' : DiagramManager → Edge → Prop}
    (delivers : before.Delivers bound outcome meaning)
    (weaker : before.Extends outcome.2 → outcome.2.WellFormed bound → outcome.2.exhaustion = none →
      meaning outcome.2 outcome.1 → meaning' outcome.2 outcome.1) :
    before.Delivers bound outcome meaning' where
  wellFormed := delivers.wellFormed
  grown := delivers.grown
  owns := delivers.owns
  meaning unexhausted := weaker delivers.grown delivers.wellFormed unexhausted
    (delivers.meaning unexhausted)

variable {manager before after : DiagramManager} {bound : Nat}

theorem Extends.selects (grown : before.Extends after) (ordered : before.Ordered bound)
    {level : Nat} {low high edge : Edge} (ownsLow : before.Owns low)
    (ownsHigh : before.Owns high) (ownsEdge : before.Owns edge)
    (selects : before.Selects level low high edge) : after.Selects level low high edge where
  value_eq assignment := by
    rw [grown.value_eq ordered ownsLow, grown.value_eq ordered ownsHigh,
      grown.value_eq ordered ownsEdge]
    exact selects.value_eq assignment
  below lt := (grown.below_iff ownsEdge).mpr (selects.below lt)

theorem Extends.chooses (grown : before.Extends after) (ordered : before.Ordered bound)
    {f g h edge : Edge} (ownsF : before.Owns f) (ownsG : before.Owns g)
    (ownsH : before.Owns h) (ownsEdge : before.Owns edge)
    (chooses : before.Chooses f g h edge) : after.Chooses f g h edge where
  value_iff := by
    simp only [grown.value_eq ordered ownsF, grown.value_eq ordered ownsG,
      grown.value_eq ordered ownsH, grown.value_eq ordered ownsEdge,
      grown.overlaps_iff ordered.grounded ownsF ownsG ownsH]
    exact chooses.value_iff
  below belowF belowG belowH := by
    rw [grown.below_iff ownsEdge]
    exact chooses.below ((grown.below_iff ownsF).mp belowF)
      ((grown.below_iff ownsG).mp belowG) ((grown.below_iff ownsH).mp belowH)

theorem Extends.resultOfKey (grown : before.Extends after) (ordered : before.Ordered bound)
    {key : UInt64} {edge : Edge} (ownsEdge : before.Owns edge)
    (result : before.ResultOfKey key edge) : after.ResultOfKey key edge := by
  obtain ⟨f, g, h, ownsF, ownsG, ownsH, plainF, plainG, hasKey, chooses⟩ := result
  exact ⟨f, g, h, grown.owns ownsF, grown.owns ownsG, grown.owns ownsH, plainF, plainG, hasKey,
    grown.chooses ordered ownsF ownsG ownsH ownsEdge chooses⟩

theorem WellFormed.mono {bound' : Nat} (wellFormed : manager.WellFormed bound)
    (le : bound ≤ bound') : manager.WellFormed bound' :=
  { wellFormed with
    placed := fun two lt =>
      { wellFormed.placed two lt with
        level_lt := Nat.lt_of_lt_of_le (wellFormed.placed two lt).level_lt le } }

theorem wellFormed_new (bound cacheBits nodeLimit : Nat) :
    (new cacheBits nodeLimit).WellFormed bound where
  terminals := Nat.le_refl 2
  terminal_level := rfl
  placed {index} le lt := by
    have two : (new cacheBits nodeLimit).nodes.size = 2 := rfl
    omega
  unique_iff node index := by
    have two : (new cacheBits nodeLimit).nodes.size = 2 := rfl
    have none : (new cacheBits nodeLimit).unique[node]? = none :=
      Std.TreeMap.getElem?_emptyc
    rw [none]
    constructor
    · intro found
      cases found
    · rintro ⟨le, lt, -⟩
      omega
  size_le := Nat.le_max_left 2 nodeLimit
  remembers {slot key edge} found := by
    have none : (new cacheBits nodeLimit).computed.slots[slot]? = none :=
      Std.TreeMap.getElem?_emptyc
    rw [none] at found
    cases found

/-- A manager is as good with other counts and deadlines. -/
theorem WellFormed.ofSameNodes (wellFormed : before.WellFormed bound) (after : DiagramManager)
    (nodes : after.nodes = before.nodes) (unique : after.unique = before.unique)
    (slots : after.computed.slots = before.computed.slots)
    (nodeLimit : after.nodeLimit = before.nodeLimit)
    (unexhausted : after.exhaustion = none → before.exhaustion = none) :
    after.WellFormed bound ∧ before.Extends after := by
  have nodeAtEq (index : Nat) : after.nodeAt index = before.nodeAt index := by
    unfold nodeAt
    rw [nodes]
  have grown : before.Extends after :=
    ⟨Nat.le_of_eq (by rw [nodes]), fun _ => nodeAtEq _, nodeLimit, unexhausted⟩
  refine ⟨⟨⟨?_, ?_, ?_, ?_⟩, ?_, ?_⟩, grown⟩
  · rw [nodes]
    exact wellFormed.terminals
  · rw [nodeAtEq]
    exact wellFormed.terminal_level
  · intro index le lt
    rw [nodes] at lt
    rw [nodeAtEq]
    obtain ⟨level, levelLt, differ, plain, lowUsed, highUsed, lowLt, highLt, lowBelow, highBelow⟩ :=
      wellFormed.placed le lt
    refine ⟨level, levelLt, differ, plain, lowUsed, highUsed, lowLt, highLt, ?_, ?_⟩
    · exact (grown.below_iff ⟨lowUsed, Nat.lt_trans lowLt lt⟩).mpr lowBelow
    · exact (grown.below_iff ⟨highUsed, Nat.lt_trans highLt lt⟩).mpr highBelow
  · intro node index
    rw [unique, nodes, nodeAtEq]
    exact wellFormed.unique_iff node index
  · rw [nodes, nodeLimit]
    exact wellFormed.size_le
  · intro slot key edge found
    rw [slots] at found
    obtain ⟨owns, right⟩ := wellFormed.remembers found
    refine ⟨grown.owns owns, fun none => ?_⟩
    exact grown.resultOfKey wellFormed.toOrdered owns (right (unexhausted none))

def withNode (manager : DiagramManager) (node : DiagramNode) : DiagramManager :=
  { manager with
    nodes := manager.nodes.push node
    unique := manager.unique.insert node manager.nodes.size }

/-- What becomes of a node with an uncomplemented high edge. -/
inductive Sharing (node : DiagramNode) (manager : DiagramManager) : Edge × DiagramManager → Prop
  | redundant : node.low = node.high → Sharing node manager (node.low, manager)
  | known {index : Nat} : node.low ≠ node.high → manager.unique[node]? = some index →
      Sharing node manager (.toNode index, manager)
  | refused : node.low ≠ node.high → manager.unique[node]? = none →
      manager.exhaustion.isSome = true → Sharing node manager (.zero, manager)
  | full : node.low ≠ node.high → manager.unique[node]? = none → manager.exhaustion = none →
      manager.nodeLimit ≤ manager.nodes.size →
      Sharing node manager (.zero, { manager with exhaustion := some .nodeLimit })
  | late : node.low ≠ node.high → manager.unique[node]? = none → manager.exhaustion = none →
      manager.nodes.size < manager.nodeLimit → manager.deadlinePassed = true →
      Sharing node manager (.zero, { manager with exhaustion := some .deadline })
  | allocated : node.low ≠ node.high → manager.unique[node]? = none →
      manager.exhaustion = none → manager.nodes.size < manager.nodeLimit →
      ¬ (manager.nodes.size % 1024 = 0 ∧ manager.deadlinePassed = true) →
      Sharing node manager (.toNode manager.nodes.size, manager.withNode node)

theorem sharing_shareNode (node : DiagramNode) (manager : DiagramManager) :
    Sharing node manager (shareNode node manager) := by
  unfold shareNode
  split
  case isTrue same => exact .redundant same
  case isFalse differ =>
    split
    case h_1 index found => exact .known differ found
    case h_2 fresh =>
      dsimp only
      split
      case isTrue exhausted => exact .refused differ fresh exhausted
      case isFalse unexhausted =>
        have none : manager.exhaustion = none := by simpa using unexhausted
        split
        case isTrue full => exact .full differ fresh none full
        case isFalse room =>
          split
          case isTrue late =>
            exact .late differ fresh none (Nat.lt_of_not_le room)
              ((Bool.and_eq_true _ _).mp late).2
          case isFalse inTime =>
            exact .allocated differ fresh none (Nat.lt_of_not_le room) (by simpa using inTime)

theorem nodeAt_withNode (node : DiagramNode) (index : Nat) :
    (manager.withNode node).nodeAt index =
      if index = manager.nodes.size then node else manager.nodeAt index := by
  unfold nodeAt withNode
  rw [Array.getElem?_push]
  split <;> rfl

theorem extends_withNode (node : DiagramNode) : manager.Extends (manager.withNode node) where
  size_le := by
    show manager.nodes.size ≤ (manager.nodes.push node).size
    simp
  nodeAt_eq {index} lt := by
    rw [nodeAt_withNode, if_neg (Nat.ne_of_lt lt)]
  nodeLimit_eq := rfl
  unexhausted := id

theorem WellFormed.withNode (wellFormed : manager.WellFormed bound) {node : DiagramNode}
    (placed : manager.WellPlaced bound manager.nodes.size node) (fresh : manager.unique[node]? = none)
    (room : manager.nodes.size < manager.nodeLimit) : (manager.withNode node).WellFormed bound := by
  have grown := manager.extends_withNode node
  have size : (manager.withNode node).nodes.size = manager.nodes.size + 1 :=
    Array.size_push node
  have terminals := wellFormed.terminals
  have stays {index : Nat} {node : DiagramNode} (le : index ≤ manager.nodes.size)
      (placed : manager.WellPlaced bound index node) :
      (manager.withNode _).WellPlaced bound index node :=
    { placed with
      low_below := (grown.below_iff
        ⟨placed.low_used, Nat.lt_of_lt_of_le placed.low_lt le⟩).mpr placed.low_below
      high_below := (grown.below_iff
        ⟨placed.high_used, Nat.lt_of_lt_of_le placed.high_lt le⟩).mpr placed.high_below }
  refine ⟨⟨by omega, ?_, ?_, ?_⟩, ?_, ?_⟩
  · rw [nodeAt_withNode, if_neg (by omega)]
    exact wellFormed.terminal_level
  · intro index le lt
    rw [nodeAt_withNode]
    split
    case isTrue last =>
      subst last
      exact stays (Nat.le_refl _) placed
    case isFalse earlier =>
      exact stays (by omega) (wellFormed.placed le (by omega))
  · intro other index
    have insertion : (manager.withNode node).unique[other]? =
        if compare node other = .eq then some manager.nodes.size else manager.unique[other]? :=
      Std.TreeMap.getElem?_insert
    rw [insertion, size, nodeAt_withNode]
    have known := wellFormed.unique_iff other index
    by_cases same : node = other
    · subst same
      rw [fresh] at known
      grind
    · simp only [Std.compare_eq_iff_eq, same, if_false]
      grind
  · show (manager.withNode node).nodes.size ≤ max 2 manager.nodeLimit
    omega
  · intro slot key edge found
    obtain ⟨owns, right⟩ := wellFormed.remembers found
    exact ⟨grown.owns owns, fun none =>
      grown.resultOfKey wellFormed.toOrdered owns (right none)⟩

/-- An edge to a node selects between the node's children. -/
theorem Ordered.selects_toNode (ordered : manager.Ordered bound) {index : Nat} (le : 2 ≤ index)
    (lt : index < manager.nodes.size) :
    manager.Selects (manager.nodeAt index).level (manager.nodeAt index).low
      (manager.nodeAt index).high (.toNode index) := by
  have owns : manager.Owns (.toNode index) := by
    simp only [Owns, Edge.index_toNode]
    omega
  have inner : (Edge.toNode index).index ≠ 1 := by
    rw [Edge.index_toNode]
    omega
  constructor
  · intro assignment
    rw [ordered.value_eq owns inner]
    simp [levelOf, lowOf, highOf]
  · intro above lower
    right
    simpa [levelOf] using lower

/-- A node whose children are known is shared or allocated. -/
theorem shareNode_delivers (wellFormed : manager.WellFormed bound) {node : DiagramNode}
    (level_pos : 1 ≤ node.level) (level_lt : node.level < bound)
    (plain : node.high.isNegated = false)
    (ownsLow : manager.Owns node.low) (ownsHigh : manager.Owns node.high)
    (lowBelow : manager.exhaustion = none → manager.Below node.level node.low)
    (highBelow : manager.exhaustion = none → manager.Below node.level node.high) :
    manager.Delivers bound (shareNode node manager) fun after edge =>
      after.Selects node.level node.low node.high edge := by
  have shared := sharing_shareNode node manager
  generalize shareNode node manager = outcome at shared
  rcases shared with same | ⟨-, found⟩ | ⟨-, -, exhausted⟩ | ⟨-, -, none, -⟩ |
    ⟨-, -, none, -, -⟩ | ⟨differ, fresh, none, room, -⟩
  case redundant =>
    refine ⟨wellFormed, .refl manager, ownsLow, fun none => ⟨?_, ?_⟩⟩
    · intro assignment
      rw [same, ite_self]
    · intro above lower
      exact (lowBelow none).of_le (Nat.le_of_lt lower)
  case known index =>
    obtain ⟨le, lt, content⟩ := (wellFormed.unique_iff node index).mp found
    refine ⟨wellFormed, .refl manager, ?_, fun _ => ?_⟩
    · simp only [Owns, Edge.index_toNode]
      omega
    · have selects := wellFormed.selects_toNode le lt
      rw [content] at selects
      exact selects
  case refused =>
    refine ⟨wellFormed, .refl manager, owns_zero wellFormed.toOrdered, fun none => ?_⟩
    rw [none] at exhausted
    cases exhausted
  case full =>
    obtain ⟨wellFormed', grown⟩ :=
      wellFormed.ofSameNodes { manager with exhaustion := some .nodeLimit }
        rfl rfl rfl rfl fun _ => none
    exact ⟨wellFormed', grown, owns_zero wellFormed'.toOrdered, by rintro ⟨⟩⟩
  case late =>
    obtain ⟨wellFormed', grown⟩ :=
      wellFormed.ofSameNodes { manager with exhaustion := some .deadline }
        rfl rfl rfl rfl fun _ => none
    exact ⟨wellFormed', grown, owns_zero wellFormed'.toOrdered, by rintro ⟨⟩⟩
  case allocated =>
    have placed : manager.WellPlaced bound manager.nodes.size node :=
      ⟨level_pos, level_lt, differ, plain, ownsLow.1, ownsHigh.1, ownsLow.2, ownsHigh.2,
        lowBelow none, highBelow none⟩
    have wellFormed' := wellFormed.withNode placed fresh room
    have terminals := wellFormed.terminals
    have size : (manager.withNode node).nodes.size = manager.nodes.size + 1 :=
      Array.size_push node
    refine ⟨wellFormed', manager.extends_withNode node, ?_, fun _ => ?_⟩
    · simp only [Owns, Edge.index_toNode]
      omega
    · have selects := wellFormed'.selects_toNode terminals (by omega)
      rw [nodeAt_withNode, if_pos rfl] at selects
      exact selects

/-- The node that selects between two known functions. -/
theorem makeNode_delivers (wellFormed : manager.WellFormed bound) {level : Nat} {low high : Edge}
    (level_pos : 1 ≤ level) (level_lt : level < bound) (ownsLow : manager.Owns low)
    (ownsHigh : manager.Owns high) (lowBelow : manager.exhaustion = none → manager.Below level low)
    (highBelow : manager.exhaustion = none → manager.Below level high) :
    manager.Delivers bound (makeNode level low high manager) fun after edge =>
      after.Selects level low high edge := by
  unfold makeNode
  by_cases negated : high.isNegated = true
  · have plain : (-high).isNegated = false := by
      rw [Edge.isNegated_neg ownsHigh.1, negated]
      rfl
    have delivers : manager.Delivers bound (shareNode ⟨level, -low, -high⟩ manager) fun after edge =>
        after.Selects level (-low) (-high) edge :=
      shareNode_delivers wellFormed level_pos level_lt plain (owns_neg.mpr ownsLow)
        (owns_neg.mpr ownsHigh) (fun none => below_neg.mpr (lowBelow none))
        (fun none => below_neg.mpr (highBelow none))
    rw [if_pos negated]
    refine ⟨delivers.wellFormed, delivers.grown, owns_neg.mpr delivers.owns, fun none => ?_⟩
    obtain ⟨valueEq, below⟩ := delivers.meaning none
    constructor
    · intro assignment
      rw [value_neg delivers.owns.1, valueEq, value_neg ownsLow.1, value_neg ownsHigh.1]
      split <;> simp
    · intro above lower
      exact below_neg.mpr (below lower)
  · have plain : high.isNegated = false := by simpa using negated
    rw [if_neg negated]
    exact shareNode_delivers wellFormed level_pos level_lt plain ownsLow ownsHigh lowBelow highBelow

theorem makeVariable_delivers (wellFormed : manager.WellFormed bound) {level : Nat}
    (level_pos : 1 ≤ level) (level_lt : level < bound) :
    manager.Delivers bound (makeVariable level manager) fun after edge =>
      ∀ assignment, after.value assignment edge = assignment level := by
  have ordered := wellFormed.toOrdered
  refine (makeNode_delivers wellFormed level_pos level_lt (owns_zero ordered) (owns_one ordered)
    (fun _ => below_zero) fun _ => below_one).mono ?_
  intro _ _ _ selects assignment
  rw [selects.value_eq]
  simp

/-- A signed variable holds under an assignment. -/
def LiteralHolds (assignment : Nat → Bool) (literal : Int) : Bool :=
  if literal < 0 then !assignment literal.natAbs else assignment literal.natAbs

/-- The conjunction of literals with a function of larger levels, where the
levels of the literals decrease. -/
theorem foldl_literals_delivers (literals : List Int) (wellFormed : manager.WellFormed bound)
    {current : Edge} (owns : manager.Owns current)
    (descending : literals.Pairwise fun first second => second.natAbs < first.natAbs)
    (levels : ∀ literal ∈ literals, 1 ≤ literal.natAbs ∧ literal.natAbs < bound)
    (below : manager.exhaustion = none →
      ∀ literal ∈ literals, manager.Below literal.natAbs current) :
    manager.Delivers bound
      (literals.foldl
        (fun (current, manager) (literal : Int) =>
          if literal < 0 then makeNode literal.natAbs current .zero manager
          else makeNode literal.natAbs .zero current manager)
        (current, manager))
      fun after edge => ∀ assignment, after.value assignment edge =
        (after.value assignment current && literals.all (LiteralHolds assignment)) := by
  induction literals generalizing manager current with
  | nil =>
      refine ⟨wellFormed, .refl manager, owns, fun _ assignment => ?_⟩
      simp
  | cons literal literals ih =>
      have ordered := wellFormed.toOrdered
      obtain ⟨lower, descendingRest⟩ := List.pairwise_cons.mp descending
      have belowHead (none : manager.exhaustion = none) :=
        below none literal List.mem_cons_self
      let low := if literal < 0 then current else .zero
      let high := if literal < 0 then .zero else current
      have ownsLow : manager.Owns low := by
        simp only [low]
        split
        · exact owns
        · exact owns_zero ordered
      have ownsHigh : manager.Owns high := by
        simp only [high]
        split
        · exact owns_zero ordered
        · exact owns
      have first := makeNode_delivers wellFormed (levels literal List.mem_cons_self).1
        (levels literal List.mem_cons_self).2 ownsLow ownsHigh
        (fun none => by
          simp only [low]
          split
          · exact belowHead none
          · exact below_zero)
        (fun none => by
          simp only [high]
          split
          · exact below_zero
          · exact belowHead none)
      have step :
          (if literal < 0 then makeNode literal.natAbs current .zero manager
            else makeNode literal.natAbs .zero current manager) =
          makeNode literal.natAbs low high manager := by
        simp only [low, high]
        split <;> rfl
      rw [List.foldl_cons]
      simp only [step]
      have rest := ih first.wellFormed first.owns descendingRest
        (fun other member => levels other (List.mem_cons_of_mem _ member))
        (fun none other member => (first.meaning none).below (lower other member))
      refine ⟨rest.wellFormed, first.grown.trans rest.grown, rest.owns, fun none assignment => ?_⟩
      have selects := rest.grown.selects first.wellFormed.toOrdered (first.grown.owns ownsLow)
        (first.grown.owns ownsHigh) first.owns (first.meaning (rest.grown.unexhausted none))
      rw [rest.meaning none, selects.value_eq]
      simp only [List.all_cons, LiteralHolds, low, high]
      by_cases negative : literal < 0
      · cases assignment literal.natAbs <;> simp [negative]
      · cases assignment literal.natAbs <;> simp [negative]

theorem cubeOfDescending_delivers (wellFormed : manager.WellFormed bound) {literals : List Int}
    (descending : literals.Pairwise fun first second => second.natAbs < first.natAbs)
    (levels : ∀ literal ∈ literals, 1 ≤ literal.natAbs ∧ literal.natAbs < bound) :
    manager.Delivers bound (cubeOfDescending literals manager) fun after edge =>
      ∀ assignment, after.value assignment edge = literals.all (LiteralHolds assignment) := by
  refine (foldl_literals_delivers literals wellFormed (owns_one wellFormed.toOrdered) descending
    levels fun _ _ _ => below_one).mono ?_
  intro _ _ _ valueEq assignment
  rw [valueEq, value_one, Bool.true_and]

end DiagramManager

end AbstractionRefinement
