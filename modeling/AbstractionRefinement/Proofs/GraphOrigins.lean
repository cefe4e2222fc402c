import AbstractionRefinement.Proofs.ExplorationInvariants
import AbstractionRefinement.Proofs.RefinementSoundness

/-!
# Where the nodes of a graph come from

A node holds a state that the analysis listed, as an initial state or as a successor of
the state of its parent, under the precision of the node's version.  This survives
exploration, coverage and pruning, and also a change of the precision.  So the path to a
target is a run of the analysis, and a path through nodes of one version is a run of the
analysis under one precision.
-/

namespace AbstractionRefinement

namespace Explorer

variable {ω σ α π : Type} (explorer : Explorer ω σ α π)

/-- The nodes were computed by the analysis, those of the given version under the given
precision. -/
structure Built (precision : π) (version : Nat) (graph : ReachabilityGraph σ α) : Prop where
  known {id : Nat} {node : GraphNode σ α} : graph.node? id = some node → node.version ≤ version
  older {id parent : Nat} {node : GraphNode σ α} :
    graph.node? id = some node → node.parent = some parent → parent < graph.nodes.size
  root {id : Nat} {node : GraphNode σ α} : graph.node? id = some node → node.origin = none →
    ∃ used, (node.version = version → used = precision) ∧ explorer.Starts used node.state
  child {id parent : Nat} {node other : GraphNode σ α} {action : α} :
    graph.node? id = some node → node.origin = some (parent, action) →
      graph.node? parent = some other →
        ∃ used, (node.version = version → used = precision) ∧
          explorer.Steps used other.state action node.state
  target {id : Nat} {node : GraphNode σ α} :
    graph.node? id = some node → node.target = true → explorer.Hits node.state

end Explorer

namespace GraphNode

variable {σ α : Type}

/-- The nodes agree in everything that is fixed at their creation. -/
structure Kept (before after : GraphNode σ α) : Prop where
  state : after.state = before.state
  origin : after.origin = before.origin
  target : after.target = before.target
  version : after.version = before.version

theorem Kept.refl (node : GraphNode σ α) : node.Kept node :=
  ⟨rfl, rfl, rfl, rfl⟩

end GraphNode

namespace Explorer

open AbstractionRefinement.Computation ReachabilityGraph

variable {ω σ α π : Type} {explorer : Explorer ω σ α π} {precision : π} {version : Nat}
  {graph after : ReachabilityGraph σ α}

theorem built_empty : explorer.Built precision version (empty : ReachabilityGraph σ α) where
  known := by simp
  older := by simp
  root := by simp
  child := by simp
  target := by simp

/-- Nodes may change in other respects, or be removed. -/
theorem Built.of_kept (built : explorer.Built precision version graph)
    (size_le : graph.nodes.size ≤ after.nodes.size)
    (kept : ∀ id other, after.node? id = some other →
      ∃ node, graph.node? id = some node ∧ node.Kept other) :
    explorer.Built precision version after where
  known found := by
    obtain ⟨node, foundNode, same⟩ := kept _ _ found
    rw [same.version]
    exact built.known foundNode
  older found isParent := by
    obtain ⟨node, foundNode, same⟩ := kept _ _ found
    rw [GraphNode.parent, same.origin] at isParent
    exact Nat.lt_of_lt_of_le (built.older foundNode isParent) size_le
  root found isRoot := by
    obtain ⟨node, foundNode, same⟩ := kept _ _ found
    rw [same.version, same.state]
    exact built.root foundNode (same.origin ▸ isRoot)
  child found origin foundParent := by
    obtain ⟨node, foundNode, same⟩ := kept _ _ found
    obtain ⟨parent, foundParent, sameParent⟩ := kept _ _ foundParent
    rw [same.version, same.state, sameParent.state]
    exact built.child foundNode (same.origin ▸ origin) foundParent
  target found isTarget := by
    obtain ⟨node, foundNode, same⟩ := kept _ _ found
    rw [same.state]
    exact built.target foundNode (same.target ▸ isTarget)

theorem Built.initializedAs (built : explorer.Built precision version graph) (flag : Bool) :
    explorer.Built precision version { graph with initialized := flag } :=
  built.of_kept (Nat.le_refl _) fun _ node found => ⟨node, found, .refl node⟩

theorem Built.withCover (built : explorer.Built precision version graph) (id : Nat)
    (coverers : List Nat) : explorer.Built precision version (graph.withCover id coverers) := by
  refine built.of_kept (Nat.le_of_eq ?_) ?_
  · rw [ReachabilityGraph.withCover, size_modifyNode,
      view_foldl (·.nodes.size) fun _ _ => size_modifyNode ..]
  · intro other node found
    rw [node?_withCover, Option.map_eq_some_iff] at found
    obtain ⟨node, found, rfl⟩ := found
    exact ⟨node, found, rfl, rfl, rfl, rfl⟩

theorem Built.markExpanded (built : explorer.Built precision version graph) (id : Nat) :
    explorer.Built precision version
      (graph.modifyNode id fun node => { node with expanded := true }) := by
  refine built.of_kept (Nat.le_of_eq (size_modifyNode ..).symm) ?_
  intro other node found
  rw [node?_modifyNode] at found
  split at found
  · obtain ⟨before, foundBefore, rfl⟩ := Option.map_eq_some_iff.mp found
    exact ⟨before, foundBefore, rfl, rfl, rfl, rfl⟩
  · exact ⟨node, found, .refl node⟩

/-- A new node only has to be explained itself: no node refers to it as its parent. -/
theorem Built.of_created (built : explorer.Built precision version graph)
    (size_le : graph.nodes.size ≤ after.nodes.size)
    (new : GraphNode σ α) (known : new.version = version)
    (older : ∀ parent, new.parent = some parent → parent < graph.nodes.size)
    (root : new.origin = none → explorer.Starts precision new.state)
    (child : ∀ parent action node, new.origin = some (parent, action) →
      graph.node? parent = some node → explorer.Steps precision node.state action new.state)
    (target : new.target = true → explorer.Hits new.state)
    (nodes : ∀ id other, after.node? id = some other →
      (id = graph.nodes.size ∧ other = new) ∨
        ∃ node, graph.node? id = some node ∧ node.Kept other) :
    explorer.Built precision version after := by
  have keptOfParent (parent : Nat) (other : GraphNode σ α)
      (found : after.node? parent = some other) (small : parent < graph.nodes.size) :
      ∃ node, graph.node? parent = some node ∧ node.Kept other := by
    rcases nodes parent other found with ⟨isNew, -⟩ | kept
    · omega
    · exact kept
  constructor
  · intro id other found
    rcases nodes id other found with ⟨-, rfl⟩ | ⟨node, foundNode, same⟩
    · exact Nat.le_of_eq known
    · rw [same.version]
      exact built.known foundNode
  · intro id parent other found isParent
    rcases nodes id other found with ⟨-, rfl⟩ | ⟨node, foundNode, same⟩
    · exact Nat.lt_of_lt_of_le (older parent isParent) size_le
    · rw [GraphNode.parent, same.origin] at isParent
      exact Nat.lt_of_lt_of_le (built.older foundNode isParent) size_le
  · intro id other found isRoot
    rcases nodes id other found with ⟨-, rfl⟩ | ⟨node, foundNode, same⟩
    · exact ⟨precision, fun _ => rfl, root isRoot⟩
    · rw [same.version, same.state]
      exact built.root foundNode (same.origin ▸ isRoot)
  · intro id parent other parentOther action found origin foundParent
    rcases nodes id other found with ⟨-, rfl⟩ | ⟨node, foundNode, same⟩
    · have small := older parent (by rw [GraphNode.parent, origin]; rfl)
      obtain ⟨parentNode, foundNode, sameParent⟩ :=
        keptOfParent _ _ foundParent small
      rw [sameParent.state]
      exact ⟨precision, fun _ => rfl, child parent action parentNode origin foundNode⟩
    · have origin := same.origin ▸ origin
      have small := built.older foundNode (by rw [GraphNode.parent, origin]; rfl)
      obtain ⟨parentNode, foundParent, sameParent⟩ :=
        keptOfParent _ _ foundParent small
      rw [same.version, same.state, sameParent.state]
      exact built.child foundNode origin foundParent
  · intro id other found isTarget
    rcases nodes id other found with ⟨-, rfl⟩ | ⟨node, foundNode, same⟩
    · exact target isTarget
    · rw [same.state]
      exact built.target foundNode (same.target ▸ isTarget)

theorem Built.addInitial (built : explorer.Built precision version graph) {data : NodeData σ}
    (known : data.version = version) (starts : explorer.Starts precision data.state)
    (target : data.target = true → explorer.Hits data.state) :
    explorer.Built precision version (graph.addInitial data) := by
  refine built.of_created ?_ (.created graph.nodes.size data none 0) known ?_
    (fun _ => starts) ?_ target ?_
  · simp [ReachabilityGraph.addInitial, append]
  · intro parent isParent
    cases isParent
  · intro _ _ _ origin
    cases origin
  · intro id other found
    rw [node?_addInitial] at found
    split at found
    case isTrue isNew => exact .inl ⟨isNew, (Option.some.inj found).symm⟩
    case isFalse => exact .inr ⟨other, found, .refl other⟩

theorem Built.withSuccessor (built : explorer.Built precision version graph) {parent : Nat}
    {node : GraphNode σ α} (found : graph.node? parent = some node) {action : α}
    {data : NodeData σ} (depth : Nat) (known : data.version = version)
    (steps : explorer.Steps precision node.state action data.state)
    (target : data.target = true → explorer.Hits data.state) :
    explorer.Built precision version (graph.withSuccessor parent action data depth) := by
  refine built.of_created ?_ (.created graph.nodes.size data (some (parent, action)) depth)
    known ?_ ?_ ?_ target ?_
  · simp [ReachabilityGraph.withSuccessor, append]
  · intro other isParent
    cases isParent
    exact node?_eq_some_lt found
  · intro isRoot
    cases isRoot
  · intro other action' otherNode origin foundOther
    cases origin
    obtain rfl : node = otherNode := Option.some.inj (found.symm.trans foundOther)
    exact steps
  · intro id other foundOther
    rw [node?_withSuccessor found] at foundOther
    split at foundOther
    case isTrue isParent =>
      obtain rfl := Option.some.inj foundOther
      exact .inr ⟨node, isParent ▸ found, rfl, rfl, rfl, rfl⟩
    case isFalse =>
      split at foundOther
      case isTrue isNew => exact .inl ⟨isNew, (Option.some.inj foundOther).symm⟩
      case isFalse => exact .inr ⟨other, foundOther, .refl other⟩

theorem Built.pruneAll (built : explorer.Built precision version graph) :
    explorer.Built precision version graph.pruneAll :=
  built.of_kept (by simp [ReachabilityGraph.pruneAll]) (by simp)

theorem Built.ensures_prune (built : explorer.Built precision version graph)
    (linked : graph.Linked) (id : Nat) :
    (prune id).Ensures graph fun _ after => explorer.Built precision version after := by
  unfold prune
  simp only [ensures_bind, ensures_getNode]
  intro node found
  cases node.parent with
  | none => exact built.pruneAll
  | some parent =>
      simp only [ensures_bind, ensures_getNode, ensures_updateNode, ensures_modify]
      intro parentNode foundParent _ _ _ _
      have pruned := linked.pruned foundParent
      refine built.of_kept (Nat.le_of_eq (size_pruneBelow graph parent _).symm) ?_
      intro other last foundLast
      obtain ⟨-, before, foundBefore, stays⟩ := pruned.backward foundLast
      refine ⟨before, foundBefore, ?_⟩
      rw [stays.same]
      exact ⟨rfl, rfl, rfl, rfl⟩

/-- Nodes of an older version stay what they are under a new precision. -/
theorem Built.refined (built : explorer.Built precision version graph) (refined : π) :
    explorer.Built refined (version + 1) graph where
  known found := Nat.le_succ_of_le (built.known found)
  older := built.older
  root found isRoot := by
    obtain ⟨used, -, starts⟩ := built.root found isRoot
    have known := built.known found
    exact ⟨used, fun same => absurd same (by omega), starts⟩
  child found origin foundParent := by
    obtain ⟨used, -, steps⟩ := built.child found origin foundParent
    have known := built.known found
    exact ⟨used, fun same => absurd same (by omega), steps⟩
  target := built.target

theorem built_keeps : explorer.Keeps precision version fun graph : ReachabilityGraph σ α =>
    graph.Linked ∧ explorer.Built precision version graph where
  numbered valid := fun _ _ => valid.1.id_eq
  addInitial valid makes starts := ⟨valid.1.addInitial _,
    valid.2.addInitial makes.version_eq starts makes.target⟩
  initialized valid := ⟨valid.1.initializedAs true, valid.2.initializedAs true⟩
  withSuccessor valid found _ makes steps := ⟨valid.1.withSuccessor found _ _ _,
    valid.2.withSuccessor found _ makes.version_eq steps makes.target⟩
  markExpanded valid found _ := ⟨valid.1.markExpanded found, valid.2.markExpanded _⟩
  withCover valid _ _ _ chosen _ irreflexive :=
    ⟨linked_withCover valid.1 chosen irreflexive, valid.2.withCover _ _⟩

theorem Built.ensures_check (fuel : Nat) (budget : Budget ω)
    (exploration : ExplorationState ω σ α)
    (built : explorer.Built precision version exploration.graph)
    (linked : exploration.graph.Linked) :
    (explorer.check fuel precision version budget).Ensures exploration fun _ after =>
      explorer.Built precision version after.graph :=
  (built_keeps.outcome_check fuel budget exploration ⟨linked, built⟩).mono
    (fun _ _ valid => valid.2) fun _ _ _ => trivial

/-- The states after a first one are listed as successors under precisions that may be
used, and the last one is a target. -/
inductive ProducedFrom (explorer : Explorer ω σ α π) (mayUse : π → Prop) :
    σ → List (α × σ) → Prop
  | done {state : σ} (hits : explorer.Hits state) : ProducedFrom explorer mayUse state []
  | step {state next : σ} {action : α} {steps : List (α × σ)} {used : π} (allowed : mayUse used)
      (steps' : explorer.Steps used state action next)
      (rest : ProducedFrom explorer mayUse next steps) :
      ProducedFrom explorer mayUse state ((action, next) :: steps)

/-- The trace is a run of the analysis to a target. -/
structure Produces (explorer : Explorer ω σ α π) (mayUse : π → Prop) (trace : Trace σ α) :
    Prop where
  starts : ∃ used, mayUse used ∧ explorer.Starts used trace.first
  rest : explorer.ProducedFrom mayUse trace.first trace.steps

theorem ProducedFrom.mono {mayUse mayUse' : π → Prop} {state : σ} {steps : List (α × σ)}
    (produced : explorer.ProducedFrom mayUse state steps)
    (weaker : ∀ used, mayUse used → mayUse' used) : explorer.ProducedFrom mayUse' state steps := by
  induction produced with
  | done hits => exact .done hits
  | step allowed steps _ ih => exact .step (weaker _ allowed) steps ih

theorem Produces.mono {mayUse mayUse' : π → Prop} {trace : Trace σ α}
    (produces : explorer.Produces mayUse trace) (weaker : ∀ used, mayUse used → mayUse' used) :
    explorer.Produces mayUse' trace := by
  obtain ⟨⟨used, allowed, starts⟩, rest⟩ := produces
  exact ⟨⟨used, weaker used allowed, starts⟩, rest.mono weaker⟩

/-- The nodes are of the current version. -/
def Fresh (graph : ReachabilityGraph σ α) (version : Nat) (ids : List Nat) : Prop :=
  ∀ id ∈ ids, ∀ node, graph.node? id = some node → version ≤ node.version

theorem fresh_of_firstStale? {ids : List Nat}
    (notStale : Verifier.firstStale? graph version ids = none) : Fresh graph version ids := by
  intro id member node found
  have notBelow := List.findIdx?_eq_none_iff.mp notStale id member
  rw [found, Option.any_some, decide_eq_false_iff_not] at notBelow
  exact Nat.le_of_not_lt notBelow

/-- The path up from a node is a run to the state of the node, to be continued from there. -/
theorem Built.exists_of_pathUpWithin (built : explorer.Built precision version graph)
    {fuel id : Nat} {path : List Nat} (walks : graph.pathUpWithin fuel id = .ok path)
    {node : GraphNode σ α} (found : graph.node? id = some node) {steps : List (α × σ)}
    (mayUse : π → Prop)
    (allowed : ∀ used, (Fresh graph version path → used = precision) → mayUse used)
    (rest : explorer.ProducedFrom mayUse node.state steps) :
    ∃ nodes first earlier, path.reverse.mapM graph.lookup = .ok nodes ∧
      nodes.map GraphNode.state = first :: earlier.map Prod.snd ∧
      nodes.filterMap (fun node => node.origin.map Prod.snd) = earlier.map Prod.fst ∧
      (∃ used, mayUse used ∧ explorer.Starts used first) ∧
      explorer.ProducedFrom mayUse first (earlier ++ steps) := by
  induction fuel generalizing id path node steps with
  | zero => cases walks
  | succ fuel ih =>
      obtain ⟨other, looked, walks⟩ := exists_of_bind_eq_ok walks
      obtain rfl : node = other :=
        Option.some.inj (found.symm.trans (lookup_eq_ok_iff.mp looked))
      have isFresh (fresh : Fresh graph version path) (member : id ∈ path) :
          node.version = version :=
        Nat.le_antisymm (built.known found) (fresh id member node found)
      cases origin : node.origin with
      | none =>
          rw [show node.parent = none by rw [GraphNode.parent, origin]; rfl] at walks
          cases walks
          obtain ⟨used, same, starts⟩ := built.root found origin
          refine ⟨[node], node.state, [], ?_, rfl, ?_, ⟨used, allowed used fun fresh =>
            same (isFresh fresh (List.mem_singleton_self id)), starts⟩, rest⟩
          · simp [looked]
          · simp [origin]
      | some edge =>
          obtain ⟨parent, action⟩ := edge
          rw [show node.parent = some parent by rw [GraphNode.parent, origin]; rfl] at walks
          obtain ⟨above, walksAbove, made⟩ := exists_of_bind_eq_ok walks
          cases made
          obtain ⟨parentNode, foundParent⟩ : ∃ other, graph.node? parent = some other := by
            cases fuel with
            | zero => cases walksAbove
            | succ fuel =>
                obtain ⟨other, foundOther, -⟩ := exists_of_bind_eq_ok walksAbove
                exact ⟨other, lookup_eq_ok_iff.mp foundOther⟩
          obtain ⟨used, same, steps'⟩ := built.child found origin foundParent
          have continued : explorer.ProducedFrom mayUse parentNode.state
              ((action, node.state) :: steps) :=
            .step (allowed used fun fresh => same (isFresh fresh List.mem_cons_self)) steps' rest
          obtain ⟨nodes, first, earlier, lookedAbove, states, actions, starts, produced⟩ :=
            ih walksAbove foundParent
              (fun used same => allowed used fun fresh => same fun other member =>
                fresh other (List.mem_cons_of_mem _ member)) continued
          refine ⟨nodes ++ [node], first, earlier ++ [(action, node.state)], ?_, ?_, ?_, starts, ?_⟩
          · simp [lookedAbove, looked]
            rfl
          · simp [states]
          · simp [actions, origin]
          · simpa using produced

/-- The counterexample at a target is a run of the analysis, under the current precision if
all its nodes are of the current version. -/
theorem Built.produces (built : explorer.Built precision version graph) {target : Nat}
    {node : GraphNode σ α} (found : graph.node? target = some node)
    (isTarget : node.target = true) {counterexample : Counterexample σ α}
    (made : Counterexample.ofGraph graph target = .ok counterexample) :
    explorer.Produces (fun used => Fresh graph version counterexample.nodes → used = precision)
      counterexample.trace := by
  obtain ⟨path, walks, made⟩ := exists_of_bind_eq_ok made
  obtain ⟨nodes, looked, made⟩ := exists_of_bind_eq_ok made
  obtain ⟨up, walksUp, rfl⟩ := exists_of_pathTo walks
  obtain ⟨nodes', first, earlier, looked', states, actions, starts, produced⟩ :=
    built.exists_of_pathUpWithin walksUp found
      (fun used => Fresh graph version up.reverse → used = precision)
      (fun used same fresh => same fun id member => fresh id (List.mem_reverse.mpr member))
      (.done (built.target found isTarget))
  cases looked.symm.trans looked'
  have zipped : (earlier.map Prod.fst).zip (earlier.map Prod.snd) = earlier := by
    rw [← List.unzip_fst, ← List.unzip_snd, List.zip_unzip]
  have listed : Trace.ofLists? (first :: earlier.map Prod.snd) (earlier.map Prod.fst) =
      some ⟨first, earlier⟩ := by
    simp [Trace.ofLists?, zipped]
  rw [states, actions] at made
  dsimp only at made
  rw [listed] at made
  cases made
  exact ⟨starts, by simpa using produced⟩

end Explorer

namespace Verifier

open AbstractionRefinement.Computation ReachabilityGraph

variable {ω σ α π : Type} {verifier : Verifier ω σ α π} {graph : ReachabilityGraph σ α}

/-- What a fold chooses is its start or one of the items. -/
theorem mem_of_mem_foldl {ι : Type} {choose : Option ι → ι → Option ι}
    (chooses : ∀ best item, choose best item = best ∨ choose best item = some item)
    (items : List ι) (best : Option ι) {item : ι} (chosen : item ∈ items.foldl choose best) :
    item ∈ best ∨ item ∈ items := by
  induction items generalizing best with
  | nil => exact .inl chosen
  | cons first items ih =>
      rcases ih _ chosen with isBest | later
      · rcases chooses best first with kept | taken
        · rw [kept] at isBest
          exact .inl isBest
        · rw [taken] at isBest
          cases isBest
          exact .inr List.mem_cons_self
      · exact .inr (List.mem_cons_of_mem _ later)

theorem nearestTarget?_spec {target : Nat} (linked : graph.Linked)
    (nearest : nearestTarget? graph = some target) :
    ∃ node, graph.node? target = some node ∧ node.target = true := by
  obtain ⟨node, isChosen, rfl⟩ := Option.map_eq_some_iff.mp nearest
  have member : node ∈ graph.targetNodes := by
    refine (mem_of_mem_foldl ?_ _ none isChosen).resolve_left (by rintro ⟨⟩)
    rintro (_ | other) node
    · exact .inr rfl
    · dsimp only
      split
      · exact .inr rfl
      · exact .inl rfl
  obtain ⟨live, isTarget⟩ := List.mem_filter.mp member
  obtain ⟨id, found⟩ := mem_live.mp live
  rw [linked.id_eq found]
  exact ⟨node, found, isTarget⟩

/-- Without concrete states every explorer is sound, so that links are kept. -/
theorem soundFor_nothing (explorer : Explorer ω σ α π) :
    explorer.SoundFor (κ := Empty) ⟨fun _ => False, fun _ _ _ => False⟩ (fun _ _ => False)
      (fun _ => True) (fun _ => False) where
  initial_covers _ starts := starts.elim
  initial_admissible _ _ _ := trivial
  enabled_covers _ stands := stands.elim
  successors_cover _ _ stands := stands.elim
  successors_admissible _ _ _ _ _ := trivial
  bottom_empty _ stands := stands
  leq_subsumes _ _ _ stands := stands
  join_admissible _ _ _ := trivial
  join_exact _ _ _ stands := stands.elim
  target_marks _ stands := stands.elim

/-- A graph whose links are intact and whose nodes are explained. -/
structure Explained (explorer : Explorer ω σ α π) (precision : π) (version : Nat)
    (graph : ReachabilityGraph σ α) : Prop where
  built : explorer.Built precision version graph
  sound : graph.Sound (κ := Empty) ⟨fun _ => False, fun _ _ _ => False⟩ (fun _ _ => False)
    (fun _ => True) (fun _ => False)

theorem Explained.ensures_abstractionStep [Precision π] (budget : Budget ω) (fuel : Nat)
    {precision : π} {version : Nat} (state : RunState ω σ α)
    (explained : Explained verifier.explorer precision version state.exploration.graph) :
    (verifier.abstractionStep budget fuel precision version).Ensures state fun _ after =>
      Explained verifier.explorer precision version after.exploration.graph := by
  have stays := Verifier.ensures_abstractionStep (soundFor_nothing verifier.explorer) budget fuel
    precision version state explained.sound
  refine (stays.and (?_ : (verifier.abstractionStep budget fuel precision version).Ensures state
    fun _ after => verifier.explorer.Built precision version after.exploration.graph)).mono
      fun _ after explained => ⟨explained.2, explained.1.1⟩
  unfold abstractionStep
  simp only [ensures_bind, ensures_get]
  split
  case isTrue => trivial
  case isFalse =>
    simp only [ensures_bind, ensures_explore, Run.count, Run.graph, ensures_modify,
      ensures_get, ensures_pure]
    apply ensures_poll
    exact explained.built.ensures_check fuel budget state.exploration explained.sound.linked

theorem Explained.ensures_pruneAt {precision : π} {version : Nat} (path : List Nat)
    (position : Nat) (state : RunState ω σ α)
    (explained : Explained verifier.explorer precision version state.exploration.graph) :
    (verifier.pruneAt path position).Ensures state fun _ after =>
      Explained verifier.explorer precision version after.exploration.graph := by
  refine ((Verifier.ensures_pruneAt path position state explained.sound).and (?_ :
    (verifier.pruneAt path position).Ensures state fun _ after =>
      verifier.explorer.Built precision version after.exploration.graph)).mono
        fun _ after explained => ⟨explained.2, explained.1⟩
  unfold pruneAt
  rw [ensures_explore, ensures_onGraph]
  cases verifier.prune with
  | full => exact explained.built.pruneAll
  | lazy => exact explained.built.ensures_prune explained.sound.linked _

/-- The counterexample of an explained graph is a run of the analysis. -/
theorem Explained.ensures_nearestCounterexample {precision : π} {version : Nat}
    (state : RunState ω σ α)
    (explained : Explained verifier.explorer precision version state.exploration.graph) :
    (nearestCounterexample : Run ω σ α (Counterexample σ α)).Ensures state
      fun counterexample after => after = state ∧
        verifier.explorer.Produces
          (fun used => Explorer.Fresh state.exploration.graph version counterexample.nodes →
            used = precision) counterexample.trace := by
  unfold nearestCounterexample Run.graph
  simp only [ensures_bind, ensures_get, ensures_pure]
  split
  case h_1 => trivial
  case h_2 target nearest =>
    obtain ⟨node, found, isTarget⟩ := nearestTarget?_spec explained.sound.linked nearest
    exact (ensures_lift _).mpr fun counterexample made =>
      ⟨rfl, explained.built.produces found isTarget made⟩

/-- The trace of a violated outcome is a run of the analysis that the refiner found
feasible. -/
def Confirmed (verifier : Verifier ω σ α π) : SafetyOutcome σ α π → Prop
  | .violated trace concrete _ precision => verifier.explorer.Produces (fun _ => True) trace ∧
      ∃ world after, verifier.refiner trace precision world = (.ok (.feasible concrete), after)
  | _ => True

theorem Explained.ensures_loop [Precision π] [DecidableEq π] (budget : Budget ω)
    (explorationFuel fuel : Nat) {precision : π} {version : Nat} (state : RunState ω σ α)
    (explained : Explained verifier.explorer precision version state.exploration.graph) :
    (verifier.loop budget explorationFuel fuel precision version).Ensures state
      fun outcome _ => verifier.Confirmed outcome := by
  induction fuel generalizing precision version state with
  | zero => trivial
  | succ fuel ih =>
      unfold loop
      rw [ensures_bind]
      apply (explained.ensures_abstractionStep budget explorationFuel state).mono
      intro status explored explained
      cases status with
      | exhausted => exact trivial
      | idle => trivial
      | exploring => trivial
      | targetFound =>
          dsimp only
          rw [ensures_bind]
          apply (explained.ensures_nearestCounterexample explored).mono
          rintro counterexample _ ⟨rfl, produces⟩
          simp only [ensures_bind, ensures_explore, ensures_ofAnalysis]
          apply ensures_poll
          apply ensures_of_run
          intro found world run
          cases found with
          | feasible concrete =>
              simp only [Run.graph, ensures_bind, ensures_get, ensures_pure]
              exact ⟨produces.mono fun _ _ => trivial, _, _, run⟩
          | spurious refined pruneIndex =>
              simp only [Run.count, Run.graph, ensures_bind, ensures_modify]
              split
              case isTrue =>
                simp only [ensures_bind, ensures_get, ensures_pure]
                split
                case h_1 => trivial
                case h_2 position _ =>
                  rw [ensures_bind]
                  refine (Explained.ensures_pruneAt counterexample.nodes position _
                    (by exact explained)).mono ?_
                  exact fun _ pruned explained => ih pruned explained
              case isFalse =>
                rw [ensures_bind]
                refine (Explained.ensures_pruneAt counterexample.nodes _ _
                  (by exact explained)).mono ?_
                intro _ pruned explained
                exact ih pruned ⟨explained.built.refined refined, explained.sound⟩

/-- A violated verdict rests on a run of the analysis to a target that the refiner found
feasible, whatever shapes the exploration and the refinement. -/
theorem confirmed_of_verify [Precision π] [DecidableEq π] (verifier : Verifier ω σ α π)
    (limits : ResourceLimits) (checks : ω → Nat) (fuel : Nat) (precision : π)
    (start : ω × ExplorationStatus) :
    verifier.Confirmed (verifier.verify limits checks fuel precision start).1.outcome := by
  obtain ⟨world, status⟩ := start
  have explained : Explained verifier.explorer precision 0 (empty : ReachabilityGraph σ α) :=
    ⟨Explorer.built_empty, sound_empty⟩
  have ends := explained.ensures_loop (Budget.start limits checks world) fuel fuel
    { exploration := { world, graph := .empty, status }, statistics := {} }
  unfold Verifier.verify
  unfold Ensures Outcome at ends
  dsimp only
  revert ends
  rcases verifier.loop (Budget.start limits checks world) fuel fuel precision 0
    { exploration := { world, graph := .empty, status }, statistics := {} } with
    ⟨_ | outcome, after⟩
  · exact fun _ => trivial
  · exact id

end Verifier

end AbstractionRefinement
