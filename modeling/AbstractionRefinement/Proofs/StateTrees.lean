import AbstractionRefinement.Proofs.SettledGraphs

/-!
# Trees of states

Without coverage, a reachability graph is the beginning of a forest that is known before any
exploration: the roots are the initial states, and the branches of a state are its successors
under the actions that are enabled there, in this order, except that nothing follows a target.
Expanding nodes and pruning keep the graph a beginning of this forest.  Once nothing is left to
expand the graph is the whole forest, whatever the numbers of its nodes are.
-/

namespace AbstractionRefinement

/-- A state with its branches, each below an action. -/
inductive StateTree (σ α : Type) where
  | node (state : σ) (target : Bool) (branches : List (α × StateTree σ α))

section Sequences

variable {β γ δ : Type}

theorem mapM_eq_mapM_of_map_eq {first : β → Option δ} {second : γ → Option δ} {items : List β}
    {others : List γ} (same : items.map first = others.map second) :
    items.mapM first = others.mapM second := by
  calc items.mapM first = (items.map first).mapM (fun result => result) := by
        rw [List.mapM_map]; rfl
    _ = (others.map second).mapM (fun result => result) := by rw [same]
    _ = others.mapM second := by rw [List.mapM_map]; rfl

/-- What is known of the entries holds of the lists. -/
theorem map_eq_of_map_eq_some {see : β → Option γ} {first : β → δ} {second : γ → δ}
    {items : List β} {seen : List γ} (sees : items.map see = seen.map some)
    (same : ∀ item content, see item = some content → first item = second content) :
    items.map first = seen.map second := by
  induction items generalizing seen with
  | nil =>
      obtain rfl : seen = [] := List.map_eq_nil_iff.mp sees.symm
      rfl
  | cons item items ih =>
      cases seen with
      | nil => cases sees
      | cons content seen =>
          obtain ⟨sees, others⟩ := List.cons.inj sees
          rw [List.map_cons, List.map_cons, same item content sees, ih others]

theorem isSome_mapM_iff {make : β → Option γ} {items : List β} :
    (items.mapM make).isSome = true ↔ ∀ item ∈ items, (make item).isSome = true := by
  induction items with
  | nil => simp
  | cons item items ih =>
      rw [List.mapM_cons, List.forall_mem_cons, ← ih]
      cases make item <;> cases items.mapM make <;> simp

end Sequences

/-- A system that unfolds into a forest of its states. -/
structure Unfolding (σ α : Type) where
  roots : List σ
  target : σ → Bool
  successors : σ → List (α × σ)

namespace Unfolding

variable {σ α : Type} (unfolding : Unfolding σ α) {levels other : Nat} {state : σ}

/-- How the tree goes on from a state.  It ends at a target. -/
def steps (state : σ) : List (α × σ) :=
  if unfolding.target state then [] else unfolding.successors state

def treeWithin : Nat → σ → Option (StateTree σ α)
  | 0, _ => none
  | levels + 1, state => do
      let branches ← (unfolding.steps state).mapM fun step =>
        (treeWithin levels step.2).map (Prod.mk step.1)
      return .node state (unfolding.target state) branches

/-- The trees below the roots, if they have at most so many levels. -/
def forestWithin (levels : Nat) : Option (List (StateTree σ α)) :=
  unfolding.roots.mapM (unfolding.treeWithin levels)

/-- Number of states in the first levels of a tree, and one for what is below each of them. -/
def sizeWithin : Nat → σ → Nat
  | 0, _ => 1
  | levels + 1, state =>
      1 + ((unfolding.steps state).map fun step => sizeWithin levels step.2).sum

/-- The tree below a state has at most so many levels. -/
def EndsWithin (levels : Nat) (state : σ) : Prop :=
  (unfolding.treeWithin levels state).isSome = true

variable {unfolding}

theorem sizeWithin_pos (levels : Nat) (state : σ) : 0 < unfolding.sizeWithin levels state := by
  cases levels <;> simp [sizeWithin]

theorem not_endsWithin_zero : ¬ unfolding.EndsWithin 0 state :=
  Bool.false_ne_true

theorem endsWithin_succ_iff : unfolding.EndsWithin (levels + 1) state ↔
    ∀ step ∈ unfolding.steps state, unfolding.EndsWithin levels step.2 := by
  have branches_iff : ((unfolding.steps state).mapM fun step =>
      (unfolding.treeWithin levels step.2).map (Prod.mk step.1)).isSome = true ↔
        ∀ step ∈ unfolding.steps state, unfolding.EndsWithin levels step.2 := by
    simp [isSome_mapM_iff, EndsWithin]
  rw [← branches_iff, EndsWithin, treeWithin]
  cases (unfolding.steps state).mapM fun step =>
    (unfolding.treeWithin levels step.2).map (Prod.mk step.1) <;> simp

/-- More levels than there are make no difference. -/
theorem EndsWithin.succ_eq (ends : unfolding.EndsWithin levels state) :
    unfolding.treeWithin (levels + 1) state = unfolding.treeWithin levels state ∧
      unfolding.sizeWithin (levels + 1) state = unfolding.sizeWithin levels state := by
  induction levels generalizing state with
  | zero => exact absurd ends not_endsWithin_zero
  | succ levels ih =>
      have below := endsWithin_succ_iff.mp ends
      constructor
      · rw [treeWithin, treeWithin, mapM_eq_mapM_of_map_eq]
        refine List.map_congr_left fun step member => ?_
        rw [(ih (below step member)).1]
      · rw [sizeWithin, sizeWithin]
        congr 2
        exact List.map_congr_left fun step member => (ih (below step member)).2

theorem EndsWithin.treeWithin_eq (ends : unfolding.EndsWithin levels state)
    (most : levels ≤ other) :
    unfolding.treeWithin other state = unfolding.treeWithin levels state := by
  induction other, most using Nat.le_induction with
  | base => rfl
  | succ other _ ih =>
      have ends' : unfolding.EndsWithin other state := by rwa [EndsWithin, ih]
      rw [ends'.succ_eq.1, ih]

theorem EndsWithin.mono (ends : unfolding.EndsWithin levels state) (most : levels ≤ other) :
    unfolding.EndsWithin other state := by
  rwa [EndsWithin, ends.treeWithin_eq most]

theorem EndsWithin.step (ends : unfolding.EndsWithin levels state) {step : α × σ}
    (member : step ∈ unfolding.steps state) : unfolding.EndsWithin levels step.2 := by
  cases levels with
  | zero => exact absurd ends not_endsWithin_zero
  | succ levels => exact (endsWithin_succ_iff.mp ends step member).mono (Nat.le_succ levels)

theorem EndsWithin.sizeWithin_eq (ends : unfolding.EndsWithin levels state) :
    unfolding.sizeWithin levels state =
      1 + ((unfolding.steps state).map fun step => unfolding.sizeWithin levels step.2).sum :=
  ends.succ_eq.2.symm

theorem isSome_forestWithin_iff : (unfolding.forestWithin levels).isSome = true ↔
    ∀ root ∈ unfolding.roots, unfolding.EndsWithin levels root :=
  isSome_mapM_iff

/-- There is one forest, however many levels it is given. -/
theorem forestWithin_unique {forest forest' : List (StateTree σ α)}
    (found : unfolding.forestWithin levels = some forest)
    (found' : unfolding.forestWithin other = some forest') : forest = forest' := by
  have grows {levels other : Nat} {forest : List (StateTree σ α)} (most : levels ≤ other)
      (found : unfolding.forestWithin levels = some forest) :
      unfolding.forestWithin other = some forest := by
    have ends : ∀ root ∈ unfolding.roots, unfolding.EndsWithin levels root :=
      isSome_forestWithin_iff.mp (by rw [found, Option.isSome_some])
    rw [← found, forestWithin, forestWithin]
    exact mapM_eq_mapM_of_map_eq
      (List.map_congr_left fun root member => (ends root member).treeWithin_eq most)
  have most := grows (Nat.le_max_left levels other) found
  rw [grows (Nat.le_max_right levels other) found'] at most
  exact (Option.some.inj most).symm

end Unfolding

theorem GraphNode.target_of_isIncomplete {σ α : Type} {node : GraphNode σ α}
    (isOpen : node.isIncomplete = true) : node.target = false := by
  simp only [isIncomplete, Bool.and_eq_true, Bool.not_eq_true'] at isOpen
  exact isOpen.1.2

namespace ReachabilityGraph

variable {σ α : Type}

/-- The action that leads to a node, with the state there; none if the node is initial. -/
def step? (graph : ReachabilityGraph σ α) (id : Nat) : Option (α × σ) := do
  let node ← graph.node? id
  let origin ← node.origin
  return (origin.2, node.state)

/-- The tree below a node, if it has at most so many levels. -/
def treeWithin (graph : ReachabilityGraph σ α) : Nat → Nat → Option (StateTree σ α)
  | 0, _ => none
  | levels + 1, id => do
      let node ← graph.node? id
      let branches ← node.children.mapM fun child =>
        (graph.step? child).bind fun step =>
          (graph.treeWithin levels child).map (Prod.mk step.1)
      return .node node.state node.target branches

/-- The trees below the initial nodes.  Children have greater numbers, which bounds the levels. -/
def trees (graph : ReachabilityGraph σ α) : Option (List (StateTree σ α)) :=
  graph.initial.mapM (graph.treeWithin graph.nodes.size)

def Finished (graph : ReachabilityGraph σ α) : Prop :=
  ∀ ⦃id : Nat⦄ ⦃node : GraphNode σ α⦄, graph.node? id = some node → node.isIncomplete = false

/-- The graph is a beginning of the forest: what is expanded is expanded as the forest is, and
no node is covered. -/
structure Begins (graph : ReachabilityGraph σ α) (unfolding : Unfolding σ α) : Prop
    extends graph.Settled where
  uncovered {id : Nat} {node : GraphNode σ α} : graph.node? id = some node → node.coveredBy = []
  target_eq {id : Nat} {node : GraphNode σ α} : graph.node? id = some node →
    node.target = unfolding.target node.state
  children_eq {id : Nat} {node : GraphNode σ α} : graph.node? id = some node →
    node.expanded = true →
      node.children.map graph.step? = (unfolding.successors node.state).map some
  roots_eq : graph.initialized = true →
    graph.initial.map (fun id => (graph.node? id).map GraphNode.state) =
      unfolding.roots.map some

/-- The graph is the whole forest. -/
structure Completes (graph : ReachabilityGraph σ α) (unfolding : Unfolding σ α) : Prop
    extends graph.Begins unfolding where
  initialized : graph.initialized = true
  finished : graph.Finished

variable {graph after : ReachabilityGraph σ α} {unfolding : Unfolding σ α} {id : Nat}
  {node : GraphNode σ α}

theorem step?_eq_some_iff {step : α × σ} : graph.step? id = some step ↔
    ∃ node source, graph.node? id = some node ∧ node.origin = some (source, step.1) ∧
      node.state = step.2 := by
  obtain ⟨action, state⟩ := step
  simp [step?, Option.bind_eq_some_iff]

namespace Completes

theorem children_steps (completes : graph.Completes unfolding)
    (found : graph.node? id = some node) :
    node.children.map graph.step? = (unfolding.steps node.state).map some := by
  unfold Unfolding.steps
  cases isTarget : node.target with
  | true => rw [completes.leaf found (.inr isTarget), ← completes.target_eq found, isTarget]; rfl
  | false =>
      have expanded : node.expanded = true := by
        simpa [GraphNode.isIncomplete, GraphNode.isCovered, completes.uncovered found, isTarget]
          using completes.finished found
      rw [completes.children_eq found expanded, ← completes.target_eq found, isTarget]
      rfl

theorem treeWithin_eq (completes : graph.Completes unfolding) (levels : Nat)
    (found : graph.node? id = some node) :
    graph.treeWithin levels id = unfolding.treeWithin levels node.state := by
  induction levels generalizing id node with
  | zero => rfl
  | succ levels ih =>
      have branches_eq :
          (node.children.mapM fun child => (graph.step? child).bind fun step =>
              (graph.treeWithin levels child).map (Prod.mk step.1)) =
            (unfolding.steps node.state).mapM fun step =>
              (unfolding.treeWithin levels step.2).map (Prod.mk step.1) := by
        refine mapM_eq_mapM_of_map_eq
          (map_eq_of_map_eq_some (completes.children_steps found) fun child step isStep => ?_)
        obtain ⟨last, source, foundLast, -, state_eq⟩ := step?_eq_some_iff.mp isStep
        rw [isStep, Option.bind_some, ih foundLast, state_eq]
      rw [treeWithin, Unfolding.treeWithin, found]
      simp only [Option.bind_eq_bind, Option.bind_some, branches_eq, completes.target_eq found]

/-- The tree below a node has no more levels than there are greater numbers. -/
theorem endsWithin (completes : graph.Completes unfolding) {levels : Nat}
    (enough : graph.nodes.size ≤ id + levels) (found : graph.node? id = some node) :
    unfolding.EndsWithin levels node.state := by
  induction levels generalizing id node with
  | zero => exact absurd (node?_eq_some_lt found) (Nat.not_lt.mpr enough)
  | succ levels ih =>
      refine Unfolding.endsWithin_succ_iff.mpr fun step member => ?_
      have listed : some step ∈ node.children.map graph.step? := by
        rw [completes.children_steps found]
        exact List.mem_map_of_mem member
      obtain ⟨child, isChild, isStep⟩ := List.mem_map.mp listed
      obtain ⟨last, source, foundLast, -, state_eq⟩ := step?_eq_some_iff.mp isStep
      have later := completes.lt_of_mem_children found isChild
      rw [← state_eq]
      exact ih (by omega) foundLast

theorem exists_initial (completes : graph.Completes unfolding) {root : σ}
    (isRoot : root ∈ unfolding.roots) : ∃ id node, graph.node? id = some node ∧
      node.state = root := by
  have listed := List.mem_map_of_mem isRoot (f := some)
  rw [← completes.roots_eq completes.initialized] at listed
  obtain ⟨id, -, isState⟩ := List.mem_map.mp listed
  exact ⟨id, Option.map_eq_some_iff.mp isState⟩

theorem trees_eq (completes : graph.Completes unfolding) :
    graph.trees = unfolding.forestWithin graph.nodes.size := by
  refine mapM_eq_mapM_of_map_eq
    (map_eq_of_map_eq_some (completes.roots_eq completes.initialized) fun id root isState => ?_)
  obtain ⟨node, found, rfl⟩ := Option.map_eq_some_iff.mp isState
  exact completes.treeWithin_eq _ found

theorem exists_trees (completes : graph.Completes unfolding) :
    ∃ forest, graph.trees = some forest := by
  rw [← Option.isSome_iff_exists, completes.trees_eq, Unfolding.isSome_forestWithin_iff]
  intro root isRoot
  obtain ⟨id, node, found, rfl⟩ := completes.exists_initial isRoot
  exact completes.endsWithin (by omega) found

theorem same_trees (completes : graph.Completes unfolding) (completes' : after.Completes unfolding) :
    after.trees = graph.trees := by
  obtain ⟨forest, trees_eq⟩ := completes.exists_trees
  obtain ⟨forest', trees_eq'⟩ := completes'.exists_trees
  have same := Unfolding.forestWithin_unique (completes.trees_eq ▸ trees_eq)
    (completes'.trees_eq ▸ trees_eq')
  rw [trees_eq, trees_eq', same]

end Completes

theorem begins_of_no_nodes (settled : graph.Settled) (noNodes : ∀ id, graph.node? id = none)
    (notInitialized : graph.initialized = false) : graph.Begins unfolding where
  toSettled := settled
  uncovered := by simp [noNodes]
  target_eq := by simp [noNodes]
  children_eq := by simp [noNodes]
  roots_eq := by simp [notInitialized]

theorem begins_empty : (empty : ReachabilityGraph σ α).Begins unfolding :=
  begins_of_no_nodes settled_empty node?_empty rfl

theorem begins_pruneAll (graph : ReachabilityGraph σ α) : graph.pruneAll.Begins unfolding :=
  begins_of_no_nodes graph.settled_pruneAll graph.node?_pruneAll rfl

theorem map_range'_eq {β γ : Type} {first : Nat} {items : List β} {view : Nat → Option γ}
    {content : β → γ}
    (shows : ∀ position, first ≤ position → view position = (items[position - first]?).map content) :
    (List.range' first items.length).map view = (items.map content).map some := by
  refine List.ext_getElem (by simp) fun index _ inside => ?_
  have inside : index < items.length := by simpa using inside
  simp [shows, inside]

/-- The nodes after an expansion. -/
theorem withExpansion_cases (found : graph.node? id = some node) {depth : Nat}
    {made : List (α × NodeData σ)} {other : Nat} {last : GraphNode σ α}
    (foundLast : (graph.withExpansion id depth made).node? other = some last) :
    (other = id ∧ last = { node with
      children := node.children ++ List.range' graph.nodes.size made.length, expanded := true }) ∨
    (other ≠ id ∧ graph.node? other = some last) ∨
    ∃ new ∈ made, last = .created other new.2 (some (id, new.1)) depth := by
  rw [node?_withExpansion found] at foundLast
  split at foundLast
  case isTrue isParent => exact .inl ⟨isParent, (Option.some.inj foundLast).symm⟩
  case isFalse different =>
    split at foundLast
    case isTrue => exact .inr (.inl ⟨different, foundLast⟩)
    case isFalse =>
      obtain ⟨new, listed, rfl⟩ := Option.map_eq_some_iff.mp foundLast
      exact .inr (.inr ⟨new, List.mem_of_getElem? listed, rfl⟩)

theorem step?_withExpansion (found : graph.node? id = some node) (depth : Nat)
    (made : List (α × NodeData σ)) {other : Nat} (old : other < graph.nodes.size) :
    (graph.withExpansion id depth made).step? other = graph.step? other ∧
      ((graph.withExpansion id depth made).node? other).map GraphNode.state =
        (graph.node? other).map GraphNode.state := by
  unfold step?
  rw [node?_withExpansion found]
  by_cases isParent : other = id
  · rw [if_pos isParent, isParent, found]
    exact ⟨rfl, rfl⟩
  · rw [if_neg isParent, if_pos old]
    exact ⟨rfl, rfl⟩

theorem map_step?_withExpansion (found : graph.node? id = some node) (depth : Nat)
    (made : List (α × NodeData σ)) :
    (List.range' graph.nodes.size made.length).map (graph.withExpansion id depth made).step? =
      (made.map fun new => (new.1, new.2.state)).map some := by
  refine map_range'_eq fun position isNew => ?_
  have different : position ≠ id :=
    Nat.ne_of_gt (Nat.lt_of_lt_of_le (node?_eq_some_lt found) isNew)
  unfold step?
  rw [node?_withExpansion found, if_neg different, if_neg (Nat.not_lt.mpr isNew)]
  cases made[position - graph.nodes.size]? <;> rfl

theorem Forest.exists_initial (forest : graph.Forest) (member : id ∈ graph.initial) :
    ∃ node, graph.node? id = some node := by
  obtain ⟨node, found, -⟩ := forest.roots.mem_iff.mp member
  exact ⟨node, found⟩

/-- A node is expanded as the forest is. -/
theorem Begins.withExpansion (begins : graph.Begins unfolding)
    (found : graph.node? id = some node) (isOpen : node.isIncomplete = true)
    {made : List (α × NodeData σ)}
    (targets : ∀ new ∈ made, new.2.target = unfolding.target new.2.state)
    (steps : made.map (fun new => (new.1, new.2.state)) = unfolding.successors node.state) :
    (graph.withExpansion id (node.depth + 1) made).Begins unfolding := by
  have childless : node.children = [] := begins.childless found isOpen
  have uncovered : node.coveredBy = [] := begins.uncovered found
  have target_eq : node.target = unfolding.target node.state := begins.target_eq found
  refine ⟨begins.toSettled.withExpansion found isOpen made, fun foundLast => ?_,
    fun foundLast => ?_, fun foundLast expanded => ?_, fun initialized => ?_⟩
  · rcases withExpansion_cases found foundLast with ⟨-, rfl⟩ | ⟨-, old⟩ | ⟨new, -, rfl⟩
    · exact uncovered
    · exact begins.uncovered old
    · rfl
  · rcases withExpansion_cases found foundLast with ⟨-, rfl⟩ | ⟨-, old⟩ | ⟨new, isNew, rfl⟩
    · exact target_eq
    · exact begins.target_eq old
    · exact targets new isNew
  · rcases withExpansion_cases found foundLast with ⟨-, rfl⟩ | ⟨-, old⟩ | ⟨new, -, rfl⟩
    · rw [childless, List.nil_append, map_step?_withExpansion found, steps]
    · rw [← begins.children_eq old expanded]
      refine List.map_congr_left fun child isChild => ?_
      obtain ⟨last, foundChild, -⟩ := begins.child_live old isChild
      exact (step?_withExpansion found _ made (node?_eq_some_lt foundChild)).1
    · cases expanded
  · have wasInitialized : graph.initialized = true := by
      rwa [ReachabilityGraph.withExpansion, initialized_modifyNode,
        initialized_withSuccessors] at initialized
    have initial_eq : (graph.withExpansion id (node.depth + 1) made).initial = graph.initial :=
      initial_withSuccessors ..
    rw [initial_eq, ← begins.roots_eq wasInitialized]
    refine List.map_congr_left fun root isInitial => ?_
    obtain ⟨rootNode, foundRoot⟩ := begins.exists_initial isInitial
    exact (step?_withExpansion found _ made (node?_eq_some_lt foundRoot)).2

theorem initial_withInitials (graph : ReachabilityGraph σ α) (made : List (NodeData σ)) :
    (graph.withInitials made).initial =
      graph.initial ++ List.range' graph.nodes.size made.length := by
  unfold withInitials
  induction made generalizing graph with
  | nil => simp
  | cons data made ih =>
      have initial_eq : (graph.addInitial data).initial = graph.initial ++ [graph.nodes.size] := rfl
      rw [List.foldl_cons, ih, initial_eq, size_addInitial, List.append_assoc, List.length_cons,
        List.range'_succ, List.singleton_append]

/-- The initial nodes are created as the forest begins. -/
theorem Begins.withInitials (begins : graph.Begins unfolding)
    (notInitialized : graph.initialized = false) {made : List (NodeData σ)}
    (targets : ∀ new ∈ made, new.target = unfolding.target new.state)
    (states : made.map NodeData.state = unfolding.roots) :
    ReachabilityGraph.Begins { graph.withInitials made with initialized := true } unfolding := by
  have noNodes := begins.node?_eq_none notInitialized
  have noInitial : graph.initial = [] := by
    refine List.eq_nil_iff_forall_not_mem.mpr fun id member => ?_
    obtain ⟨node, found⟩ := begins.exists_initial member
    rw [noNodes] at found
    cases found
  have created {id : Nat} {last : GraphNode σ α}
      (foundLast : (graph.withInitials made).node? id = some last) :
      ∃ new ∈ made, last = .created id new none 0 := by
    rw [node?_withInitials, noNodes] at foundLast
    split at foundLast
    · cases foundLast
    · obtain ⟨new, listed, rfl⟩ := Option.map_eq_some_iff.mp foundLast
      exact ⟨new, List.mem_of_getElem? listed, rfl⟩
  refine ⟨begins.toSettled.withInitials made, fun foundLast => ?_, fun foundLast => ?_,
    fun foundLast expanded => ?_, fun _ => ?_⟩
  · obtain ⟨new, -, rfl⟩ := created foundLast
    rfl
  · obtain ⟨new, isNew, rfl⟩ := created foundLast
    exact targets new isNew
  · obtain ⟨new, -, rfl⟩ := created foundLast
    cases expanded
  · have initial_eq := initial_withInitials graph made
    rw [noInitial, List.nil_append] at initial_eq
    show (graph.withInitials made).initial.map
      (fun id => ((graph.withInitials made).node? id).map GraphNode.state) = _
    rw [initial_eq, ← states]
    refine map_range'_eq fun position isNew => ?_
    rw [node?_withInitials, if_neg (Nat.not_lt.mpr isNew), Option.map_map]
    rfl

theorem LosesBelow.exists_before {parent : Nat} {children : List Nat}
    (loses : LosesBelow parent children graph after) {last : GraphNode σ α}
    (foundLast : after.node? id = some last) : ∃ before, graph.node? id = some before ∧
      last.state = before.state ∧ last.origin = before.origin ∧ last.target = before.target ∧
        (before.coveredBy = [] → last.coveredBy = []) ∧
          (last.expanded = true → before.expanded = true ∧ last.children = before.children) := by
  have isLive : after.contains id = true := by rw [contains, foundLast, Option.isSome_some]
  obtain ⟨before, foundBefore⟩ :=
    Option.isSome_iff_exists.mp ((loses.contains_iff id).mp isLive).1
  rw [loses.stays foundBefore foundLast]
  refine ⟨before, foundBefore, rfl, rfl, rfl, fun uncovered => by simp [uncovered], ?_⟩
  by_cases isParent : id = parent <;> simp [isParent]

theorem LosesBelow.step?_eq {parent : Nat} {children : List Nat}
    (loses : LosesBelow parent children graph after) {last : GraphNode σ α}
    (foundLast : after.node? id = some last) : after.step? id = graph.step? id ∧
      (after.node? id).map GraphNode.state = (graph.node? id).map GraphNode.state := by
  obtain ⟨before, foundBefore, state_eq, origin_eq, -⟩ := loses.exists_before foundLast
  unfold step?
  rw [foundLast, foundBefore, Option.map_some, Option.map_some, state_eq]
  simp [state_eq, origin_eq]

/-- Pruning changes nothing of what stays, but that the parent is to be expanded again. -/
theorem Begins.pruneBelow (begins : graph.Begins unfolding)
    (found : graph.node? id = some node) :
    (graph.pruneBelow id node.children).Begins unfolding := by
  have settled := begins.toSettled.pruneBelow found
  have loses := begins.losesBelow found
  refine ⟨settled, fun foundLast => ?_, fun foundLast => ?_, fun foundLast expanded => ?_,
    fun initialized => ?_⟩
  · obtain ⟨before, foundBefore, -, -, -, keeps, -⟩ := loses.exists_before foundLast
    exact keeps (begins.uncovered foundBefore)
  · obtain ⟨before, foundBefore, state_eq, -, target_eq, -⟩ := loses.exists_before foundLast
    rw [target_eq, state_eq, begins.target_eq foundBefore]
  · obtain ⟨before, foundBefore, state_eq, -, -, -, keeps⟩ := loses.exists_before foundLast
    obtain ⟨wasExpanded, children_eq⟩ := keeps expanded
    rw [state_eq, ← begins.children_eq foundBefore wasExpanded, ← children_eq]
    refine List.map_congr_left fun child isChild => ?_
    obtain ⟨childNode, foundChild, -⟩ := settled.child_live foundLast isChild
    exact (loses.step?_eq foundChild).1
  · rw [loses.initialized_eq] at initialized
    rw [← begins.roots_eq initialized, ← loses.initial_eq]
    refine List.map_congr_left fun root isInitial => ?_
    obtain ⟨rootNode, foundRoot⟩ := settled.exists_initial isInitial
    exact (loses.step?_eq foundRoot).2

/-- Pruning at a live node leaves a beginning of the forest, with no nodes that were not there
before. -/
theorem Begins.prune (begins : graph.Begins unfolding) (found : graph.node? id = some node) :
    ∃ after, ReachabilityGraph.prune id graph = (.ok (), after) ∧ after.Begins unfolding ∧
      ∀ {other : Nat} {last : GraphNode σ α}, after.node? other = some last →
        ∃ before, graph.node? other = some before ∧ last.state = before.state := by
  obtain ⟨after, run, rfl | ⟨parent, parentNode, foundParent, -, rfl⟩⟩ := begins.prune_run found
  · refine ⟨_, run, begins_pruneAll graph, fun foundLast => ?_⟩
    rw [node?_pruneAll] at foundLast
    cases foundLast
  · refine ⟨_, run, begins.pruneBelow foundParent, fun foundLast => ?_⟩
    obtain ⟨before, foundBefore, state_eq, -⟩ :=
      (begins.losesBelow foundParent).exists_before foundLast
    exact ⟨before, foundBefore, state_eq⟩

end ReachabilityGraph

end AbstractionRefinement
