import AbstractionRefinement.Proofs.GraphSoundness

/-!
# Pruning a reachability graph

Pruning takes the children of a node out of the graph with everything below
them.  What stays keeps its state and its place.  A node that was covered by a
removed one is uncovered, so no trace of the removed nodes is left in the
coverage of those that stay.
-/

namespace AbstractionRefinement

/-- The second node is the first one, perhaps without its coverage. -/
structure GraphNode.Uncovered {σ α : Type} (before after : GraphNode σ α) : Prop where
  same : after = { before with coveredBy := after.coveredBy, covers := after.covers }
  dropped : after.coveredBy = [] ∨ after.coveredBy = before.coveredBy

namespace ReachabilityGraph

variable {σ α : Type}

/-- The same nodes are live, and some of them are no longer covered. -/
structure Uncovers (before after : ReachabilityGraph σ α) : Prop where
  initialized : after.initialized = before.initialized
  forward {id : Nat} {node : GraphNode σ α} : before.node? id = some node →
    ∃ other, after.node? id = some other ∧ node.Uncovered other
  backward {id : Nat} {other : GraphNode σ α} : after.node? id = some other →
    ∃ node, before.node? id = some node ∧ node.Uncovered other

theorem Uncovers.refl (graph : ReachabilityGraph σ α) : graph.Uncovers graph where
  initialized := rfl
  forward found := ⟨_, found, rfl, .inr rfl⟩
  backward found := ⟨_, found, rfl, .inr rfl⟩

theorem Uncovers.trans {first second third : ReachabilityGraph σ α}
    (earlier : first.Uncovers second) (later : second.Uncovers third) :
    first.Uncovers third := by
  constructor
  · rw [later.initialized, earlier.initialized]
  · intro id node found
    obtain ⟨middle, foundMiddle, same, dropped⟩ := earlier.forward found
    obtain ⟨last, foundLast, same', dropped'⟩ := later.forward foundMiddle
    exact ⟨last, foundLast, by rw [same', same], by grind⟩
  · intro id last found
    obtain ⟨middle, foundMiddle, same', dropped'⟩ := later.backward found
    obtain ⟨node, foundNode, same, dropped⟩ := earlier.backward foundMiddle
    exact ⟨node, foundNode, by rw [same', same], by grind⟩

/-- What a change of all nodes that only gives up coverage does to a graph. -/
theorem uncovers_of_map {before after : ReachabilityGraph σ α}
    {change : Nat → GraphNode σ α → GraphNode σ α}
    (initialized : after.initialized = before.initialized)
    (view : ∀ id, after.node? id = (before.node? id).map (change id))
    (uncovered : ∀ id (node : GraphNode σ α), node.Uncovered (change id node)) :
    before.Uncovers after where
  initialized := initialized
  forward {id node} found := ⟨change id node, by simp [view, found], uncovered id node⟩
  backward {id other} found := by
    rw [view, Option.map_eq_some_iff] at found
    obtain ⟨node, foundNode, rfl⟩ := found
    exact ⟨node, foundNode, uncovered id node⟩

theorem uncovers_dropCover (graph : ReachabilityGraph σ α) (node : GraphNode σ α) :
    graph.Uncovers (graph.dropCover node) := by
  refine uncovers_of_map (initialized_dropCover graph node)
    (node?_dropCover graph node) ?_
  intro id found
  constructor
  · rfl
  · dsimp only
    split
    · exact .inl rfl
    · exact .inr rfl

/-- Nodes outside a set of removed ones know their coverers and are known to
them. -/
def CoverersLive (removed : List Nat) (graph : ReachabilityGraph σ α) : Prop :=
  ∀ ⦃id coverer : Nat⦄ ⦃node : GraphNode σ α⦄, id ∉ removed →
    graph.node? id = some node → coverer ∈ node.coveredBy →
      ∃ other, graph.node? coverer = some other ∧ id ∈ other.covers

/-- Nodes know their numbers. -/
def Numbered (graph : ReachabilityGraph σ α) : Prop :=
  ∀ ⦃id : Nat⦄ ⦃node : GraphNode σ α⦄, graph.node? id = some node → node.id = id

theorem Uncovers.numbered {before after : ReachabilityGraph σ α}
    (uncovers : before.Uncovers after) (numbered : before.Numbered) : after.Numbered := by
  intro id other found
  obtain ⟨node, foundNode, same, -⟩ := uncovers.backward found
  have sameId : other.id = node.id := by rw [same]
  exact sameId.trans (numbered foundNode)

/-- Uncover the nodes of a list, except removed ones. -/
def uncoverAll (removed covered : List Nat) (graph : ReachabilityGraph σ α) :
    ReachabilityGraph σ α :=
  covered.foldl
    (fun graph covered =>
      if removed.contains covered then graph
      else
        match graph.node? covered with
        | some other => graph.dropCover other
        | none => graph)
    graph

def forgetAt (id : Nat) (coverers : List Nat) (graph : ReachabilityGraph σ α) :
    ReachabilityGraph σ α :=
  coverers.foldl
    (fun graph coverer => graph.modifyNode coverer fun other =>
      { other with covers := other.covers.filter (· ≠ id) })
    graph

theorem detach_eq (removed : List Nat) (graph : ReachabilityGraph σ α) (id : Nat) :
    graph.detach removed id =
      match graph.node? id with
      | none => graph
      | some node => (graph.uncoverAll removed node.covers).forgetAt id node.coveredBy :=
  rfl

theorem node?_forgetAt (id : Nat) (coverers : List Nat) (graph : ReachabilityGraph σ α)
    (other : Nat) :
    (graph.forgetAt id coverers).node? other =
      (graph.node? other).map fun found =>
        { found with
          covers :=
            if other ∈ coverers then found.covers.filter (· ≠ id) else found.covers } := by
  rw [forgetAt, node?_foldl_modifyNode _ _ _ (by simp)]
  by_cases member : other ∈ coverers <;> simp [member]

theorem uncovers_forgetAt (id : Nat) (coverers : List Nat) (graph : ReachabilityGraph σ α) :
    graph.Uncovers (graph.forgetAt id coverers) :=
  uncovers_of_map (initialized_foldl_modifyNode ..) (node?_forgetAt id coverers graph)
    fun _ _ => ⟨rfl, .inr rfl⟩

variable {graph : ReachabilityGraph σ α} {removed : List Nat}

theorem CoverersLive.forgetAt {id : Nat} (coverers : List Nat)
    (live : graph.CoverersLive removed) (isRemoved : id ∈ removed) :
    (graph.forgetAt id coverers).CoverersLive removed := by
  intro other coverer node outside found member
  obtain ⟨before, foundBefore, same, dropped⟩ :=
    (uncovers_forgetAt id coverers graph).backward found
  have memberBefore : coverer ∈ before.coveredBy := by grind
  obtain ⟨known, foundKnown, knows⟩ := live outside foundBefore memberBefore
  refine ⟨_, by rw [node?_forgetAt, foundKnown]; rfl, ?_⟩
  have different : other ≠ id := fun equal => outside (equal ▸ isRemoved)
  dsimp only
  split
  · simpa using ⟨knows, different⟩
  · exact knows

theorem CoverersLive.dropCover (node : GraphNode σ α) (live : graph.CoverersLive removed) :
    (graph.dropCover node).CoverersLive removed := by
  intro other coverer found outside foundNode member
  rw [node?_dropCover, Option.map_eq_some_iff] at foundNode
  obtain ⟨before, foundBefore, rfl⟩ := foundNode
  by_cases dropped : other = node.id
  · simp [dropped] at member
  · simp only [dropped, if_false] at member
    obtain ⟨known, foundKnown, knows⟩ := live outside foundBefore member
    refine ⟨_, by rw [node?_dropCover, foundKnown]; rfl, ?_⟩
    dsimp only
    split
    · simpa using ⟨knows, dropped⟩
    · exact knows

/-- Uncovering nodes leaves the listed ones uncovered that are not removed. -/
theorem uncoverAll_spec (removed covered : List Nat) (graph : ReachabilityGraph σ α)
    (numbered : graph.Numbered) (live : graph.CoverersLive removed) :
    graph.Uncovers (graph.uncoverAll removed covered) ∧
      (graph.uncoverAll removed covered).CoverersLive removed ∧
      ∀ id ∈ covered, id ∉ removed → ∀ node,
        (graph.uncoverAll removed covered).node? id = some node → node.coveredBy = [] := by
  induction covered generalizing graph with
  | nil => exact ⟨.refl graph, live, by simp⟩
  | cons first covered ih =>
      simp only [uncoverAll, List.foldl_cons] at ih ⊢
      by_cases isRemoved : first ∈ removed
      · have skipped : removed.contains first = true := by simpa using isRemoved
        simp only [skipped, if_true]
        obtain ⟨uncovers, liveAfter, emptied⟩ := ih graph numbered live
        exact ⟨uncovers, liveAfter, by grind⟩
      · have kept : removed.contains first = false := by simpa using isRemoved
        simp only [kept, Bool.false_eq_true, if_false]
        cases foundFirst : graph.node? first with
        | none =>
            obtain ⟨uncovers, liveAfter, emptied⟩ := ih graph numbered live
            refine ⟨uncovers, liveAfter, ?_⟩
            intro id member outside node found
            obtain ⟨before, foundBefore, -⟩ := uncovers.backward found
            grind
        | some other =>
            have number : other.id = first := numbered foundFirst
            have dropping := uncovers_dropCover graph other
            obtain ⟨uncovers, liveAfter, emptied⟩ :=
              ih (graph.dropCover other) (dropping.numbered numbered)
                (live.dropCover other)
            refine ⟨dropping.trans uncovers, liveAfter, ?_⟩
            intro id member outside node found
            rcases List.mem_cons.mp member with rfl | later
            · obtain ⟨before, foundBefore, -, dropped⟩ := uncovers.backward found
              rw [node?_dropCover, Option.map_eq_some_iff] at foundBefore
              obtain ⟨original, -, rfl⟩ := foundBefore
              simpa [number] using dropped
            · exact emptied id later outside node found

/-- Detaching a removed node leaves no node outside that it covers. -/
theorem detach_spec {id : Nat} (numbered : graph.Numbered)
    (live : graph.CoverersLive removed) (isRemoved : id ∈ removed) :
    graph.Uncovers (graph.detach removed id) ∧
      (graph.detach removed id).CoverersLive removed ∧
      ∀ other ∉ removed, ∀ node, (graph.detach removed id).node? other = some node →
        id ∉ node.coveredBy := by
  rw [detach_eq]
  cases foundRemoved : graph.node? id with
  | none =>
      refine ⟨.refl graph, live, ?_⟩
      intro other outside node found member
      obtain ⟨known, foundKnown, -⟩ := live outside found member
      simp [foundRemoved] at foundKnown
  | some node =>
      obtain ⟨uncovers, liveAfter, emptied⟩ :=
        uncoverAll_spec removed node.covers graph numbered live
      have forgets := uncovers_forgetAt id node.coveredBy
        (graph.uncoverAll removed node.covers)
      refine ⟨uncovers.trans forgets, liveAfter.forgetAt _ isRemoved, ?_⟩
      intro other outside last found member
      obtain ⟨middle, foundMiddle, same, dropped⟩ := forgets.backward found
      obtain ⟨before, foundBefore, same', dropped'⟩ := uncovers.backward foundMiddle
      have memberBefore : id ∈ before.coveredBy := by grind
      obtain ⟨known, foundKnown, knows⟩ := live outside foundBefore memberBefore
      obtain rfl : node = known := by simpa [foundRemoved] using foundKnown
      have empty := emptied other knows outside middle foundMiddle
      grind

/-- Detaching several removed nodes leaves no node outside that one of them
covers. -/
theorem foldl_detach_spec (ids : List Nat) (graph : ReachabilityGraph σ α)
    (numbered : graph.Numbered) (live : graph.CoverersLive removed)
    (areRemoved : ∀ id ∈ ids, id ∈ removed) :
    graph.Uncovers (ids.foldl (detach removed) graph) ∧
      (ids.foldl (detach removed) graph).CoverersLive removed ∧
      ∀ id ∈ ids, ∀ other ∉ removed, ∀ node,
        (ids.foldl (detach removed) graph).node? other = some node →
          id ∉ node.coveredBy := by
  induction ids generalizing graph with
  | nil => exact ⟨.refl graph, live, by simp⟩
  | cons first ids ih =>
      rw [List.foldl_cons]
      obtain ⟨uncovers, liveFirst, freed⟩ :=
        detach_spec numbered live (areRemoved first (by simp))
      obtain ⟨uncoversRest, liveAfter, freedRest⟩ :=
        ih (graph.detach removed first) (uncovers.numbered numbered) liveFirst
          fun id member => areRemoved id (by simp [member])
      refine ⟨uncovers.trans uncoversRest, liveAfter, ?_⟩
      intro id member other outside node found
      rcases List.mem_cons.mp member with rfl | later
      · obtain ⟨before, foundBefore, -, dropped⟩ := uncoversRest.backward found
        have := freed other outside before foundBefore
        grind
      · exact freedRest id later other outside node found

theorem node?_clear (ids : List Nat) (graph : ReachabilityGraph σ α) (other : Nat) :
    (ids.foldl (fun nodes id => nodes.modify id fun _ => none) graph.nodes)[other]?.join =
      if other ∈ ids then none else graph.node? other := by
  suffices cleared : ∀ nodes : Array (Option (GraphNode σ α)),
      (ids.foldl (fun nodes id => nodes.modify id fun _ => none) nodes)[other]?.join =
        if other ∈ ids then none else nodes[other]?.join from cleared graph.nodes
  induction ids with
  | nil => simp
  | cons id ids ih =>
      intro nodes
      rw [List.foldl_cons, ih, Array.getElem?_modify]
      by_cases same : id = other
      · subst same
        rcases nodes[id]? with _ | node <;> simp
      · simp [same, Ne.symm same]

theorem size_detach (removed : List Nat) (graph : ReachabilityGraph σ α) (id : Nat) :
    (graph.detach removed id).nodes.size = graph.nodes.size := by
  unfold detach
  cases graph.node? id with
  | none => rfl
  | some node =>
      dsimp only
      rw [view_foldl (·.nodes.size) (fun _ _ => size_modifyNode ..)]
      refine view_foldl (·.nodes.size) (fun graph covered => ?_) _ _
      split
      · rfl
      · split
        · exact size_dropCover ..
        · rfl

theorem size_clear (ids : List Nat) (nodes : Array (Option (GraphNode σ α))) :
    (ids.foldl (fun nodes id => nodes.modify id fun _ => none) nodes).size = nodes.size := by
  induction ids generalizing nodes with
  | nil => rfl
  | cons id ids ih => rw [List.foldl_cons, ih, Array.size_modify]

theorem size_remove (graph : ReachabilityGraph σ α) (removed : List Nat) :
    (graph.remove removed).nodes.size = graph.nodes.size := by
  rw [remove, size_clear, view_foldl (·.nodes.size) (size_detach removed)]

theorem node?_remove (graph : ReachabilityGraph σ α) (removed : List Nat) (id : Nat) :
    (graph.remove removed).node? id =
      if id ∈ removed then none else (removed.foldl (detach removed) graph).node? id :=
  node?_clear removed _ id

/-- Removing nodes: the others stay, perhaps uncovered, and are only covered by
nodes that stay. -/
theorem remove_spec (graph : ReachabilityGraph σ α) (numbered : graph.Numbered)
    (live : graph.CoverersLive removed) :
    ∃ detached, graph.Uncovers detached ∧
      (graph.remove removed).initialized = graph.initialized ∧
      (∀ id, (graph.remove removed).node? id =
        if id ∈ removed then none else detached.node? id) ∧
      (graph.remove removed).CoverersLive removed := by
  obtain ⟨uncovers, liveAfter, freed⟩ :=
    foldl_detach_spec removed graph numbered live fun _ member => member
  refine ⟨removed.foldl (detach removed) graph, uncovers, uncovers.initialized,
    node?_remove graph removed, ?_⟩
  intro id coverer node outside found member
  rw [node?_remove, if_neg outside] at found
  obtain ⟨other, foundOther, knows⟩ := liveAfter outside found member
  have stays : coverer ∉ removed := fun isRemoved =>
    freed coverer isRemoved id outside node found member
  exact ⟨other, by rw [node?_remove, if_neg stays, foundOther], knows⟩

/-- A node of a subtree is its root or a child of another node of the subtree. -/
theorem mem_subtreeWithin {fuel root id : Nat}
    (member : id ∈ graph.subtreeWithin fuel root) :
    id = root ∨ ∃ parent ∈ graph.subtreeWithin fuel root, ∃ node,
      graph.node? parent = some node ∧ id ∈ node.children := by
  induction fuel generalizing root with
  | zero => simp [subtreeWithin] at member
  | succ fuel ih =>
      cases found : graph.node? root with
      | none => simp [subtreeWithin, found] at member
      | some node =>
          simp only [subtreeWithin, found, List.mem_cons, List.mem_flatMap,
            List.mem_reverse] at member ⊢
          rcases member with rfl | ⟨child, isChild, below⟩
          · exact .inl rfl
          · right
            rcases ih below with rfl | ⟨parent, above, other, foundParent, linked⟩
            · exact ⟨root, .inl rfl, node, found, isChild⟩
            · exact ⟨parent, .inr ⟨child, isChild, above⟩, other, foundParent, linked⟩

theorem mem_descendants {roots : List Nat} {id : Nat}
    (member : id ∈ graph.descendants roots) :
    id ∈ roots ∨ ∃ parent ∈ graph.descendants roots, ∃ node,
      graph.node? parent = some node ∧ id ∈ node.children := by
  simp only [descendants, List.mem_flatMap, List.mem_reverse] at member ⊢
  obtain ⟨root, isRoot, below⟩ := member
  rcases mem_subtreeWithin below with rfl | ⟨parent, above, node, found, linked⟩
  · exact .inl isRoot
  · exact .inr ⟨parent, ⟨root, isRoot, above⟩, node, found, linked⟩

/-- A node that stays when everything below a parent is removed. -/
structure StaysBelow (parent id : Nat) (before after : GraphNode σ α) : Prop where
  same : after =
    { before with
      children := if id = parent then [] else before.children
      expanded := if id = parent then false else before.expanded
      coveredBy := after.coveredBy
      covers := after.covers }
  dropped : after.coveredBy = [] ∨ after.coveredBy = before.coveredBy

/-- The second graph is the first one without some nodes, which hang together
below a parent. -/
structure Pruned (parent : Nat) (removed : List Nat) (before after : ReachabilityGraph σ α) :
    Prop where
  initialized : after.initialized = before.initialized
  forward {id : Nat} {node : GraphNode σ α} : id ∉ removed → before.node? id = some node →
    ∃ other, after.node? id = some other ∧ StaysBelow parent id node other
  backward {id : Nat} {other : GraphNode σ α} : after.node? id = some other →
    id ∉ removed ∧ ∃ node, before.node? id = some node ∧ StaysBelow parent id node other
  coverersLive : after.CoverersLive []
  closed {id : Nat} {node : GraphNode σ α} : id ∈ removed → before.node? id = some node →
    ∃ above, node.parent = some above ∧ (above = parent ∨ above ∈ removed)

def pruneBelow (graph : ReachabilityGraph σ α) (parent : Nat) (children : List Nat) :
    ReachabilityGraph σ α :=
  let emptied := graph.modifyNode parent fun node => { node with children := [] }
  (emptied.remove (emptied.descendants children)).modifyNode parent
    fun node => { node with expanded := false }

theorem size_pruneBelow (graph : ReachabilityGraph σ α) (parent : Nat) (children : List Nat) :
    (graph.pruneBelow parent children).nodes.size = graph.nodes.size := by
  rw [pruneBelow, size_modifyNode, size_remove, size_modifyNode]

/-- The nodes that are removed with the children of a node. -/
def below (graph : ReachabilityGraph σ α) (parent : Nat) (children : List Nat) : List Nat :=
  (graph.modifyNode parent fun node => { node with children := [] }).descendants children

/-- Emptying the list of children of a node leaves the numbers and the coverage intact. -/
theorem Coupled.emptied (coupled : graph.Coupled) (parent : Nat) (removed : List Nat) :
    (graph.modifyNode parent fun node => { node with children := [] }).Numbered ∧
      (graph.modifyNode parent fun node => { node with children := [] }).CoverersLive removed := by
  have view := fun other =>
    node?_modifyNode graph parent other fun node => { node with children := [] }
  have known {id : Nat} {other : GraphNode σ α} (found :
      (graph.modifyNode parent fun node => { node with children := [] }).node? id = some other) :
      ∃ before, graph.node? id = some before ∧ other.id = before.id ∧
        other.coveredBy = before.coveredBy := by
    rw [view] at found
    split at found
    · obtain ⟨before, foundBefore, rfl⟩ := Option.map_eq_some_iff.mp found
      exact ⟨before, foundBefore, rfl, rfl⟩
    · exact ⟨other, found, rfl, rfl⟩
  constructor
  · intro id other found
    obtain ⟨before, foundBefore, number, -⟩ := known found
    exact number.trans (coupled.id_eq foundBefore)
  · intro id coverer other _ found member
    obtain ⟨before, foundBefore, -, covered⟩ := known found
    obtain ⟨last, foundLast, knows⟩ := coupled.coverer_live foundBefore (covered ▸ member)
    rw [view, foundLast]
    split
    · exact ⟨_, rfl, knows⟩
    · exact ⟨last, rfl, knows⟩

theorem Coupled.pruned (coupled : graph.Coupled) {parent : Nat} {node : GraphNode σ α}
    (found : graph.node? parent = some node) :
    Pruned parent (graph.below parent node.children) graph
      (graph.pruneBelow parent node.children) := by
  let emptied := graph.modifyNode parent fun node => { node with children := [] }
  let removed := emptied.descendants node.children
  have emptiedView (id : Nat) : emptied.node? id =
      if id = parent then (graph.node? id).map fun node => { node with children := [] }
      else graph.node? id :=
    node?_modifyNode ..
  obtain ⟨numbered, live⟩ : emptied.Numbered ∧ emptied.CoverersLive removed :=
    coupled.emptied parent removed
  obtain ⟨detached, uncovers, initialized, view, liveAfter⟩ :=
    remove_spec emptied numbered live
  have pruneView (id : Nat) : (graph.pruneBelow parent node.children).node? id =
      if id = parent then
        ((emptied.remove removed).node? id).map fun node => { node with expanded := false }
      else (emptied.remove removed).node? id :=
    node?_modifyNode ..
  show Pruned parent removed graph _
  refine ⟨initialized, ?_, ?_, ?_, ?_⟩
  · intro id before outside foundBefore
    by_cases isParent : id = parent
    · subst isParent
      have foundEmptied :
          (graph.modifyNode id fun node => { node with children := [] }).node? id =
            some { before with children := [] } := by
        simp [foundBefore]
      obtain ⟨last, foundLast, same, dropped⟩ := uncovers.forward foundEmptied
      refine ⟨{ last with expanded := false }, ?_, ?_, dropped⟩
      · simp [pruneView, view, outside, foundLast]
      · rw [same]
        simp
    · have foundEmptied :
          (graph.modifyNode parent fun node => { node with children := [] }).node? id =
            some before := by
        simp [isParent, foundBefore]
      obtain ⟨last, foundLast, same, dropped⟩ := uncovers.forward foundEmptied
      refine ⟨last, by simp [pruneView, view, isParent, outside, foundLast], ?_, dropped⟩
      simpa [isParent] using same
  · intro id other foundOther
    have outside : id ∉ removed := by
      intro isRemoved
      simp [pruneView, view, isRemoved] at foundOther
    refine ⟨outside, ?_⟩
    by_cases isParent : id = parent
    · subst isParent
      simp only [pruneView, view, outside, if_true, if_false, Option.map_eq_some_iff]
        at foundOther
      obtain ⟨last, foundLast, rfl⟩ := foundOther
      obtain ⟨middle, foundMiddle, same, dropped⟩ := uncovers.backward foundLast
      simp only [emptiedView, if_true, Option.map_eq_some_iff] at foundMiddle
      obtain ⟨before, foundBefore, rfl⟩ := foundMiddle
      refine ⟨before, foundBefore, ?_, dropped⟩
      rw [same]
      simp
    · simp only [pruneView, view, isParent, outside, if_false] at foundOther
      obtain ⟨before, foundBefore, same, dropped⟩ := uncovers.backward foundOther
      simp only [emptiedView, isParent, if_false] at foundBefore
      exact ⟨before, foundBefore, by simpa [isParent] using same, dropped⟩
  · intro id coverer other _ foundOther member
    have outside : id ∉ removed := by
      intro isRemoved
      simp [pruneView, view, isRemoved] at foundOther
    have kept : ∃ last, (emptied.remove removed).node? id = some last ∧
        coverer ∈ last.coveredBy := by
      rw [pruneView] at foundOther
      split at foundOther
      · obtain ⟨last, foundLast, rfl⟩ := Option.map_eq_some_iff.mp foundOther
        exact ⟨last, foundLast, member⟩
      · exact ⟨other, foundOther, member⟩
    obtain ⟨last, foundLast, memberLast⟩ := kept
    obtain ⟨known, foundKnown, knows⟩ := liveAfter outside foundLast memberLast
    rw [pruneView, foundKnown]
    split
    · exact ⟨_, rfl, knows⟩
    · exact ⟨known, rfl, knows⟩
  · intro id other isRemoved foundOther
    rcases mem_descendants isRemoved with
      isChild | ⟨above, isAbove, aboveNode, foundAbove, isChild⟩
    · have := coupled.child_live found isChild
      grind
    · have := @coupled.child_live above id
      grind

section Soundness

variable {κ : Type} {system : ConcreteSystem κ α} {concretizes : σ → κ → Prop}
  {admissible : σ → Prop} {bad : κ → Prop}

theorem StaysBelow.kept {parent id : Nat} {node other : GraphNode σ α}
    (stays : StaysBelow parent id node other) :
    other.id = node.id ∧ other.state = node.state ∧ other.parent = node.parent ∧
      other.target = node.target := by
  rw [stays.same]
  exact ⟨rfl, rfl, rfl, rfl⟩

theorem StaysBelow.expanded {parent id : Nat} {node other : GraphNode σ α}
    (stays : StaysBelow parent id node other) (isExpanded : other.expanded = true) :
    id ≠ parent ∧ node.expanded = true ∧ other.children = node.children := by
  have mark := congrArg GraphNode.expanded stays.same
  have children := congrArg GraphNode.children stays.same
  by_cases isParent : id = parent
  · simp [isParent, isExpanded] at mark
  · simp only [isParent, if_false] at mark children
    exact ⟨isParent, mark ▸ isExpanded, children⟩

theorem Linked.of_pruned (linked : graph.Linked) {parent : Nat} {removed : List Nat}
    {after : ReachabilityGraph σ α} (pruned : Pruned parent removed graph after) :
    after.Linked := by
  obtain ⟨rank, ranked⟩ := linked.ranked
  refine ⟨⟨?_, ?_, ?_⟩, rank, ?_⟩
  · intro id other found
    obtain ⟨-, node, foundNode, stays⟩ := pruned.backward found
    exact stays.kept.1.trans (linked.id_eq foundNode)
  · intro id child other found isChild
    obtain ⟨outside, node, foundNode, stays⟩ := pruned.backward found
    have notParent : id ≠ parent := by
      rintro rfl
      rw [stays.same] at isChild
      simp at isChild
    have wasChild : child ∈ node.children := by
      rw [stays.same] at isChild
      simpa [notParent] using isChild
    obtain ⟨known, foundKnown, parent_eq⟩ := linked.child_live foundNode wasChild
    have childStays : child ∉ removed := by
      intro isRemoved
      have := pruned.closed isRemoved foundKnown
      grind
    obtain ⟨last, foundLast, staysChild⟩ := pruned.forward childStays foundKnown
    exact ⟨last, foundLast, staysChild.kept.2.2.1.trans parent_eq⟩
  · intro id coverer other found member
    exact pruned.coverersLive (by simp) found member
  · intro id coverer other found member
    obtain ⟨-, node, foundNode, stays⟩ := pruned.backward found
    have := stays.dropped
    exact ranked foundNode (by grind)

theorem Follows.of_pruned (follows : graph.Follows system concretizes admissible bad)
    (linked : graph.Linked) {parent : Nat} {removed : List Nat}
    {after : ReachabilityGraph σ α} (pruned : Pruned parent removed graph after) :
    after.Follows system concretizes admissible bad := by
  constructor
  · intro id other found
    obtain ⟨-, node, foundNode, stays⟩ := pruned.backward found
    exact stays.kept.2.1 ▸ follows.admissible foundNode
  · intro id other state found isUnmarked stands
    obtain ⟨-, node, foundNode, stays⟩ := pruned.backward found
    obtain ⟨-, state_eq, -, target_eq⟩ := stays.kept
    exact follows.unmarked foundNode (target_eq ▸ isUnmarked) (state_eq ▸ stands)
  · intro id other state found isCovered stands
    obtain ⟨outside, node, foundNode, stays⟩ := pruned.backward found
    have cover_eq : other.coveredBy = node.coveredBy :=
      stays.dropped.resolve_left isCovered
    obtain ⟨coverer, member, known, foundKnown, standsKnown⟩ :=
      follows.covered foundNode (cover_eq ▸ isCovered) (stays.kept.2.1 ▸ stands)
    obtain ⟨last, foundLast, -⟩ := pruned.coverersLive (by simp) found (cover_eq ▸ member)
    obtain ⟨-, original, foundOriginal, staysCoverer⟩ := pruned.backward foundLast
    obtain rfl : known = original := by simpa [foundKnown] using foundOriginal
    exact ⟨coverer, cover_eq ▸ member, last, foundLast,
      staysCoverer.kept.2.1 ▸ standsKnown⟩
  · intro id other state next action found isExpanded stands steps
    obtain ⟨outside, node, foundNode, stays⟩ := pruned.backward found
    obtain ⟨notParent, wasExpanded, children_eq⟩ := stays.expanded isExpanded
    obtain ⟨child, isChild, known, foundKnown, standsKnown⟩ :=
      follows.expanded foundNode wasExpanded (stays.kept.2.1 ▸ stands) steps
    obtain ⟨last, foundLast, -⟩ :=
      (linked.of_pruned pruned).child_live found (children_eq ▸ isChild)
    obtain ⟨-, original, foundOriginal, staysChild⟩ := pruned.backward foundLast
    obtain rfl : known = original := by simpa [foundKnown] using foundOriginal
    exact ⟨child, children_eq ▸ isChild, last, foundLast,
      staysChild.kept.2.1 ▸ standsKnown⟩
  · intro state isInitialized starts
    obtain ⟨id, known, foundKnown, isRoot, standsKnown⟩ :=
      follows.initial (pruned.initialized ▸ isInitialized) starts
    have rootStays : id ∉ removed := by
      intro isRemoved
      obtain ⟨above, parent_eq, -⟩ := pruned.closed isRemoved foundKnown
      simp [isRoot] at parent_eq
    obtain ⟨last, foundLast, stays⟩ := pruned.forward rootStays foundKnown
    obtain ⟨-, state_eq, parent_eq, -⟩ := stays.kept
    exact ⟨id, last, foundLast, parent_eq.trans isRoot, state_eq ▸ standsKnown⟩

theorem linked_pruneAll (graph : ReachabilityGraph σ α) : graph.pruneAll.Linked where
  id_eq := by simp
  child_live := by simp
  coverer_live := by simp
  ranked := ⟨fun _ => 0, by simp⟩

theorem sound_pruneAll (graph : ReachabilityGraph σ α) :
    graph.pruneAll.Sound system concretizes admissible bad where
  linked := graph.linked_pruneAll
  follows :=
    { admissible := by simp
      unmarked := by simp
      covered := by simp
      expanded := by simp
      initial := by simp [pruneAll] }

/-- Pruning keeps a sound graph sound. -/
theorem Sound.ensures_prune (sound : graph.Sound system concretizes admissible bad)
    (id : Nat) :
    (prune id).Ensures graph fun _ after =>
      after.Sound system concretizes admissible bad := by
  unfold prune
  simp only [Computation.ensures_bind, ensures_getNode]
  intro node found
  cases node.parent with
  | none => exact sound_pruneAll graph
  | some parent =>
      simp only [Computation.ensures_bind, ensures_getNode, ensures_updateNode,
        Computation.ensures_modify]
      intro parentNode foundParent _ _ _ _
      have pruned := sound.linked.pruned foundParent
      exact ⟨sound.linked.of_pruned pruned, sound.follows.of_pruned sound.linked pruned⟩

end Soundness

end ReachabilityGraph

end AbstractionRefinement
