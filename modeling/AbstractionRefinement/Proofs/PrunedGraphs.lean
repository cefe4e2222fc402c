import AbstractionRefinement.Proofs.GraphCalls

/-!
# What pruning leaves

Pruning at a node removes the node, its siblings and everything below them, and nothing else.
The parent becomes a leaf that is to be expanded again.  The other nodes that stay keep all they
have, except that a node of which a coverer is removed is no longer covered at all, also not by
those coverers that stay.
-/

namespace AbstractionRefinement

namespace ReachabilityGraph

variable {σ α : Type} {graph : ReachabilityGraph σ α} {removed : List Nat}

/-- Every node was there before, covered as it is, unless it has lost its coverage with one of
its coverers. -/
def UncoversFor (removed : List Nat) (before after : ReachabilityGraph σ α) : Prop :=
  ∀ ⦃id : Nat⦄ ⦃other : GraphNode σ α⦄, after.node? id = some other →
    ∃ node, before.node? id = some node ∧ (other.coveredBy = node.coveredBy ∨
      other.coveredBy = [] ∧ ∃ coverer ∈ node.coveredBy, coverer ∈ removed)

theorem UncoversFor.refl (removed : List Nat) (graph : ReachabilityGraph σ α) :
    UncoversFor removed graph graph :=
  fun _ other found => ⟨other, found, .inl rfl⟩

theorem UncoversFor.trans {first second third : ReachabilityGraph σ α}
    (earlier : UncoversFor removed first second) (later : UncoversFor removed second third) :
    UncoversFor removed first third := by
  intro id last foundLast
  obtain ⟨middle, foundMiddle, lost⟩ := later foundLast
  obtain ⟨node, found, lost'⟩ := earlier foundMiddle
  refine ⟨node, found, ?_⟩
  rcases lost with same | ⟨emptied, coverer, member, isRemoved⟩
  · rwa [same]
  · have kept : middle.coveredBy = node.coveredBy :=
      lost'.resolve_right fun lost' => List.ne_nil_of_mem member lost'.1
    exact .inr ⟨emptied, coverer, kept ▸ member, isRemoved⟩

theorem uncoversFor_modifyNode (removed : List Nat) (graph : ReachabilityGraph σ α) (id : Nat)
    {change : GraphNode σ α → GraphNode σ α}
    (keeps : ∀ node, (change node).coveredBy = node.coveredBy) :
    UncoversFor removed graph (graph.modifyNode id change) := by
  intro other last foundLast
  rw [node?_modifyNode] at foundLast
  split at foundLast
  · obtain ⟨node, found, rfl⟩ := Option.map_eq_some_iff.mp foundLast
    exact ⟨node, found, .inl (keeps node)⟩
  · exact ⟨last, foundLast, .inl rfl⟩

/-- Only the listed nodes are uncovered. -/
theorem coveredBy_uncoverAll (removed covered : List Nat) (numbered : graph.Numbered) {id : Nat}
    {node other : GraphNode σ α} (found : graph.node? id = some node)
    (foundOther : (graph.uncoverAll removed covered).node? id = some other) :
    other.coveredBy = node.coveredBy ∨ id ∈ covered := by
  induction covered generalizing graph node with
  | nil =>
      obtain rfl := Option.some.inj (found.symm.trans foundOther)
      exact .inl rfl
  | cons first covered ih =>
      have skips (foundOther : (graph.uncoverAll removed covered).node? id = some other) :
          other.coveredBy = node.coveredBy ∨ id ∈ first :: covered :=
        (ih numbered found foundOther).imp_right (List.mem_cons_of_mem _)
      simp only [uncoverAll, List.foldl_cons] at ih skips foundOther
      split at foundOther
      case isTrue => exact skips foundOther
      case isFalse =>
        split at foundOther
        case h_2 => exact skips foundOther
        case h_1 dropped foundDropped =>
          obtain ⟨middle, foundMiddle, covered_eq⟩ : ∃ middle,
              (graph.dropCover dropped).node? id = some middle ∧
                middle.coveredBy = if id = dropped.id then [] else node.coveredBy :=
            ⟨_, by rw [node?_dropCover, found]; rfl, rfl⟩
          have numbered' := (uncovers_dropCover graph dropped).numbered numbered
          rcases ih numbered' foundMiddle foundOther with same | later
          · by_cases isFirst : id = first
            · exact .inr (isFirst ▸ List.mem_cons_self)
            · left
              rw [same, covered_eq, if_neg (numbered foundDropped ▸ isFirst)]
          · exact .inr (List.mem_cons_of_mem _ later)

theorem CoveredKnow.uncoversFor_detach (know : graph.CoveredKnow) (numbered : graph.Numbered)
    (live : graph.CoverersLive removed) {id : Nat} (isRemoved : id ∈ removed) :
    UncoversFor removed graph (graph.detach removed id) := by
  rw [detach_eq]
  cases foundRemoved : graph.node? id with
  | none => exact .refl removed graph
  | some removedNode =>
      intro other last foundLast
      dsimp only at foundLast
      rw [node?_forgetAt, Option.map_eq_some_iff] at foundLast
      obtain ⟨middle, foundMiddle, rfl⟩ := foundLast
      obtain ⟨uncovers, -⟩ := uncoverAll_spec removed removedNode.covers graph numbered live
      obtain ⟨node, found, -, dropped⟩ := uncovers.backward foundMiddle
      refine ⟨node, found, ?_⟩
      rcases coveredBy_uncoverAll removed removedNode.covers numbered found foundMiddle with
        same | covers
      · exact .inl same
      · obtain ⟨known, foundKnown, knows⟩ := know foundRemoved covers
        obtain rfl := Option.some.inj (found.symm.trans foundKnown)
        exact dropped.symm.imp_right fun emptied => ⟨emptied, id, knows, isRemoved⟩

theorem CoveredKnow.uncoversFor_foldl_detach (ids : List Nat) (know : graph.CoveredKnow)
    (numbered : graph.Numbered) (live : graph.CoverersLive removed)
    (areRemoved : ∀ id ∈ ids, id ∈ removed) :
    UncoversFor removed graph (ids.foldl (ReachabilityGraph.detach removed) graph) := by
  induction ids generalizing graph with
  | nil => exact .refl removed graph
  | cons first ids ih =>
      obtain ⟨isRemoved, areRemoved⟩ := List.forall_mem_cons.mp areRemoved
      obtain ⟨uncovers, live', -⟩ := detach_spec numbered live isRemoved
      obtain ⟨know', -⟩ := know.detach first numbered live
      exact (know.uncoversFor_detach numbered live isRemoved).trans
        (ih know' (uncovers.numbered numbered) live' areRemoved)

theorem CoveredKnow.uncoversFor_remove (know : graph.CoveredKnow) (numbered : graph.Numbered)
    (live : graph.CoverersLive removed) : UncoversFor removed graph (graph.remove removed) := by
  refine (know.uncoversFor_foldl_detach removed numbered live fun _ member => member).trans ?_
  intro id last foundLast
  rw [node?_remove] at foundLast
  split at foundLast
  · cases foundLast
  · exact ⟨last, foundLast, .inl rfl⟩

theorem Intact.uncoversFor_pruneBelow (intact : graph.Intact) (parent : Nat)
    (children : List Nat) :
    UncoversFor (graph.below parent children) graph (graph.pruneBelow parent children) := by
  obtain ⟨numbered, live⟩ := intact.coupled.emptied parent (graph.below parent children)
  have know : (graph.modifyNode parent fun node => { node with children := [] }).CoveredKnow :=
    intact.coveredKnow.modifyNode parent fun _ => ⟨rfl, rfl⟩
  have empties : UncoversFor (graph.below parent children) graph
      (graph.modifyNode parent fun node => { node with children := [] }) :=
    uncoversFor_modifyNode _ graph parent fun _ => rfl
  exact (empties.trans (know.uncoversFor_remove numbered live)).trans
    (uncoversFor_modifyNode _ _ parent fun _ => rfl)

/-- The second graph is the first one without what is below some children of a node. -/
structure LosesBelow (parent : Nat) (children : List Nat)
    (before after : ReachabilityGraph σ α) : Prop where
  contains_iff (id : Nat) : after.contains id = true ↔ before.contains id = true ∧
    ¬ ∃ child ∈ children, before.Below child id
  stays {id : Nat} {node other : GraphNode σ α} : before.node? id = some node →
    after.node? id = some other → other =
      { node with
        children := if id = parent then [] else node.children
        expanded := if id = parent then false else node.expanded
        coveredBy := if node.coveredBy.all after.contains then node.coveredBy else []
        covers := other.covers }
  initial_eq : after.initial = before.initial
  initialized_eq : after.initialized = before.initialized

/-- A node that stays is covered as before if all its coverers stay, and else uncovered. -/
theorem Intact.coveredBy_pruneBelow (intact : graph.Intact) {parent id : Nat}
    {node before last : GraphNode σ α} (found : graph.node? parent = some node)
    (foundBefore : graph.node? id = some before)
    (foundLast : (graph.pruneBelow parent node.children).node? id = some last) :
    last.coveredBy =
      if before.coveredBy.all (graph.pruneBelow parent node.children).contains then
        before.coveredBy
      else [] := by
  have pruned := intact.coupled.pruned found
  obtain ⟨before', foundBefore', lost⟩ :=
    intact.uncoversFor_pruneBelow parent node.children foundLast
  obtain rfl := Option.some.inj (foundBefore.symm.trans foundBefore')
  rcases lost with same | ⟨emptied, coverer, member, isRemoved⟩
  · rw [if_pos, same]
    refine List.all_eq_true.mpr fun coverer member => ?_
    obtain ⟨other, foundOther, -⟩ :=
      pruned.coverersLive (by simp) foundLast (same ▸ member)
    rw [contains, foundOther, Option.isSome_some]
  · rw [if_neg, emptied]
    intro allStay
    obtain ⟨other, foundOther⟩ :=
      Option.isSome_iff_exists.mp (List.all_eq_true.mp allStay coverer member)
    exact (pruned.backward foundOther).1 isRemoved

theorem Intact.losesBelow (intact : graph.Intact) {parent : Nat} {node : GraphNode σ α}
    (found : graph.node? parent = some node) :
    LosesBelow parent node.children graph (graph.pruneBelow parent node.children) := by
  have pruned := intact.coupled.pruned found
  have below (id : Nat) : id ∈ graph.below parent node.children ↔
      ∃ child ∈ node.children, graph.Below child id := by
    rw [intact.below_eq found, intact.mem_descendants_iff]
  refine ⟨fun id => ?_, fun {id before last} foundBefore foundLast => ?_, ?_, pruned.initialized⟩
  · rw [contains, contains, Option.isSome_iff_exists, Option.isSome_iff_exists, ← below]
    constructor
    · rintro ⟨last, foundLast⟩
      obtain ⟨outside, before, foundBefore, -⟩ := pruned.backward foundLast
      exact ⟨⟨before, foundBefore⟩, outside⟩
    · rintro ⟨⟨before, foundBefore⟩, outside⟩
      obtain ⟨last, foundLast, -⟩ := pruned.forward outside foundBefore
      exact ⟨last, foundLast⟩
  · obtain ⟨-, before', foundBefore', stays⟩ := pruned.backward foundLast
    obtain rfl := Option.some.inj (foundBefore.symm.trans foundBefore')
    rw [← intact.coveredBy_pruneBelow found foundBefore foundLast]
    exact stays.same
  · have same : (graph.pruneBelow parent node.children).bare.initial =
        (graph.cutBelow parent node.children).bare.initial :=
      congrArg initial (intact.bare_pruneBelow found)
    refine Eq.trans (show _ = (graph.cutBelow parent node.children).initial from same) ?_
    refine List.filter_eq_self.mpr fun id member => ?_
    obtain ⟨root, foundRoot, isRoot⟩ := intact.roots.mem_iff.mp member
    simpa using intact.root_not_mem_cut found foundRoot isRoot

/-- Pruning a graph without defects at a live node leaves a graph without defects.  At an
initial node nothing is left; at another node its siblings and everything below them, and nothing
else, is removed. -/
theorem Made.prune_exact (made : graph.Made) (sound : graph.defect? = none) {id : Nat}
    {node : GraphNode σ α} (found : graph.node? id = some node) :
    ∃ after, prune id graph = (.ok (), after) ∧ after.defect? = none ∧
      (node.parent = none → (∀ other, after.contains other = false) ∧ after.initial = [] ∧
        after.initialized = false) ∧
      ∀ parent, node.parent = some parent → ∃ parentNode,
        graph.node? parent = some parentNode ∧ id ∈ parentNode.children ∧
          LosesBelow parent parentNode.children graph after := by
  have intact := made.forest.defect?_eq_none_iff.mp sound
  cases parent_eq : node.parent with
  | none =>
      refine ⟨_, prune_root found parent_eq, graph.intact_pruneAll.defect?_eq_none,
        fun _ => ⟨fun other => ?_, rfl, rfl⟩, fun parent isParent => ?_⟩
      · rw [contains, node?_pruneAll, Option.isSome_none]
      · cases isParent
  | some parent =>
      obtain ⟨-, parentNode, foundParent, -⟩ := intact.parent_live found parent_eq
      refine ⟨_, intact.prune_child found parent_eq foundParent,
        (intact.pruneBelow foundParent).defect?_eq_none, fun isRoot => ?_, ?_⟩
      · cases isRoot
      · rintro _ ⟨⟩
        exact ⟨parentNode, foundParent,
          (intact.children foundParent).mem_iff.mpr ⟨node, found, parent_eq⟩,
          intact.losesBelow foundParent⟩

/-- Pruning at the successor of the joint cover uncovers the node that it helped to cover. -/
theorem jointCover_prune_exact : ∃ after, prune 2 jointCover = (.ok (), after) ∧
    after.defect? = none ∧ LosesBelow 0 [2] jointCover after ∧
      (after.node? 1).map GraphNode.coveredBy = some [] := by
  have made : jointCover.Made := becomes_jointCover.mono fun _ _ _ => trivial
  obtain ⟨after, run, sound, -, below⟩ :=
    made.prune_exact (by decide) (show jointCover.node? 2 = some _ from rfl)
  obtain ⟨parentNode, foundParent, -, loses⟩ := below 0 rfl
  cases foundParent
  have after_eq : after = (prune 2 jointCover).2 := by rw [run]
  exact ⟨after, run, sound, loses, by rw [after_eq]; rfl⟩

end ReachabilityGraph

end AbstractionRefinement
