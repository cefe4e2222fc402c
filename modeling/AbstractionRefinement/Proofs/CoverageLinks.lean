import AbstractionRefinement.Proofs.GraphPruning

/-!
# Both ends of coverage

A node lists the nodes it covers, and they list it as one that covers them.  Giving up
coverage and removing nodes keep both ends in step.
-/

namespace AbstractionRefinement

namespace ReachabilityGraph

variable {σ α : Type} {graph : ReachabilityGraph σ α} {removed : List Nat}

/-- The nodes that a node covers are live and know it. -/
def CoveredKnow (graph : ReachabilityGraph σ α) : Prop :=
  ∀ ⦃id covered : Nat⦄ ⦃node : GraphNode σ α⦄, graph.node? id = some node →
    covered ∈ node.covers → ∃ other, graph.node? covered = some other ∧ id ∈ other.coveredBy

/-- No node covers more than before. -/
def Releases (before after : ReachabilityGraph σ α) : Prop :=
  ∀ ⦃id : Nat⦄ ⦃other : GraphNode σ α⦄, after.node? id = some other →
    ∃ node, before.node? id = some node ∧ other.covers ⊆ node.covers

theorem Releases.refl (graph : ReachabilityGraph σ α) : graph.Releases graph :=
  fun _ other found => ⟨other, found, List.Subset.refl _⟩

theorem Releases.trans {first second third : ReachabilityGraph σ α}
    (earlier : first.Releases second) (later : second.Releases third) : first.Releases third := by
  intro id last found
  obtain ⟨middle, foundMiddle, subset⟩ := later found
  obtain ⟨node, foundNode, subset'⟩ := earlier foundMiddle
  exact ⟨node, foundNode, List.Subset.trans subset subset'⟩

theorem releases_dropCover (graph : ReachabilityGraph σ α) (node : GraphNode σ α) :
    graph.Releases (graph.dropCover node) := by
  intro id other found
  rw [node?_dropCover, Option.map_eq_some_iff] at found
  obtain ⟨before, foundBefore, rfl⟩ := found
  refine ⟨before, foundBefore, ?_⟩
  dsimp only
  split
  · exact (List.filter_sublist ..).subset
  · exact List.Subset.refl _

theorem releases_forgetAt (id : Nat) (coverers : List Nat) (graph : ReachabilityGraph σ α) :
    graph.Releases (graph.forgetAt id coverers) := by
  intro other node found
  rw [node?_forgetAt, Option.map_eq_some_iff] at found
  obtain ⟨before, foundBefore, rfl⟩ := found
  refine ⟨before, foundBefore, ?_⟩
  dsimp only
  split
  · exact (List.filter_sublist ..).subset
  · exact List.Subset.refl _

theorem CoveredKnow.dropCover (know : graph.CoveredKnow) {node : GraphNode σ α}
    (found : graph.node? node.id = some node) : (graph.dropCover node).CoveredKnow := by
  intro id covered other foundOther member
  obtain ⟨before, foundBefore, covers⟩ := releases_dropCover graph node foundOther
  obtain ⟨known, foundKnown, knows⟩ := know foundBefore (covers member)
  have different : covered ≠ node.id := by
    -- A node that covers the uncovered one has forgotten it.
    rintro rfl
    obtain rfl : node = known := Option.some.inj (found.symm.trans foundKnown)
    rw [node?_dropCover, foundBefore] at foundOther
    obtain rfl := Option.some.inj foundOther
    simp [knows] at member
  refine ⟨_, by rw [node?_dropCover, foundKnown]; rfl, ?_⟩
  dsimp only
  rwa [if_neg different]

/-- Changes of other fields keep the coverage. -/
theorem CoveredKnow.modifyNode (know : graph.CoveredKnow) (id : Nat)
    {change : GraphNode σ α → GraphNode σ α}
    (keeps : ∀ node, (change node).covers = node.covers ∧ (change node).coveredBy = node.coveredBy) :
    (graph.modifyNode id change).CoveredKnow := by
  have view := node?_modifyNode graph id
  intro other covered last found member
  have known : ∃ node, graph.node? other = some node ∧ covered ∈ node.covers := by
    rw [view] at found
    split at found
    · obtain ⟨node, foundNode, rfl⟩ := Option.map_eq_some_iff.mp found
      exact ⟨node, foundNode, (keeps node).1 ▸ member⟩
    · exact ⟨last, found, member⟩
  obtain ⟨node, foundNode, covers⟩ := known
  obtain ⟨coveredNode, foundCovered, knows⟩ := know foundNode covers
  rw [view, foundCovered]
  split
  · exact ⟨_, rfl, (keeps coveredNode).2.symm ▸ knows⟩
  · exact ⟨coveredNode, rfl, knows⟩

theorem CoveredKnow.forgetAt (know : graph.CoveredKnow) (id : Nat) (coverers : List Nat) :
    (graph.forgetAt id coverers).CoveredKnow := by
  intro other covered node found member
  obtain ⟨before, foundBefore, covers⟩ := releases_forgetAt id coverers graph found
  obtain ⟨known, foundKnown, knows⟩ := know foundBefore (covers member)
  refine ⟨_, by rw [node?_forgetAt, foundKnown]; rfl, ?_⟩
  exact knows

theorem CoveredKnow.uncoverAll (know : graph.CoveredKnow) (removed covered : List Nat)
    (numbered : graph.Numbered) :
    (graph.uncoverAll removed covered).CoveredKnow ∧
      graph.Releases (graph.uncoverAll removed covered) := by
  induction covered generalizing graph with
  | nil => exact ⟨know, .refl graph⟩
  | cons first covered ih =>
      simp only [ReachabilityGraph.uncoverAll, List.foldl_cons] at ih ⊢
      cases isRemoved : removed.contains first with
      | true => exact ih know numbered
      | false =>
          cases found : graph.node? first with
          | none => exact ih know numbered
          | some other =>
              have number : other.id = first := numbered found
              obtain ⟨know', releases⟩ := ih (know.dropCover (number ▸ found))
                ((uncovers_dropCover graph other).numbered numbered)
              exact ⟨know', (releases_dropCover graph other).trans releases⟩

/-- After a node is detached no node covers it. -/
theorem CoveredKnow.detach (know : graph.CoveredKnow) (id : Nat) (numbered : graph.Numbered)
    (live : graph.CoverersLive removed) :
    (graph.detach removed id).CoveredKnow ∧ graph.Releases (graph.detach removed id) ∧
      ∀ other node, (graph.detach removed id).node? other = some node → id ∉ node.covers := by
  rw [detach_eq]
  cases foundRemoved : graph.node? id with
  | none =>
      refine ⟨know, .refl graph, fun other node found member => ?_⟩
      obtain ⟨known, foundKnown, -⟩ := know found member
      rw [foundRemoved] at foundKnown
      cases foundKnown
  | some node =>
      obtain ⟨uncovers, -, -⟩ := uncoverAll_spec removed node.covers graph numbered live
      obtain ⟨know', releases⟩ := know.uncoverAll removed node.covers numbered
      refine ⟨know'.forgetAt id node.coveredBy,
        releases.trans (releases_forgetAt id node.coveredBy _), fun other last found member => ?_⟩
      rw [node?_forgetAt, Option.map_eq_some_iff] at found
      obtain ⟨middle, foundMiddle, rfl⟩ := found
      dsimp only at member
      split at member
      case isTrue => simp at member
      case isFalse notCoverer =>
        obtain ⟨known, foundKnown, knows⟩ := know' foundMiddle member
        obtain ⟨before, foundBefore, -, dropped⟩ := uncovers.backward foundKnown
        obtain rfl : node = before := Option.some.inj (foundRemoved.symm.trans foundBefore)
        rcases dropped with emptied | same
        · simp [emptied] at knows
        · exact notCoverer (same ▸ knows)

theorem CoveredKnow.foldl_detach (ids : List Nat) (know : graph.CoveredKnow)
    (numbered : graph.Numbered) (live : graph.CoverersLive removed)
    (areRemoved : ∀ id ∈ ids, id ∈ removed) :
    (ids.foldl (ReachabilityGraph.detach removed) graph).CoveredKnow ∧
      graph.Releases (ids.foldl (ReachabilityGraph.detach removed) graph) ∧
      ∀ id ∈ ids, ∀ other node, (ids.foldl (ReachabilityGraph.detach removed) graph).node? other =
        some node → id ∉ node.covers := by
  induction ids generalizing graph with
  | nil => exact ⟨know, .refl graph, by simp⟩
  | cons first ids ih =>
      obtain ⟨isRemoved, areRemoved⟩ := List.forall_mem_cons.mp areRemoved
      obtain ⟨uncovers, live', -⟩ := detach_spec numbered live isRemoved
      obtain ⟨know', releases, released⟩ := know.detach first numbered live
      obtain ⟨knowLast, releasesLast, releasedLast⟩ :=
        ih know' (uncovers.numbered numbered) live' areRemoved
      rw [List.foldl_cons]
      refine ⟨knowLast, releases.trans releasesLast, fun id member other node found inCovers => ?_⟩
      rcases List.mem_cons.mp member with rfl | later
      · obtain ⟨middle, foundMiddle, covers⟩ := releasesLast found
        exact released other middle foundMiddle (covers inCovers)
      · exact releasedLast id later other node found inCovers

theorem CoveredKnow.remove (know : graph.CoveredKnow) (numbered : graph.Numbered)
    (live : graph.CoverersLive removed) : (graph.remove removed).CoveredKnow := by
  obtain ⟨know', -, released⟩ := know.foldl_detach removed numbered live fun _ member => member
  intro id covered node found member
  rw [node?_remove] at found
  split at found
  case isTrue => cases found
  case isFalse =>
    obtain ⟨other, foundOther, knows⟩ := know' found member
    have stays : covered ∉ removed := fun isRemoved => released covered isRemoved id node found member
    exact ⟨other, by rw [node?_remove, if_neg stays, foundOther], knows⟩

end ReachabilityGraph

end AbstractionRefinement
