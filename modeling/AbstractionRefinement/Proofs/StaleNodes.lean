import AbstractionRefinement.Proofs.ReachedGraphs
import Mathlib

/-!
# Nodes of older versions

A node keeps the version of the precision under which it was built.  Exploration builds nodes of
the current version only, and pruning at a node takes it out of the graph and adds nothing, so
that nodes of older versions can only become fewer until the precision changes.
-/

namespace AbstractionRefinement

open AbstractionRefinement.Computation

namespace ReachabilityGraph

variable {σ α : Type} {graph after : ReachabilityGraph σ α} {version : Nat}

/-- Number of live nodes that were built under an older version. -/
def staleCount (graph : ReachabilityGraph σ α) (version : Nat) : Nat :=
  (graph.live.filter fun node => node.version < version).length

def staleNodes (graph : ReachabilityGraph σ α) (version : Nat) : Finset Nat :=
  (Finset.range graph.nodes.size).filter fun id =>
    (graph.node? id).any fun node => node.version < version

theorem mem_staleNodes {id : Nat} : id ∈ graph.staleNodes version ↔
    ∃ node, graph.node? id = some node ∧ node.version < version := by
  rw [staleNodes, Finset.mem_filter, Finset.mem_range, Option.any_eq_true]
  simp only [decide_eq_true_eq]
  constructor
  · exact And.right
  · rintro ⟨node, found, older⟩
    exact ⟨node?_eq_some_lt found, node, found, older⟩

/-- The slots of a list whose entries have a property are as many as these entries. -/
theorem length_filter_filterMap {β : Type} (holds : β → Bool) (slots : List (Option β)) :
    ((slots.filterMap id).filter holds).length =
      ((Finset.range slots.length).filter fun index => slots[index]?.join.any holds).card := by
  induction slots using List.reverseRecOn with
  | nil => rfl
  | append_singleton slots last ih =>
      have earlier : ((Finset.range slots.length).filter fun index =>
          (slots ++ [last])[index]?.join.any holds) =
          (Finset.range slots.length).filter fun index => slots[index]?.join.any holds := by
        refine Finset.filter_congr fun index inside => ?_
        rw [List.getElem?_append_left (Finset.mem_range.mp inside)]
      rw [List.filterMap_append, List.filter_append, List.length_append, ih, List.length_append,
        List.length_singleton, Finset.range_add_one, Finset.filter_insert, earlier]
      have atEnd : (slots ++ [last])[slots.length]? = some last := by simp
      rw [atEnd]
      cases last with
      | none => simp
      | some entry =>
          cases isHeld : holds entry with
          | false => simp [isHeld]
          | true => simp [isHeld]

theorem staleCount_eq_card (graph : ReachabilityGraph σ α) (version : Nat) :
    graph.staleCount version = (graph.staleNodes version).card := by
  rw [staleCount, live, length_filter_filterMap, staleNodes, Array.length_toList]
  refine congrArg Finset.card (Finset.filter_congr fun id _ => ?_)
  rw [node?, Array.getElem?_toList]

theorem staleCount_le (kept : ∀ id other, after.node? id = some other → other.version < version →
      ∃ node, graph.node? id = some node ∧ node.version = other.version) :
    after.staleCount version ≤ graph.staleCount version := by
  rw [staleCount_eq_card, staleCount_eq_card]
  refine Finset.card_le_card fun id stale => ?_
  obtain ⟨other, found, older⟩ := mem_staleNodes.mp stale
  obtain ⟨node, foundNode, same⟩ := kept id other found older
  exact mem_staleNodes.mpr ⟨node, foundNode, same ▸ older⟩

/-- There are fewer of them if one has vanished. -/
theorem staleCount_lt {id : Nat} {node : GraphNode σ α} (found : graph.node? id = some node)
    (older : node.version < version) (vanished : after.node? id = none)
    (kept : ∀ id other, after.node? id = some other →
      ∃ node, graph.node? id = some node ∧ node.version = other.version) :
    after.staleCount version < graph.staleCount version := by
  rw [staleCount_eq_card, staleCount_eq_card]
  refine Finset.card_lt_card (Finset.ssubset_iff_of_subset ?subset |>.mpr ⟨id, ?_, ?_⟩)
  case subset =>
    intro other stale
    obtain ⟨last, foundLast, olderLast⟩ := mem_staleNodes.mp stale
    obtain ⟨before, foundBefore, same⟩ := kept other last foundLast
    exact mem_staleNodes.mpr ⟨before, foundBefore, same ▸ olderLast⟩
  · exact mem_staleNodes.mpr ⟨node, found, older⟩
  · rw [mem_staleNodes, vanished]
    rintro ⟨_, ⟨⟩, -⟩

/-- Pruning at a node takes it out of the graph and adds nothing. -/
theorem WellFormed.prune_removes (wellFormed : graph.WellFormed) {id : Nat}
    {node : GraphNode σ α} (found : graph.node? id = some node) :
    ∃ after, prune id graph = (.ok (), after) ∧ after.node? id = none ∧
      ∀ other last, after.node? other = some last →
        ∃ before, graph.node? other = some before ∧ before.version = last.version := by
  obtain ⟨after, run, rfl | ⟨parent, parentNode, foundParent, isChild, rfl⟩⟩ :=
    wellFormed.prune_run found
  · exact ⟨_, run, node?_pruneAll graph id, by simp⟩
  · have pruned := wellFormed.coupled.pruned foundParent
    refine ⟨_, run, ?_, fun other last foundLast => ?_⟩
    · cases stays : (graph.pruneBelow parent parentNode.children).node? id with
      | none => rfl
      | some last =>
          -- Children of the parent do not stay.
          refine absurd ?_ (pruned.backward stays).1
          rw [wellFormed.below_eq foundParent, wellFormed.mem_descendants_iff]
          exact ⟨id, isChild, .root found⟩
    · obtain ⟨-, before, foundBefore, stays⟩ := pruned.backward foundLast
      exact ⟨before, foundBefore, by rw [stays.same]⟩

end ReachabilityGraph

namespace ReachabilityGraph

variable {σ α : Type} {version : Nat} {before graph after : ReachabilityGraph σ α}

/-- The nodes of older versions in the second graph are in the first one, with their versions. -/
def StaleFrom (version : Nat) (before after : ReachabilityGraph σ α) : Prop :=
  ∀ ⦃id : Nat⦄ ⦃other : GraphNode σ α⦄, after.node? id = some other → other.version < version →
    ∃ node, before.node? id = some node ∧ node.version = other.version

theorem StaleFrom.refl (version : Nat) (graph : ReachabilityGraph σ α) :
    StaleFrom version graph graph :=
  fun _ other found _ => ⟨other, found, rfl⟩

theorem StaleFrom.extend (staleFrom : StaleFrom version before graph)
    (known : ∀ id other, after.node? id = some other →
      other.version = version ∨ ∃ node, graph.node? id = some node ∧ node.version = other.version) :
    StaleFrom version before after := by
  intro id other found older
  rcases known id other found with current | ⟨node, foundNode, same⟩
  · exact absurd current (Nat.ne_of_lt older)
  · rw [← same] at older ⊢
    exact staleFrom foundNode older

end ReachabilityGraph

namespace Explorer

open ReachabilityGraph

variable {ω σ α π : Type} {explorer : Explorer ω σ α π}

/-- Exploration builds nodes of the current version only. -/
theorem staleFrom_keeps (precision : π) (version : Nat) (before : ReachabilityGraph σ α) :
    explorer.Keeps precision version fun graph =>
      graph.WellFormed ∧ StaleFrom version before graph where
  numbered valid := fun _ _ => valid.1.id_eq
  addInitial valid makes _ := by
    refine ⟨valid.1.addInitial _, valid.2.extend fun id other found => ?_⟩
    rw [node?_addInitial] at found
    split at found
    case isTrue =>
      obtain rfl := Option.some.inj found
      exact .inl makes.version_eq
    case isFalse => exact .inr ⟨other, found, rfl⟩
  initialized valid :=
    ⟨valid.1.initializedAs true, valid.2.extend fun _ other found => .inr ⟨other, found, rfl⟩⟩
  withSuccessor {graph parent node action data} valid found isOpen makes _ := by
    refine ⟨valid.1.withSuccessor found isOpen _ _, valid.2.extend fun id other foundOther => ?_⟩
    rw [node?_withSuccessor found] at foundOther
    split at foundOther
    case isTrue isParent =>
      obtain rfl := Option.some.inj foundOther
      exact .inr ⟨node, isParent ▸ found, rfl⟩
    case isFalse =>
      split at foundOther
      case isTrue =>
        obtain rfl := Option.some.inj foundOther
        exact .inl makes.version_eq
      case isFalse => exact .inr ⟨other, foundOther, rfl⟩
  markExpanded valid found _ := by
    refine ⟨valid.1.markExpanded found, valid.2.extend fun id other foundOther => ?_⟩
    rw [node?_modifyNode] at foundOther
    split at foundOther
    case isTrue =>
      obtain ⟨node, foundNode, rfl⟩ := Option.map_eq_some_iff.mp foundOther
      exact .inr ⟨node, foundNode, rfl⟩
    case isFalse => exact .inr ⟨other, foundOther, rfl⟩
  withCover valid found uncovered childless chosen _ irreflexive := by
    refine ⟨wellFormed_withCover valid.1 found uncovered childless chosen irreflexive,
      valid.2.extend fun id other foundOther => ?_⟩
    rw [node?_withCover, Option.map_eq_some_iff] at foundOther
    obtain ⟨node, foundNode, rfl⟩ := foundOther
    exact .inr ⟨node, foundNode, rfl⟩

end Explorer

end AbstractionRefinement
