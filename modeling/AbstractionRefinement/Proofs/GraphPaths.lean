import AbstractionRefinement.Proofs.GraphForests

/-!
# Paths of a reachability graph

Every live node is reached from an initial node along the parents.  The walk up from a node
finds this path, which is one node longer than the node is deep, and the path is the
counterexample of its nodes.
-/

namespace AbstractionRefinement

namespace ReachabilityGraph

variable {σ α : Type} {graph : ReachabilityGraph σ α} {id : Nat} {path : List Nat}

/-- The path leads from an initial node down to a node, from parents to children. -/
inductive LeadsTo (graph : ReachabilityGraph σ α) : Nat → List Nat → Prop where
  | root {id : Nat} {node : GraphNode σ α} (found : graph.node? id = some node)
      (isRoot : node.parent = none) : graph.LeadsTo id [id]
  | child {parent id : Nat} {node : GraphNode σ α} {path : List Nat}
      (above : graph.LeadsTo parent path) (found : graph.node? id = some node)
      (parent_eq : node.parent = some parent) : graph.LeadsTo id (path ++ [id])

namespace LeadsTo

/-- The path to a node has one node for every level down to it. -/
theorem length_eq (leads : graph.LeadsTo id path) (forest : graph.Forest) {node : GraphNode σ α}
    (found : graph.node? id = some node) : path.length = node.depth + 1 := by
  induction leads generalizing node with
  | root found' isRoot =>
      obtain rfl := Option.some.inj (found.symm.trans found')
      rw [forest.root_depth found isRoot]
      rfl
  | child _ found' parent_eq ih =>
      obtain rfl := Option.some.inj (found.symm.trans found')
      obtain ⟨-, parentNode, foundParent, depth⟩ := forest.parent_live found parent_eq
      rw [List.length_append, ih foundParent, depth]
      rfl

/-- All nodes of a path are live, and all but the first were generated by an action. -/
theorem exists_nodes (leads : graph.LeadsTo id path) :
    ∃ nodes, path.mapM graph.lookup = .ok nodes ∧ nodes.length = path.length ∧
      (nodes.filterMap fun node => node.origin.map Prod.snd).length + 1 = nodes.length := by
  induction leads with
  | @root id node found isRoot =>
      have origin : node.origin = none := Option.map_eq_none_iff.mp isRoot
      refine ⟨[node], ?_, rfl, by simp [origin]⟩
      rw [List.mapM_cons, lookup_eq_ok_iff.mpr found]
      rfl
  | @child parent id node path _ found parent_eq ih =>
      obtain ⟨nodes, looked, length, actions⟩ := ih
      obtain ⟨edge, origin, -⟩ := Option.map_eq_some_iff.mp parent_eq
      refine ⟨nodes ++ [node], ?_, by simp [length], ?_⟩
      · simp [looked, lookup_eq_ok_iff.mpr found]
        rfl
      · simp [origin, actions]

/-- A path has a trace, with one state for each of its nodes. -/
theorem exists_counterexample (leads : graph.LeadsTo id path) (walks : graph.pathTo id = .ok path) :
    ∃ trace, Counterexample.ofGraph graph id = .ok ⟨path, trace⟩ ∧
      trace.length + 1 = path.length := by
  obtain ⟨nodes, looked, length, actions⟩ := leads.exists_nodes
  cases nodes with
  | nil => cases actions
  | cons first rest =>
      have enough : (rest.map GraphNode.state).length =
          ((first :: rest).filterMap fun node => node.origin.map Prod.snd).length := by
        simpa using actions.symm
      let trace : Trace σ α := ⟨first.state, ((first :: rest).filterMap fun node =>
        node.origin.map Prod.snd).zip (rest.map GraphNode.state)⟩
      have made : Trace.ofLists? ((first :: rest).map GraphNode.state)
          ((first :: rest).filterMap fun node => node.origin.map Prod.snd) = some trace := by
        rw [List.map_cons, Trace.ofLists?, if_pos enough]
      refine ⟨trace, ?_, ?_⟩
      · unfold Counterexample.ofGraph
        simp only [walks, looked, bind, Except.bind]
        rw [made]
        rfl
      · have states := Trace.length_states trace
        rw [Trace.states_of_ofLists? made, List.length_map] at states
        rw [← length, states]

end LeadsTo

/-- The walk up from a live node ends at an initial node. -/
theorem Forest.exists_pathUpWithin (forest : graph.Forest) {fuel : Nat} {node : GraphNode σ α}
    (found : graph.node? id = some node) (enough : id < fuel) :
    ∃ up, graph.pathUpWithin fuel id = .ok up ∧ graph.LeadsTo id up.reverse := by
  induction fuel generalizing id node with
  | zero => exact absurd enough (Nat.not_lt_zero id)
  | succ fuel ih =>
      have looked := lookup_eq_ok_iff.mpr found
      cases parent_eq : node.parent with
      | none =>
          refine ⟨[id], ?_, .root found parent_eq⟩
          simp only [pathUpWithin, looked, parent_eq, bind, Except.bind]
          rfl
      | some parent =>
          obtain ⟨older, parentNode, foundParent, -⟩ := forest.parent_live found parent_eq
          obtain ⟨up, walks, leads⟩ :=
            ih foundParent (Nat.lt_of_lt_of_le older (Nat.le_of_lt_succ enough))
          refine ⟨id :: up, ?_, ?_⟩
          · simp only [pathUpWithin, looked, parent_eq, walks, bind, Except.bind]
            rfl
          · rw [List.reverse_cons]
            exact leads.child found parent_eq

theorem Forest.exists_pathTo (forest : graph.Forest) {node : GraphNode σ α}
    (found : graph.node? id = some node) :
    ∃ path, graph.pathTo id = .ok path ∧ graph.LeadsTo id path := by
  obtain ⟨up, walks, leads⟩ := forest.exists_pathUpWithin found
    (Nat.lt_succ_of_lt (node?_eq_some_lt found))
  exact ⟨up.reverse, by rw [pathTo, walks]; rfl, leads⟩

end ReachabilityGraph

end AbstractionRefinement
