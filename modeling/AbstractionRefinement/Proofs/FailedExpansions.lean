import AbstractionRefinement.Proofs.ExplorationInvariants
import AbstractionRefinement.Proofs.SettledGraphs

/-!
# Expansions that fail

Successors and initial nodes are added one by one, while the analysis may still fail.  When it
does, the nodes made so far stay in the graph: a half-expanded node counts as one that is still
to be expanded, although it has children.  A check that is stopped by its limits leaves no such
node, and a check of a graph without them neither expands a node again that has children nor
finds the graph inconsistent.
-/

namespace AbstractionRefinement

open AbstractionRefinement.Computation

namespace Explorer

open ReachabilityGraph

variable {ω σ α π : Type} {explorer : Explorer ω σ α π} {precision : π} {version : Nat}

/-- A computation of the analysis fails with the error. -/
inductive Throws (explorer : Explorer ω σ α π) (error : EngineError) : Prop where
  | initialStates {precision : π} {world after : ω}
      (run : explorer.analysis.initialStates precision world = (.error error, after))
  | successors {precision : π} {state : σ} {action : α} {world after : ω}
      (run : explorer.analysis.successors precision state action world = (.error error, after))
  | target {state : σ} {world after : ω} (run : explorer.target state world = (.error error, after))

/-- The node has the state, and the answer to whether that is a target. -/
def Describes (explorer : Explorer ω σ α π) (state : σ) (data : NodeData σ) : Prop :=
  data.state = state ∧ ∃ world after, explorer.target state world = (.ok data.target, after)

def satisfiable (explorer : Explorer ω σ α π) (states : List σ) : List σ :=
  states.filter fun state => !explorer.analysis.isBottom state

/-- The nodes are those of the states that are not bottom, in the same order. -/
def MadeOf (explorer : Explorer ω σ α π) (states : List σ) (made : List (NodeData σ)) : Prop :=
  List.Forall₂ explorer.Describes (explorer.satisfiable states) made

/-- The nodes are those of the successors of a state, action by action. -/
inductive SuccessorsOf (explorer : Explorer ω σ α π) (precision : π) (state : σ) :
    List α → List (α × NodeData σ) → Prop where
  | nil : SuccessorsOf explorer precision state [] []
  | cons {action : α} {actions : List α} {world after : ω} {states : List σ}
      {made : List (NodeData σ)} {others : List (α × NodeData σ)}
      (run : explorer.analysis.successors precision state action world = (.ok states, after))
      (madeOf : explorer.MadeOf states made)
      (rest : SuccessorsOf explorer precision state actions others) :
      SuccessorsOf explorer precision state (action :: actions)
        (made.map (Prod.mk action) ++ others)

theorem describes_nodeData (version : Nat) (state : σ) (exploration : ExplorationState ω σ α) :
    (explorer.nodeData version state).Outcome exploration
      (fun data after => explorer.Describes state data ∧ after.graph = exploration.graph)
      fun error after => explorer.Throws error ∧ after.graph = exploration.graph := by
  unfold nodeData
  simp only [outcome_bind, outcome_ofAnalysis, outcome_pure]
  refine outcome_of_run (fun _ _ run => ?_) fun error world run => ?_
  · exact ⟨⟨rfl, _, _, run⟩, trivial⟩
  · exact ⟨.target run, trivial⟩

theorem MadeOf.skip {state : σ} {states : List σ} {made : List (NodeData σ)}
    (madeOf : explorer.MadeOf states made) (isBottom : explorer.analysis.isBottom state = true) :
    explorer.MadeOf (state :: states) made := by
  unfold MadeOf satisfiable
  rwa [List.filter_cons_of_neg (by simpa using isBottom)]

theorem MadeOf.cons {state : σ} {states : List σ} {data : NodeData σ} {made : List (NodeData σ)}
    (describes : explorer.Describes state data) (madeOf : explorer.MadeOf states made)
    (notBottom : ¬ explorer.analysis.isBottom state = true) :
    explorer.MadeOf (state :: states) (data :: made) := by
  unfold MadeOf satisfiable
  rw [List.filter_cons_of_pos (by simpa using notBottom)]
  exact .cons describes madeOf

theorem addSuccessorStates_makes {parent : Nat} {action : α} (states : List σ)
    (exploration : ExplorationState ω σ α) {node : GraphNode σ α}
    (found : exploration.graph.node? parent = some node) :
    (explorer.addSuccessorStates version parent action states).Outcome exploration
      (fun new after => ∃ made, explorer.MadeOf states made ∧
        after.graph = exploration.graph.withSuccessors parent (node.depth + 1)
          (made.map (Prod.mk action)) ∧
            new = List.range' exploration.graph.nodes.size made.length)
      fun error after => explorer.Throws error ∧ ∃ made,
        after.graph = exploration.graph.withSuccessors parent (node.depth + 1) made := by
  induction states generalizing exploration node with
  | nil => exact ⟨[], .nil, rfl, rfl⟩
  | cons state states ih =>
      unfold addSuccessorStates
      split
      case isTrue isBottom =>
        refine (ih exploration found).mono ?_ fun _ _ failed => failed
        rintro new after ⟨made, madeOf, added⟩
        exact ⟨made, madeOf.skip isBottom, added⟩
      case isFalse notBottom =>
        rw [outcome_bind]
        refine (describes_nodeData version state exploration).mono ?_
          fun error after failed => ⟨failed.1, [], failed.2⟩
        rintro data ⟨world, graph, status⟩ ⟨describes, rfl⟩
        simp only [outcome_bind, outcome_onGraph, outcome_addSuccessor, outcome_pure]
        refine ⟨fun other foundOther => ?_, fun error missing => ?_⟩
        · obtain rfl := Option.some.inj (found.symm.trans foundOther)
          let next : GraphNode σ α :=
            { node with children := node.children ++ [exploration.graph.nodes.size] }
          have foundNext : (exploration.graph.withSuccessor parent action data
              (node.depth + 1)).node? parent = some next := by
            rw [node?_withSuccessor found, if_pos rfl]
          refine (ih ⟨world, exploration.graph.withSuccessor parent action data (node.depth + 1),
            status⟩ foundNext).mono ?_ ?_
          · rintro new after ⟨made, madeOf, graph_eq, rfl⟩
            refine ⟨data :: made, .cons describes madeOf notBottom, graph_eq, ?_⟩
            dsimp only
            rw [size_withSuccessor, List.length_cons, List.range'_succ]
          · rintro error after ⟨throws, made, graph_eq⟩
            exact ⟨throws, (action, data) :: made, graph_eq⟩
        · exact absurd missing (lookup_ne_error found)

theorem withSuccessors_append (graph : ReachabilityGraph σ α) (parent depth : Nat)
    (first second : List (α × NodeData σ)) :
    graph.withSuccessors parent depth (first ++ second) =
      (graph.withSuccessors parent depth first).withSuccessors parent depth second :=
  List.foldl_append

theorem expandActions_makes {parent : Nat} {state : σ} (actions : List α)
    (exploration : ExplorationState ω σ α) {node : GraphNode σ α}
    (found : exploration.graph.node? parent = some node) :
    (explorer.expandActions precision version parent state actions).Outcome exploration
      (fun new after => ∃ made, explorer.SuccessorsOf precision state actions made ∧
        after.graph = exploration.graph.withSuccessors parent (node.depth + 1) made ∧
          new = List.range' exploration.graph.nodes.size made.length)
      fun error after => explorer.Throws error ∧ ∃ made,
        after.graph = exploration.graph.withSuccessors parent (node.depth + 1) made := by
  induction actions generalizing exploration node with
  | nil => exact ⟨[], .nil, rfl, rfl⟩
  | cons action actions ih =>
      unfold expandActions
      simp only [outcome_bind, outcome_ofAnalysis, outcome_pure]
      refine outcome_of_run (fun states world run => ?_)
        fun error world run => ⟨.successors run, [], rfl⟩
      refine (addSuccessorStates_makes states { exploration with world } found).mono ?_
        fun _ _ failed => failed
      rintro new ⟨world, graph, status⟩ ⟨data, madeOf, graph_eq, rfl⟩
      obtain rfl : graph = _ := graph_eq
      rw [← List.length_map (Prod.mk action)]
      generalize made_eq : data.map (Prod.mk action) = made
      let next : GraphNode σ α := { node with
        children := node.children ++ List.range' exploration.graph.nodes.size made.length }
      have foundNext : (exploration.graph.withSuccessors parent (node.depth + 1) made).node?
          parent = some next := by
        rw [node?_withSuccessors found, if_pos rfl]
      refine (ih ⟨world, exploration.graph.withSuccessors parent (node.depth + 1) made, status⟩
        foundNext).mono ?_ ?_
      · rintro rest after ⟨made', successorsOf, graph_eq, rfl⟩
        refine ⟨made ++ made', made_eq ▸ .cons run madeOf successorsOf,
          graph_eq.trans (withSuccessors_append ..).symm, ?_⟩
        dsimp only
        rw [size_withSuccessors, List.range'_append_1, List.length_append]
      · rintro error after ⟨throws, made', graph_eq⟩
        exact ⟨throws, made ++ made', graph_eq.trans (withSuccessors_append ..).symm⟩

/-- What expanding a node does: it adds the successors, and marks the node if the analysis does
not fail amid that. -/
theorem expand_makes_successors (id : Nat) (exploration : ExplorationState ω σ α) :
    (explorer.expand precision version id).Outcome exploration
      (fun new after => ∃ node made, exploration.graph.node? id = some node ∧
        explorer.SuccessorsOf precision node.state (explorer.enabled node.state) made ∧
          after.graph = exploration.graph.withExpansion id (node.depth + 1) made ∧
            new = List.range' exploration.graph.nodes.size made.length)
      fun error after =>
        (exploration.graph.node? id = none ∧ after.graph = exploration.graph) ∨
          ∃ node made, exploration.graph.node? id = some node ∧ explorer.Throws error ∧
            after.graph = exploration.graph.withSuccessors id (node.depth + 1) made := by
  unfold expand setExpanded
  simp only [outcome_bind, outcome_onGraph, outcome_getNode, outcome_updateNode, outcome_pure]
  refine ⟨fun node found => ?_, fun error missing => .inl ⟨?_, trivial⟩⟩
  · refine (expandActions_makes (explorer.enabled node.state) exploration found).mono ?_ ?_
    · rintro new ⟨world, graph, status⟩ ⟨made, successorsOf, graph_eq, rfl⟩
      obtain rfl : graph = _ := graph_eq
      refine ⟨fun _ _ => ⟨node, made, found, successorsOf, rfl, rfl⟩, fun error missing => ?_⟩
      have foundNext := node?_withSuccessors found (node.depth + 1) made id
      rw [if_pos rfl] at foundNext
      exact absurd missing (lookup_ne_error foundNext)
    · rintro error after ⟨throws, made, graph_eq⟩
      exact .inr ⟨node, made, found, throws, graph_eq⟩
  · cases found : exploration.graph.node? id with
    | none => rfl
    | some node =>
        exact absurd missing (lookup_ne_error found)

/-- Which successors are added does not matter for the form of the graph. -/
theorem expand_makes (id : Nat) (exploration : ExplorationState ω σ α) :
    (explorer.expand precision version id).Outcome exploration
      (fun new after => ∃ node made, exploration.graph.node? id = some node ∧
        after.graph = exploration.graph.withExpansion id (node.depth + 1) made ∧
          new = List.range' exploration.graph.nodes.size made.length)
      fun error after =>
        (exploration.graph.node? id = none ∧ after.graph = exploration.graph) ∨
          ∃ node made, exploration.graph.node? id = some node ∧ explorer.Throws error ∧
            after.graph = exploration.graph.withSuccessors id (node.depth + 1) made := by
  refine (expand_makes_successors id exploration).mono ?_ fun _ _ failed => failed
  rintro new after ⟨node, made, found, -, added⟩
  exact ⟨node, made, found, added⟩

theorem addInitialStates_makes (states : List σ) (exploration : ExplorationState ω σ α) :
    (explorer.addInitialStates version states).Outcome exploration
      (fun _ after => ∃ made, explorer.MadeOf states made ∧
        after.graph = exploration.graph.withInitials made)
      fun error after => explorer.Throws error ∧ ∃ made,
        after.graph = exploration.graph.withInitials made := by
  induction states generalizing exploration with
  | nil => exact ⟨[], .nil, rfl⟩
  | cons state states ih =>
      unfold addInitialStates
      split
      case isTrue isBottom =>
        refine (ih exploration).mono ?_ fun _ _ failed => failed
        rintro _ after ⟨made, madeOf, graph_eq⟩
        exact ⟨made, madeOf.skip isBottom, graph_eq⟩
      case isFalse notBottom =>
        rw [outcome_bind]
        refine (describes_nodeData version state exploration).mono ?_
          fun error after failed => ⟨failed.1, [], failed.2⟩
        rintro data ⟨world, graph, status⟩ ⟨describes, rfl⟩
        simp only [outcome_bind, outcome_get, outcome_modify, outcome_pure]
        refine (ih ⟨world, exploration.graph.addInitial data, status⟩).mono ?_ ?_
        · rintro _ after ⟨made, madeOf, graph_eq⟩
          exact ⟨data :: made, .cons describes madeOf notBottom, graph_eq⟩
        · rintro error after ⟨throws, made, graph_eq⟩
          exact ⟨throws, data :: made, graph_eq⟩

/-- What creating the initial nodes does: it adds them, and initializes the graph if the
analysis does not fail amid that. -/
theorem createInitial_makes_initial (exploration : ExplorationState ω σ α) :
    (explorer.createInitial precision version).Outcome exploration
      (fun _ after => ∃ world states world' made,
        explorer.analysis.initialStates precision world = (.ok states, world') ∧
          explorer.MadeOf states made ∧
            after.graph = { exploration.graph.withInitials made with initialized := true })
      fun error after => explorer.Throws error ∧ ∃ made,
        after.graph = exploration.graph.withInitials made := by
  unfold createInitial
  simp only [outcome_bind, outcome_ofAnalysis, outcome_modify, outcome_pure]
  refine outcome_of_run (fun states world run => ?_)
    fun error world run => ⟨.initialStates run, [], rfl⟩
  refine (addInitialStates_makes states { exploration with world }).mono ?_
    fun _ _ failed => failed
  rintro _ ⟨world', graph, status⟩ ⟨made, madeOf, rfl⟩
  exact ⟨exploration.world, states, world, made, run, madeOf, rfl⟩

theorem createInitial_makes (exploration : ExplorationState ω σ α) :
    (explorer.createInitial precision version).Outcome exploration
      (fun _ after => ∃ made,
        after.graph = { exploration.graph.withInitials made with initialized := true })
      fun error after => explorer.Throws error ∧ ∃ made,
        after.graph = exploration.graph.withInitials made := by
  refine (createInitial_makes_initial exploration).mono ?_ fun _ _ failed => failed
  rintro _ after ⟨-, -, -, made, -, -, graph_eq⟩
  exact ⟨made, graph_eq⟩

/-- A node that is neither covered nor has children, so that it may be closed. -/
def Closable (graph : ReachabilityGraph σ α) (id : Nat) : Prop :=
  ∃ node, graph.node? id = some node ∧ node.coveredBy = [] ∧ node.children = []

theorem Closable.withCover {graph : ReachabilityGraph σ α} {id covered : Nat}
    (closable : Closable graph id) (different : id ≠ covered) (coverers : List Nat) :
    Closable (graph.withCover covered coverers) id := by
  obtain ⟨node, found, uncovered, childless⟩ := closable
  have view := node?_withCover graph covered coverers id
  rw [found, Option.map_some, if_neg different] at view
  exact ⟨_, view, uncovered, childless⟩

/-- The second graph is settled and has grown from the first one. -/
structure Advances (before after : ReachabilityGraph σ α) : Prop where
  settled : after.Settled
  grown : Grown before after

theorem Advances.trans {first second third : ReachabilityGraph σ α}
    (earlier : Advances first second) (later : Advances second third) : Advances first third :=
  ⟨later.settled, earlier.grown.trans later.grown⟩

/-- Closing a node of a settled graph does not fail. -/
theorem close_settled {id : Nat} (exploration : ExplorationState ω σ α)
    (settled : exploration.graph.Settled) (closable : Closable exploration.graph id) :
    (explorer.close precision id).Outcome exploration
      (fun closed after => Advances exploration.graph after.graph ∧
        (closed = false → after = exploration) ∧
        ∀ other, other ≠ id → Closable exploration.graph other → Closable after.graph other)
      fun _ _ => False := by
  obtain ⟨node, found, uncovered, childless⟩ := closable
  have unchanged : Advances exploration.graph exploration.graph := ⟨settled, .refl _⟩
  unfold close
  split
  case isTrue => exact ⟨unchanged, fun _ => rfl, fun _ _ closable => closable⟩
  case isFalse =>
    simp only [outcome_bind, outcome_get, outcome_onGraph, outcome_getNode]
    refine ⟨fun other foundOther => ?_, fun error missing => ?_⟩
    · obtain rfl := Option.some.inj (found.symm.trans foundOther)
      cases chosen : explorer.coverers? precision exploration.graph node with
      | none => exact ⟨unchanged, fun _ => rfl, fun _ _ closable => closable⟩
      | some coverers =>
          obtain ⟨others, mayCover, rfl, joined, joins, -⟩ := coverers?_eq_some chosen
          have nonempty : others.map GraphNode.id ≠ [] := by
            intro isEmpty
            rw [List.map_eq_nil_iff.mp isEmpty] at joins
            cases joins
          have irreflexive : id ∉ others.map GraphNode.id := by
            intro member
            obtain ⟨other, isOther, same⟩ := List.mem_map.mp member
            exact (mayCover other isOther).different (same.trans (settled.id_eq found).symm)
          have sameKey : ∀ coverer ∈ others.map GraphNode.id, ∃ other,
              exploration.graph.node? coverer = some other ∧ other.key = node.key := by
            refine List.forall_mem_map.mpr fun other isOther => ?_
            obtain ⟨position, listed, foundOther⟩ := mem_withKey.mp (mayCover other isOther).listed
            rw [settled.id_eq foundOther]
            obtain ⟨known, foundKnown, same⟩ := (settled.keyed node.key).mem_iff.mp listed
            obtain rfl := Option.some.inj (foundOther.symm.trans foundKnown)
            exact ⟨other, foundOther, same⟩
          have run := cover_run_of_live found uncovered childless nonempty irreflexive
            fun coverer member => (sameKey coverer member).imp fun _ => And.left
          simp only [outcome_bind, outcome_onGraph, outcome_pure]
          unfold Outcome
          rw [run]
          refine ⟨⟨?_, grown_withCover ..⟩, Bool.noConfusion, fun other different closable => ?_⟩
          · exact settled.withCover found childless uncovered nonempty sameKey
          · exact closable.withCover different _
    · exact absurd missing (lookup_ne_error found)

/-- Putting new nodes on the waitlist, or closing them, does not fail. -/
theorem enqueue_settled (new : List Nat) (list : Waitlist RandomStream)
    (exploration : ExplorationState ω σ α)
    (settled : exploration.graph.Settled) (distinct : new.Nodup)
    (closable : ∀ id ∈ new, Closable exploration.graph id) :
    (explorer.enqueue precision new list).Outcome exploration
      (fun _ after => Advances exploration.graph after.graph) fun _ _ => False := by
  induction new generalizing list exploration with
  | nil => exact ⟨settled, .refl _⟩
  | cons id new ih =>
      obtain ⟨isNew, distinct⟩ := List.nodup_cons.mp distinct
      obtain ⟨first, closable⟩ := List.forall_mem_cons.mp closable
      have found := first
      obtain ⟨node, found, -⟩ := found
      unfold enqueue
      simp only [outcome_bind, outcome_onGraph, outcome_getNode]
      refine ⟨fun _ _ => ?_, fun error missing => ?_⟩
      · split
        case isTrue => exact ih list exploration settled distinct closable
        case isFalse =>
          rw [outcome_bind]
          refine (close_settled exploration settled first).mono ?_ fun _ _ failed => failed
          rintro closed middle ⟨advances, -, keeps⟩
          have closable' : ∀ other ∈ new, Closable middle.graph other := fun other member =>
            keeps other (fun same => isNew (same ▸ member)) (closable other member)
          split
          · exact (ih list middle advances.settled distinct closable').mono
              (fun _ _ later => advances.trans later) fun _ _ failed => failed
          · exact (ih _ middle advances.settled distinct closable').mono
              (fun _ _ later => advances.trans later) fun _ _ failed => failed
      · exact absurd missing (lookup_ne_error found)

/-- How a check that started on a settled graph fails: at one of its limits, with no expansion
under way, or with an error of the analysis, amid the creation of the initial nodes or amid an
expansion. -/
inductive Interrupted (explorer : Explorer ω σ α π) (budget : Budget ω) :
    EngineError → ReachabilityGraph σ α → Prop where
  | outOfFuel {graph : ReachabilityGraph σ α} (settled : graph.Settled) :
      Interrupted explorer budget .outOfFuel graph
  | exceeded {graph : ReachabilityGraph σ α} {world : ω} {error : EngineError}
      (exceeded : budget.exceeded? world = some error) (settled : graph.Settled) :
      Interrupted explorer budget error graph
  | starting {graph : ReachabilityGraph σ α} {error : EngineError}
      (throws : explorer.Throws error) (settled : graph.Settled)
      (notInitialized : graph.initialized = false) (made : List (NodeData σ)) :
      Interrupted explorer budget error (graph.withInitials made)
  | expanding {graph : ReachabilityGraph σ α} {error : EngineError} {id : Nat}
      {node : GraphNode σ α} (throws : explorer.Throws error) (settled : graph.Settled)
      (found : graph.node? id = some node) (isOpen : node.isIncomplete = true)
      (made : List (α × NodeData σ)) :
      Interrupted explorer budget error (graph.withSuccessors id (node.depth + 1) made)

theorem closable_withExpansion {graph : ReachabilityGraph σ α} {id : Nat} {node : GraphNode σ α}
    (found : graph.node? id = some node) (depth : Nat) (made : List (α × NodeData σ)) :
    ∀ new ∈ List.range' graph.nodes.size made.length,
      Closable (graph.withExpansion id depth made) new := by
  intro new member
  obtain ⟨older, newer⟩ := List.mem_range'_1.mp member
  have different : new ≠ id := Nat.ne_of_gt (Nat.lt_of_lt_of_le (node?_eq_some_lt found) older)
  have listed : new - graph.nodes.size < made.length := by omega
  rw [Closable, node?_withExpansion found, if_neg different, if_neg (Nat.not_lt.mpr older),
    List.getElem?_eq_getElem listed]
  exact ⟨_, rfl, rfl, rfl⟩

/-- Exploring a settled graph. -/
theorem exploreWithin_settled (budget : Budget ω) (fuel : Nat) (list : Waitlist RandomStream)
    (exploration : ExplorationState ω σ α) (settled : exploration.graph.Settled) :
    (explorer.exploreWithin precision version budget fuel list).Outcome exploration
      (fun _ after => Advances exploration.graph after.graph)
      fun error after => explorer.Interrupted budget error after.graph ∧
        Grown exploration.graph after.graph := by
  induction fuel generalizing list exploration with
  | zero => exact ⟨.outOfFuel settled, .refl _⟩
  | succ fuel ih =>
      -- The rest of the run starts from a graph that the first node has left settled.
      have goesOn (list : Waitlist RandomStream) (middle : ExplorationState ω σ α)
          (advances : Advances exploration.graph middle.graph) :
          (explorer.exploreWithin precision version budget fuel list).Outcome middle
            (fun _ after => Advances exploration.graph after.graph)
            fun error after => explorer.Interrupted budget error after.graph ∧
              Grown exploration.graph after.graph :=
        (ih list middle advances.settled).mono (fun _ _ later => advances.trans later)
          fun _ _ failed => ⟨failed.1, advances.grown.trans failed.2⟩
      have unchanged : Advances exploration.graph exploration.graph := ⟨settled, .refl _⟩
      unfold exploreWithin
      simp only [outcome_bind, outcome_get]
      split
      case isTrue => exact unchanged
      case isFalse =>
        split
        case h_1 => exact unchanged
        case h_2 id rest _ =>
          rw [outcome_bind]
          refine outcome_poll budget ?_ fun error exceeded => ⟨.exceeded exceeded settled, .refl _⟩
          simp only [outcome_bind, outcome_get]
          split
          case isTrue => exact goesOn rest exploration unchanged
          case isFalse isOpen =>
            obtain ⟨node, found, open'⟩ : ∃ node, exploration.graph.node? id = some node ∧
                node.isIncomplete = true := by
              simpa [Option.any_eq_true] using isOpen
            have uncovered : node.coveredBy = [] := by
              simp only [GraphNode.isIncomplete, GraphNode.isCovered] at open'
              simpa using (Bool.and_eq_true_iff.mp open').2
            have childless : node.children = [] := settled.childless found open'
            rw [outcome_bind]
            refine (close_settled exploration settled
              ⟨node, found, uncovered, childless⟩).mono ?_ fun _ _ failed => failed.elim
            rintro closed middle ⟨advances, same, -⟩
            split
            case isTrue => exact goesOn rest middle advances
            case isFalse notClosed =>
              obtain rfl := same (by simpa using notClosed)
              rw [outcome_bind]
              refine (expand_makes id middle).mono ?_ ?_
              · rintro new ⟨world, graph, status⟩ ⟨node', made, found', rfl, rfl⟩
                obtain rfl := Option.some.inj (found.symm.trans found')
                have expanded := settled.withExpansion found open' made
                rw [outcome_bind]
                refine (enqueue_settled _ rest ⟨world, _, status⟩ expanded
                  List.nodup_range' (closable_withExpansion found _ made)).mono ?_
                    fun _ _ failed => failed.elim
                intro list last later
                exact goesOn list last (.trans ⟨expanded,
                  grown_withExpansion found childless _ made⟩ later)
              · rintro error after (⟨missing, -⟩ | ⟨node', made, found', throws, graph_eq⟩)
                · cases found.symm.trans missing
                · obtain rfl := Option.some.inj (found.symm.trans found')
                  rw [graph_eq]
                  exact ⟨.expanding throws settled found open' made,
                    grown_withSuccessors found childless _ made⟩

/-- A check of a settled graph. -/
theorem check_settled (fuel : Nat) (budget : Budget ω) (exploration : ExplorationState ω σ α)
    (settled : exploration.graph.Settled) :
    (explorer.check fuel precision version budget).Outcome exploration
      (fun _ after => Advances exploration.graph after.graph)
      fun error after => explorer.Interrupted budget error after.graph ∧
        Grown exploration.graph after.graph := by
  refine outcome_check (fun _ graph => Advances exploration.graph graph)
    (fun error graph => explorer.Interrupted budget error graph ∧ Grown exploration.graph graph)
    (fun notInitialized => ?_) fun _ => ?_
  · have grown := settled.grown_of_not_initialized notInitialized
    refine (createInitial_makes { exploration with status := .exploring }).mono ?_ ?_
    · rintro _ start ⟨made, graph_eq⟩
      have started : start.graph.Settled := by
        rw [graph_eq]
        exact settled.withInitials made
      exact (exploreWithin_settled budget fuel _ start started).mono
        (fun _ last later => ⟨later.settled, grown last.graph⟩)
        fun _ last failed => ⟨failed.1, grown last.graph⟩
    · rintro error after ⟨throws, made, graph_eq⟩
      refine ⟨?_, grown _⟩
      rw [graph_eq]
      exact .starting throws settled notInitialized made
  · exact exploreWithin_settled budget fuel _ { exploration with status := .exploring } settled

/-- Graphs that checks and pruning make of the graph without nodes, while no check fails with an
error of the analysis. -/
inductive Explored (explorer : Explorer ω σ α π) : ReachabilityGraph σ α → Prop where
  | empty : Explored explorer .empty
  | check {before after : ExplorationState ω σ α} {fuel version : Nat} {precision : π}
      {budget : Budget ω} {result : Except EngineError ExplorationStatus}
      (explored : Explored explorer before.graph)
      (run : explorer.check fuel precision version budget before = (result, after))
      (notThrown : ∀ error, result = .error error → ¬ explorer.Throws error) :
      Explored explorer after.graph
  | prune {graph : ReachabilityGraph σ α} (explored : Explored explorer graph) (id : Nat) :
      Explored explorer (ReachabilityGraph.prune id graph).2
  | pruneAll {graph : ReachabilityGraph σ α} (explored : Explored explorer graph) :
      Explored explorer graph.pruneAll

theorem Interrupted.settled {budget : Budget ω} {error : EngineError}
    {graph : ReachabilityGraph σ α} (interrupted : explorer.Interrupted budget error graph)
    (notThrown : ¬ explorer.Throws error) : graph.Settled := by
  cases interrupted with
  | outOfFuel settled => exact settled
  | exceeded _ settled => exact settled
  | starting throws => exact absurd throws notThrown
  | expanding throws => exact absurd throws notThrown

/-- Exceeded limits are not mistaken for an inconsistent graph. -/
theorem Interrupted.consistent {budget : Budget ω} {reason : String}
    {graph : ReachabilityGraph σ α}
    (interrupted : explorer.Interrupted budget (.inconsistentGraph reason) graph) :
    explorer.Throws (.inconsistentGraph reason) := by
  cases interrupted with
  | exceeded exceeded =>
      unfold Budget.exceeded? at exceeded
      split at exceeded
      · cases exceeded
      · split at exceeded
        · cases exceeded
        · split at exceeded <;> cases exceeded
  | starting throws => exact throws
  | expanding throws => exact throws

theorem Explored.settled {graph : ReachabilityGraph σ α} (explored : explorer.Explored graph) :
    graph.Settled := by
  induction explored with
  | empty => exact settled_empty
  | @check before after fuel version precision budget result _ run notThrown ih =>
      have outcome : (explorer.check fuel precision version budget).Outcome before _ _ :=
        check_settled fuel budget before ih
      cases result with
      | ok status => exact (outcome.returned run).settled
      | error error => exact (outcome.failed run).1.settled (notThrown error rfl)
  | prune _ id ih => exact ih.prune id
  | pruneAll => exact settled_pruneAll _

/-- An expansion adds successors to those that the node has, and marks the node once all are
added; one that fails amid that leaves the successors made before, so that the graph is as before
exactly if there are none.  The same holds of the initial nodes.  While only limits stop checks,
no check gives further children to a node that has some, adds initial nodes twice or finds the
graph inconsistent. -/
theorem expansions_that_fail (explorer : Explorer ω σ α π) :
    (∀ (precision : π) (version id : Nat) (before after : ExplorationState ω σ α),
      (∀ new, explorer.expand precision version id before = (.ok new, after) →
        ∃ node made, before.graph.node? id = some node ∧
          after.graph = before.graph.withExpansion id (node.depth + 1) made ∧
            new = List.range' before.graph.nodes.size made.length) ∧
      ∀ error, explorer.expand precision version id before = (.error error, after) →
        (before.graph.node? id = none ∧ after.graph = before.graph) ∨
          ∃ node made, before.graph.node? id = some node ∧ explorer.Throws error ∧
            after.graph = before.graph.withSuccessors id (node.depth + 1) made ∧
              (after.graph = before.graph ↔ made = [])) ∧
      (∀ (precision : π) (version : Nat) (before after : ExplorationState ω σ α),
        (∀ new, explorer.createInitial precision version before = (.ok new, after) →
          ∃ made, after.graph = { before.graph.withInitials made with initialized := true }) ∧
        ∀ error, explorer.createInitial precision version before = (.error error, after) →
          explorer.Throws error ∧ ∃ made, after.graph = before.graph.withInitials made ∧
            (after.graph = before.graph ↔ made = [])) ∧
      ∀ (fuel : Nat) (precision : π) (version : Nat) (budget : Budget ω)
        (before after : ExplorationState ω σ α), explorer.Explored before.graph →
          (∀ status, explorer.check fuel precision version budget before = (.ok status, after) →
            Grown before.graph after.graph ∧ after.graph.Settled) ∧
          ∀ error, explorer.check fuel precision version budget before = (.error error, after) →
            Grown before.graph after.graph ∧ explorer.Interrupted budget error after.graph ∧
              (explorer.Throws error ∨
                after.graph.Settled ∧ ∀ reason, error ≠ .inconsistentGraph reason) := by
  refine ⟨fun precision version id before after => ?_, fun precision version before after => ?_,
    fun fuel precision version budget before after explored => ?_⟩
  · have makes : (explorer.expand precision version id).Outcome before _ _ :=
      expand_makes id before
    refine ⟨fun new run => makes.returned run, fun error run => ?_⟩
    rcases makes.failed run with unchanged | ⟨node, made, found, throws, graph_eq⟩
    · exact .inl unchanged
    · refine .inr ⟨node, made, found, throws, graph_eq, ?_⟩
      rw [graph_eq, withSuccessors_eq_self_iff]
  · have makes : (explorer.createInitial precision version).Outcome before _ _ :=
      createInitial_makes before
    refine ⟨fun new run => makes.returned run, fun error run => ?_⟩
    obtain ⟨throws, made, graph_eq⟩ := makes.failed run
    refine ⟨throws, made, graph_eq, ?_⟩
    rw [graph_eq, withInitials_eq_self_iff]
  · have advances : (explorer.check fuel precision version budget).Outcome before _ _ :=
      check_settled fuel budget before explored.settled
    refine ⟨fun status run => ?_, fun error run => ?_⟩
    · exact ⟨(advances.returned run).grown, (advances.returned run).settled⟩
    · obtain ⟨interrupted, grown⟩ := advances.failed run
      refine ⟨grown, interrupted, ?_⟩
      by_cases throws : explorer.Throws error
      · exact .inl throws
      · refine .inr ⟨interrupted.settled throws, ?_⟩
        rintro reason rfl
        exact throws interrupted.consistent

/-- From the state 0, the first action leads to a given state, and the second one nowhere, which
only a working solver finds out. -/
def unreliable (next : Nat) : Explorer Bool Nat Bool Unit where
  analysis := {
    top := fun _ => 0
    isBottom := fun _ => false
    leq := fun _ state other => state == other
    join := fun _ _ _ => none
    hasExactJoin := false
    initialStates := fun _ => return [0]
    successors := fun _ _ action working =>
      if action then (if working then .ok [] else .error (.solverUnknown .timeout), working)
      else (.ok [next], working) }
  enabled state := if state = 0 then [false, true] else []
  target := fun _ => return false
  projection := fun _ => 0
  strategy := .breadthFirst
  stop := .never
  coverage := .single

def unlimited : Budget Bool :=
  .start {} (fun _ => 0) true

def noCalls : Budget Bool :=
  .start { solverCalls := some 0 } (fun _ => 0) true

def attempt (next : Nat) (budget : Budget Bool) (working : Bool) :
    Except EngineError ExplorationStatus × ExplorationState Bool Nat Bool :=
  (unreliable next).check 10 () 0 budget ⟨working, .empty, .idle⟩

/-- What the first check leaves, with a solver that works from now on. -/
def resumed (next : Nat) (budget : Budget Bool) (working : Bool) :
    ExplorationState Bool Nat Bool :=
  { (attempt next budget working).2 with world := true }

theorem graph_resumed (next : Nat) (budget : Budget Bool) (working : Bool) :
    (resumed next budget working).graph = (attempt next budget working).2.graph :=
  rfl

def retry (next : Nat) (budget : Budget Bool) (working : Bool) :
    Except EngineError ExplorationStatus × ExplorationState Bool Nat Bool :=
  (unreliable next).check 10 () 0 unlimited (resumed next budget working)

theorem unreliable_throws {next : Nat} {error : EngineError}
    (throws : (unreliable next).Throws error) : error = .solverUnknown .timeout := by
  cases throws with
  | initialStates run => cases run
  | @successors _ _ action working _ run =>
      cases action <;> cases working <;> cases run
      rfl
  | target run => cases run

/-- A check that its limits stopped leaves a graph that can be checked again. -/
theorem unreliable_expansions_that_fail :
    (attempt 1 noCalls true).1 = .error (.resourceExhausted .solverCalls) ∧
      (unreliable 1).Explored (resumed 1 noCalls true).graph ∧
      (retry 1 noCalls true).1 = .ok .exhausted ∧
        Grown (resumed 1 noCalls true).graph (retry 1 noCalls true).2.graph ∧
          (retry 1 noCalls true).2.graph.Settled := by
  obtain ⟨-, -, checks⟩ := expansions_that_fail (unreliable 1)
  have stops : (attempt 1 noCalls true).1 = .error (.resourceExhausted .solverCalls) := by
    decide +kernel
  have completes : (retry 1 noCalls true).1 = .ok .exhausted := by decide +kernel
  have explored : (unreliable 1).Explored (resumed 1 noCalls true).graph := by
    have run : (unreliable 1).check 10 () 0 noCalls ⟨true, .empty, .idle⟩ =
        (.error (.resourceExhausted .solverCalls), (attempt 1 noCalls true).2) :=
      Prod.fst_eq_iff.mp stops
    rw [graph_resumed]
    refine Explored.empty.check run ?_
    rintro _ ⟨⟩ throws
    cases unreliable_throws throws
  have run : (unreliable 1).check 10 () 0 unlimited (resumed 1 noCalls true) =
      (.ok .exhausted, (retry 1 noCalls true).2) := Prod.fst_eq_iff.mp completes
  obtain ⟨returns, -⟩ := checks 10 () 0 unlimited _ _ explored
  exact ⟨stops, explored, completes, returns _ run⟩

/-- A failed expansion may change the graph.  After a check that failed without a working solver,
one with a working solver may give a node the same child twice, or find the graph inconsistent. -/
theorem exists_duplicates_of_failed_expansion :
    (∃ before : ExplorationState Bool Nat Bool, ∃ after,
      (unreliable 1).expand () 0 0 before = (.error (.solverUnknown .timeout), after) ∧
        after.graph ≠ before.graph) ∧
      (∀ next, (attempt next unlimited false).1 = .error (.solverUnknown .timeout)) ∧
      ((retry 1 unlimited false).1 = .ok .exhausted ∧
        ((retry 1 unlimited false).2.graph.node? 0).map GraphNode.children = some [1, 2] ∧
        ((retry 1 unlimited false).2.graph.node? 1).map (fun node => (node.state, node.origin)) =
          ((retry 1 unlimited false).2.graph.node? 2).map fun node => (node.state, node.origin)) ∧
      (retry 0 unlimited false).1 =
        .error (.inconsistentGraph "#0 is already covered or expanded") := by
  refine ⟨⟨⟨false, ReachabilityGraph.empty.addInitial ⟨0, false, 0, 0⟩, .idle⟩, _, rfl, ?_⟩,
    fun _ => rfl, ⟨?_, ?_, ?_⟩, ?_⟩
  · intro same
    cases congrArg (fun graph => graph.nodes.size) same
  all_goals decide +kernel

end Explorer

end AbstractionRefinement
