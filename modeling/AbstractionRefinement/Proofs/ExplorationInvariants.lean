import AbstractionRefinement.Proofs.GraphPruning

/-!
# Invariants of exploration

A check changes the graph in few ways: it adds initial nodes and successors of open nodes,
marks nodes as expanded, and covers nodes.  A property that survives each of them survives
the check, whether it succeeds or fails.  This file says what is known whenever one of the
changes is made.
-/

namespace AbstractionRefinement

open AbstractionRefinement.Computation ReachabilityGraph

namespace Explorer

variable {ω σ α π : Type} (explorer : Explorer ω σ α π)

/-- The state is listed as an initial one under the precision. -/
def Starts (precision : π) (state : σ) : Prop :=
  ∃ world states after,
    explorer.analysis.initialStates precision world = (.ok states, after) ∧ state ∈ states

/-- The second state is listed as a successor of the first one under the precision. -/
def Steps (precision : π) (state : σ) (action : α) (next : σ) : Prop :=
  action ∈ explorer.enabled state ∧ ∃ world states after,
    explorer.analysis.successors precision state action world = (.ok states, after) ∧
      next ∈ states

/-- The state is found to be a target. -/
def Hits (state : σ) : Prop :=
  ∃ world after, explorer.target state world = (.ok true, after)

/-- The data of a node belong to its state, which is not known to be unsatisfiable. -/
structure Makes (version : Nat) (data : NodeData σ) : Prop where
  satisfiable : explorer.analysis.isBottom data.state = false
  key_eq : data.key = explorer.projection data.state
  version_eq : data.version = version
  target : data.target = true → explorer.Hits data.state

/-- The property survives every change of a check under the precision.  Open nodes are
expanded, and uncovered ones without children are covered. -/
structure Keeps (precision : π) (version : Nat) (holds : ReachabilityGraph σ α → Prop) :
    Prop where
  numbered {graph : ReachabilityGraph σ α} : holds graph → graph.Numbered
  addInitial {graph : ReachabilityGraph σ α} {data : NodeData σ} : holds graph →
    explorer.Makes version data → explorer.Starts precision data.state →
      holds (graph.addInitial data)
  initialized {graph : ReachabilityGraph σ α} : holds graph →
    holds { graph with initialized := true }
  withSuccessor {graph : ReachabilityGraph σ α} {parent : Nat} {node : GraphNode σ α}
    {action : α} {data : NodeData σ} : holds graph → graph.node? parent = some node →
      node.isIncomplete = true → explorer.Makes version data →
        explorer.Steps precision node.state action data.state →
          holds (graph.withSuccessor parent action data (node.depth + 1))
  markExpanded {graph : ReachabilityGraph σ α} {id : Nat} {node : GraphNode σ α} :
    holds graph → graph.node? id = some node → node.isIncomplete = true →
      holds (graph.modifyNode id fun node => { node with expanded := true })
  withCover {graph : ReachabilityGraph σ α} {id : Nat} {node : GraphNode σ α}
    {coverers : List Nat} : holds graph → graph.node? id = some node →
      node.coveredBy = [] → node.children = [] →
        explorer.coverers? precision graph node = some coverers → coverers ≠ [] →
          id ∉ coverers → holds (graph.withCover id coverers)

variable {explorer}

/-- A node that may cover the given one. -/
structure MayCover (graph : ReachabilityGraph σ α) (node other : GraphNode σ α) : Prop where
  listed : other ∈ graph.withKey node.key
  different : other.id ≠ node.id
  uncovered : other.coveredBy = []
  unmarked : other.target = false

theorem MayCover.live {graph : ReachabilityGraph σ α} {node other : GraphNode σ α}
    (mayCover : MayCover graph node other) : other ∈ graph.live := by
  obtain ⟨id, -, found⟩ := mem_withKey.mp mayCover.listed
  exact mem_live.mpr ⟨id, found⟩

/-- The states joined from left to right. -/
def joinAll? (explorer : Explorer ω σ α π) (precision : π) : List σ → Option σ
  | [] => none
  | first :: rest => rest.foldlM (explorer.analysis.join precision) first

theorem joinAll?_append {precision : π} {states : List σ} {joined union state : σ}
    (joins : explorer.joinAll? precision states = some joined)
    (united : explorer.analysis.join precision joined state = some union) :
    explorer.joinAll? precision (states ++ [state]) = some union := by
  cases states with
  | nil => cases joins
  | cons first rest =>
      show (rest ++ [state]).foldlM _ first = _
      have joins' : rest.foldlM (explorer.analysis.join precision) first = some joined := joins
      rw [List.foldlM_append, joins']
      show (do let union ← explorer.analysis.join precision joined state; some union) = _
      rw [united]
      rfl

/-- The state is subsumed by the join of exactly the states of the nodes. -/
def SubsumedBy (explorer : Explorer ω σ α π) (precision : π) (state : σ)
    (nodes : List (GraphNode σ α)) : Prop :=
  ∃ joined, explorer.joinAll? precision (nodes.map GraphNode.state) = some joined ∧
    explorer.analysis.leq precision state joined = true

theorem joinedCover?_eq_some {precision : π} {state joined : σ} {nodes candidates :
      List (GraphNode σ α)} {coverers : List Nat}
    (joins : explorer.joinAll? precision (nodes.map GraphNode.state) = some joined)
    (found : explorer.joinedCover? precision state joined (nodes.map GraphNode.id) candidates =
      some coverers) :
    ∃ others, others ⊆ nodes ++ candidates ∧ coverers = others.map GraphNode.id ∧
      explorer.SubsumedBy precision state others := by
  induction candidates generalizing joined nodes with
  | nil => cases found
  | cons candidate candidates ih =>
      -- Whether or not the candidate could be joined, the search goes on like this.
      have goesOn (union : σ) (known : List (GraphNode σ α))
          (joins : explorer.joinAll? precision (known.map GraphNode.state) = some union)
          (inside : known ⊆ nodes ++ candidate :: candidates)
          (rest : (if (1 < (known.map GraphNode.id).length &&
              explorer.analysis.leq precision state union) = true
            then some (known.map GraphNode.id)
            else explorer.joinedCover? precision state union (known.map GraphNode.id)
              candidates) = some coverers) :
          ∃ others, others ⊆ nodes ++ candidate :: candidates ∧
            coverers = others.map GraphNode.id ∧ explorer.SubsumedBy precision state others := by
        split at rest
        case isTrue covers =>
          rw [Bool.and_eq_true] at covers
          exact ⟨known, inside, (Option.some.inj rest).symm, union, joins, covers.2⟩
        case isFalse =>
          obtain ⟨others, subset, same, subsumed⟩ := ih joins rest
          refine ⟨others, fun other member => ?_, same, subsumed⟩
          rcases List.mem_append.mp (subset member) with old | later
          · exact inside old
          · exact List.mem_append_right _ (List.mem_cons_of_mem _ later)
      unfold joinedCover? at found
      cases join : explorer.analysis.join precision joined candidate.state with
      | none =>
          rw [join] at found
          exact goesOn joined nodes joins (List.subset_append_left ..) found
      | some union =>
          rw [join] at found
          have extended : nodes.map GraphNode.id ++ [candidate.id] =
              (nodes ++ [candidate]).map GraphNode.id := by
            simp
          dsimp only at found
          rw [extended] at found
          refine goesOn union (nodes ++ [candidate]) ?_ ?_ found
          · rw [List.map_append]
            exact joinAll?_append joins join
          · intro other member
            rcases List.mem_append.mp member with old | new
            · exact List.mem_append_left _ old
            · rw [List.mem_singleton.mp new]
              simp

/-- Covering nodes are candidates, and the covered state is subsumed by their join. -/
theorem coverers?_eq_some {precision : π} {graph : ReachabilityGraph σ α}
    {node : GraphNode σ α} {coverers : List Nat}
    (found : explorer.coverers? precision graph node = some coverers) :
    ∃ others, (∀ other ∈ others, MayCover graph node other) ∧
      coverers = others.map GraphNode.id ∧ explorer.SubsumedBy precision node.state others := by
  unfold coverers? at found
  dsimp only at found
  generalize chosen : (graph.withKey node.key).filter (fun candidate =>
    decide (candidate.id ≠ node.id) && !candidate.isCovered && !candidate.target) = candidates
    at found
  have mayCover : ∀ other ∈ candidates, MayCover graph node other := by
    intro other member
    rw [← chosen, List.mem_filter] at member
    obtain ⟨listed, conditions⟩ := member
    simp only [GraphNode.isCovered, Bool.and_eq_true, decide_eq_true_eq, Bool.not_eq_true',
      Bool.not_eq_false', List.isEmpty_iff] at conditions
    exact ⟨listed, conditions.1.1, conditions.1.2, conditions.2⟩
  cases single : explorer.singleCover? precision node.state candidates with
  | some covering =>
      rw [single] at found
      obtain rfl := Option.some.inj found
      obtain ⟨other, isFirst, rfl⟩ := Option.map_eq_some_iff.mp single
      refine ⟨[other], List.forall_mem_singleton.mpr (mayCover other (List.mem_of_find?_eq_some
        isFirst)), rfl, other.state, rfl, ?_⟩
      simpa using List.find?_some isFirst
  | none =>
      rw [single] at found
      dsimp only at found
      split at found
      case isFalse => cases found
      case isTrue =>
        cases candidates with
        | nil => cases found
        | cons first rest =>
            have joins : explorer.joinAll? precision ([first].map GraphNode.state) =
              some first.state := rfl
            obtain ⟨others, inside, same, subsumed⟩ := joinedCover?_eq_some joins found
            exact ⟨others, fun other member => mayCover other (inside member), same, subsumed⟩

theorem linked_withCover {precision : π} {graph : ReachabilityGraph σ α} {id : Nat}
    {node : GraphNode σ α} {coverers : List Nat} (linked : graph.Linked)
    (chosen : explorer.coverers? precision graph node = some coverers)
    (irreflexive : id ∉ coverers) : (graph.withCover id coverers).Linked := by
  obtain ⟨others, mayCover, rfl, -⟩ := coverers?_eq_some chosen
  refine linked.withCover (List.forall_mem_map.mpr fun other member => ?_) irreflexive
  obtain ⟨position, foundOther⟩ := mem_live.mp (mayCover other member).live
  rw [linked.id_eq foundOther]
  exact ⟨other, foundOther, (mayCover other member).uncovered⟩

variable {precision : π} {version : Nat} {holds : ReachabilityGraph σ α → Prop}

theorem outcome_nodeData (version : Nat) {state : σ} (exploration : ExplorationState ω σ α)
    (satisfiable : explorer.analysis.isBottom state = false) :
    (explorer.nodeData version state).Outcome exploration
      (fun data after => after.graph = exploration.graph ∧ data.state = state ∧
        explorer.Makes version data)
      fun _ after => after.graph = exploration.graph := by
  unfold nodeData
  simp only [outcome_bind, outcome_ofAnalysis, outcome_pure]
  refine outcome_of_run (fun answer world run => ?_) fun _ _ _ => trivial
  refine ⟨trivial, trivial, satisfiable, rfl, rfl, fun isTarget => ?_⟩
  obtain rfl : answer = true := isTarget
  exact ⟨_, _, run⟩

namespace Keeps

variable (keeps : explorer.Keeps precision version holds)
include keeps

theorem outcome_addInitialStates {states : List σ}
    (start : ∀ state ∈ states, explorer.Starts precision state)
    (exploration : ExplorationState ω σ α) (valid : holds exploration.graph) :
    (explorer.addInitialStates version states).Outcome exploration
      (fun _ after => holds after.graph) fun _ after => holds after.graph := by
  induction states generalizing exploration with
  | nil => exact valid
  | cons state states ih =>
      obtain ⟨starts, starts'⟩ := List.forall_mem_cons.mp start
      unfold addInitialStates
      split
      case isTrue => exact ih starts' exploration valid
      case isFalse satisfiable =>
        rw [outcome_bind]
        refine (outcome_nodeData version exploration (by simpa using satisfiable)).mono ?_
          fun _ after same => same ▸ valid
        rintro data middle ⟨same, rfl, makes⟩
        simp only [outcome_bind, outcome_get, outcome_modify, outcome_pure]
        refine ih starts' _ ?_
        rw [← same] at valid
        exact keeps.addInitial valid makes starts

theorem outcome_createInitial (exploration : ExplorationState ω σ α)
    (valid : holds exploration.graph) :
    (explorer.createInitial precision version).Outcome exploration
      (fun _ after => holds after.graph) fun _ after => holds after.graph := by
  unfold createInitial
  simp only [outcome_bind, outcome_ofAnalysis, outcome_modify, outcome_pure]
  refine outcome_of_run (fun states world run => ?_) fun _ _ _ => valid
  have start : ∀ state ∈ states, explorer.Starts precision state :=
    fun state member => ⟨_, states, world, run, member⟩
  exact (keeps.outcome_addInitialStates start { exploration with world } valid).mono
    (fun _ after valid => keeps.initialized valid) fun _ _ valid => valid

/-- The node with the number is open and has the state. -/
def OpenAt (graph : ReachabilityGraph σ α) (id : Nat) (state : σ) : Prop :=
  ∃ node, graph.node? id = some node ∧ node.state = state ∧ node.isIncomplete = true

theorem outcome_addSuccessorStates {parent : Nat} {state : σ} {action : α} {states : List σ}
    (step : ∀ next ∈ states, explorer.Steps precision state action next)
    (exploration : ExplorationState ω σ α) (valid : holds exploration.graph)
    (isOpen : OpenAt exploration.graph parent state) :
    (explorer.addSuccessorStates version parent action states).Outcome exploration
      (fun _ after => holds after.graph ∧ OpenAt after.graph parent state)
      fun _ after => holds after.graph := by
  induction states generalizing exploration with
  | nil => exact ⟨valid, isOpen⟩
  | cons next states ih =>
      obtain ⟨steps, steps'⟩ := List.forall_mem_cons.mp step
      unfold addSuccessorStates
      split
      case isTrue => exact ih steps' exploration valid isOpen
      case isFalse satisfiable =>
        rw [outcome_bind]
        refine (outcome_nodeData version exploration (by simpa using satisfiable)).mono ?_
          fun _ after same => same ▸ valid
        rintro data middle ⟨same, rfl, makes⟩
        rw [← same] at valid isOpen
        simp only [outcome_bind, outcome_onGraph, outcome_addSuccessor, outcome_pure]
        refine ⟨fun node found => ?_, fun _ _ => valid⟩
        obtain ⟨parentNode, foundParent, rfl, open'⟩ := isOpen
        obtain rfl : node = parentNode := Option.some.inj (found.symm.trans foundParent)
        refine ih steps' _ (keeps.withSuccessor valid found open' makes steps) ?_
        exact ⟨_, (node?_withSuccessor found ..).trans (if_pos rfl), rfl, open'⟩

theorem outcome_expandActions {parent : Nat} {state : σ} {actions : List α}
    (enabled : ∀ action ∈ actions, action ∈ explorer.enabled state)
    (exploration : ExplorationState ω σ α) (valid : holds exploration.graph)
    (isOpen : OpenAt exploration.graph parent state) :
    (explorer.expandActions precision version parent state actions).Outcome exploration
      (fun _ after => holds after.graph ∧ OpenAt after.graph parent state)
      fun _ after => holds after.graph := by
  induction actions generalizing exploration with
  | nil => exact ⟨valid, isOpen⟩
  | cons action actions ih =>
      obtain ⟨isEnabled, enabled⟩ := List.forall_mem_cons.mp enabled
      unfold expandActions
      simp only [outcome_bind, outcome_ofAnalysis, outcome_pure]
      refine outcome_of_run (fun states world run => ?_) fun _ _ _ => valid
      have step : ∀ next ∈ states, explorer.Steps precision state action next :=
        fun next member => ⟨isEnabled, _, states, world, run, member⟩
      refine (keeps.outcome_addSuccessorStates step { exploration with world } valid
        isOpen).mono ?_ fun _ _ valid => valid
      rintro _ middle ⟨valid, isOpen⟩
      exact ih enabled middle valid isOpen

theorem outcome_expand {id : Nat} {node : GraphNode σ α} (exploration : ExplorationState ω σ α)
    (valid : holds exploration.graph) (found : exploration.graph.node? id = some node)
    (isOpen : node.isIncomplete = true) :
    (explorer.expand precision version id).Outcome exploration
      (fun _ after => holds after.graph) fun _ after => holds after.graph := by
  unfold expand setExpanded
  simp only [outcome_bind, outcome_onGraph, outcome_getNode, outcome_updateNode, outcome_pure]
  refine ⟨fun other foundOther => ?_, fun _ _ => valid⟩
  obtain rfl : node = other := Option.some.inj (found.symm.trans foundOther)
  refine (keeps.outcome_expandActions (fun _ member => member) exploration valid
    ⟨node, found, rfl, isOpen⟩).mono ?_ fun _ _ valid => valid
  rintro _ after ⟨valid, last, foundLast, -, openLast⟩
  exact ⟨fun _ _ => keeps.markExpanded valid foundLast openLast, fun _ _ => valid⟩

/-- A node that cannot be closed leaves everything as it was. -/
theorem outcome_close (id : Nat) (exploration : ExplorationState ω σ α)
    (valid : holds exploration.graph) :
    (explorer.close precision id).Outcome exploration
      (fun closed after => holds after.graph ∧ (closed = false → after = exploration))
      fun _ after => holds after.graph := by
  unfold close
  split
  case isTrue => exact ⟨valid, fun _ => rfl⟩
  case isFalse =>
    simp only [outcome_bind, outcome_get, outcome_onGraph, outcome_getNode]
    refine ⟨fun node found => ?_, fun _ _ => valid⟩
    cases chosen : explorer.coverers? precision exploration.graph node with
    | none => exact ⟨valid, fun _ => rfl⟩
    | some coverers =>
        obtain ⟨others, mayCover, rfl, -⟩ := coverers?_eq_some chosen
        simp only [outcome_bind, outcome_onGraph, outcome_pure]
        refine outcome_cover found (List.forall_mem_map.mpr fun other member => ?_) ?_
          fun _ => valid
        · obtain ⟨position, foundOther⟩ := mem_live.mp (mayCover other member).live
          rw [keeps.numbered valid foundOther]
          exact ⟨other, foundOther⟩
        · exact fun uncovered childless nonempty irreflexive =>
            ⟨keeps.withCover valid found uncovered childless chosen nonempty irreflexive,
              Bool.noConfusion⟩

theorem outcome_enqueue (new : List Nat) (list : Waitlist RandomStream)
    (exploration : ExplorationState ω σ α) (valid : holds exploration.graph) :
    (explorer.enqueue precision new list).Outcome exploration
      (fun _ after => holds after.graph) fun _ after => holds after.graph := by
  induction new generalizing list exploration with
  | nil => exact valid
  | cons id new ih =>
      unfold enqueue
      simp only [outcome_bind, outcome_onGraph, outcome_getNode]
      refine ⟨fun node _ => ?_, fun _ _ => valid⟩
      split
      case isTrue => exact ih list exploration valid
      case isFalse =>
        rw [outcome_bind]
        refine (keeps.outcome_close id exploration valid).mono ?_ fun _ _ valid => valid
        rintro closed middle ⟨valid, -⟩
        split
        · exact ih list middle valid
        · exact ih _ middle valid

theorem outcome_exploreWithin (budget : Budget ω) (fuel : Nat) (list : Waitlist RandomStream)
    (exploration : ExplorationState ω σ α) (valid : holds exploration.graph) :
    (explorer.exploreWithin precision version budget fuel list).Outcome exploration
      (fun _ after => holds after.graph) fun _ after => holds after.graph := by
  induction fuel generalizing list exploration with
  | zero => exact valid
  | succ fuel ih =>
      unfold exploreWithin
      simp only [outcome_bind, outcome_get]
      split
      case isTrue => exact valid
      case isFalse =>
        split
        case h_1 => exact valid
        case h_2 id rest _ =>
          rw [outcome_bind]
          refine outcome_poll budget ?_ fun _ _ => valid
          simp only [outcome_bind, outcome_get]
          split
          case isTrue => exact ih rest exploration valid
          case isFalse isOpen =>
            rw [outcome_bind]
            refine (keeps.outcome_close id exploration valid).mono ?_ fun _ _ valid => valid
            rintro closed middle ⟨valid, unchanged⟩
            split
            case isTrue => exact ih rest middle valid
            case isFalse notClosed =>
              obtain rfl := unchanged (by simpa using notClosed)
              obtain ⟨node, found, open'⟩ : ∃ node, middle.graph.node? id = some node ∧
                  node.isIncomplete = true := by
                simpa [Option.any_eq_true] using isOpen
              rw [outcome_bind]
              refine (keeps.outcome_expand middle valid found open').mono ?_ fun _ _ valid => valid
              intro new grown valid
              rw [outcome_bind]
              exact (keeps.outcome_enqueue new rest grown valid).mono
                (fun list last valid => ih list last valid) fun _ _ valid => valid

theorem outcome_check (fuel : Nat) (budget : Budget ω) (exploration : ExplorationState ω σ α)
    (valid : holds exploration.graph) :
    (explorer.check fuel precision version budget).Outcome exploration
      (fun _ after => holds after.graph) fun _ after => holds after.graph := by
  refine Explorer.outcome_check (fun _ => holds) (fun _ => holds) (fun _ => ?_) fun _ => ?_
  · exact (keeps.outcome_createInitial { exploration with status := .exploring } valid).mono
      (fun _ start valid => keeps.outcome_exploreWithin budget fuel _ start valid)
      fun _ _ valid => valid
  · exact keeps.outcome_exploreWithin budget fuel _ { exploration with status := .exploring } valid

end Keeps

end Explorer

end AbstractionRefinement
