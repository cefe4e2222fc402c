import AbstractionRefinement.Proofs.DiagramQuantification

/-!
# Node budgets of decision diagrams

The node limit of a manager matters only once it is reached.  An operation that
stays within a number of nodes gives the same result and the same nodes with the
limit lowered to that number, as long as no deadline is noticed.  So what holds of
managers with a small node limit holds of every manager while it is small.  No operation
makes an exhausted manager usable again.

The rules are those of operations on any state that holds a manager.
-/

namespace AbstractionRefinement

/-- States that hold nodes of decision diagrams up to a limit. -/
class NodeLimited (σ : Type) where
  /-- Number of nodes held. -/
  nodes : σ → Nat
  /-- Whether a deadline has passed. -/
  late : σ → Bool
  /-- Whether no more nodes are allocated. -/
  exhausted : σ → Bool
  /-- The state with its node limit lowered to a budget. -/
  capped : Nat → σ → σ

/-- An operation that keeps the nodes, stays exhausted and, within a budget, does not notice
the limit, unless a deadline has passed and it ends exhausted. -/
structure Budgeted {σ α : Type} [NodeLimited σ] (operation : σ → α × σ) : Prop where
  nodes_le (state : σ) : NodeLimited.nodes state ≤ NodeLimited.nodes (operation state).2
  late_eq (state : σ) : NodeLimited.late (operation state).2 = NodeLimited.late state
  lasts {state : σ} : NodeLimited.exhausted state = true →
    NodeLimited.exhausted (operation state).2 = true
  steady {state : σ} {budget : Nat} :
    NodeLimited.late state = false ∨ NodeLimited.exhausted (operation state).2 = false →
      NodeLimited.nodes (operation state).2 ≤ budget →
        operation (NodeLimited.capped budget state) =
          ((operation state).1, NodeLimited.capped budget (operation state).2)

section Rules

variable {σ α β : Type} [NodeLimited σ]

theorem Budgeted.capped_eq {operation : σ → α × σ} (budgeted : Budgeted operation) {state : σ}
    {budget : Nat} (early : NodeLimited.late state = false)
    (within : NodeLimited.nodes (operation state).2 ≤ budget) :
    operation (NodeLimited.capped budget state) =
      ((operation state).1, NodeLimited.capped budget (operation state).2) :=
  budgeted.steady (.inl early) within

theorem budgeted_const (result : α) : Budgeted fun state : σ => (result, state) where
  nodes_le _ := Nat.le_refl _
  late_eq _ := rfl
  lasts exhausted := exhausted
  steady _ _ := rfl

/-- An operation that goes on with another one. -/
theorem Budgeted.andThen {first : σ → β × σ} {next : β → σ → α × σ} (budgeted : Budgeted first)
    (budgeted' : ∀ result, Budgeted (next result)) :
    Budgeted fun state => next (first state).1 (first state).2 where
  nodes_le state := Nat.le_trans (budgeted.nodes_le state) ((budgeted' _).nodes_le _)
  late_eq state := ((budgeted' _).late_eq _).trans (budgeted.late_eq state)
  lasts exhausted := (budgeted' _).lasts (budgeted.lasts exhausted)
  steady {state budget} inTime within := by
    have inTime' := inTime.imp_left (budgeted.late_eq state).trans
    have usable : NodeLimited.late state = false ∨
        NodeLimited.exhausted (first state).2 = false := by
      refine inTime.imp_right fun usable => Bool.eq_false_iff.mpr fun exhausted => ?_
      rw [(budgeted' _).lasts exhausted] at usable
      cases usable
    have within' := Nat.le_trans ((budgeted' (first state).1).nodes_le _) within
    rw [budgeted.steady usable within', (budgeted' _).steady inTime' within]

theorem Budgeted.map {operation : σ → β × σ} (change : β → α) (budgeted : Budgeted operation) :
    Budgeted fun state => (change (operation state).1, (operation state).2) :=
  budgeted.andThen fun result => budgeted_const (change result)

theorem budgeted_read {view : σ → β} {next : β → σ → α × σ}
    (same : ∀ state budget, view (NodeLimited.capped budget state) = view state)
    (budgeted : ∀ seen, Budgeted (next seen)) :
    Budgeted fun state => next (view state) state where
  nodes_le state := (budgeted _).nodes_le state
  late_eq state := (budgeted _).late_eq state
  lasts exhausted := (budgeted _).lasts exhausted
  steady {state budget} inTime within := by
    rw [same]
    exact (budgeted _).steady inTime within

theorem Budgeted.foldl {ι : Type} {step : α × σ → ι → α × σ}
    (budgeted : ∀ value item, Budgeted fun state => step (value, state) item) (items : List ι)
    (value : α) : Budgeted fun state => items.foldl step (value, state) := by
  induction items generalizing value with
  | nil => exact budgeted_const value
  | cons item items ih => exact (budgeted value item).andThen ih

end Rules

namespace DiagramManager

variable {α β : Type} {manager : DiagramManager} {budget : Nat}

def capped (budget : Nat) (manager : DiagramManager) : DiagramManager :=
  { manager with nodeLimit := min manager.nodeLimit budget }

instance : NodeLimited DiagramManager where
  nodes manager := manager.nodes.size
  late manager := manager.deadlinePassed
  exhausted manager := manager.exhaustion.isSome
  capped := capped

theorem budgeted_withComputed (change : ComputedTable Edge → ComputedTable Edge) :
    Budgeted fun manager : DiagramManager =>
      ((), { manager with computed := change manager.computed }) where
  nodes_le _ := Nat.le_refl _
  late_eq _ := rfl
  lasts exhausted := exhausted
  steady _ _ := rfl

/-- A manager may notice a passed deadline. -/
theorem budgeted_noticeDeadline : Budgeted fun manager : DiagramManager =>
    ((), manager.noticeDeadline) where
  nodes_le manager := by
    show manager.nodes.size ≤ manager.noticeDeadline.nodes.size
    unfold noticeDeadline
    split <;> exact Nat.le_refl _
  late_eq manager := by
    show manager.noticeDeadline.deadlinePassed = manager.deadlinePassed
    unfold noticeDeadline
    split <;> rfl
  lasts {manager} exhausted := by
    show manager.noticeDeadline.exhaustion.isSome = true
    unfold noticeDeadline
    split
    · rfl
    · exact exhausted
  steady {manager budget} inTime _ := by
    have inTime : manager.deadlinePassed = false ∨
      manager.noticeDeadline.exhaustion.isSome = false := inTime
    show ((), (manager.capped budget).noticeDeadline) = ((), manager.noticeDeadline.capped budget)
    cases exhausted : manager.exhaustion <;> cases late : manager.deadlinePassed <;>
      simp_all [noticeDeadline, capped]

theorem budgeted_shareNode (node : DiagramNode) : Budgeted (shareNode node) where
  nodes_le manager := by
    have shared := sharing_shareNode node manager
    generalize shareNode node manager = outcome at shared
    cases shared
    case allocated => exact (manager.extends_withNode node).size_le
    all_goals exact Nat.le_refl _
  late_eq manager := by
    have shared := sharing_shareNode node manager
    generalize shareNode node manager = outcome at shared
    cases shared <;> rfl
  lasts {manager} exhausted := by
    have shared := sharing_shareNode node manager
    generalize shareNode node manager = outcome at shared
    cases shared
    case full | late => rfl
    all_goals exact exhausted
  steady {manager budget} inTime within := by
    have shared := sharing_shareNode node manager
    generalize shareNode node manager = outcome at shared inTime within ⊢
    show shareNode node (manager.capped budget) = (outcome.1, outcome.2.capped budget)
    have inTime : manager.deadlinePassed = false ∨ outcome.2.exhaustion.isSome = false := inTime
    rcases shared with same | ⟨differ, found⟩ | ⟨differ, fresh, exhausted⟩ |
      ⟨differ, fresh, none, full⟩ | ⟨-, -, -, -, late⟩ | ⟨differ, fresh, none, room, unnoticed⟩
    case redundant => simp [shareNode, same]
    case known => simp [shareNode, differ, capped, found]
    case refused => simp [shareNode, differ, capped, fresh, exhausted]
    case full => simp [shareNode, differ, capped, fresh, none, full]
    case late =>
      rw [late] at inTime
      simp at inTime
    case allocated =>
      have size : (manager.withNode node).nodes.size = manager.nodes.size + 1 :=
        Array.size_push node
      have within : (manager.withNode node).nodes.size ≤ budget := within
      have room' : ¬ min manager.nodeLimit budget ≤ manager.nodes.size := by omega
      simp [shareNode, differ, capped, fresh, none, room', unnoticed, withNode]

theorem budgeted_makeNode (level : Nat) (low high : Edge) : Budgeted (makeNode level low high) := by
  unfold makeNode
  by_cases negated : high.isNegated = true
  · simp only [negated, if_true]
    exact (budgeted_shareNode ⟨level, -low, -high⟩).map fun edge => -edge
  · simp only [negated]
    exact budgeted_shareNode ⟨level, low, high⟩

theorem budgeted_makeVariable (level : Nat) : Budgeted (makeVariable level) :=
  budgeted_makeNode level .zero .one

theorem budgeted_cubeOfDescending (literals : List Int) : Budgeted (cubeOfDescending literals) := by
  refine Budgeted.foldl (fun current literal => ?_) literals Edge.one
  by_cases negative : literal < 0
  · simp only [negative, if_true]
    exact budgeted_makeNode literal.natAbs current .zero
  · simp only [negative, if_false]
    exact budgeted_makeNode literal.natAbs .zero current

def afterStep (fuel : Nat) (f g h : Edge) : IteStep → DiagramManager → Edge × DiagramManager
  | .done result, manager => (result, manager)
  | .again f g h, manager => iteWithin fuel f g h manager
  | .open, manager => iteOfNormal fuel f g h manager

theorem iteWithin_succ (fuel : Nat) (f g h : Edge) (manager : DiagramManager) :
    iteWithin (fuel + 1) f g h manager =
      afterStep fuel f g h (manager.iteStep f g h) manager := by
  cases step : manager.iteStep f g h with
  | done result => rw [iteWithin, step, afterStep]
  | again f' g' h' => rw [iteWithin, step, afterStep]
  | «open» => rw [iteWithin_open step, afterStep]

/-- What becomes of a call in normal form after its result was looked up. -/
def afterLookup (fuel : Nat) (f g h : Edge) (found : Option Edge) (manager : DiagramManager) :
    Edge × DiagramManager :=
  let counted : DiagramManager :=
    { manager with computed := manager.computed.countLookup found.isSome }
  match found with
  | some result => (result, counted)
  | none =>
      let node := combineCofactors fuel f g h counted
      (node.1, { node.2 with computed := node.2.computed.store (iteKey f g h) node.1 })

theorem iteNormal_eq (fuel : Nat) (f g h : Edge) (manager : DiagramManager) :
    iteNormal fuel f g h manager =
      afterLookup fuel f g h (manager.computed.peek (iteKey f g h)) manager :=
  rfl

/-- The level by which a call in normal form is split, with the calls for its cofactors. -/
def splitCall (f g h : Edge) (manager : DiagramManager) :
    Nat × (Edge × Edge × Edge) × Edge × Edge × Edge :=
  let top := manager.topLevel f g h
  let (f₀, f₁) := manager.cofactors top f
  let (g₀, g₁) := manager.cofactors top g
  let (h₀, h₁) := manager.cofactors top h
  (top, (f₀, g₀, h₀), f₁, g₁, h₁)

/-- The node over the results for the two calls into which a call is split. -/
def combineAt (fuel : Nat) (split : Nat × (Edge × Edge × Edge) × Edge × Edge × Edge)
    (manager : DiagramManager) : Edge × DiagramManager :=
  let (top, (f₀, g₀, h₀), f₁, g₁, h₁) := split
  let low := iteWithin fuel f₀ g₀ h₀ manager
  let high := iteWithin fuel f₁ g₁ h₁ low.2
  makeNode top low.1 high.1 high.2

theorem combineCofactors_eq (fuel : Nat) (f g h : Edge) (manager : DiagramManager) :
    combineCofactors fuel f g h manager = combineAt fuel (splitCall f g h manager) manager :=
  rfl

section Recursion

variable {fuel : Nat} (budgeted : ∀ f g h, Budgeted (iteWithin fuel f g h)) (f g h : Edge)
include budgeted

theorem budgeted_combineCofactors : Budgeted (combineCofactors fuel f g h) := by
  have each (split : Nat × (Edge × Edge × Edge) × Edge × Edge × Edge) :
      Budgeted (combineAt fuel split) :=
    (budgeted _ _ _).andThen fun low => (budgeted _ _ _).andThen fun high =>
      budgeted_makeNode split.1 low high
  rw [funext (combineCofactors_eq fuel f g h)]
  exact budgeted_read (fun _ _ => rfl) each

theorem budgeted_iteNormal : Budgeted (iteNormal fuel f g h) := by
  have each (found : Option Edge) : Budgeted (afterLookup fuel f g h found) := by
    have counted := budgeted_withComputed fun computed => computed.countLookup found.isSome
    cases found with
    | some result => exact counted.map fun _ => result
    | none =>
        exact counted.andThen fun _ =>
          (budgeted_combineCofactors budgeted f g h).andThen fun result =>
            (budgeted_withComputed fun computed =>
              computed.store (iteKey f g h) result).map fun _ => result
  rw [funext (iteNormal_eq fuel f g h)]
  exact budgeted_read (fun _ _ => rfl) each

theorem budgeted_iteOfNormal : Budgeted (iteOfNormal fuel f g h) := by
  unfold iteOfNormal
  obtain ⟨f', g', h', negate⟩ := normalOperands f g h
  exact (budgeted_iteNormal budgeted f' g' h').map fun result => if negate then -result else result

end Recursion

theorem budgeted_iteWithin (fuel : Nat) (f g h : Edge) : Budgeted (iteWithin fuel f g h) := by
  induction fuel generalizing f g h with
  | zero => exact budgeted_const Edge.zero
  | succ fuel ih =>
      have each (step : IteStep) : Budgeted (afterStep fuel f g h step) := by
        cases step with
        | done result => exact budgeted_const result
        | again f' g' h' => exact ih f' g' h'
        | «open» => exact budgeted_iteOfNormal ih f g h
      rw [funext (iteWithin_succ fuel f g h)]
      exact budgeted_read (fun _ _ => rfl) each

theorem budgeted_ite (f g h : Edge) : Budgeted (ite f g h) :=
  budgeted_iteWithin _ f g h

def quantifyKnowing (quantified : Nat → Bool) (fuel : Nat) (edge : Edge)
    (known : Std.TreeMap Edge Edge) (manager : DiagramManager) :
    (Edge × Std.TreeMap Edge Edge) × DiagramManager :=
  let outcome := quantifyWithin quantified fuel edge known manager
  ((outcome.1, outcome.2.1), outcome.2.2)

/-- The quantification of a node whose children are known. -/
def quantifyChildren (quantified : Nat → Bool) (fuel : Nat) (edge : Edge)
    (known : Std.TreeMap Edge Edge) (node : Nat × Edge × Edge) (manager : DiagramManager) :
    (Edge × Std.TreeMap Edge Edge) × DiagramManager :=
  let low := quantifyKnowing quantified fuel node.2.1 known manager
  let high := quantifyKnowing quantified fuel node.2.2 low.1.2 low.2
  let result :=
    if quantified node.1 then disj low.1.1 high.1.1 high.2
    else makeNode node.1 low.1.1 high.1.1 high.2
  ((result.1, high.1.2.insert edge result.1), result.2)

theorem quantifyKnowing_succ (quantified : Nat → Bool) (fuel : Nat) (edge : Edge)
    (known : Std.TreeMap Edge Edge) (manager : DiagramManager) :
    quantifyKnowing quantified (fuel + 1) edge known manager =
      if edge.isTerminal then ((edge, known), manager)
      else
        match known[edge]? with
        | some result => ((result, known), manager)
        | none =>
            quantifyChildren quantified fuel edge known
              (manager.levelOf edge, manager.lowOf edge, manager.highOf edge) manager := by
  unfold quantifyKnowing
  rw [quantifyWithin]
  split
  case isTrue => rfl
  case isFalse => cases known[edge]? <;> rfl

theorem budgeted_quantifyKnowing (quantified : Nat → Bool) (fuel : Nat) (edge : Edge)
    (known : Std.TreeMap Edge Edge) : Budgeted (quantifyKnowing quantified fuel edge known) := by
  induction fuel generalizing edge known with
  | zero => exact budgeted_const (edge, known)
  | succ fuel ih =>
      rw [funext (quantifyKnowing_succ quantified fuel edge known)]
      by_cases terminal : edge.isTerminal
      · simp only [terminal, if_true]
        exact budgeted_const (edge, known)
      · simp only [terminal]
        cases found : known[edge]? with
        | some result => exact budgeted_const (result, known)
        | none =>
            have combined (level : Nat) (low high : Edge) : Budgeted fun manager =>
                if quantified level then disj low high manager
                else makeNode level low high manager := by
              by_cases isQuantified : quantified level = true
              · simp only [isQuantified, if_true]
                exact budgeted_ite low .one high
              · simp only [isQuantified]
                exact budgeted_makeNode level low high
            have each (node : Nat × Edge × Edge) :
                Budgeted (quantifyChildren quantified fuel edge known node) :=
              (ih node.2.1 known).andThen fun low => (ih node.2.2 low.2).andThen fun high =>
                (combined node.1 low.1 high.1).map fun result =>
                  (result, high.2.insert edge result)
            exact budgeted_read (fun _ _ => rfl) each

theorem budgeted_quantify (quantified : Nat → Bool) (edge : Edge) :
    Budgeted (quantify quantified edge) :=
  (budgeted_quantifyKnowing quantified (edge.index + 1) edge ∅).map Prod.fst

end DiagramManager

end AbstractionRefinement
