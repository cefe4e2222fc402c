import AbstractionRefinement.BitDecoding
import AbstractionRefinement.Proofs.FormulaEncoding
import AbstractionRefinement.Proofs.NodeBudgets

/-!
# Node budgets of encodings

An encoding that stays within a number of nodes does the same under a node limit
lowered to that number, as long as no deadline has passed: it only reads what the limit
leaves alone, and its diagram operations do not notice the limit.  Like the description
of an encoding, its budget is composed from those of its parts.
-/

namespace AbstractionRefinement

def SolverConfig.capped (budget : Nat) (config : SolverConfig) : SolverConfig :=
  { config with nodeLimit := min config.nodeLimit budget }

namespace Encoder

/-- The encoder with its node limit lowered to a budget. -/
def capped (budget : Nat) (encoder : Encoder) : Encoder :=
  { encoder with
    manager := encoder.manager.capped budget
    config := encoder.config.capped budget }

end Encoder

instance : NodeLimited Encoder where
  nodes encoder := encoder.manager.nodes.size
  late encoder := encoder.manager.deadlinePassed
  exhausted encoder := encoder.manager.exhaustion.isSome
  capped := Encoder.capped

namespace Encoding

variable {α β ι : Type}

/-- An encoding that keeps the nodes and, within a budget, does not notice the limit. -/
abbrev Budgeted (computation : Encoding α) : Prop :=
  AbstractionRefinement.Budgeted fun encoder : Encoder => computation encoder

theorem budgeted_pure (result : α) : Budgeted (pure result : Encoding α) :=
  budgeted_const (Except.ok result)

theorem budgeted_throw (cause : UnknownCause) : Budgeted (throw cause : Encoding α) :=
  budgeted_const (Except.error cause)

theorem budgeted_throw_bind (cause : UnknownCause) (next : β → Encoding α) :
    Budgeted ((throw cause : Encoding β) >>= next) :=
  budgeted_throw cause

theorem budgeted_lift (outcome : Except UnknownCause α) : Budgeted (outcome : Encoding α) := by
  cases outcome with
  | error cause => exact budgeted_throw cause
  | ok result => exact budgeted_pure result

def resume (next : β → Encoding α) : Except UnknownCause β → Encoding α
  | .ok result => next result
  | .error cause => throw cause

theorem bind_eq_resume (first : Encoding β) (next : β → Encoding α) :
    first >>= next = fun encoder => resume next (first encoder).1 (first encoder).2 := by
  funext encoder
  rw [bind_run]
  rcases first encoder with ⟨cause | result, after⟩ <;> rfl

theorem Budgeted.bind {first : Encoding β} {next : β → Encoding α} (budgeted : Budgeted first)
    (budgeted' : ∀ result, Budgeted (next result)) : Budgeted (first >>= next) := by
  rw [bind_eq_resume]
  refine budgeted.andThen fun outcome => ?_
  cases outcome with
  | error cause => exact budgeted_throw cause
  | ok result => exact budgeted' result

theorem budgeted_get {next : Encoder → Encoding α}
    (same : ∀ encoder budget, next (Encoder.capped budget encoder) = next encoder)
    (budgeted : ∀ encoder, Budgeted (next encoder)) : Budgeted (get >>= next) := by
  have read : AbstractionRefinement.Budgeted fun encoder : Encoder => next encoder encoder := by
    refine ⟨fun encoder => (budgeted encoder).nodes_le encoder, ?_, ?_, ?_⟩
    · exact fun encoder => (budgeted encoder).late_eq encoder
    · exact fun {encoder} exhausted => (budgeted encoder).lasts exhausted
    · intro encoder budget inTime within
      exact (congrFun (same encoder budget) _).trans ((budgeted encoder).steady inTime within)
  exact read

/-- A change of the encoder beside its manager. -/
theorem budgeted_modify {change : Encoder → Encoder}
    (sameManager : ∀ encoder, (change encoder).manager = encoder.manager)
    (same : ∀ encoder budget, change (Encoder.capped budget encoder) =
      Encoder.capped budget (change encoder)) :
    Budgeted (modify change : Encoding PUnit) where
  nodes_le encoder := by
    show encoder.manager.nodes.size ≤ (change encoder).manager.nodes.size
    rw [sameManager]
  late_eq encoder := by
    show (change encoder).manager.deadlinePassed = encoder.manager.deadlinePassed
    rw [sameManager]
  lasts {encoder} exhausted := by
    show (change encoder).manager.exhaustion.isSome = true
    rw [sameManager]
    exact exhausted
  steady {encoder budget} _ _ := by
    show (Except.ok PUnit.unit, change (encoder.capped budget)) = _
    rw [same]
    rfl

theorem budgeted_diagram {operation : DiagramManager → α × DiagramManager}
    (budgeted : AbstractionRefinement.Budgeted operation) :
    Budgeted (Encoder.diagram operation) where
  nodes_le encoder := budgeted.nodes_le encoder.manager
  late_eq encoder := budgeted.late_eq encoder.manager
  lasts exhausted := budgeted.lasts exhausted
  steady {encoder budget} inTime within := by
    have same : operation (encoder.manager.capped budget) =
        ((operation encoder.manager).1, (operation encoder.manager).2.capped budget) :=
      budgeted.steady inTime within
    show (Except.ok (operation (encoder.manager.capped budget)).1,
      { encoder.capped budget with manager := (operation (encoder.manager.capped budget)).2 }) = _
    rw [same]
    rfl

theorem budgeted_noticeDeadline : Budgeted
    (modify fun encoder => { encoder with manager := encoder.manager.noticeDeadline } :
      Encoding PUnit) :=
  budgeted_diagram DiagramManager.budgeted_noticeDeadline

def exhaustionResult (exhaustion : Option Exhaustion) : Encoding Unit :=
  match exhaustion with
  | none => pure ()
  | some .nodeLimit => throw .resourceLimit
  | some .deadline => throw .timeout

theorem checkExhausted_eq : Encoder.checkExhausted = (do
    Encoder.diagram fun manager => ((), manager.noticeDeadline)
    exhaustionResult (← get).manager.exhaustion) := by
  funext encoder
  rw [bind_run]
  unfold Encoder.checkExhausted Encoder.diagram
  dsimp only
  rw [bind_run, get_run]
  dsimp only
  rcases encoder.manager.noticeDeadline.exhaustion with _ | _ | _ <;> rfl

theorem budgeted_checkExhausted : Budgeted Encoder.checkExhausted := by
  have each (exhaustion : Option Exhaustion) : Budgeted (exhaustionResult exhaustion) := by
    rcases exhaustion with _ | _ | _
    · exact budgeted_pure ()
    all_goals exact budgeted_throw _
  rw [checkExhausted_eq]
  exact (budgeted_diagram DiagramManager.budgeted_noticeDeadline).bind fun _ =>
    budgeted_get (fun _ _ => rfl) fun encoder => each encoder.manager.exhaustion

theorem budgeted_foldlM {step : α → ι → Encoding α} {items : List ι}
    (budgeted : ∀ result, ∀ item ∈ items, Budgeted (step result item)) (start : α) :
    Budgeted (items.foldlM step start) := by
  induction items generalizing start with
  | nil => exact budgeted_pure start
  | cons item items ih =>
      rw [List.foldlM_cons]
      exact (budgeted start item List.mem_cons_self).bind fun result =>
        ih (fun result item member => budgeted result item (List.mem_cons_of_mem _ member)) result

theorem budgeted_mapM {step : ι → Encoding β} (budgeted : ∀ item, Budgeted (step item))
    (items : List ι) : Budgeted (items.mapM step) := by
  induction items with
  | nil =>
      rw [List.mapM_nil]
      exact budgeted_pure []
  | cons item items ih =>
      rw [List.mapM_cons]
      exact (budgeted item).bind fun result => ih.bind fun more => budgeted_pure (result :: more)

theorem budgeted_conj (first second : Edge) :
    Budgeted (Encoder.diagram (DiagramManager.conj first second)) :=
  budgeted_diagram (DiagramManager.budgeted_ite first second .zero)

theorem budgeted_disj (first second : Edge) :
    Budgeted (Encoder.diagram (DiagramManager.disj first second)) :=
  budgeted_diagram (DiagramManager.budgeted_ite first .one second)

theorem budgeted_lessThan (levels : List Nat) (constant : Nat) :
    Budgeted (Encoder.lessThan levels constant) := by
  unfold Encoder.lessThan
  split
  · exact budgeted_pure _
  · refine budgeted_foldlM (fun below entry _ => ?_) _
    apply (budgeted_diagram (DiagramManager.budgeted_makeVariable entry.1)).bind
    intro bit
    split
    · exact budgeted_disj _ _
    · exact budgeted_conj _ _

theorem budgeted_encodingOf (symbol : Symbol) : Budgeted (Encoder.encodingOf symbol) := by
  unfold Encoder.encodingOf
  apply budgeted_get fun _ _ => rfl
  intro encoder
  split
  · exact budgeted_pure _
  apply budgeted_get fun _ _ => rfl
  intro encoder
  apply (budgeted_lift (Encoder.domainOf encoder.config symbol)).bind
  rintro ⟨domain, size⟩
  apply budgeted_get fun _ _ => rfl
  intro encoder
  refine Budgeted.bind (budgeted_modify ?_ ?_) fun _ => ?_
  · exact fun _ => rfl
  · exact fun _ _ => rfl
  apply (budgeted_lessThan _ size).bind
  intro valid
  refine Budgeted.bind (budgeted_modify ?_ ?_) fun _ => budgeted_pure _
  · exact fun _ => rfl
  · exact fun _ _ => rfl

theorem budgeted_offsetCube (encoded : SymbolBits) (offset : Nat) :
    Budgeted (Encoder.offsetCube encoded offset) :=
  budgeted_diagram (DiagramManager.budgeted_cubeOfDescending _)

theorem budgeted_domainConstraint (formula : Expr) :
    Budgeted (Encoder.domainConstraint formula) :=
  budgeted_foldlM (fun _ symbol _ =>
    (budgeted_encodingOf symbol).bind fun _ => budgeted_conj _ _) _

theorem budgeted_enumerate (holds : (Symbol → Option Value) → Option Bool)
    (encodings : List (Symbol × SymbolBits)) (assignment : Symbol → Option Value) :
    Budgeted (Encoder.enumerate holds encodings assignment) := by
  induction encodings generalizing assignment with
  | nil =>
      rw [Encoder.enumerate]
      exact budgeted_pure _
  | cons entry rest ih =>
      obtain ⟨symbol, encoded⟩ := entry
      rw [Encoder.enumerate]
      refine budgeted_foldlM (fun total offset _ => ?_) _
      apply (ih _).bind
      intro inner
      split
      · exact budgeted_pure _
      · exact (budgeted_offsetCube encoded offset).bind fun cube =>
          (budgeted_conj cube inner).bind fun part => budgeted_disj total part

theorem budgeted_encodeAtom (formula : Expr) : Budgeted (Encoder.encodeAtom formula) := by
  unfold Encoder.encodeAtom
  split
  · exact budgeted_throw_bind _ _
  apply (budgeted_mapM (fun symbol => (budgeted_encodingOf symbol).bind fun _ =>
    budgeted_pure _) formula.symbols).bind
  intro encodings
  apply budgeted_get fun _ _ => rfl
  intro encoder
  dsimp only
  split
  · exact budgeted_throw_bind _ _
  · exact budgeted_enumerate _ _ _

theorem budgeted_settled (edge : Edge) : Budgeted (Encoder.settled edge) :=
  budgeted_checkExhausted.bind fun _ => budgeted_pure edge

theorem budgeted_encodeOperands {operation : Edge → Edge → DiagramManager → Edge × DiagramManager}
    (budgeted : ∀ first second, AbstractionRefinement.Budgeted (operation first second))
    {operands : List Expr} (each : ∀ operand ∈ operands, Budgeted (Encoder.encode operand))
    (start : Edge) : Budgeted (operands.foldlM (fun (total : Edge) operand => do
      let edge ← Encoder.encode operand
      Encoder.diagram (operation total edge)) start) :=
  budgeted_foldlM (fun total operand member =>
    (each operand member).bind fun edge => budgeted_diagram (budgeted total edge)) start

theorem budgeted_encode (formula : Expr) : Budgeted (Encoder.encode formula) := by
  have settles {computation : Encoding Edge} (budgeted : Budgeted computation) :
      Budgeted (computation >>= Encoder.settled) :=
    budgeted.bind budgeted_settled
  refine Encoder.forall_encode (fun _ computation => Budgeted computation)
    (fun formula computation compiles each => ?_) formula
  cases compiles with
  | truth => exact budgeted_settled _
  | «variable» symbol =>
      exact (budgeted_encodingOf symbol).bind fun _ =>
        settles (budgeted_diagram (DiagramManager.budgeted_makeVariable _))
  | atom => exact settles (budgeted_encodeAtom formula)
  | negation operand ty =>
      exact (each operand (by simp [Expr.children])).bind fun edge => budgeted_settled (-edge)
  | @connective operation operator left right ty among =>
      have budgeted (first second : Edge) : AbstractionRefinement.Budgeted (operation first second) := by
        simp only [List.mem_cons, List.not_mem_nil, or_false] at among
        rcases among with rfl | rfl | rfl <;> exact DiagramManager.budgeted_ite _ _ _
      exact (each left (by simp [Expr.children])).bind fun first =>
        (each right (by simp [Expr.children])).bind fun second =>
          settles (budgeted_diagram (budgeted first second))
  | choice operator first second third ty =>
      exact (each first (by simp [Expr.children])).bind fun condition =>
        (each second (by simp [Expr.children])).bind fun positive =>
          (each third (by simp [Expr.children])).bind fun negative =>
            settles (budgeted_diagram (DiagramManager.budgeted_ite condition positive negative))
  | conjunction operands ty =>
      rw [encodeConjunction_eq_foldlM]
      exact settles (budgeted_encodeOperands (fun _ _ => DiagramManager.budgeted_ite _ _ _) each _)
  | disjunction operands ty =>
      rw [encodeDisjunction_eq_foldlM]
      exact settles (budgeted_encodeOperands (fun _ _ => DiagramManager.budgeted_ite _ _ _) each _)

theorem budgeted_encodeValid (formula : Expr) : Budgeted (Encoder.encodeValid formula) :=
  (budgeted_encode formula).bind fun edge =>
    (budgeted_domainConstraint formula).bind fun valid => budgeted_conj edge valid

theorem budgeted_encodeAllValid (formulas : List Expr) :
    Budgeted (Encoder.encodeAllValid formulas) := by
  refine Budgeted.bind ?_ fun total => budgeted_checkExhausted.bind fun _ => budgeted_pure total
  exact budgeted_foldlM (fun total formula _ =>
    (budgeted_encodeValid formula).bind fun edge => budgeted_conj total edge) _

end Encoding

namespace DiagramManager

variable (budget : Nat) (manager : DiagramManager)

theorem pathFrom_capped (fuel : Nat) (edge : Edge) :
    (manager.capped budget).pathFrom fuel edge = manager.pathFrom fuel edge := by
  induction fuel generalizing edge with
  | zero => rfl
  | succ fuel ih =>
      rw [pathFrom, pathFrom]
      simp only [ih]
      rfl

theorem onePath?_capped (edge : Edge) :
    (manager.capped budget).onePath? edge = manager.onePath? edge := by
  rw [onePath?, onePath?, pathFrom_capped]

theorem collectPaths_capped (limit fuel : Nat) (edge : Edge) (above : List Int)
    (found : Array (List Int)) : (manager.capped budget).collectPaths limit fuel edge above found =
      manager.collectPaths limit fuel edge above found := by
  induction fuel generalizing edge above found with
  | zero => rfl
  | succ fuel ih =>
      rw [collectPaths, collectPaths]
      simp only [ih]
      rfl

end DiagramManager

namespace Encoder

variable (budget : Nat) (encoder : Encoder)

theorem groupByOwner_capped (literals : List Int) (groups : List (Symbol × List Int)) :
    (encoder.capped budget).groupByOwner literals groups =
      encoder.groupByOwner literals groups := by
  induction literals generalizing groups with
  | nil => rfl
  | cons literal literals ih =>
      rw [groupByOwner, groupByOwner]
      simp only [ih]
      rfl

theorem decodePaths_capped (disjuncts : List Expr) (paths : List (List Int)) :
    (encoder.capped budget).decodePaths disjuncts paths =
      encoder.decodePaths disjuncts paths := by
  have path (literals : List Int) :
      (encoder.capped budget).decodePath literals = encoder.decodePath literals := by
    unfold decodePath
    rw [groupByOwner_capped]
    rfl
  induction paths generalizing disjuncts with
  | nil => rfl
  | cons literals paths ih =>
      rw [decodePaths, decodePaths, path]
      simp only [ih]

theorem decode_capped (edge : Edge) : (encoder.capped budget).decode edge = encoder.decode edge := by
  unfold decode
  rw [show (encoder.capped budget).manager.paths? edge (encoder.capped budget).config.maxPaths =
    encoder.manager.paths? edge encoder.config.maxPaths from
      congrArg _ (DiagramManager.collectPaths_capped budget encoder.manager _ _ _ _ _)]
  cases encoder.manager.paths? edge encoder.config.maxPaths with
  | none => rfl
  | some paths => exact decodePaths_capped budget encoder [] paths

end Encoder

end AbstractionRefinement
