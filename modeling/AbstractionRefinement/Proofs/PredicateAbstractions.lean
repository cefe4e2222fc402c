import AbstractionRefinement.Proofs.PredicateMonotonicity
import AbstractionRefinement.Proofs.StoreFormulas

/-!
# Best predicate abstractions

The cubes of a formula are read off the values of one Boolean variable for each predicate.
In a solution these variables have the truth values of the predicates at the store in which
the solution ends.  So the cubes are a best abstraction of the stores that the formula
denotes, and each of them decides all predicates.
-/

namespace AbstractionRefinement

open AbstractionRefinement.Computation

theorem Expr.stripNegations_ne_not (formula : Expr) (operand : Expr) (ty : Ty) :
    formula.stripNegations ≠ .unary .not operand ty := by
  induction formula with
  | unary operator inner _ ih =>
      cases operator with
      | not => exact ih
      | _ => rintro ⟨⟩
  | _ => rintro ⟨⟩

namespace PredicatePrecision

/-- The predicates are listed once and in order, and none of them is a negation. -/
structure WellFormed (precision : PredicatePrecision) : Prop where
  sorted : OrderedSet.Sorted precision.predicates
  positive {predicate : Expr} : predicate ∈ precision.predicates →
    ∀ operand ty, predicate ≠ .unary .not operand ty

theorem WellFormed.nodup {precision : PredicatePrecision} (wellFormed : precision.WellFormed) :
    precision.predicates.Nodup :=
  wellFormed.sorted.imp fun less same => by
    rw [same, Std.compare_self] at less
    cases less

theorem wellFormed_ofList (predicates : List Expr) : (ofList predicates).WellFormed where
  sorted := OrderedSet.sorted_ofList _
  positive member := by
    obtain ⟨stripped, -⟩ := List.mem_filter.mp (OrderedSet.mem_ofList.mp member)
    obtain ⟨formula, -, rfl⟩ := List.mem_map.mp stripped
    exact formula.stripNegations_ne_not

end PredicatePrecision

namespace PredicateState

open Query

variable {config : SolverConfig} {precision : PredicatePrecision} {next : Indexing}
  {formula : Expr} {stores : Store → Prop} {states : List PredicateState}

/-- The predicate or its negation. -/
def signed (predicate : Expr) : Bool → Expr
  | true => predicate
  | false => .unary .not predicate .bool

/-- The state is a cube that contains every predicate or its negation. -/
def DecidesAll (precision : PredicatePrecision) (state : PredicateState) : Prop :=
  ∃ literals, state = cube literals ∧
    ∀ predicate ∈ precision.predicates, ∃ truth, signed predicate truth ∈ literals

section Literals

variable {predicate predicate' : Expr} {truth truth' : Bool} {store : Store}

theorem holds_signed :
    (signed predicate truth).Holds store ↔ predicate.evalBool store.read = some truth := by
  cases truth with
  | true => exact Iff.rfl
  | false =>
      show truthOf (UnaryOperator.evaluate .not (predicate.eval store.read)) = some true ↔
        truthOf (predicate.eval store.read) = some false
      rw [UnaryOperator.evaluate]
      cases truthOf (predicate.eval store.read) with
      | none => simp [truthOf]
      | some truth => cases truth <;> simp [truthOf, Value.asBool]

theorem holds_signed_iff (regular : predicate.RegularCondition config)
    (inside : config.InRange store) :
    (signed predicate truth).Holds store ↔ (truth = true ↔ predicate.Holds store) := by
  obtain ⟨known, evaluates⟩ := Option.isSome_iff_exists.mp (regular.isSome_evalBool inside)
  rw [holds_signed, Expr.Holds, evaluates, Option.some_inj, Option.some_inj]
  cases known <;> cases truth <;> simp

theorem signed_inj (positive : ∀ operand ty, predicate ≠ .unary .not operand ty)
    (positive' : ∀ operand ty, predicate' ≠ .unary .not operand ty)
    (same : signed predicate truth = signed predicate' truth') :
    predicate = predicate' ∧ truth = truth' := by
  cases truth <;> cases truth'
  · exact ⟨(Expr.unary.inj same).2.1, rfl⟩
  · exact absurd same.symm (positive' _ _)
  · exact absurd same (positive _ _)
  · exact ⟨same, rfl⟩

theorem regularCondition_signed (regular : predicate.RegularCondition config) (truth : Bool) :
    (signed predicate truth).RegularCondition config := by
  cases truth with
  | true => exact regular
  | false =>
      have current : (signed predicate false).IsCurrent :=
        ⟨regular.current.unprimed, regular.current.unindexed⟩
      refine ⟨⟨⟨current, regular.encodable.not regular.boolean⟩, rfl⟩, fun store inside => ?_⟩
      obtain ⟨truth, evaluates⟩ := Option.isSome_iff_exists.mp (regular.isSome_evalBool inside)
      have evaluates : truthOf (predicate.eval store.read) = some truth := evaluates
      show (UnaryOperator.evaluate .not (predicate.eval store.read)).isSome
      rw [UnaryOperator.evaluate, evaluates]
      rfl

theorem holds_cube {literals : List Expr} (boolean : ∀ literal ∈ literals, literal.ty = .bool) :
    (ExprState.toExpr (cube literals)).Holds store ↔ ∀ literal ∈ literals, literal.Holds store := by
  obtain ⟨formula, built⟩ := Expr.exists_mkAnd boolean
  rw [toExpr_of_mkAnd built]
  exact (Expr.isConjunction_of_mkAnd built).evalBool_iff store.read

theorem regularCondition_cube {literals : List Expr}
    (regular : ∀ literal ∈ literals, literal.RegularCondition config) :
    (ExprState.toExpr (cube literals)).RegularCondition config := by
  obtain ⟨formula, built⟩ :=
    Expr.exists_mkAnd fun literal member => (regular literal member).boolean
  rw [toExpr_of_mkAnd built]
  exact (Expr.isConjunction_of_mkAnd built).regularCondition regular

/-- A model selects the literals that agree with its values of the predicates' variables. -/
theorem mem_selectLiterals {model : Valuation} {items : List (Expr × Nat)}
    {literals : List Expr} (selected : selectLiterals model items = .ok literals)
    {literal : Expr} : literal ∈ literals ↔ ∃ item ∈ items, ∃ truth,
      model.get? ⟨activation item.2, none⟩ = some (.bool truth) ∧
        literal = signed item.1 truth := by
  induction items generalizing literals with
  | nil =>
      cases selected
      simp
  | cons item items ih =>
      rw [List.exists_mem_cons_iff]
      unfold selectLiterals at selected
      split at selected
      case h_1 isTrue =>
        obtain ⟨rest, selectedRest, made⟩ := exists_of_bind_eq_ok selected
        cases made
        rw [OrderedSet.mem_insert, ih selectedRest, isTrue]
        simp [signed]
      case h_2 isFalse =>
        obtain ⟨negated, negates, made⟩ := exists_of_bind_eq_ok selected
        obtain ⟨rest, selectedRest, made⟩ := exists_of_bind_eq_ok made
        obtain ⟨_, -, negates⟩ := exists_of_bind_eq_ok negates
        cases negates
        cases made
        rw [OrderedSet.mem_insert, ih selectedRest, isFalse]
        simp [signed]
      case h_3 notTrue notFalse =>
        rw [ih selected]
        refine (or_iff_right ?_).symm
        rintro ⟨_ | _, known, -⟩
        · exact notFalse known
        · exact notTrue known

theorem entry_of_mem {model : Valuation} {items : List (Expr × Nat)} {literals : List Expr}
    (selected : selectLiterals model items = .ok literals) {literal : Expr}
    (member : literal ∈ literals) : ∃ item ∈ items, ∃ truth, literal = signed item.1 truth ∧
      ((⟨activation item.2, none⟩ : Symbol), .bool truth) ∈ model.entries := by
  obtain ⟨item, isItem, truth, known, rfl⟩ := (mem_selectLiterals selected).mp member
  exact ⟨item, isItem, truth, rfl, OrderedMap.mem_of_find? known⟩

end Literals

theorem activation_injective : Function.Injective activation := by
  intro position position' same
  have names := congrArg (fun decl => decl.name.toList) same
  simp only [activation, String.toList_append, List.append_cancel_left_eq] at names
  exact Nat.repr_inj.mp (String.toList_inj.mp names)

theorem eq_of_activation_eq {item item' : Expr × Nat} (member : item ∈ numbered precision)
    (member' : item' ∈ numbered precision)
    (same : activation item.2 = activation item'.2) : item = item' := by
  have position := activation_injective same
  have atPosition := List.mem_zipIdx_iff_getElem?.mp member
  have atPosition' := List.mem_zipIdx_iff_getElem?.mp member'
  rw [position, atPosition', Option.some_inj] at atPosition
  exact Prod.ext atPosition.symm position

theorem eq_of_predicate_eq (wellFormed : precision.WellFormed)
    {item item' : Expr × Nat} (member : item ∈ numbered precision)
    (member' : item' ∈ numbered precision) (same : item.1 = item'.1) : item = item' := by
  have atPosition := List.mem_zipIdx_iff_getElem?.mp member
  have atPosition' := List.mem_zipIdx_iff_getElem?.mp member'
  obtain ⟨inside, -⟩ := List.getElem?_eq_some_iff.mp atPosition
  refine Prod.ext same ((List.getElem?_inj inside wellFormed.nodup).mp ?_)
  rw [atPosition, atPosition', same]

/-- The values in which the variables of the predicates have the truth values of these at a
store. -/
def withPredicates (precision : PredicatePrecision) (store : Store) (given : Symbol → Value)
    (symbol : Symbol) : Value :=
  match (numbered precision).find? fun item => symbol = ⟨activation item.2, none⟩ with
  | some item => .bool (decide (item.1.evalBool store.read = some true))
  | none => given symbol

section WithPredicates

variable {store : Store} {given : Symbol → Value} {symbol : Symbol}

theorem withPredicates_of_indexed (indexed : symbol.index.isSome) :
    withPredicates precision store given symbol = given symbol := by
  have absent : (numbered precision).find?
      (fun item => decide (symbol = ⟨activation item.2, none⟩)) = none := by
    rw [List.find?_eq_none]
    rintro item - same
    rw [of_decide_eq_true same] at indexed
    cases indexed
  unfold withPredicates
  rw [absent]

theorem withPredicates_activation {item : Expr × Nat} (member : item ∈ numbered precision) :
    withPredicates precision store given ⟨activation item.2, none⟩ =
      .bool (decide (item.1.evalBool store.read = some true)) := by
  unfold withPredicates
  split
  case h_1 other found =>
    -- No other predicate has the same variable.
    have same : (⟨activation item.2, none⟩ : Symbol) = ⟨activation other.2, none⟩ := by
      simpa only [decide_eq_true_iff] using List.find?_some found
    rw [eq_of_activation_eq member (List.mem_of_find?_eq_some found) (congrArg Symbol.decl same)]
  case h_2 absent =>
    exact absurd (decide_eq_true rfl) (List.find?_eq_none.mp absent item member)

theorem admits_withPredicates (admitted : ∀ symbol, config.Admits symbol.decl (given symbol))
    (symbol : Symbol) :
    config.Admits symbol.decl (withPredicates precision store given symbol) := by
  unfold withPredicates
  split
  case h_1 item found =>
    have same : symbol = ⟨activation item.2, none⟩ := by
      simpa only [decide_eq_true_iff] using List.find?_some found
    rw [same]
    exact SolverConfig.admits_bool rfl _
  case h_2 => exact admitted symbol

end WithPredicates

section Solutions

variable (regular : ∀ predicate ∈ precision.predicates, predicate.RegularCondition config)
include regular

theorem regular_of_numbered {item : Expr × Nat} (member : item ∈ numbered precision) :
    item.1.RegularCondition config :=
  regular item.1 (List.fst_mem_of_mem_zipIdx member)

theorem regular_of_selected {model : Valuation} {literals : List Expr}
    (selected : selectLiterals model (numbered precision) = .ok literals) :
    ∀ literal ∈ literals, literal.RegularCondition config := by
  intro literal member
  obtain ⟨item, isItem, truth, rfl, -⟩ := entry_of_mem selected member
  exact regularCondition_signed (regular_of_numbered regular isItem) truth

/-- The equivalence is true where the variable has the truth value of the predicate. -/
theorem truth_equivalence {item : Expr × Nat} (member : item ∈ numbered precision)
    {given : Symbol → Value} (admitted : ∀ symbol, config.Admits symbol.decl (given symbol)) :
    (equivalence next item).truth (total given) = true ↔
      (given ⟨activation item.2, none⟩ = .bool true ↔ item.1.Holds (storeAt given next.get)) := by
  have unfolded := (regular_of_numbered regular member).truth_unfold next admitted
  obtain ⟨assigned, isAssigned⟩ :=
    Value.HasType.exists_bool (admitted ⟨activation item.2, none⟩).1
  have assignedTruth : (activation item.2).toExpr.truth (total given) = assigned := by
    show decide (truthOf (some (given ⟨activation item.2, none⟩)) = some true) = assigned
    rw [isAssigned]
    cases assigned <;> rfl
  show ((activation item.2).toExpr.truth (total given) ==
    (item.1.unfold next).truth (total given)) = true ↔ _
  rw [assignedTruth, beq_iff_eq, isAssigned, Value.bool.injEq, ← unfolded, Bool.eq_iff_iff]

/-- The selected cube holds at the end of the solutions that the model matches. -/
theorem holds_of_selected {model : Valuation} {literals : List Expr}
    (selected : selectLiterals model (numbered precision) = .ok literals)
    {given : Symbol → Value} (isMatch : model.Matches given)
    (solution : config.Solution (assertions precision next formula) given) :
    (ExprState.toExpr (cube literals)).Holds (storeAt given next.get) := by
  have regularLiterals := regular_of_selected regular selected
  refine (holds_cube fun literal member => (regularLiterals literal member).boolean).mpr ?_
  intro literal member
  obtain ⟨item, isItem, truth, rfl, isEntry⟩ := entry_of_mem selected member
  have equivalent := (truth_equivalence regular isItem solution.admits).mp
    (solution.fulfills _ (List.mem_cons_of_mem _ (List.mem_map_of_mem isItem)))
  rw [isMatch _ isEntry, Value.bool.injEq] at equivalent
  have inside : config.InRange (storeAt given next.get) := fun decl => solution.admits _
  exact (holds_signed_iff (regular_of_numbered regular isItem) inside).mpr equivalent

theorem fulfills_withPredicates {given : Symbol → Value}
    (admitted : ∀ symbol, config.Admits symbol.decl (given symbol)) {item : Expr × Nat}
    (member : item ∈ numbered precision) :
    (equivalence next item).truth
      (total (withPredicates precision (storeAt given next.get) given)) = true := by
  have sameStore : storeAt (withPredicates precision (storeAt given next.get) given) next.get =
      storeAt given next.get := funext fun decl => withPredicates_of_indexed rfl
  rw [truth_equivalence regular member (admits_withPredicates admitted), sameStore,
    withPredicates_activation member, Value.bool.injEq, decide_eq_true_iff]
  exact Iff.rfl

variable (denotes : formula.Denotes config next.get stores)
include denotes

/-- The stores are those in which the solutions of the query end. -/
theorem stands_assertions {store : Store} : stores store ↔
    ∃ given, config.Solution (assertions precision next formula) given ∧
      storeAt given next.get = store := by
  constructor
  · intro reached
    obtain ⟨given, ⟨admitted, fulfills⟩, rfl⟩ := denotes.stands.mp reached
    refine ⟨withPredicates precision (storeAt given next.get) given,
      ⟨admits_withPredicates admitted, List.forall_mem_cons.mpr ⟨?_, List.forall_mem_map.mpr
        fun item member => fulfills_withPredicates regular admitted member⟩⟩,
      funext fun decl => withPredicates_of_indexed rfl⟩
    rw [← fulfills formula (List.mem_singleton_self _)]
    exact Expr.truth_congr fun symbol occurs =>
      congrArg some (withPredicates_of_indexed (denotes.indexed _ occurs))
  · rintro ⟨given, ⟨admitted, fulfills⟩, rfl⟩
    have holds : Fulfills given [formula] :=
      List.forall_mem_singleton.mpr (fulfills formula List.mem_cons_self)
    exact denotes.of_solution ⟨admitted, holds⟩

end Solutions

section Projections

variable {projection : Valuation} {literals : List Expr}
  (projects : projection.Projects config (activations precision)
    (assertions precision next formula))
  (selected : selectLiterals projection (numbered precision) = .ok literals)
include projects selected

theorem exists_signed_mem {item : Expr × Nat} (member : item ∈ numbered precision) :
    ∃ truth, ((⟨activation item.2, none⟩ : Symbol), .bool truth) ∈ projection.entries ∧
      signed item.1 truth ∈ literals := by
  have listed : (⟨activation item.2, none⟩ : Symbol) ∈ activations precision :=
    List.mem_map_of_mem member
  obtain ⟨⟨symbol, value⟩, isEntry, same⟩ :=
    List.mem_map.mp (projects.mem_symbols.mpr ⟨listed, occurs_activations listed⟩)
  obtain rfl : symbol = ⟨activation item.2, none⟩ := same
  obtain ⟨truth, rfl⟩ := Value.HasType.exists_bool (projects.wellTyped _ isEntry)
  exact ⟨truth, isEntry, (mem_selectLiterals selected).mpr
    ⟨item, member, truth, projects.sorted.find?_eq_some_iff.mpr isEntry, rfl⟩⟩

theorem decidesAll_of_projects : DecidesAll precision (cube literals) := by
  refine ⟨literals, rfl, fun predicate member => ?_⟩
  obtain ⟨position, inside, rfl⟩ := List.mem_iff_getElem.mp member
  obtain ⟨truth, -, isLiteral⟩ := exists_signed_mem projects selected
    (List.mk_mem_zipIdx_iff_getElem?.mpr (List.getElem?_eq_getElem inside))
  exact ⟨truth, isLiteral⟩

end Projections

section Selections

variable (wellFormed : precision.WellFormed) {projection projection' : Valuation}
  {literals : List Expr}
  (projects : projection.Projects config (activations precision)
    (assertions precision next formula))
  (selected : selectLiterals projection (numbered precision) = .ok literals)
  (selected' : selectLiterals projection' (numbered precision) = .ok literals)
include wellFormed projects selected selected'

/-- Where two projections select the same cube, the literal of a predicate is the same in both. -/
theorem mem_of_selected_eq {entry : Symbol × Value} (member : entry ∈ projection.entries) :
    entry ∈ projection'.entries := by
  obtain ⟨symbol, value⟩ := entry
  obtain ⟨item, isItem, rfl⟩ :=
    List.mem_map.mp (projects.mem_symbols.mp (List.mem_map_of_mem member)).1
  obtain ⟨truth, isEntry, isLiteral⟩ := exists_signed_mem projects selected isItem
  obtain ⟨other, isOther, truth', same, isEntry'⟩ := entry_of_mem selected' isLiteral
  have positive {item : Expr × Nat} (member : item ∈ numbered precision) :=
    wellFormed.positive (List.fst_mem_of_mem_zipIdx member)
  obtain ⟨samePredicate, rfl⟩ := signed_inj (positive isItem) (positive isOther) same
  obtain rfl := eq_of_predicate_eq wellFormed isItem isOther samePredicate
  rwa [projects.sorted.value_unique member isEntry]

theorem selectLiterals_injOn (projects' : projection'.Projects config (activations precision)
      (assertions precision next formula)) : projection = projection' :=
  Valuation.ext_of_sorted projects.sorted projects'.sorted fun _ =>
    ⟨mem_of_selected_eq wellFormed projects selected selected',
      mem_of_selected_eq wellFormed projects' selected' selected⟩

end Selections

/-- The cubes that are read off a formula abstract the stores that it denotes. -/
theorem Reads.abstracts (lawful : config.Lawful) (wellFormed : precision.WellFormed)
    (regular : ∀ predicate ∈ precision.predicates, predicate.RegularCondition config)
    (denotes : formula.Denotes config next.get stores)
    (reads : Reads config precision (assertions precision next formula) states) :
    Abstracts config stores False (DecidesAll precision) states := by
  obtain ⟨projections, lists, selects⟩ := reads
  refine ⟨fun store reached => ?_, fun _ => ⟨fun state member => ?_, ?_, fun state member => ?_⟩,
    fun state member => ?_⟩
  · obtain ⟨given, solution, rfl⟩ := (stands_assertions regular denotes).mp reached
    obtain ⟨projection, isProjection, isMatch⟩ := lists.complete solution
    obtain ⟨state, member, literals, selected, rfl⟩ := exists_of_forall₂ selects.flip isProjection
    exact ⟨_, member, holds_of_selected regular selected isMatch solution⟩
  · obtain ⟨projection, isProjection, literals, selected, rfl⟩ := exists_of_forall₂ selects member
    obtain ⟨given, solution, isMatch⟩ :=
      (lists.projects projection isProjection).exists_solution lawful
    exact ⟨_, (stands_assertions regular denotes).mpr ⟨given, solution, rfl⟩,
      holds_of_selected regular selected isMatch solution⟩
  · refine nodup_of_forall₂ selects lists.nodup ?_
    rintro first isFirst second isSecond _ ⟨literals, selected, rfl⟩ ⟨_, selected', same⟩
    cases same
    exact selectLiterals_injOn wellFormed (lists.projects first isFirst) selected selected'
      (lists.projects second isSecond)
  · obtain ⟨projection, isProjection, literals, selected, rfl⟩ := exists_of_forall₂ selects member
    exact decidesAll_of_projects (lists.projects projection isProjection) selected
  · obtain ⟨projection, isProjection, literals, selected, rfl⟩ := exists_of_forall₂ selects member
    exact regularCondition_cube (regular_of_selected regular selected)

/-- The Boolean variables of a formula and of the predicates can be numbered, and few nodes are
allocated while its states are enumerated. -/
structure Affordable (config : SolverConfig) (precision : PredicatePrecision)
    (next : Indexing) (formula : Expr) (world : SolverStatistics) : Prop where
  fewLevels : Encoding.levelTotal config (symbolsOf precision next formula) < 2147483648
  few : (statesRun config precision next formula world).Few

section Transfers

variable {world after : SolverStatistics} (workable : config.Workable)
  (wellFormed : precision.WellFormed)
  (regular : ∀ predicate ∈ precision.predicates, predicate.RegularCondition config)
include workable wellFormed regular

theorem abstracts_of_statesOf (denotes : formula.Denotes config next.get stores)
    (affordable : Affordable config precision next formula world)
    (run : statesOf config precision next formula world = (.ok states, after)) :
    Abstracts config stores False (DecidesAll precision) states := by
  have plain : ∀ assertion ∈ assertions precision next formula, assertion.choosesTruth = false := by
    refine List.forall_mem_cons.mpr ⟨denotes.plain, List.forall_mem_map.mpr fun item member => ?_⟩
    have regularItem := regular_of_numbered regular member
    show (item.1.unfold next).choosesTruth = false
    rw [Expr.unfold_eq_atVersions regularItem.current.unprimed, Expr.choosesTruth_atVersions]
    exact regularItem.encodable.plain
  have reads := reads_of_statesOf workable affordable.fewLevels plain affordable.few run
  exact reads.abstracts workable.lawful wellFormed regular denotes

theorem initialStates_abstract {α : Type} [ExprAction α] {initial : Expr}
    (regularInitial : initial.RegularCondition config)
    (affordable : Affordable config precision (.constant 0) (initial.unfold (.constant 0)) world)
    (run : (analysis (α := α) config initial).initialStates precision world =
      (.ok states, after)) :
    Abstracts config (fun store => initial.Holds store ∧ config.InRange store) False
      (DecidesAll precision) states :=
  abstracts_of_statesOf workable wellFormed regular (Expr.denotes_initial regularInitial)
    affordable run

/-- The successors of a state under an edge abstract the stores to which the edge leads. -/
theorem successors_abstract {initial : Expr} {state : PredicateState} {edge : ControlEdge}
    (notBottom : state ≠ bottom)
    (regularState : (ExprState.toExpr state).RegularCondition config)
    (regularEdge : edge.Regular config)
    (affordable : Affordable config precision edge.next (edge.query state) world)
    (run : (analysis config initial).successors precision state edge world =
      (.ok states, after)) :
    Abstracts config (config.Reached (ExprState.toExpr state) edge.statements) False
      (DecidesAll precision) states := by
  cases state with
  | bottom => exact absurd rfl notBottom
  | cube literals =>
      obtain ⟨formula, built, run⟩ := exists_statesOf_of_successors run
      have isQuery : formula.unfold (.constant 0) = edge.query (cube literals) :=
        ControlEdge.query_of_mkAnd built
      rw [isQuery] at run
      exact abstracts_of_statesOf workable wellFormed regular (regularEdge.denotes regularState)
        affordable run

end Transfers

end PredicateState

end AbstractionRefinement
