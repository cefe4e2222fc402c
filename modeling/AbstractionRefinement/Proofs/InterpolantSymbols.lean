import AbstractionRefinement.Proofs.DecodedSymbols
import AbstractionRefinement.Proofs.FormulaAtoms
import AbstractionRefinement.Proofs.SequenceInterpolants

/-!
# Symbols of interpolants

A symbol that the formulas inside do not constrain is mentioned by their interpolant exactly if
they are satisfiable and the domain of the symbol has no power of two of values: the constraint
of any other domain depends on no level.  The variables that a refinement adds to a precision
of explicit values are those that some interpolant mentions.
-/

namespace AbstractionRefinement

open AbstractionRefinement.Computation

namespace Expr

variable {indexing : Indexing} {formula atom : Expr} {decl : VarDecl} {symbol : Symbol}

/-- Folding keeps the variables. -/
theorem exists_mem_symbols_fold : (∃ symbol ∈ (formula.fold indexing).symbols,
    symbol.decl = decl) ↔ ∃ symbol ∈ formula.symbols, symbol.decl = decl := by
  induction formula with
  | lit value => rfl
  | sym symbol =>
      obtain ⟨decl', _ | step⟩ := symbol
      · rfl
      · show (∃ symbol ∈ (primedVariable decl' (step - indexing.get decl')).symbols, _) ↔ _
        simp [mem_symbols_primedVariable, mem_symbols_sym]
  | unary operator operand ty ih =>
      show (∃ symbol ∈ (unary operator (operand.fold indexing) ty).symbols, _) ↔ _
      simpa only [mem_symbols_unary] using ih
  | binary operator left right ty ihLeft ihRight =>
      show (∃ symbol ∈ (binary operator (left.fold indexing) (right.fold indexing) ty).symbols,
        _) ↔ _
      simp only [mem_symbols_binary, or_and_right, exists_or, ihLeft, ihRight]
  | ternary operator first second third ty ihFirst ihSecond ihThird =>
      show (∃ symbol ∈ (ternary operator (first.fold indexing) (second.fold indexing)
        (third.fold indexing) ty).symbols, _) ↔ _
      simp only [mem_symbols_ternary, or_and_right, exists_or, ihFirst, ihSecond, ihThird]
  | nary operator operands ty ih =>
      show (∃ symbol ∈ (nary operator (replaceAllBottomUp _ operands) ty).symbols, _) ↔ _
      rw [replaceAllBottomUp_eq_map]
      simp only [mem_symbols_nary]
      constructor
      · rintro ⟨symbol, ⟨_, mapped, inside⟩, same⟩
        obtain ⟨operand, member, rfl⟩ := List.mem_map.mp mapped
        obtain ⟨other, inside, same⟩ := (ih operand member).mp ⟨symbol, inside, same⟩
        exact ⟨other, ⟨operand, member, inside⟩, same⟩
      · rintro ⟨symbol, ⟨operand, member, inside⟩, same⟩
        obtain ⟨other, inside, same⟩ := (ih operand member).mpr ⟨symbol, inside, same⟩
        exact ⟨other, ⟨_, List.mem_map_of_mem member, inside⟩, same⟩

theorem mem_vars : decl ∈ formula.vars ↔ ∃ symbol ∈ formula.symbols, symbol.decl = decl := by
  unfold vars
  rw [OrderedSet.mem_ofList, List.mem_map]

theorem symbols_stripNegations (formula : Expr) :
    formula.stripNegations.symbols = formula.symbols := by
  induction formula with
  | unary operator operand ty ih =>
      cases operator with
      | not => exact ih
      | _ => rfl
  | _ => rfl

/-- An atom mentions only what the formula does. -/
theorem mem_symbols_of_mem_atoms (member : atom ∈ formula.atoms) (occurs : symbol ∈ atom.symbols) :
    symbol ∈ formula.symbols := by
  have itself {formula added : Expr} (adds : formula.atoms = OrderedSet.insert added [])
      (member : atom ∈ formula.atoms) : atom = added := by
    rw [adds, OrderedSet.mem_insert] at member
    simpa using member
  have pair {formula left right : Expr}
      (adds : formula.atoms = right.collectAtoms (left.collectAtoms []))
      (member : atom ∈ formula.atoms) : atom ∈ left.atoms ∨ atom ∈ right.atoms := by
    rw [adds, mem_collectAtoms, mem_collectAtoms] at member
    simpa using member
  induction formula with
  | lit value =>
      rw [atoms, collectAtoms] at member
      cases member
  | sym other =>
      rw [itself (by rw [atoms, collectAtoms]) member] at occurs
      exact occurs
  | unary operator operand ty ih =>
      cases operator with
      | not => exact ih (mem_atoms_not.mp member)
      | _ =>
          rw [itself (by rw [atoms]; simp only [collectAtoms]; rfl) member] at occurs
          exact occurs
  | binary operator left right ty ihLeft ihRight =>
      have operands (adds : (binary operator left right ty).atoms =
          right.collectAtoms (left.collectAtoms [])) :
          symbol ∈ (binary operator left right ty).symbols :=
        mem_symbols_binary.mpr ((pair adds member).imp ihLeft ihRight)
      cases operator with
      | imply => exact operands (by rw [atoms, collectAtoms])
      | iff => exact operands (by rw [atoms, collectAtoms])
      | eq =>
          by_cases boolean : left.ty.isBool
          · exact operands (by simp [atoms, collectAtoms, boolean])
          · rw [itself (by simp [atoms, collectAtoms, boolean]; rfl) member] at occurs
            exact occurs
      | neq =>
          by_cases boolean : left.ty.isBool
          · exact operands (by simp [atoms, collectAtoms, boolean])
          · rw [itself (by simp [atoms, collectAtoms, boolean]; rfl) member] at occurs
            exact occurs
      | _ =>
          rw [itself (by rw [atoms]; simp only [collectAtoms]; rfl) member] at occurs
          exact occurs
  | ternary operator first second third ty ihFirst ihSecond ihThird =>
      cases operator with
      | ite =>
          by_cases boolean : second.ty.isBool
          · have adds : (ternary .ite first second third ty).atoms =
                third.collectAtoms (second.collectAtoms (first.collectAtoms [])) := by
              simp [atoms, collectAtoms, boolean]
            rw [adds, mem_collectAtoms, mem_collectAtoms, mem_collectAtoms] at member
            simp only [List.not_mem_nil, false_or, or_assoc] at member
            exact mem_symbols_ternary.mpr (member.imp ihFirst (Or.imp ihSecond ihThird))
          · rw [itself (by simp [atoms, collectAtoms, boolean]; rfl) member] at occurs
            exact occurs
      | write =>
          rw [itself (by rw [atoms, collectAtoms]) member] at occurs
          exact occurs
  | nary operator operands ty ih =>
      have among (mentions : ∃ operand ∈ operands, atom ∈ operand.atoms) :
          symbol ∈ (nary operator operands ty).symbols := by
        obtain ⟨operand, inside, member⟩ := mentions
        exact mem_symbols_nary.mpr ⟨operand, inside, ih operand inside member⟩
      cases operator with
      | and => exact among (mem_atoms_and.mp member)
      | or => exact among (mem_atoms_or.mp member)
      | _ =>
          rw [itself (by rw [atoms]; simp only [collectAtoms]; rfl) member] at occurs
          exact occurs

end Expr

namespace Session

variable {config : SolverConfig} {session : Session} {markers : List Nat} {interpolant : Expr}
  {symbol : Symbol}

/-- An interpolant mentions a shared symbol that the formulas inside leave unconstrained exactly
if they are satisfiable and the symbol's domain has no power of two of values. -/
theorem mem_symbols_interpolant_iff (lawful : config.Lawful) (trusted : 0 ≤ config.margin)
    (countable : (config.maxAtomAssignments : Int) < maxInt64) (reached : session.Reached config)
    (given : (Session.interpolant markers session).1 = .ok interpolant)
    (plain : ∀ formula ∈ session.inside markers, formula.choosesTruth = false)
    (few : (session.interpolation markers).2.manager.size ≤ 32767)
    (fewLevels : (session.interpolation markers).2.nextLevel ≤ 2147483648)
    (inside : Occurs symbol (session.inside markers))
    (outside : Occurs symbol (session.outside markers))
    (unconstrained : Unconstrained (session.interpolationRanges markers) (session.inside markers)
      symbol) : symbol ∈ interpolant.symbols ↔
      (session.interpolationRanges markers).Satisfiable (session.inside markers) ∧
        ∀ exponent, Encoder.domainSize (session.interpolationRanges markers) symbol ≠
          2 ^ exponent := by
  obtain ⟨unsat, returned⟩ := interpolant_eq_ok given
  have exact_ : (config.capped 32768).Exact :=
    ⟨lawful, countable, DiagramManager.distinctKeys_of_le (Nat.min_le_right _ _)⟩
  obtain ⟨theme, calls, rfl⟩ := reached
  have within := soundWithin_of_unsat lawful theme calls unsat
  unfold DiagramManager.size at few
  obtain ⟨last, sameConfig, edge, projected, projects, decoded⟩ :=
    within.exists_projectsTo exact_ trusted plain (by omega) fewLevels returned
  have mentions := projects.mem_symbols_iff decoded inside
    (not_mem_localSymbols_iff.mpr fun _ => outside) (by rw [sameConfig]; exact unconstrained)
  rw [sameConfig] at mentions
  exact mentions

end Session

namespace TraceChecker

open Query

variable {σ α : Type} [ExprState σ] [ExprAction α] {config : SolverConfig}
  {initial target : Expr} {trace : Trace σ α} {path : PathFormula} {state : OpenSession}

/-- What an interpolant of a session between the first formulas of a trace and some later ones
is folded back to. -/
def FoldsInterpolant (config : SolverConfig) (path : PathFormula) (condition : Expr) : Prop :=
  ∃ (session : Session) (markers : List Nat) (interpolant : Expr) (indexing : Indexing)
    (count last : Nat), session.Reached config ∧
    session.inside markers = path.steps.take count ∧
    session.outside markers = (path.steps.take last).drop count ∧
    (Session.interpolant markers session).1 = .ok interpolant ∧
    condition = interpolant.fold indexing

theorem GivesInterpolants.foldsInterpolant {conditions : List Expr}
    (given : GivesInterpolants config path conditions) {condition : Expr}
    (member : condition ∈ conditions) : FoldsInterpolant config path condition := by
  obtain ⟨position, isCondition⟩ := List.mem_iff_getElem?.mp member
  obtain ⟨bound, -⟩ := List.getElem?_eq_some_iff.mp isCondition
  rw [given.length_eq] at bound
  obtain ⟨interpolant, returned, same⟩ := given.given (List.getElem?_eq_getElem bound)
  obtain ⟨inside, outside⟩ := Session.divided_of_labels (given.labels position) (position + 1)
  refine ⟨_, _, interpolant, _, position + 1, path.steps.length, ⟨_, _, rfl⟩, inside, ?_, returned,
    Option.some_injective _ (isCondition.symm.trans same)⟩
  rw [List.take_length]
  exact outside

theorem markers_check (session : Session) :
    (SessionCall.check.perform session).markers = session.markers := by
  have effect := SessionCall.effect_perform .check session
  generalize SessionCall.check.perform session = after at effect ⊢
  cases effect with
  | unchanged => rfl
  | asserted asserts => cases asserts
  | answered =>
      obtain ⟨encoder, conjunction, settled, -⟩ := Session.settleConjunction_state session
      rw [Session.decideConjunction_run, settled]

/-- The formulas are asserted into one partition each. -/
structure Partitioned (config : SolverConfig) (session : Session) (steps : List Expr) : Prop where
  reached : session.Reached config
  labels_eq : session.labels = Session.numbered steps 0
  markers_eq : session.markers = steps.length

/-- Asserting the formulas one by one.  The position that is given is the one of the last formula
that was asserted. -/
theorem ensures_findInfeasibleStep_run {asserted : List Expr} (steps : List Expr)
    (partitioned : Partitioned config state.session asserted) :
    (findInfeasibleStep (List.range asserted.length) steps).Ensures state fun outcome after =>
      ∀ position, outcome.1 = some position →
        outcome.2 = List.range (position + 1) ∧ position < (asserted ++ steps).length ∧
          Partitioned config after.session ((asserted ++ steps).take (position + 1)) := by
  induction steps generalizing state asserted with
  | nil =>
      rw [findInfeasibleStep, ensures_pure]
      rintro _ ⟨⟩
  | cons step steps ih =>
      rw [findInfeasibleStep, ensures_bind]
      apply (ensures_addStep_run step).mono
      rintro _ after ⟨rfl, sameSession, labels, next⟩
      rw [ensures_bind]
      apply ensures_isSatisfiable_run.mono
      intro answer after' sameSession'
      have isNext : asserted.length + 1 = (asserted ++ [step]).length := by simp
      have known : List.range asserted.length ++ [state.session.markers] =
          List.range (asserted ++ [step]).length := by
        rw [partitioned.markers_eq, ← isNext, List.range_succ]
      have partitioned' : Partitioned config after'.session (asserted ++ [step]) := by
        rw [sameSession']
        refine ⟨?_, ?_, ?_⟩
        · rw [sameSession]
          exact (partitioned.reached.after _).after [.check]
        · rw [Session.labels_perform (.inl rfl), labels, partitioned.labels_eq,
            partitioned.markers_eq, Session.numbered, Session.numbered, List.zipIdx_append,
            List.map_append, Nat.zero_add]
          rfl
        · rw [markers_check, next, partitioned.markers_eq, isNext]
      rw [known]
      split
      case isTrue =>
        have rest := ih partitioned'
        rwa [List.append_assoc] at rest
      case isFalse =>
        rw [ensures_pure]
        rintro _ ⟨⟩
        rw [List.append_cons asserted step steps, List.length_range, isNext, List.take_left]
        refine ⟨rfl, ?_, partitioned'⟩
        rw [List.length_append, ← isNext]
        omega

/-- A condition of a refutation is trivial or an interpolant that is folded back. -/
def FoldsOrTrivial (config : SolverConfig) (path : PathFormula) (condition : Expr) : Prop :=
  condition = .top ∨ condition = .bottom ∨ FoldsInterpolant config path condition

theorem ensures_checkByPrefix_run (path : PathFormula) (statistics : SolverStatistics) :
    (checkByPrefix path).Ensures ⟨.start config .forInterpolation, statistics⟩
      fun outcome _ => ∀ conditions, outcome = .inr conditions →
        ∀ condition ∈ conditions, FoldsOrTrivial config path condition := by
  have start : Partitioned config
      (OpenSession.mk (.start config .forInterpolation) statistics).session [] :=
    ⟨⟨.forInterpolation, [], rfl⟩, rfl, rfl⟩
  unfold checkByPrefix
  rw [ensures_bind]
  apply Ensures.mono (ensures_findInfeasibleStep_run path.steps start)
  rintro ⟨_ | position, markers⟩ after found
  · rw [ensures_bind]
    apply ensures_of_run
    intro model _ _
    rw [ensures_pure]
    rintro _ ⟨⟩
  · obtain ⟨rfl, bound, partitioned⟩ := found position rfl
    rw [List.nil_append] at bound partitioned
    dsimp only
    split
    case isTrue =>
      rw [ensures_pure]
      rintro _ ⟨⟩ condition member
      exact .inr (.inl (List.eq_of_mem_replicate member))
    case isFalse =>
      rw [ensures_bind]
      apply (ensures_perform_run _).mono
      rintro interpolant _ ⟨returned, -⟩
      rw [ensures_pure]
      rintro _ ⟨⟩ condition member
      rcases List.mem_append.mp member with before | member
      · exact .inl (List.eq_of_mem_replicate before)
      rcases List.mem_cons.mp member with rfl | after
      · have length_eq : (path.steps.take (position + 1)).length = position + 1 := by
          rw [List.length_take]
          omega
        obtain ⟨inside, outside⟩ := Session.divided_of_labels partitioned.labels_eq position
        rw [length_eq] at inside outside
        rw [List.take_take, Nat.min_eq_left (Nat.le_succ position)] at inside
        exact .inr (.inr ⟨_, _, interpolant, _, position, position + 1, partitioned.reached,
          inside, outside, returned, rfl⟩)
      · exact .inr (.inl (List.eq_of_mem_replicate after))

/-- The conditions of a refuted trace. -/
theorem foldsOrTrivial_of_check (written : PathFormula.ofTrace initial target trace = .ok path)
    {checker : TraceChecker} {statistics : SolverStatistics} {refutation : InterpolantRefutation}
    (refuted : (checker.check config initial target trace statistics).1 =
      .ok (.infeasible (.interpolants refutation))) :
    ∀ condition ∈ refutation.interpolants, FoldsOrTrivial config path condition := by
  suffices ensures : (checker.check config initial target trace).Ensures statistics
      fun outcome _ => ∀ refutation, outcome = .infeasible (.interpolants refutation) →
        ∀ condition ∈ refutation.interpolants, FoldsOrTrivial config path condition from
    ensures.of_run (Prod.ext refuted rfl) refutation rfl
  cases checker with
  | sequenceInterpolation =>
      apply (ensures_check_run written statistics).mono
      intro outcome after given refutation isRefutation condition member
      exact .inr (.inr ((given refutation isRefutation).foldsInterpolant member))
  | binaryInterpolation =>
      unfold check
      rw [written, ensures_bind, ensures_ofFormula]
      rintro _ ⟨⟩
      rw [ensures_bind]
      apply (ensures_inSession_run .forInterpolation (ensures_checkByPrefix_run path)).mono
      rintro (concrete | interpolants) after given
      · rw [ensures_pure]
        rintro _ ⟨⟩
      · unfold refuteByInterpolants
        rw [ensures_bind]
        apply ensures_of_run
        intro pruneIndex _ _
        rw [ensures_pure]
        rintro _ ⟨⟩
        exact given interpolants rfl
  | unsatCore =>
      unfold check
      rw [written, ensures_bind, ensures_ofFormula]
      rintro _ ⟨⟩
      apply (ensures_inSession_run .forIncrementalUse fun statistics => ?_)
      unfold checkByCore
      rw [ensures_bind]
      apply ensures_of_run
      intro _ after _
      rw [ensures_bind]
      apply ensures_of_run
      intro answer after _
      split
      · rw [ensures_bind]
        apply ensures_of_run
        intro model after _
        rw [ensures_pure]
        rintro _ ⟨⟩
      · rw [ensures_bind]
        apply ensures_of_run
        intro core after _
        rw [ensures_pure]
        rintro _ ⟨⟩

end TraceChecker

/-- What a refutation adds to precisions: variables and predicates over variables that some
interpolant of a session between formulas of the trace mentions. -/
structure TracksMentioned (config : SolverConfig) (path : PathFormula)
    (refutation : InterpolantRefutation) : Prop where
  explicit (precision : ExplicitPrecision) (decl : VarDecl) :
    decl ∈ (ExplicitPrecision.refine precision (.interpolants refutation)).vars ↔
      decl ∈ precision.vars ∨ decl ∈ refutation.vars
  predicate (precision : PredicatePrecision) : ∀ predicate ∈
    (PredicatePrecision.refine precision (.interpolants refutation)).predicates,
      predicate ∈ precision.predicates ∨ ∀ decl ∈ predicate.vars, decl ∈ refutation.vars
  mentioned : ∀ decl ∈ refutation.vars, ∃ (session : Session) (markers : List Nat)
    (interpolant : Expr) (count last : Nat), session.Reached config ∧
      session.inside markers = path.steps.take count ∧
      session.outside markers = (path.steps.take last).drop count ∧
      (Session.interpolant markers session).1 = .ok interpolant ∧ decl ∈ interpolant.vars

theorem InterpolantRefutation.mem_vars {refutation : InterpolantRefutation} {decl : VarDecl} :
    decl ∈ refutation.vars ↔ ∃ condition ∈ refutation.interpolants, decl ∈ condition.vars := by
  unfold vars
  rw [OrderedSet.mem_ofList, List.mem_flatMap]

theorem tracksMentioned {σ α : Type} [ExprState σ] [ExprAction α] {config : SolverConfig}
    {initial target : Expr} {trace : Trace σ α} {path : PathFormula}
    (written : PathFormula.ofTrace initial target trace = .ok path) {checker : TraceChecker}
    {statistics : SolverStatistics} {refutation : InterpolantRefutation}
    (refuted : (checker.check config initial target trace statistics).1 =
      .ok (.infeasible (.interpolants refutation))) :
    TracksMentioned config path refutation := by
  refine ⟨fun precision decl => ?_, fun precision predicate member => ?_, fun decl member => ?_⟩
  · show decl ∈ OrderedSet.union precision.vars (OrderedSet.ofList refutation.vars) ↔ _
    rw [OrderedSet.mem_union, OrderedSet.mem_ofList]
  · have tracked : predicate ∈ OrderedSet.union precision.predicates
        (PredicatePrecision.ofList refutation.atoms).predicates := member
    refine (OrderedSet.mem_union.mp tracked).imp_right fun added decl inside => ?_
    have stripped := (List.mem_filter.mp (OrderedSet.mem_ofList.mp added)).1
    obtain ⟨atom, isAtom, rfl⟩ := List.mem_map.mp stripped
    obtain ⟨symbol, occurs, same⟩ := Expr.mem_vars.mp inside
    rw [Expr.symbols_stripNegations] at occurs
    obtain ⟨condition, isCondition, isAtom⟩ :=
      ((Expr.mem_collectAtomsAll _ []).mp isAtom).resolve_left List.not_mem_nil
    exact InterpolantRefutation.mem_vars.mpr ⟨condition, isCondition, Expr.mem_vars.mpr
      ⟨symbol, Expr.mem_symbols_of_mem_atoms isAtom occurs, same⟩⟩
  · obtain ⟨condition, isCondition, inside⟩ := InterpolantRefutation.mem_vars.mp member
    rcases TraceChecker.foldsOrTrivial_of_check written refuted condition isCondition with
      rfl | rfl | ⟨session, markers, interpolant, indexing, count, last, reached, first, second,
        returned, rfl⟩
    · cases inside
    · cases inside
    · refine ⟨session, markers, interpolant, count, last, reached, first, second, returned, ?_⟩
      rw [Expr.mem_vars] at inside ⊢
      exact Expr.exists_mem_symbols_fold.mp inside

/-- Decoded formulas mention symbols on whose levels their diagrams depend, interpolants mention
an unconstrained symbol for the constraint of its domain at most, and refutations add what
interpolants mention to precisions. -/
theorem relevant_symbols_mentioned (σ α : Type) [ExprState σ] [ExprAction α]
    {config : SolverConfig} (lawful : config.Lawful) (trusted : 0 ≤ config.margin)
    (countable : (config.maxAtomAssignments : Int) < maxInt64) :
    (∀ (encoder : Encoder) (edge : Edge) (decoded : Expr), encoder.Reached config →
      encoder.manager.size ≤ 32767 → encoder.nextLevel ≤ 2147483648 →
      encoder.manager.Owns edge → encoder.OverSymbols edge → encoder.decode edge = .ok decoded →
        encoder.MentionsRelevant edge decoded) ∧
    (∀ (session : Session) (markers : List Nat) (interpolant : Expr) (symbol : Symbol),
      session.Reached config → (Session.interpolant markers session).1 = .ok interpolant →
      (∀ formula ∈ session.inside markers, formula.choosesTruth = false) →
      (session.interpolation markers).2.manager.size ≤ 32767 →
      (session.interpolation markers).2.nextLevel ≤ 2147483648 →
      Occurs symbol (session.inside markers) → Occurs symbol (session.outside markers) →
      Unconstrained (session.interpolationRanges markers) (session.inside markers) symbol →
        (symbol ∈ interpolant.symbols ↔
          (session.interpolationRanges markers).Satisfiable (session.inside markers) ∧
            ∀ exponent, Encoder.domainSize (session.interpolationRanges markers) symbol ≠
              2 ^ exponent)) ∧
    ∀ (checker : TraceChecker) (initial target : Expr) (trace : Trace σ α) (path : PathFormula)
      (statistics : SolverStatistics) (refutation : InterpolantRefutation),
      PathFormula.ofTrace initial target trace = .ok path →
      (checker.check config initial target trace statistics).1 =
        .ok (.infeasible (.interpolants refutation)) →
          TracksMentioned config path refutation := by
  refine ⟨fun encoder edge decoded reached few fewLevels owns overSymbols made => ?_,
    fun session markers interpolant symbol reached given plain few fewLevels inside outside
      unconstrained => ?_, fun checker initial target trace path statistics refutation written
      refuted => ?_⟩
  · exact reached.mentionsRelevant lawful few fewLevels owns overSymbols made
  · exact Session.mem_symbols_interpolant_iff lawful trusted countable reached given plain few
      fewLevels inside outside unconstrained
  · exact tracksMentioned written refuted

def amountDecided : Expr :=
  .nary .or [Session.amountIs 2, .unary .not (Session.amountIs 2) .bool] .bool

theorem truth_amountDecided (values : Symbol → Option Value) :
    amountDecided.truth values = true := by
  rw [amountDecided, Expr.truth, Expr.truthAny, Expr.truthAny, Expr.truth_not]
  cases (Session.amountIs 2).truth values <;> rfl

def amountInDomain : Expr :=
  .nary .or [Session.amountIs 1,
    .nary .or [Session.amountIs 0, Session.amountIs 2] .bool] .bool

theorem encodeValid_amountDecided :
    (Encoder.encodeValid amountDecided Encoder.flaggedEncoder).1 = .ok ⟨-5⟩ ∧
      (Encoder.encodeValid amountDecided Encoder.flaggedEncoder).2.manager.exhaustion = none ∧
      (Encoder.encodeValid amountDecided Encoder.flaggedEncoder).2.manager.size ≤ 32767 ∧
      (Encoder.encodeValid amountDecided Encoder.flaggedEncoder).2.nextLevel ≤ 2147483648 ∧
      (Encoder.encodeValid amountDecided Encoder.flaggedEncoder).2.decode ⟨-5⟩ =
        .ok amountInDomain := by
  decide +kernel

def decidedCalls : List SessionCall :=
  [.createMarker, .addTo 0 amountDecided, .add (Session.amountIs 2),
    .add (.unary .not (Session.amountIs 2) .bool), .check]

/-- The decided amount is mentioned for its domain, of three values in the encoder and of five in
the session, and an increment adds the counter to precisions. -/
theorem amountDecided_mentioned :
    (Encoder.encodeValid amountDecided Encoder.flaggedEncoder).2.MentionsRelevant ⟨-5⟩
      amountInDomain ∧
    (∃ interpolant, (Session.interpolant [0] ((Session.start Encoder.unevenConfig
      .forInterpolation).after decidedCalls)).1 = .ok interpolant ∧
        Session.amount ∈ interpolant.symbols) ∧
    TracksMentioned Encoder.unevenConfig ⟨TraceChecker.incrementSteps,
      [.constant 0, (Indexing.constant 0).increment TraceChecker.countVar]⟩
      TraceChecker.incrementRefutation := by
  obtain ⟨relevant, interpolated, tracked⟩ := relevant_symbols_mentioned ExplicitState ControlEdge
    Encoder.unevenConfig_lawful (by decide) (by decide)
  refine ⟨?_, ?_, ?_⟩
  · obtain ⟨encoded, unexhausted, few, fewLevels, made⟩ := encodeValid_amountDecided
    have decides := Encoder.reached_flaggedEncoder.decides_encodeValid encoded few
    exact relevant _ _ _ (Encoder.reached_flaggedEncoder.validEncoding amountDecided) few fewLevels
      (Encoder.owns_capped.mp decides.means.owns)
      (decides.overSymbols (List.forall_mem_singleton.mpr rfl) unexhausted) made
  · have returned : ((Session.interpolant [0] ((Session.start Encoder.unevenConfig
        .forInterpolation).after decidedCalls)).1).isOk := by
      decide +kernel
    obtain ⟨interpolant, given⟩ := exists_of_isOk returned
    have inside : ((Session.start Encoder.unevenConfig .forInterpolation).after
        decidedCalls).inside [0] = [amountDecided] := by
      decide +kernel
    have outside : ((Session.start Encoder.unevenConfig .forInterpolation).after
        decidedCalls).outside [0] =
          [Session.amountIs 2, .unary .not (Session.amountIs 2) .bool] := by
      decide +kernel
    have five : Encoder.domainSize (((Session.start Encoder.unevenConfig .forInterpolation).after
        decidedCalls).interpolationRanges [0]) Session.amount = 5 := by
      decide +kernel
    have occurs : Session.amount ∈ amountDecided.symbols := by decide +kernel
    have fulfills (values : Symbol → Value) : Fulfills values [amountDecided] :=
      List.forall_mem_singleton.mpr (truth_amountDecided _)
    refine ⟨interpolant, given, (interpolated _ [0] interpolant Session.amount ⟨_, _, rfl⟩ given ?_
      (by decide +kernel) (by decide +kernel) ?_ ?_ ?_).mpr ⟨?_, ?_⟩⟩
    · rw [inside]
      exact List.forall_mem_singleton.mpr rfl
    · rw [inside]
      exact ⟨_, List.mem_singleton_self _, occurs⟩
    · rw [outside]
      exact ⟨_, List.mem_cons_self, by decide +kernel⟩
    · rw [inside]
      exact fun values value _ _ _ => fulfills _
    · rw [inside]
      unfold Encoder.domainSize at five
      split at five
      case h_1 domain size hasDomain =>
        refine ⟨fun _ => domain.value 0, List.forall_mem_singleton.mpr ?_, fulfills _⟩
        rw [show amountDecided.symbols = [Session.amount] by decide +kernel,
          List.forall_mem_singleton]
        exact ⟨domain, size, 0, hasDomain, by omega, rfl⟩
      case h_2 => cases five
    · intro exponent power
      rw [five] at power
      have small : exponent < 3 := by
        by_contra large
        have := Nat.pow_le_pow_right Nat.two_pos (Nat.le_of_not_lt large)
        omega
      interval_cases exponent <;> cases power
  · obtain ⟨statistics, after, run⟩ := TraceChecker.exists_refuted
      (show ((TraceChecker.sequenceInterpolation.check Encoder.unevenConfig .top
        (TraceChecker.countIs 3) TraceChecker.incrementTrace {}).1.toOption.bind
          TraceChecker.interpolantRefutation?) = some TraceChecker.incrementRefutation by
        decide +kernel)
    exact tracked TraceChecker.sequenceInterpolation .top (TraceChecker.countIs 3)
      TraceChecker.incrementTrace _ statistics _ rfl (by rw [run])

/-- The diagram of the decided amount has the same value for all amounts of the domain, but what it
is decoded to mentions the amount. -/
theorem amountDecided_irrelevant_and_mentioned : ¬ ∀ (config : SolverConfig) (encoder : Encoder)
    (edge : Edge) (decoded : Expr) (symbol : Symbol), config.Lawful → encoder.Reached config →
      encoder.manager.size ≤ 32767 → encoder.nextLevel ≤ 2147483648 →
      encoder.manager.Owns edge → encoder.OverSymbols edge → encoder.decode edge = .ok decoded →
      encoder.Knows symbol → encoder.Irrelevant edge symbol → symbol ∉ decoded.symbols := by
  intro claimed
  obtain ⟨encoded, unexhausted, few, fewLevels, made⟩ := encodeValid_amountDecided
  have plain : ∀ formula ∈ [amountDecided], formula.choosesTruth = false :=
    List.forall_mem_singleton.mpr rfl
  have only : ∀ symbol ∈ amountDecided.symbols, symbol = Session.amount := by decide +kernel
  have decides := Encoder.reached_flaggedEncoder.decides_encodeValid encoded few
  have reached := Encoder.reached_flaggedEncoder.validEncoding amountDecided
  generalize (Encoder.encodeValid amountDecided Encoder.flaggedEncoder).2 = after at *
  have known : after.Knows Session.amount :=
    (decides.enumerable (List.mem_singleton_self _) Session.amount (by decide +kernel)).knows
  have isTrue (assignment : Nat → Bool) (within : after.Within assignment Session.amount) :
      after.manager.value assignment ⟨-5⟩ = true := by
    have holds := (decides.means.value unexhausted assignment).holds plain
      (List.forall_mem_singleton.mpr ⟨fun symbol occurs => only symbol occurs ▸ within,
        fun _ => truth_amountDecided _⟩)
    exact (DiagramManager.value_capped ..).symm.trans holds
  refine claimed Encoder.unevenConfig after ⟨-5⟩ amountInDomain Session.amount
    Encoder.unevenConfig_lawful reached few fewLevels (Encoder.owns_capped.mp decides.means.owns)
    (decides.overSymbols plain unexhausted) made known
    (fun _ _ assignment assignment' within _ => ?_) (by decide +kernel)
  rw [isTrue assignment (within Session.amount known).1,
    isTrue assignment' (within Session.amount known).2]

end AbstractionRefinement
