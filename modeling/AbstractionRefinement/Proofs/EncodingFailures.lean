import AbstractionRefinement.Proofs.SessionBudgets

/-!
# Failures of encodings

Whether a formula is encoded depends on the configuration and not on what was encoded
before.  A primed atom, a symbol without a finite domain and an atom with too many
assignments are refused, in the order in which the formula is traversed, and nothing else is
as long as the manager is not exhausted.

An encoding is described by its failure, from every encoder whose symbols have the configured
domains, with one rule for every way in which encodings are composed.
-/

namespace AbstractionRefinement

/-- The error of an outcome, if it is one. -/
def failure? {ε α : Type} : Except ε α → Option ε
  | .ok _ => none
  | .error error => some error

theorem exists_of_failure?_eq_none {ε α : Type} {outcome : Except ε α}
    (succeeds : failure? outcome = none) : ∃ result, outcome = .ok result := by
  cases outcome with
  | ok result => exact ⟨result, rfl⟩
  | error error => cases succeeds

theorem eq_error_of_failure? {ε α : Type} {outcome : Except ε α} {error : ε}
    (fails : failure? outcome = some error) : outcome = .error error := by
  cases outcome with
  | ok result => cases fails
  | error error' => exact congrArg Except.error (Option.some.inj fails)

theorem findSome?_cons_eq_or {ι ε : Type} (failure : ι → Option ε) (item : ι) (items : List ι) :
    (item :: items).findSome? failure = (failure item).or (items.findSome? failure) := by
  rw [List.findSome?_cons]
  cases failure item <;> rfl

theorem findSome?_congr {ι ε : Type} {failure failure' : ι → Option ε} {items : List ι}
    (same : ∀ item ∈ items, failure item = failure' item) :
    items.findSome? failure = items.findSome? failure' := by
  induction items with
  | nil => rfl
  | cons item items ih =>
      rw [List.forall_mem_cons] at same
      rw [findSome?_cons_eq_or, findSome?_cons_eq_or, same.1, ih same.2]

namespace Encoder

/-- Why a symbol has no domain. -/
def symbolFailure (config : SolverConfig) (symbol : Symbol) : Option UnknownCause :=
  failure? (domainOf config symbol)

/-- Number of values of a symbol's domain. -/
def domainSize (config : SolverConfig) (symbol : Symbol) : Nat :=
  match domainOf config symbol with
  | .ok (_, size) => size
  | .error _ => 0

/-- Number of assignments of some symbols. -/
def assignmentTotal (config : SolverConfig) (symbols : List Symbol) : Nat :=
  symbols.foldl (fun total symbol => total * domainSize config symbol) 1

/-- Why an atom is not compiled. -/
def atomFailure (config : SolverConfig) (formula : Expr) : Option UnknownCause :=
  if formula.hasPrime then some (.unsupported ("primed expression " ++ formula.display))
  else
    (formula.symbols.findSome? (symbolFailure config)).or <|
      if config.maxAtomAssignments <
          min (assignmentTotal config formula.symbols) maxCountedAssignments then
        some .resourceLimit
      else none

mutual

/-- Why a formula is not encoded. -/
def encodingFailure (config : SolverConfig) : Expr → Option UnknownCause
  | .lit value => if value.asBool.isSome then none else atomFailure config (.lit value)
  | .sym symbol =>
      if symbol.ty.isBool then symbolFailure config symbol else atomFailure config (.sym symbol)
  | .unary operator operand ty =>
      if operator = .not then encodingFailure config operand
      else atomFailure config (.unary operator operand ty)
  | .binary operator left right ty =>
      if (operator.connective left.ty).isSome then
        (encodingFailure config left).or (encodingFailure config right)
      else atomFailure config (.binary operator left right ty)
  | .ternary operator first second third ty =>
      if operator = .ite ∧ second.ty.isBool then
        (encodingFailure config first).or
          ((encodingFailure config second).or (encodingFailure config third))
      else atomFailure config (.ternary operator first second third ty)
  | .nary operator operands ty =>
      if operator = .and ∨ operator = .or then firstFailure config operands
      else atomFailure config (.nary operator operands ty)

/-- Why the first of several formulas that is not encoded is not. -/
def firstFailure (config : SolverConfig) : List Expr → Option UnknownCause
  | [] => none
  | operand :: operands => (encodingFailure config operand).or (firstFailure config operands)

end

theorem firstFailure_eq_findSome? (config : SolverConfig) (operands : List Expr) :
    firstFailure config operands = operands.findSome? (encodingFailure config) := by
  induction operands with
  | nil => rfl
  | cons operand operands ih => rw [firstFailure, ih, findSome?_cons_eq_or]

/-- Why a formula is not asserted. -/
def assertionFailure (config : SolverConfig) (formula : Expr) : Option UnknownCause :=
  (encodingFailure config formula).or (formula.symbols.findSome? (symbolFailure config))

/-- The encoder reads domains and the number of assignments as configured, and its symbols are
encoded over the configured domains. -/
structure HasDomains (config : SolverConfig) (encoder : Encoder) : Prop where
  limit_eq : encoder.config.maxAtomAssignments = config.maxAtomAssignments
  domainOf_eq (symbol : Symbol) : domainOf encoder.config symbol = domainOf config symbol
  known {symbol : Symbol} {encoded : SymbolBits} :
    OrderedMap.find? symbol encoder.symbols = some encoded →
      domainOf config symbol = .ok (encoded.domain, encoded.size)

end Encoder

namespace Encoding

variable {config : SolverConfig} {encoder : Encoder} {α β ι : Type}

/-- From an encoder with the configured domains the encoding leads to such an encoder and
returns what is described.  Unless the manager is exhausted afterwards, it was not exhausted
before, and the encoding fails exactly with the given cause. -/
def Fails (config : SolverConfig) (computation : Encoding α) (failure : Option UnknownCause)
    (returns : α → Prop) : Prop :=
  ∀ encoder : Encoder, encoder.HasDomains config →
    (computation encoder).2.HasDomains config ∧
      (∀ result, (computation encoder).1 = .ok result → returns result) ∧
      ((computation encoder).2.manager.exhaustion = none →
        encoder.manager.exhaustion = none ∧ failure? (computation encoder).1 = failure)

theorem fails_pure {result : α} {returns : α → Prop} (holds : returns result) :
    Fails config (pure result) none returns := by
  refine fun encoder has => ⟨has, ?_, fun unexhausted => ⟨unexhausted, rfl⟩⟩
  rintro _ ⟨⟩
  exact holds

theorem fails_throw (cause : UnknownCause) {returns : α → Prop} :
    Fails config (throw cause : Encoding α) (some cause) returns := by
  refine fun encoder has => ⟨has, ?_, fun unexhausted => ⟨unexhausted, rfl⟩⟩
  rintro _ ⟨⟩

theorem fails_throw_bind (cause : UnknownCause) (next : β → Encoding α) {returns : α → Prop} :
    Fails config ((throw cause : Encoding β) >>= next) (some cause) returns :=
  fails_throw cause

theorem fails_lift (outcome : Except UnknownCause α) :
    Fails config (outcome : Encoding α) (failure? outcome) fun result => outcome = .ok result := by
  cases outcome with
  | error cause => exact fails_throw cause
  | ok result => exact fails_pure rfl

theorem Fails.bind {first : Encoding β} {next : β → Encoding α}
    {failure failure' : Option UnknownCause} {middle : β → Prop} {returns : α → Prop}
    (fails : Fails config first failure middle)
    (failsNext : ∀ result, middle result → Fails config (next result) failure' returns) :
    Fails config (first >>= next) (failure.or failure') returns := by
  intro encoder has
  obtain ⟨has', returned, refused⟩ := fails encoder has
  rw [bind_run]
  rcases run : first encoder with ⟨cause | result, after⟩
  · rw [run] at has' refused
    refine ⟨has', by rintro _ ⟨⟩, fun unexhausted => ?_⟩
    obtain ⟨before, same⟩ := refused unexhausted
    exact ⟨before, by rw [← same]; rfl⟩
  · rw [run] at has' returned refused
    obtain ⟨has'', returned', refused'⟩ := failsNext result (returned result rfl) after has'
    refine ⟨has'', returned', fun unexhausted => ?_⟩
    obtain ⟨between, same'⟩ := refused' unexhausted
    obtain ⟨before, same⟩ := refused between
    exact ⟨before, by rw [← same, same']; rfl⟩

theorem Fails.andThen {first : Encoding β} {next : β → Encoding α} {failure : Option UnknownCause}
    {middle : β → Prop} {returns : α → Prop} (fails : Fails config first failure middle)
    (succeeds : ∀ result, middle result → Fails config (next result) none returns) :
    Fails config (first >>= next) failure returns := by
  rw [← Option.or_none (o := failure)]
  exact fails.bind succeeds

theorem fails_get {next : Encoder → Encoding α} {failure : Option UnknownCause}
    {returns : α → Prop}
    (fails : ∀ encoder, encoder.HasDomains config → Fails config (next encoder) failure returns) :
    Fails config (get >>= next) failure returns := by
  intro encoder has
  rw [bind_run, get_run]
  exact fails encoder has encoder has

theorem fails_foldlM {step : α → ι → Encoding α} {failure : ι → Option UnknownCause}
    {items : List ι} (round : ∀ result, ∀ item ∈ items,
      Fails config (step result item) (failure item) fun _ => True) (start : α) :
    Fails config (items.foldlM step start) (items.findSome? failure) fun _ => True := by
  induction items generalizing start with
  | nil => exact fails_pure trivial
  | cons item items ih =>
      rw [List.foldlM_cons, findSome?_cons_eq_or]
      exact (round start item List.mem_cons_self).bind fun result _ =>
        ih (fun result item member => round result item (List.mem_cons_of_mem _ member)) result

/-- A loop that collects its results fails with the first failure of a round. -/
theorem fails_mapM {step : ι → Encoding β} {failure : ι → Option UnknownCause}
    {returns : ι → β → Prop}
    (round : ∀ item, Fails config (step item) (failure item) (returns item)) (items : List ι) :
    Fails config (items.mapM step) (items.findSome? failure) (List.Forall₂ returns items) := by
  induction items with
  | nil =>
      rw [List.mapM_nil]
      exact fails_pure .nil
  | cons item items ih =>
      rw [List.mapM_cons, findSome?_cons_eq_or]
      exact (round item).bind fun result holds =>
        ih.andThen fun results rest => fails_pure (.cons holds rest)

theorem Budgeted.exhausted {computation : Encoding α} (budgeted : Budgeted computation)
    (exhausted : encoder.manager.exhaustion.isSome = true) :
    (computation encoder).2.manager.exhaustion.isSome = true :=
  budgeted.lasts exhausted

theorem Budgeted.unexhausted {computation : Encoding α} (budgeted : Budgeted computation)
    (unexhausted : (computation encoder).2.manager.exhaustion = none) :
    encoder.manager.exhaustion = none := by
  rw [← Option.not_isSome_iff_eq_none]
  intro exhausted
  have lasts := budgeted.exhausted exhausted
  rw [unexhausted] at lasts
  cases lasts

theorem OnlyDiagrams.fails {computation : Encoding α} (only : OnlyDiagrams computation)
    (budgeted : Budgeted computation) : Fails config computation none fun _ => True := by
  intro encoder has
  obtain ⟨result, manager, run⟩ := only encoder
  have before : _ → encoder.manager.exhaustion = none := budgeted.unexhausted
  rw [run] at before ⊢
  exact ⟨⟨has.limit_eq, has.domainOf_eq, has.known⟩, fun _ _ => trivial,
    fun unexhausted => ⟨before unexhausted, rfl⟩⟩

theorem fails_diagram {operation : DiagramManager → α × DiagramManager}
    (budgeted : AbstractionRefinement.Budgeted operation) :
    Fails config (Encoder.diagram operation) none fun _ => True :=
  (onlyDiagrams_diagram operation).fails (budgeted_diagram budgeted)

theorem fails_conj (first second : Edge) :
    Fails config (Encoder.diagram (DiagramManager.conj first second)) none fun _ => True :=
  fails_diagram (DiagramManager.budgeted_ite first second .zero)

theorem fails_checkExhausted : Fails config Encoder.checkExhausted none fun _ => True := by
  intro encoder has
  have before : _ → encoder.manager.exhaustion = none := budgeted_checkExhausted.unexhausted
  unfold Encoder.checkExhausted at before ⊢
  cases known : encoder.manager.noticeDeadline.exhaustion with
  | none =>
      simp only [known] at before ⊢
      exact ⟨⟨has.limit_eq, has.domainOf_eq, has.known⟩, fun _ _ => trivial,
        fun _ => ⟨before trivial, rfl⟩⟩
  | some exhaustion =>
      cases exhaustion <;> simp only [known] at before ⊢ <;>
        exact ⟨⟨has.limit_eq, has.domainOf_eq, has.known⟩, fun _ _ => trivial, by rintro ⟨⟩⟩

theorem fails_checked (result : α) :
    Fails config (do Encoder.checkExhausted; return result) none fun _ => True :=
  fails_checkExhausted.andThen fun _ _ => fails_pure trivial

theorem fails_encodingOf (symbol : Symbol) :
    Fails config (Encoder.encodingOf symbol) (Encoder.symbolFailure config symbol)
      fun encoded => Encoder.domainOf config symbol = .ok (encoded.domain, encoded.size) := by
  intro encoder has
  unfold Encoder.symbolFailure
  cases found : OrderedMap.find? symbol encoder.symbols with
  | some known =>
      have run : Encoder.encodingOf symbol encoder = (.ok known, encoder) := by
        unfold Encoder.encodingOf
        simp only [bind_run, get_run, found, pure_run]
      rw [run, has.known found]
      refine ⟨has, ?_, fun unexhausted => ⟨unexhausted, rfl⟩⟩
      rintro _ ⟨⟩
      rfl
  | none =>
      cases hasDomain : Encoder.domainOf config symbol with
      | error cause =>
          have run : Encoder.encodingOf symbol encoder = (.error cause, encoder) := by
            unfold Encoder.encodingOf
            simp only [bind_run, get_run, found, has.domainOf_eq, hasDomain, error_run]
          rw [run]
          exact ⟨has, by rintro _ ⟨⟩, fun unexhausted => ⟨unexhausted, rfl⟩⟩
      | ok domain =>
          obtain ⟨domain, size⟩ := domain
          obtain ⟨manager, valid, -, run⟩ :=
            encodingOf_run found ((has.domainOf_eq symbol).trans hasDomain)
          have before : _ → encoder.manager.exhaustion = none :=
            (budgeted_encodingOf symbol).unexhausted
          rw [run] at before ⊢
          refine ⟨⟨has.limit_eq, has.domainOf_eq, fun {other encoded} known => ?_⟩, ?_,
            fun unexhausted => ⟨before unexhausted, rfl⟩⟩
          · have known : OrderedMap.find? other (OrderedMap.insert symbol _ encoder.symbols) =
                some encoded := known
            rw [OrderedMap.find?_insert] at known
            split at known
            case isTrue same =>
              cases known
              rw [same, hasDomain]
            case isFalse => exact has.known known
          · rintro _ ⟨⟩
            rfl

theorem fails_domainConstraint (formula : Expr) :
    Fails config (Encoder.domainConstraint formula)
      (formula.symbols.findSome? (Encoder.symbolFailure config)) fun _ => True :=
  fails_foldlM (fun _ symbol _ =>
    (fails_encodingOf symbol).andThen fun _ _ => fails_conj _ _) _

theorem onlyDiagrams_enumerate (holds : (Symbol → Option Value) → Option Bool)
    (encodings : List (Symbol × SymbolBits)) (assignment : Symbol → Option Value) :
    OnlyDiagrams (Encoder.enumerate holds encodings assignment) := by
  induction encodings generalizing assignment with
  | nil =>
      rw [Encoder.enumerate]
      exact onlyDiagrams_pure _
  | cons entry rest ih =>
      obtain ⟨symbol, encoded⟩ := entry
      rw [Encoder.enumerate]
      refine onlyDiagrams_foldlM (fun total offset => ?_) _ _
      apply (ih _).bind
      intro inner
      split
      · exact onlyDiagrams_pure _
      · unfold Encoder.offsetCube
        exact (onlyDiagrams_diagram _).bind fun cube =>
          (onlyDiagrams_diagram _).bind fun part => onlyDiagrams_diagram _

theorem foldl_size_eq {symbols : List Symbol} {encodings : List (Symbol × SymbolBits)}
    (sized : List.Forall₂ (fun symbol entry => Encoder.domainOf config symbol =
      .ok (entry.2.domain, entry.2.size)) symbols encodings) (start : Nat) :
    encodings.foldl (fun total entry => total * entry.2.size) start =
      symbols.foldl (fun total symbol => total * Encoder.domainSize config symbol) start := by
  induction sized generalizing start with
  | nil => rfl
  | @cons symbol entry symbols encodings hasDomain _ ih =>
      have size : Encoder.domainSize config symbol = entry.2.size := by
        rw [Encoder.domainSize, hasDomain]
      rw [List.foldl_cons, List.foldl_cons, ih, size]

theorem fails_encodeAtom (formula : Expr) :
    Fails config (Encoder.encodeAtom formula) (Encoder.atomFailure config formula)
      fun _ => True := by
  unfold Encoder.encodeAtom Encoder.atomFailure
  split
  case isTrue => exact fails_throw_bind _ _
  case isFalse =>
    have each (symbol : Symbol) : Fails config
        (do return (symbol, ← Encoder.encodingOf symbol)) (Encoder.symbolFailure config symbol)
        fun entry => Encoder.domainOf config symbol = .ok (entry.2.domain, entry.2.size) :=
      (fails_encodingOf symbol).andThen fun encoded hasDomain => fails_pure hasDomain
    apply (fails_mapM each formula.symbols).bind
    intro encodings sized
    apply fails_get
    intro encoder has
    dsimp only
    rw [has.limit_eq, foldl_size_eq sized]
    show Fails config (if config.maxAtomAssignments < min
      (Encoder.assignmentTotal config formula.symbols) _ then _ else _) _ _
    split
    · exact fails_throw_bind _ _
    · exact (onlyDiagrams_enumerate _ _ _).fails (budgeted_enumerate _ _ _)

theorem fails_encodeOperands {operation : Edge → Edge → DiagramManager → Edge × DiagramManager}
    (budgeted : ∀ first second, AbstractionRefinement.Budgeted (operation first second))
    {operands : List Expr} (each : ∀ operand ∈ operands, Fails config (Encoder.encode operand)
      (Encoder.encodingFailure config operand) fun _ => True) (start : Edge) :
    Fails config (operands.foldlM (fun (total : Edge) operand => do
      let edge ← Encoder.encode operand
      Encoder.diagram (operation total edge)) start) (Encoder.firstFailure config operands)
      fun _ => True := by
  rw [Encoder.firstFailure_eq_findSome?]
  exact fails_foldlM (fun total operand member =>
    (each operand member).andThen fun edge _ => fails_diagram (budgeted total edge)) start

/-- A formula is encoded unless it is refused. -/
theorem fails_encode (formula : Expr) : Fails config (Encoder.encode formula)
    (Encoder.encodingFailure config formula) fun _ => True := by
  have settles {computation : Encoding Edge} {failure : Option UnknownCause}
      (fails : Fails config computation failure fun _ => True) :
      Fails config (computation >>= Encoder.settled) failure fun _ => True :=
    fails.andThen fun edge _ => fails_checked edge
  have atom (formula : Expr) : Fails config (Encoder.encodeAtom formula >>= Encoder.settled)
      (Encoder.atomFailure config formula) fun _ => True := settles (fails_encodeAtom formula)
  induction formula with
  | lit value =>
      cases known : value.asBool with
      | none =>
          rw [encode_lit known, Encoder.encodingFailure, known]
          exact atom _
      | some truth =>
          have literal : value = .bool truth := by
            cases value <;> simp_all [Value.asBool]
          rw [Encoder.encodingFailure, known, literal, Encoder.encode]
          exact fails_checked _
  | sym symbol =>
      rw [Encoder.encode, Encoder.encodingFailure]
      split
      · exact (fails_encodingOf symbol).andThen fun encoded _ =>
          settles (fails_diagram (DiagramManager.budgeted_makeVariable _))
      · exact atom _
  | unary operator operand ty ih =>
      cases operator
      case not =>
        rw [Encoder.encode, Encoder.encodingFailure, if_pos rfl]
        exact ih.andThen fun edge _ => fails_checked (-edge)
      all_goals
        rw [Encoder.encode, Encoder.encodingFailure, if_neg (by rintro ⟨⟩)]
        · exact atom _
        · rintro ⟨⟩
  | binary operator left right ty ihLeft ihRight =>
      have connective (operation : Edge → Edge → DiagramManager → Edge × DiagramManager)
          (budgeted : ∀ first second, AbstractionRefinement.Budgeted (operation first second)) :
          Fails config (do
            let first ← Encoder.encode left
            let second ← Encoder.encode right
            Encoder.settled (← Encoder.diagram (operation first second)))
            ((Encoder.encodingFailure config left).or (Encoder.encodingFailure config right))
            fun _ => True :=
        ihLeft.bind fun first _ => ihRight.andThen fun second _ =>
          settles (fails_diagram (budgeted first second))
      rw [Encoder.encodingFailure]
      cases operator
      case imply =>
        rw [Encoder.encode]
        exact connective _ fun _ _ => DiagramManager.budgeted_ite _ _ _
      case iff =>
        rw [Encoder.encode]
        exact connective _ fun _ _ => DiagramManager.budgeted_ite _ _ _
      case eq =>
        rw [Encoder.encode]
        by_cases boolean : left.ty.isBool
        · simp only [BinaryOperator.connective, boolean, if_true]
          exact connective _ fun _ _ => DiagramManager.budgeted_ite _ _ _
        · simp only [BinaryOperator.connective, boolean, Bool.false_eq_true, if_false]
          exact atom _
      case neq =>
        rw [Encoder.encode]
        by_cases boolean : left.ty.isBool
        · simp only [BinaryOperator.connective, boolean, if_true]
          exact connective _ fun _ _ => DiagramManager.budgeted_ite _ _ _
        · simp only [BinaryOperator.connective, boolean, Bool.false_eq_true, if_false]
          exact atom _
      all_goals
        rw [Encoder.encode]
        · exact atom _
        all_goals rintro ⟨⟩
  | ternary operator first second third ty ihFirst ihSecond ihThird =>
      rw [Encoder.encode, Encoder.encodingFailure]
      split
      · exact ihFirst.bind fun condition _ => ihSecond.bind fun positive _ =>
          ihThird.andThen fun negative _ =>
            settles (fails_diagram (DiagramManager.budgeted_ite condition positive negative))
      · exact atom _
  | nary operator operands ty ih =>
      have connective {operation : Edge → Edge → DiagramManager → Edge × DiagramManager}
          (budgeted : ∀ first second, AbstractionRefinement.Budgeted (operation first second))
          (start : Edge) := settles (fails_encodeOperands budgeted ih start)
      rw [Encoder.encodingFailure]
      cases operator
      case and =>
        rw [Encoder.encode, encodeConjunction_eq_foldlM, if_pos (.inl rfl)]
        exact connective (fun _ _ => DiagramManager.budgeted_ite _ _ _) _
      case or =>
        rw [Encoder.encode, encodeDisjunction_eq_foldlM, if_pos (.inr rfl)]
        exact connective (fun _ _ => DiagramManager.budgeted_ite _ _ _) _
      all_goals
        rw [Encoder.encode, if_neg (by rintro (⟨⟨⟩⟩ | ⟨⟨⟩⟩))]
        · exact atom _
        all_goals rintro ⟨⟩

theorem fails_encodeValid (formula : Expr) :
    Fails config (Encoder.encodeValid formula) (Encoder.assertionFailure config formula)
      fun _ => True :=
  (fails_encode formula).bind fun edge _ =>
    (fails_domainConstraint formula).andThen fun valid _ => fails_conj edge valid

theorem fails_assertionEncoding (formula : Expr) :
    Fails config (Session.assertionEncoding formula) (Encoder.assertionFailure config formula)
      fun _ => True :=
  (fails_encodeValid formula).andThen fun edge _ => fails_checked edge

theorem fails_encodeAllValid (formulas : List Expr) :
    Fails config (Encoder.encodeAllValid formulas)
      (formulas.findSome? (Encoder.assertionFailure config)) fun _ => True := by
  have round (total : Edge) (formula : Expr) : Fails config (do
      let edge ← Encoder.encodeValid formula
      Encoder.diagram (DiagramManager.conj total edge)) (Encoder.assertionFailure config formula)
      fun _ => True :=
    (fails_encodeValid formula).andThen fun edge _ => fails_conj total edge
  exact (fails_foldlM (fun total formula _ => round total formula) _).andThen
    fun total _ => fails_checked total

theorem fails_conjoin (assertions : List Assertion) :
    Fails config (Session.conjoin assertions)
      (assertions.findSome? fun assertion => failure? assertion.encoded) fun _ => True := by
  have round (total : Edge) (assertion : Assertion) : Fails config (do
      let edge ← (assertion.encoded : Except UnknownCause Edge)
      Encoder.diagram (DiagramManager.conj total edge)) (failure? assertion.encoded)
      fun _ => True :=
    (fails_lift assertion.encoded).andThen fun edge _ => fails_conj total edge
  exact (fails_foldlM (fun total assertion _ => round total assertion) _).andThen
    fun total _ => fails_checked total

end Encoding

end AbstractionRefinement
