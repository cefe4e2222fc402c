import AbstractionRefinement.Proofs.DomainValues
import AbstractionRefinement.Proofs.CompiledTruth

/-!
# Encoding formulas

The diagram of a formula has the truth value of the formula wherever the levels give
every symbol a value of its domain.  Atoms are compiled by enumeration, where an
undefined truth value counts as false, and the connectives combine diagrams.

A choice between truth values is compiled by the if-then-else operation, which is
right for connectives only, so truth values are given for formulas without such choices.
-/

namespace AbstractionRefinement

namespace Expr

mutual

/-- Whether a diagram of the formula is made of a choice between truth values. -/
def choosesTruth : Expr → Bool
  | lit _ | sym _ => false
  | unary _ operand _ => operand.choosesTruth
  | binary _ left right _ => left.choosesTruth || right.choosesTruth
  | ternary operator _ second _ _ => operator = .ite && second.ty.isBool
  | nary _ operands _ => choosesTruthAny operands

def choosesTruthAny : List Expr → Bool
  | [] => false
  | operand :: operands => operand.choosesTruth || choosesTruthAny operands

end

theorem choosesTruthAny_eq_any (operands : List Expr) :
    choosesTruthAny operands = operands.any choosesTruth := by
  induction operands with
  | nil => rfl
  | cons operand operands ih => rw [choosesTruthAny, ih, List.any_cons]

end Expr

namespace Encoder

variable {alphabet : List Symbol} {encoder : Encoder}

/-- The assignment that an enumeration reaches under an assignment of the levels. -/
def enumerated (assignment : Nat → Bool) :
    List (Symbol × SymbolBits) → (Symbol → Option Value) → Symbol → Option Value
  | [], values => values
  | (symbol, encoded) :: rest, values =>
      enumerated assignment rest fun other =>
        if other = symbol then some (encoded.domain.value (encoded.offset assignment))
        else values other

/-- The enumeration reaches the values of the symbols. -/
theorem enumerated_eq {encodings : List (Symbol × SymbolBits)}
    (known : ∀ entry ∈ encodings, OrderedMap.find? entry.1 encoder.symbols = some entry.2)
    (assignment : Nat → Bool) (values : Symbol → Option Value) (symbol : Symbol) :
    enumerated assignment encodings values symbol =
      if symbol ∈ encodings.map Prod.fst then encoder.interpret assignment symbol
      else values symbol := by
  induction encodings generalizing values with
  | nil => rfl
  | cons entry encodings ih =>
      obtain ⟨first, encoded⟩ := entry
      simp only [List.mem_cons, forall_eq_or_imp] at known
      rw [enumerated, ih known.2]
      by_cases later : symbol ∈ encodings.map Prod.fst
      · simp [later]
      · by_cases same : symbol = first
        · subst same
          simp [later, interpret, known.1]
        · simp [later, same]

end Encoder

namespace Encoding

variable {alphabet : List Symbol} {encoder : Encoder}

/-- The diagram compiled by enumeration decides the predicate. -/
theorem ensures_enumerate (holds : (Symbol → Option Value) → Option Bool)
    (encodings : List (Symbol × SymbolBits)) (values : Symbol → Option Value)
    (known : ∀ entry ∈ encodings, OrderedMap.find? entry.1 encoder.symbols = some entry.2) :
    Ensures alphabet (Encoder.enumerate holds encodings values) encoder fun edge after =>
      after.Means edge fun assignment truth =>
        (∀ entry ∈ encodings, entry.2.offset assignment < entry.2.size) →
          truth = decide (holds (Encoder.enumerated assignment encodings values) = some true) := by
  induction encodings generalizing values encoder with
  | nil =>
      rw [Encoder.enumerate]
      apply ensures_pure
      intro wellFormed
      by_cases true_ : holds values = some true
      · rw [if_pos true_]
        apply (Encoder.means_one wellFormed).mono
        rintro assignment truth rfl -
        simp [Encoder.enumerated, true_]
      · rw [if_neg true_]
        apply (Encoder.means_zero wellFormed).mono
        rintro assignment truth rfl -
        simp [Encoder.enumerated, true_]
  | cons entry rest ih =>
      obtain ⟨symbol, encoded⟩ := entry
      simp only [List.mem_cons, forall_eq_or_imp] at known
      obtain ⟨found, known⟩ := known
      rw [Encoder.enumerate]
      -- So far the right offsets among those that are done are covered.
      refine (ensures_foldlM (fun done total after => after.Means total fun assignment truth =>
        encoded.offset assignment < encoded.size →
        (∀ entry ∈ rest, entry.2.offset assignment < entry.2.size) →
          truth = (decide (encoded.offset assignment ∈ done) &&
            decide (holds (Encoder.enumerated assignment ((symbol, encoded) :: rest) values) =
              some true))) (List.range encoded.size) ?_ ?_).mono ?_
      · intro wellFormed
        apply (Encoder.means_zero wellFormed).mono
        rintro assignment truth rfl - -
        simp
      · intro done offset later total middle split grown wellFormed means
        have small : offset < encoded.size := by
          have inside : offset ∈ List.range encoded.size := by simp [split]
          exact List.mem_range.mp inside
        have found' := grown.find?_eq found
        refine (ih _ fun entry member => grown.find?_eq (known entry member)).bind ?_
        intro inner after grown' wellFormed' meansInner
        split
        case isTrue isZero =>
          have isZero : inner = .zero := by simpa [Edge.isZero] using isZero
          apply ensures_pure
          intro wellFormed'
          refine ⟨grown'.diagrams.owns means.owns, fun unexhausted assignment within withinRest =>
            ?_⟩
          have kept := (means.grow wellFormed grown').value unexhausted assignment within withinRest
          have never := meansInner.value unexhausted assignment withinRest
          rw [isZero, DiagramManager.value_zero] at never
          rw [kept]
          by_cases here : encoded.offset assignment = offset
          · rw [Encoder.enumerated, here, ← never]
            simp
          · simp [here]
        case isFalse =>
          refine (ensures_offsetCube (grown'.find?_eq found') small).bind ?_
          intro cube after' grown'' wellFormed'' meansCube
          refine (ensures_operation DiagramManager.conj_delivers (fun _ => meansCube)
            fun _ => meansInner.grow wellFormed' grown'').bind ?_
          intro part last grown''' wellFormed''' meansPart
          refine (ensures_operation DiagramManager.disj_delivers
            (fun _ => means.grow wellFormed (grown'.trans (grown''.trans grown''')))
            fun _ => meansPart).mono ?_
          intro total' final _ _ meansTotal
          apply meansTotal.mono
          rintro assignment truth ⟨before, added, kept, ⟨cube', inner', rfl, inside, rfl⟩, rfl⟩
            within withinRest
          rw [kept within withinRest, inside withinRest]
          by_cases here : encoded.offset assignment = offset
          · rw [Encoder.enumerated, here]
            simp
          · simp [here]
      · intro total after _ _ means
        apply means.mono
        intro assignment truth meaning within
        simp only [List.mem_cons, forall_eq_or_imp] at within
        rw [meaning within.1 within.2]
        simp [within.1]

end Encoding

namespace Encoder

variable {alphabet : List Symbol} {encoder : Encoder}

/-- The values of an encoded integer symbol are few enough to be enumerated. -/
def Enumerable (encoder : Encoder) (symbol : Symbol) : Prop :=
  ∃ encoded, OrderedMap.find? symbol encoder.symbols = some encoded ∧
    (symbol.ty = .int → encoded.size ≤ encoder.config.maxAtomAssignments)

theorem Enumerable.knows {symbol : Symbol} (enumerable : encoder.Enumerable symbol) :
    encoder.Knows symbol := by
  obtain ⟨encoded, found, -⟩ := enumerable
  exact ⟨encoded, found⟩

theorem Enumerable.grow {after : Encoder} {symbol : Symbol} (enumerable : encoder.Enumerable symbol)
    (grown : encoder.Extends alphabet after) : after.Enumerable symbol := by
  obtain ⟨encoded, found, few⟩ := enumerable
  exact ⟨encoded, grown.find?_eq found, by rwa [grown.config_eq]⟩

section Growth

variable {after : Encoder} {formula : Expr}
  (enumerable : ∀ symbol ∈ formula.symbols, encoder.Enumerable symbol)
  (grown : encoder.Extends alphabet after) (assignment : Nat → Bool)
include enumerable grown

theorem within_iff_of_grown : (∀ symbol ∈ formula.symbols, after.Within assignment symbol) ↔
    ∀ symbol ∈ formula.symbols, encoder.Within assignment symbol :=
  forall₂_congr fun symbol occurs => (enumerable symbol occurs).knows.within_iff grown assignment

theorem truth_of_grown : formula.truth (after.interpret assignment) =
    formula.truth (encoder.interpret assignment) :=
  Expr.truth_congr fun symbol occurs =>
    (enumerable symbol occurs).knows.interpret_eq grown assignment

end Growth

/-- The edge is the diagram of the formula.  Unless the formula chooses between truth
values, it has the truth value of the formula wherever its symbols have values of their
domains. -/
structure Encodes (encoder : Encoder) (formula : Expr) (edge : Edge) : Prop where
  enumerable : ∀ symbol ∈ formula.symbols, encoder.Enumerable symbol
  means : encoder.Means edge fun assignment truth => formula.choosesTruth = false →
    (∀ symbol ∈ formula.symbols, encoder.Within assignment symbol) →
      truth = formula.truth (encoder.interpret assignment)

theorem Encodes.grow {after : Encoder} {formula : Expr} {edge : Edge}
    (encodes : encoder.Encodes formula edge) (wellFormed : encoder.WellFormed)
    (grown : encoder.Extends alphabet after) : after.Encodes formula edge where
  enumerable symbol occurs := (encodes.enumerable symbol occurs).grow grown
  means := by
    apply (encodes.means.grow wellFormed grown).mono
    intro assignment truth meaning plain within
    rw [truth_of_grown encodes.enumerable grown]
    exact meaning plain ((within_iff_of_grown encodes.enumerable grown assignment).mp within)

/-- One factor of a product of positive numbers is at most the product. -/
theorem le_foldl_mul {α : Type} {size : α → Nat} {items : List α} {item : α}
    (positive : ∀ item ∈ items, 1 ≤ size item) (start : Nat) (one_le : 1 ≤ start) :
    start ≤ items.foldl (fun total item => total * size item) start ∧
      (item ∈ items → size item ≤ items.foldl (fun total item => total * size item) start) := by
  induction items generalizing start with
  | nil => simp
  | cons first items ih =>
      simp only [List.mem_cons, forall_eq_or_imp] at positive
      have product : 1 ≤ start * size first := Nat.mul_pos one_le positive.1
      obtain ⟨startLe, itemLe⟩ := ih positive.2 (start * size first) product
      rw [List.foldl_cons]
      constructor
      · exact Nat.le_trans (Nat.le_mul_of_pos_right start positive.1) startLe
      · intro member
        rcases List.mem_cons.mp member with rfl | member
        · exact Nat.le_trans (Nat.le_mul_of_pos_left _ one_le) startLe
        · exact itemLe member

theorem size_le_of_domainOf {config : SolverConfig} {symbol : Symbol} {domain : BitDomain}
    {size : Nat} (hasDomain : domainOf config symbol = .ok (domain, size))
    (integer : symbol.ty = .int) : (size : Int) ≤ maxInt64 := by
  unfold domainOf at hasDomain
  rw [integer] at hasDomain
  simp only [Except.ok.injEq, Prod.mk.injEq] at hasDomain
  unfold saturateInt64 minInt64 maxInt64 at *
  omega

end Encoder

namespace Encoding

variable {alphabet : List Symbol} {encoder : Encoder}

/-- An atom is compiled by enumeration. -/
theorem ensures_encodeAtom {formula : Expr}
    (isAtom : ∀ assignment, formula.truth assignment = formula.atomTruth assignment)
    (occurs : ∀ symbol ∈ formula.symbols, symbol ∈ alphabet) :
    Ensures alphabet (Encoder.encodeAtom formula) encoder fun edge after =>
      after.Encodes formula edge := by
  unfold Encoder.encodeAtom
  split
  case isTrue => exact ensures_throw_bind
  case isFalse =>
    refine (ensures_mapM (fun done results after => results.map Prod.fst = done ∧
      ∀ entry ∈ results, OrderedMap.find? entry.1 after.symbols = some entry.2)
      formula.symbols ?_ ?_).bind ?_
    · intro
      simp
    · rintro done symbol rest results middle split grown wellFormed ⟨rfl, known⟩
      refine (ensures_encodingOf (occurs symbol (by simp [split]))).bind ?_
      intro encoded after grown' _ found
      apply ensures_pure
      intro
      refine ⟨by simp, ?_⟩
      simp only [List.mem_append, List.mem_singleton]
      rintro entry (member | rfl)
      · exact grown'.find?_eq (known entry member)
      · exact found
    · rintro encodings after grown wellFormed ⟨keys, known⟩
      refine ensures_get.bind ?_
      rintro _ _ - - ⟨rfl, rfl⟩
      split
      case isTrue => exact ensures_throw_bind
      case isFalse few =>
        have knowsAll {symbol : Symbol} (occurs : symbol ∈ formula.symbols) : ∃ encoded,
            (symbol, encoded) ∈ encodings ∧
              OrderedMap.find? symbol after.symbols = some encoded := by
          rw [← keys] at occurs
          obtain ⟨⟨_, encoded⟩, member, rfl⟩ := List.mem_map.mp occurs
          exact ⟨encoded, member, known _ member⟩
        refine (ensures_enumerate _ encodings _ known).mono ?_
        intro edge last grown' _ means
        constructor
        · intro symbol occurs
          obtain ⟨encoded, member, found⟩ := knowsAll occurs
          refine ⟨encoded, grown'.find?_eq found, fun integer => ?_⟩
          have bounded := Encoder.size_le_of_domainOf (wellFormed.places found).domain_eq integer
          have factor : encoded.size ≤ encodings.foldl (fun total entry => total * entry.2.size) 1 :=
            (Encoder.le_foldl_mul (fun entry member =>
              Encoder.size_pos_of_domainOf (wellFormed.places (known entry member)).domain_eq)
              1 (Nat.le_refl 1)).2 member
          have counted : min encoded.size Encoder.maxCountedAssignments ≤
              min (encodings.foldl (fun total entry => total * entry.2.size) 1)
                Encoder.maxCountedAssignments := by omega
          have few : min (encodings.foldl (fun total entry => total * entry.2.size) 1)
              Encoder.maxCountedAssignments ≤ after.config.maxAtomAssignments :=
            Nat.le_of_not_lt few
          rw [grown'.config_eq]
          unfold Encoder.maxCountedAssignments at *
          unfold maxInt64 at bounded
          omega
        · apply means.mono
          intro assignment truth meaning _ within
          have same : formula.atomTruth (Encoder.enumerated assignment encodings fun _ => none) =
              formula.atomTruth (last.interpret assignment) := by
            apply Expr.atomTruth_congr
            intro symbol occurs
            obtain ⟨encoded, -, found⟩ := knowsAll occurs
            rw [Encoder.enumerated_eq known, keys, if_pos occurs, grown'.interpret_eq found]
          rw [isAtom, ← same]
          apply meaning
          intro entry member
          have occurs : entry.1 ∈ formula.symbols := by
            rw [← keys]
            exact List.mem_map_of_mem member
          obtain ⟨encoded, found, small⟩ := within entry.1 occurs
          rw [grown'.find?_eq (known entry member)] at found
          cases found
          exact small

theorem ensures_settled {formula : Expr} {edge : Edge}
    (encodes : encoder.WellFormed → encoder.Encodes formula edge) :
    Ensures alphabet (Encoder.settled edge) encoder fun edge after =>
      after.Encodes formula edge := by
  apply ensures_of_wellFormed
  intro wellFormed
  refine ensures_checkExhausted.bind ?_
  intro _ after grown _ _
  exact ensures_pure fun _ => (encodes wellFormed).grow wellFormed grown

theorem encodes_ofBool (wellFormed : encoder.WellFormed) (truth : Bool) :
    encoder.Encodes (.lit (.bool truth)) (if truth then .one else .zero) := by
  refine ⟨by simp, ?_⟩
  cases truth with
  | true => exact (Encoder.means_one wellFormed).mono fun _ _ constant _ _ => constant
  | false => exact (Encoder.means_zero wellFormed).mono fun _ _ constant _ _ => constant

theorem encodes_not {operand : Expr} {edge : Edge} (encodes : encoder.Encodes operand edge)
    (ty : Ty) : encoder.Encodes (.unary .not operand ty) (-edge) where
  enumerable := encodes.enumerable
  means := encodes.means.neg.mono fun assignment truth meaning plain within => by
    rw [Expr.truth_not, ← meaning plain within, Bool.not_not]

section Connectives

variable {operation : Edge → Edge → DiagramManager → Edge × DiagramManager}
  {combine : Bool → Bool → Bool}
  (delivers : ∀ {manager : DiagramManager} {bound : Nat} {f g : Edge},
    manager.WellFormed bound → DiagramManager.DistinctKeys manager.nodeLimit →
    manager.Owns f → manager.Owns g →
    manager.Delivers bound (operation f g manager) fun after edge =>
      ∀ assignment, after.value assignment edge =
        combine (after.value assignment f) (after.value assignment g))
include delivers

/-- The diagram of a connective of two formulas. -/
theorem ensures_encodeConnective {left right : Expr} {operator : BinaryOperator} {ty : Ty}
    (isConnective : operator.connective left.ty = some combine)
    (each : ∀ operand ∈ [left, right], ∀ encoder : Encoder,
      Ensures alphabet (Encoder.encode operand) encoder fun edge after =>
        after.Encodes operand edge) :
    Ensures alphabet (do
      let first ← Encoder.encode left
      let second ← Encoder.encode right
      Encoder.settled (← Encoder.diagram (operation first second)))
      encoder fun edge after => after.Encodes (.binary operator left right ty) edge := by
  simp only [List.mem_cons, List.not_mem_nil, or_false, forall_eq_or_imp, forall_eq] at each
  refine (each.1 encoder).bind ?_
  intro first middle grown wellFormed encodes
  refine (each.2 middle).bind ?_
  intro second after grown' wellFormed' encodes'
  have encodes := encodes.grow wellFormed grown'
  refine (ensures_operation delivers (fun _ => encodes.means) fun _ => encodes'.means).bind ?_
  intro edge last grown'' _ means
  apply ensures_settled
  intro _
  have enumerable : ∀ symbol ∈ (Expr.binary operator left right ty).symbols,
      after.Enumerable symbol := fun symbol occurs =>
    (Expr.mem_symbols_binary.mp occurs).elim (encodes.enumerable symbol)
      (encodes'.enumerable symbol)
  refine ⟨fun symbol occurs => (enumerable symbol occurs).grow grown'', means.mono ?_⟩
  rintro assignment _ ⟨truth, truth', meaning, meaning', rfl⟩ plain within
  rw [Expr.choosesTruth, Bool.or_eq_false_iff] at plain
  rw [Encoder.within_iff_of_grown enumerable grown''] at within
  rw [Encoder.truth_of_grown enumerable grown'', Expr.truth, isConnective]
  exact congrArg₂ combine
    (meaning plain.1 fun symbol occurs =>
      within symbol (Expr.mem_symbols_binary.mpr (.inl occurs)))
    (meaning' plain.2 fun symbol occurs =>
      within symbol (Expr.mem_symbols_binary.mpr (.inr occurs)))

/-- The diagrams of several formulas, combined one after the other. -/
theorem ensures_encodeOperands {operands : List Expr}
    (each : ∀ operand ∈ operands, ∀ encoder : Encoder,
      Ensures alphabet (Encoder.encode operand) encoder fun edge after =>
        after.Encodes operand edge)
    {start : Edge} {initially : Bool}
    (means : encoder.WellFormed → encoder.Means start fun _ truth => truth = initially) :
    Ensures alphabet (operands.foldlM (fun (total : Edge) operand => do
        let edge ← Encoder.encode operand
        Encoder.diagram (operation total edge)) start) encoder fun edge after =>
      (∀ operand ∈ operands, ∀ symbol ∈ operand.symbols, after.Enumerable symbol) ∧
        after.Means edge fun assignment truth =>
          (∀ operand ∈ operands, operand.choosesTruth = false) →
          (∀ operand ∈ operands, ∀ symbol ∈ operand.symbols, after.Within assignment symbol) →
            truth = operands.foldl (fun total operand =>
              combine total (operand.truth (after.interpret assignment))) initially := by
  apply ensures_foldlM fun (done : List Expr) edge after =>
    (∀ operand ∈ done, ∀ symbol ∈ operand.symbols, after.Enumerable symbol) ∧
      after.Means edge fun assignment truth =>
        (∀ operand ∈ done, operand.choosesTruth = false) →
        (∀ operand ∈ done, ∀ symbol ∈ operand.symbols, after.Within assignment symbol) →
          truth = done.foldl (fun total operand =>
            combine total (operand.truth (after.interpret assignment))) initially
  · exact fun wellFormed => ⟨by simp, (means wellFormed).mono fun _ _ constant _ _ => constant⟩
  · rintro done operand rest total middle split grown wellFormed ⟨enumerable, meansDone⟩
    refine (each operand (by simp [split]) middle).bind ?_
    intro edge after grown' wellFormed' encodes
    refine (ensures_operation delivers (fun _ => meansDone.grow wellFormed grown')
      fun _ => encodes.means).mono ?_
    intro total' last grown'' _ meansLast
    have toLast := grown'.trans grown''
    refine ⟨List.forall_mem_append.mpr ⟨fun other member symbol occurs =>
      (enumerable other member symbol occurs).grow toLast, List.forall_mem_singleton.mpr
        fun symbol occurs => (encodes.enumerable symbol occurs).grow grown''⟩, meansLast.mono ?_⟩
    rintro assignment _ ⟨truth, truth', meaning, meaning', rfl⟩ plain within
    obtain ⟨plainDone, plainLast⟩ := List.forall_mem_append.mp plain
    obtain ⟨withinDone, withinLast⟩ := List.forall_mem_append.mp within
    rw [List.forall_mem_singleton] at plainLast
    rw [List.forall_mem_singleton, Encoder.within_iff_of_grown encodes.enumerable grown'']
      at withinLast
    rw [List.foldl_append, List.foldl_cons, List.foldl_nil,
      Encoder.truth_of_grown encodes.enumerable grown'', ← meaning' plainLast withinLast]
    congr 1
    rw [meaning plainDone fun other member =>
      (Encoder.within_iff_of_grown (enumerable other member) toLast assignment).mp
        (withinDone other member)]
    apply List.foldl_ext
    intro total other member
    rw [Encoder.truth_of_grown (enumerable other member) toLast]

end Connectives

theorem foldl_and {α : Type} (holds : α → Bool) (items : List α) (start : Bool) :
    items.foldl (fun total item => total && holds item) start = (start && items.all holds) := by
  induction items generalizing start with
  | nil => simp
  | cons item items ih => rw [List.foldl_cons, ih, List.all_cons, Bool.and_assoc]

theorem foldl_or {α : Type} (holds : α → Bool) (items : List α) (start : Bool) :
    items.foldl (fun total item => total || holds item) start = (start || items.any holds) := by
  induction items generalizing start with
  | nil => simp
  | cons item items ih => rw [List.foldl_cons, ih, List.any_cons, Bool.or_assoc]

theorem encodeConjunction_eq_foldlM (total : Edge) (operands : List Expr) :
    Encoder.encodeConjunction total operands =
      operands.foldlM (fun (total : Edge) operand => do
        let edge ← Encoder.encode operand
        Encoder.diagram (DiagramManager.conj total edge)) total := by
  induction operands generalizing total with
  | nil => rw [Encoder.encodeConjunction]; rfl
  | cons operand operands ih =>
      rw [Encoder.encodeConjunction, List.foldlM_cons, bind_assoc]
      simp only [ih]

theorem encodeDisjunction_eq_foldlM (total : Edge) (operands : List Expr) :
    Encoder.encodeDisjunction total operands =
      operands.foldlM (fun (total : Edge) operand => do
        let edge ← Encoder.encode operand
        Encoder.diagram (DiagramManager.disj total edge)) total := by
  induction operands generalizing total with
  | nil => rw [Encoder.encodeDisjunction]; rfl
  | cons operand operands ih =>
      rw [Encoder.encodeDisjunction, List.foldlM_cons, bind_assoc]
      simp only [ih]

theorem encode_lit {value : Value} (other : value.asBool = none) :
    Encoder.encode (.lit value) =
      (do Encoder.settled (← Encoder.encodeAtom (.lit value))) := by
  cases value with
  | bool truth => cases other
  | _ =>
      rw [Encoder.encode]
      rintro _ ⟨⟩

/-- The diagram of a Boolean symbol is that of its level. -/
theorem ensures_booleanSymbol {symbol : Symbol} (boolean : symbol.ty = .bool)
    (member : symbol ∈ alphabet) :
    Ensures alphabet (do
      let encoded ← Encoder.encodingOf symbol
      Encoder.settled (← Encoder.diagram (DiagramManager.makeVariable (encoded.bits.headD 0))))
      encoder fun edge after => after.Encodes (.sym symbol) edge := by
  refine (ensures_encodingOf member).bind ?_
  intro encoded after grown wellFormed found
  have places := wellFormed.places found
  have domain : encoded.domain = .bool ∧ encoded.size = 2 := by
    have hasDomain := places.domain_eq
    unfold Encoder.domainOf at hasDomain
    rw [boolean] at hasDomain
    simp only [Except.ok.injEq, Prod.mk.injEq] at hasDomain
    exact ⟨hasDomain.1.symm, hasDomain.2.symm⟩
  obtain ⟨level, positive, block⟩ := places.bits_eq
  have single : encoded.bits = [level] := by
    rw [block, domain.2]
    rfl
  have used : level < after.nextLevel := places.level_lt (by simp [single])
  rw [single]
  refine (ensures_makeVariable positive used).bind ?_
  intro edge last grown' _ means
  apply ensures_settled
  intro wellFormed''
  have enumerable : last.Enumerable symbol :=
    ⟨encoded, grown'.find?_eq found, by rw [boolean]; rintro ⟨⟩⟩
  constructor
  · intro other occurs
    rw [Expr.mem_symbols_sym.mp occurs]
    exact enumerable
  · apply means.mono
    rintro assignment truth rfl - -
    have interpreted : last.interpret assignment symbol = some (.bool (assignment level)) := by
      rw [Encoder.interpret, grown'.find?_eq found]
      simp only [Option.map_some, domain.1, SymbolBits.offset, single, binaryOffset_singleton]
      cases assignment level <;> rfl
    rw [Expr.truth, Expr.atomTruth, Expr.evalBool, Expr.eval, interpreted]
    cases assignment level <;> rfl

/-- The diagram of a choice between truth values. -/
theorem ensures_encodeChoice {operator : TernaryOperator} {first second third : Expr} {ty : Ty}
    (chooses : operator = .ite ∧ second.ty.isBool)
    (each : ∀ operand ∈ [first, second, third], ∀ encoder : Encoder,
      Ensures alphabet (Encoder.encode operand) encoder fun edge after =>
        after.Encodes operand edge) :
    Ensures alphabet (do
      let condition ← Encoder.encode first
      let positive ← Encoder.encode second
      let negative ← Encoder.encode third
      Encoder.settled (← Encoder.diagram (DiagramManager.ite condition positive negative)))
      encoder fun edge after =>
        after.Encodes (.ternary operator first second third ty) edge := by
  simp only [List.mem_cons, List.not_mem_nil, or_false, forall_eq_or_imp, forall_eq] at each
  refine (each.1 encoder).bind ?_
  intro condition middle _ wellFormed encodesCondition
  refine (each.2.1 middle).bind ?_
  intro positive middle' grown wellFormed' encodesPositive
  refine (each.2.2 middle').bind ?_
  intro negative after grown' wellFormed'' encodesNegative
  have encodesCondition := (encodesCondition.grow wellFormed grown).grow wellFormed' grown'
  have encodesPositive := encodesPositive.grow wellFormed' grown'
  refine (ensures_diagram fun wellFormed => DiagramManager.ite_delivers wellFormed.diagrams
    wellFormed.distinct encodesCondition.means.owns encodesPositive.means.owns
    encodesNegative.means.owns).bind ?_
  intro edge last grown'' _ ⟨owns, _⟩
  apply ensures_settled
  intro _
  refine ⟨fun symbol occurs => ?_, owns, fun _ _ plain => ?_⟩
  · refine Encoder.Enumerable.grow ?_ grown''
    rcases Expr.mem_symbols_ternary.mp occurs with inFirst | inSecond | inThird
    · exact encodesCondition.enumerable symbol inFirst
    · exact encodesPositive.enumerable symbol inSecond
    · exact encodesNegative.enumerable symbol inThird
  · simp [Expr.choosesTruth, chooses] at plain

/-- The diagram of a formula. -/
theorem ensures_encode {formula : Expr}
    (occurs : ∀ symbol ∈ formula.symbols, symbol ∈ alphabet) :
    Ensures alphabet (Encoder.encode formula) encoder fun edge after =>
      after.Encodes formula edge := by
  have atom (atomic : Expr) (encoder : Encoder)
      (isAtom : ∀ assignment, atomic.truth assignment = atomic.atomTruth assignment)
      (occurs : ∀ symbol ∈ atomic.symbols, symbol ∈ alphabet) :
      Ensures alphabet (do Encoder.settled (← Encoder.encodeAtom atomic)) encoder
        fun edge after => after.Encodes atomic edge := by
    refine (ensures_encodeAtom isAtom occurs).bind ?_
    intro edge after _ _ encodes
    exact ensures_settled fun _ => encodes
  induction formula generalizing encoder with
  | lit value =>
      cases known : value.asBool with
      | none =>
          rw [encode_lit known]
          exact atom _ _ (fun _ => rfl) occurs
      | some truth =>
          have literal : value = .bool truth := by
            cases value <;> simp_all [Value.asBool]
          rw [literal, Encoder.encode]
          apply ensures_settled
          intro wellFormed
          exact encodes_ofBool wellFormed truth
  | sym symbol =>
      rw [Encoder.encode]
      split
      case isTrue boolean =>
        exact ensures_booleanSymbol (Ty.isBool_iff.mp boolean) (occurs symbol (by simp))
      case isFalse => exact atom _ _ (fun _ => rfl) occurs
  | unary operator operand ty ih =>
      cases operator with
      | not =>
          rw [Encoder.encode]
          refine (ih occurs).bind ?_
          intro edge after _ _ encodes
          exact ensures_settled fun _ => encodes_not encodes ty
      | _ =>
          rw [Encoder.encode]
          · exact atom _ _ (fun _ => rfl) occurs
          · rintro ⟨⟩
  | binary operator left right ty ihLeft ihRight =>
      simp only [Expr.mem_symbols_binary] at occurs
      have each : ∀ operand ∈ [left, right], ∀ encoder : Encoder,
          Ensures alphabet (Encoder.encode operand) encoder fun edge after =>
            after.Encodes operand edge := by
        simp only [List.mem_cons, List.not_mem_nil, or_false, forall_eq_or_imp, forall_eq]
        exact ⟨fun encoder => ihLeft fun symbol member => occurs symbol (.inl member),
          fun encoder => ihRight fun symbol member => occurs symbol (.inr member)⟩
      have other (isAtom : operator.connective left.ty = none) :
          Ensures alphabet (do Encoder.settled (←
            Encoder.encodeAtom (.binary operator left right ty))) encoder
            fun edge after => after.Encodes (.binary operator left right ty) edge :=
        atom _ _ (fun assignment => by rw [Expr.truth, isAtom]) (by simpa using occurs)
      cases operator
      case imply =>
        rw [Encoder.encode]
        exact ensures_encodeConnective DiagramManager.imply_delivers rfl each
      case iff =>
        rw [Encoder.encode]
        exact ensures_encodeConnective DiagramManager.equiv_delivers rfl each
      case eq =>
        rw [Encoder.encode]
        by_cases boolean : left.ty.isBool
        · simp only [boolean, if_true]
          exact ensures_encodeConnective DiagramManager.equiv_delivers (if_pos boolean) each
        · simp only [boolean, Bool.false_eq_true, if_false]
          exact other (if_neg boolean)
      case neq =>
        rw [Encoder.encode]
        by_cases boolean : left.ty.isBool
        · simp only [boolean, if_true]
          exact ensures_encodeConnective DiagramManager.xor_delivers (if_pos boolean) each
        · simp only [boolean, Bool.false_eq_true, if_false]
          exact other (if_neg boolean)
      all_goals
        rw [Encoder.encode]
        · exact other rfl
        all_goals rintro ⟨⟩
  | ternary operator first second third ty ihFirst ihSecond ihThird =>
      rw [Encoder.encode]
      split
      case isTrue chooses =>
        simp only [Expr.mem_symbols_ternary] at occurs
        refine ensures_encodeChoice chooses ?_
        simp only [List.mem_cons, List.not_mem_nil, or_false, forall_eq_or_imp, forall_eq]
        exact ⟨fun encoder => ihFirst fun symbol member => occurs symbol (.inl member),
          fun encoder => ihSecond fun symbol member => occurs symbol (.inr (.inl member)),
          fun encoder => ihThird fun symbol member => occurs symbol (.inr (.inr member))⟩
      case isFalse => exact atom _ _ (fun _ => rfl) occurs
  | nary operator operands ty ih =>
      simp only [Expr.mem_symbols_nary] at occurs
      have each (operand : Expr) (member : operand ∈ operands) (encoder : Encoder) :
          Ensures alphabet (Encoder.encode operand) encoder
            fun edge after => after.Encodes operand edge :=
        ih operand member fun symbol inside => occurs symbol ⟨operand, member, inside⟩
      have combined {edge : Edge} {after : Encoder} {combine : Bool → Bool → Bool}
          {initially : Bool}
          (sameTruth : ∀ assignment, (Expr.nary operator operands ty).truth assignment =
            operands.foldl (fun total operand => combine total (operand.truth assignment))
              initially)
          (enumerable : ∀ operand ∈ operands, ∀ symbol ∈ operand.symbols,
            after.Enumerable symbol)
          (means : after.Means edge fun assignment truth =>
            (∀ operand ∈ operands, operand.choosesTruth = false) →
            (∀ operand ∈ operands, ∀ symbol ∈ operand.symbols,
              after.Within assignment symbol) →
              truth = operands.foldl (fun total operand =>
                combine total (operand.truth (after.interpret assignment))) initially) :
          after.Encodes (.nary operator operands ty) edge := by
        refine ⟨fun symbol occurs => ?_,
          means.mono fun assignment truth meaning plain within => ?_⟩
        · obtain ⟨operand, member, inside⟩ := Expr.mem_symbols_nary.mp occurs
          exact enumerable operand member symbol inside
        · rw [Expr.choosesTruth, Expr.choosesTruthAny_eq_any, List.any_eq_false] at plain
          rw [sameTruth]
          exact meaning (fun operand member => by simpa using plain operand member)
            fun operand member symbol inside =>
              within symbol (Expr.mem_symbols_nary.mpr ⟨operand, member, inside⟩)
      cases operator
      case and =>
        rw [Encoder.encode, encodeConjunction_eq_foldlM]
        refine (ensures_encodeOperands DiagramManager.conj_delivers each
          Encoder.means_one).bind ?_
        rintro edge after _ _ ⟨enumerable, means⟩
        refine ensures_settled fun _ => combined (fun assignment => ?_) enumerable means
        rw [Expr.truth_and, foldl_and, Bool.true_and]
      case or =>
        rw [Encoder.encode, encodeDisjunction_eq_foldlM]
        refine (ensures_encodeOperands DiagramManager.disj_delivers each
          Encoder.means_zero).bind ?_
        rintro edge after _ _ ⟨enumerable, means⟩
        refine ensures_settled fun _ => combined (fun assignment => ?_) enumerable means
        rw [Expr.truth_or, foldl_or, Bool.false_or]
      all_goals
        rw [Encoder.encode]
        · exact atom _ _ (fun _ => rfl) (by simpa using occurs)
        all_goals rintro ⟨⟩

end Encoding

namespace Encoder

/-- A formula is encoded by encoding its operands and combining their diagrams, or as
an atom. -/
inductive Compiles : Expr → Encoding Edge → Prop
  | truth (truth : Bool) :
      Compiles (.lit (.bool truth)) (settled (if truth then .one else .zero))
  | variable (symbol : Symbol) : Compiles (.sym symbol) (do
      let encoded ← encodingOf symbol
      settled (← diagram (DiagramManager.makeVariable (encoded.bits.headD 0))))
  | atom (formula : Expr) : Compiles formula (do settled (← encodeAtom formula))
  | negation (operand : Expr) (ty : Ty) :
      Compiles (.unary .not operand ty) (do settled (-(← encode operand)))
  | connective {operation : Edge → Edge → DiagramManager → Edge × DiagramManager}
      (operator : BinaryOperator) (left right : Expr) (ty : Ty)
      (among : operation ∈
        [DiagramManager.imply, DiagramManager.equiv, DiagramManager.xor]) :
      Compiles (.binary operator left right ty) (do
        let first ← encode left
        let second ← encode right
        settled (← diagram (operation first second)))
  | choice (operator : TernaryOperator) (first second third : Expr) (ty : Ty) :
      Compiles (.ternary operator first second third ty) (do
        let condition ← encode first
        let positive ← encode second
        let negative ← encode third
        settled (← diagram (DiagramManager.ite condition positive negative)))
  | conjunction (operands : List Expr) (ty : Ty) :
      Compiles (.nary .and operands ty) (do settled (← encodeConjunction .one operands))
  | disjunction (operands : List Expr) (ty : Ty) :
      Compiles (.nary .or operands ty) (do settled (← encodeDisjunction .zero operands))

/-- Every formula is encoded in one of these ways. -/
theorem compiles_encode (formula : Expr) : Compiles formula (encode formula) := by
  cases formula with
  | lit value =>
      cases value with
      | bool truth =>
          rw [encode]
          exact .truth truth
      | _ =>
          rw [Encoding.encode_lit rfl]
          exact .atom _
  | sym symbol =>
      rw [encode]
      split
      · exact .variable symbol
      · exact .atom _
  | unary operator operand ty =>
      cases operator
      case not =>
        rw [encode]
        exact .negation operand ty
      all_goals
        rw [encode]
        · exact .atom _
        · rintro ⟨⟩
  | binary operator left right ty =>
      cases operator
      case imply =>
        rw [encode]
        exact .connective .imply left right ty (by simp)
      case iff =>
        rw [encode]
        exact .connective .iff left right ty (by simp)
      case eq =>
        rw [encode]
        by_cases boolean : left.ty.isBool
        · simp only [boolean, if_true]
          exact .connective .eq left right ty (by simp)
        · simp only [boolean, Bool.false_eq_true, if_false]
          exact .atom _
      case neq =>
        rw [encode]
        by_cases boolean : left.ty.isBool
        · simp only [boolean, if_true]
          exact .connective .neq left right ty (by simp)
        · simp only [boolean, Bool.false_eq_true, if_false]
          exact .atom _
      all_goals
        rw [encode]
        · exact .atom _
        all_goals rintro ⟨⟩
  | ternary operator first second third ty =>
      rw [encode]
      split
      · exact .choice operator first second third ty
      · exact .atom _
  | nary operator operands ty =>
      cases operator
      case and =>
        rw [encode]
        exact .conjunction operands ty
      case or =>
        rw [encode]
        exact .disjunction operands ty
      all_goals
        rw [encode]
        · exact .atom _
        all_goals rintro ⟨⟩

/-- What holds of an encoding of a formula if it does of those of its operands, holds of
the encodings of all formulas. -/
theorem forall_encode (holds : Expr → Encoding Edge → Prop)
    (combine : ∀ formula computation, Compiles formula computation →
      (∀ operand ∈ formula.children, holds operand (encode operand)) →
        holds formula computation)
    (formula : Expr) : holds formula (encode formula) := by
  have each : ∀ operand ∈ formula.children, holds operand (encode operand) := by
    induction formula with
    | lit | sym => simp [Expr.children]
    | unary operator operand ty ih =>
        simpa [Expr.children] using combine _ _ (compiles_encode operand) ih
    | binary operator left right ty ihLeft ihRight =>
        simpa [Expr.children] using And.intro (combine _ _ (compiles_encode left) ihLeft)
          (combine _ _ (compiles_encode right) ihRight)
    | ternary operator first second third ty ihFirst ihSecond ihThird =>
        simpa [Expr.children] using And.intro (combine _ _ (compiles_encode first) ihFirst)
          (And.intro (combine _ _ (compiles_encode second) ihSecond)
            (combine _ _ (compiles_encode third) ihThird))
    | nary operator operands ty ih =>
        intro operand member
        exact combine _ _ (compiles_encode operand) (ih operand member)
  exact combine _ _ (compiles_encode formula) each

end Encoder

end AbstractionRefinement
