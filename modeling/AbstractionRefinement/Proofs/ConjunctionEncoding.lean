import AbstractionRefinement.Proofs.FormulaEncoding

/-!
# Encoding conjunctions

The diagram of some formulas within the domains of their symbols is true at exactly the
assignments that give every symbol a value of its domain and make every formula true.
So a false diagram excludes every admitted solution, and an assignment at which the
diagram is true gives one.  The second half also holds with formulas that choose between
truth values, for the other ones.
-/

namespace AbstractionRefinement

/-- The values satisfy every formula. -/
def Satisfies (values : Symbol → Value) (formulas : List Expr) : Prop :=
  ∀ formula ∈ formulas, formula.evalBool (fun symbol => some (values symbol)) = some true

/-- The values make the diagram of every formula true. -/
def Fulfills (values : Symbol → Value) (formulas : List Expr) : Prop :=
  ∀ formula ∈ formulas, formula.truth (fun symbol => some (values symbol)) = true

/-- The configuration admits the values of all symbols of the formulas. -/
def SolverConfig.AdmitsAll (config : SolverConfig) (values : Symbol → Value)
    (formulas : List Expr) : Prop :=
  ∀ formula ∈ formulas, ∀ symbol ∈ formula.symbols, config.Admits symbol.decl (values symbol)

/-- Settings under which the diagrams of formulas are exact. -/
structure SolverConfig.Exact (config : SolverConfig) : Prop where
  lawful : config.Lawful
  countable : (config.maxAtomAssignments : Int) < maxInt64
  distinct : DiagramManager.DistinctKeys config.nodeLimit

/-- A formula that the encoding of formulas handles exactly. -/
structure Expr.Encodable (formula : Expr) : Prop where
  wellTyped : formula.WellTyped
  plain : formula.choosesTruth = false

section Solutions

variable {config : SolverConfig} {values : Symbol → Value} {formulas : List Expr}

theorem Expr.Encodable.refines_truth {formula : Expr} (encodable : formula.Encodable)
    (admits : ∀ symbol ∈ formula.symbols, config.Admits symbol.decl (values symbol)) :
    Refines (formula.truth fun symbol => some (values symbol))
      (formula.evalBool fun symbol => some (values symbol)) := by
  apply encodable.wellTyped.refines_truth
  rintro symbol occurs _ ⟨⟩
  exact (admits symbol occurs).1

theorem Satisfies.fulfills (satisfies : Satisfies values formulas)
    (encodable : ∀ formula ∈ formulas, formula.Encodable)
    (admits : config.AdmitsAll values formulas) : Fulfills values formulas :=
  fun formula member => (encodable formula member).refines_truth (admits formula member) true
    (satisfies formula member)

end Solutions

namespace Encoder

variable {alphabet : List Symbol} {encoder : Encoder}

/-- The symbols of the formula have values of their domains that make it true unless it
chooses between truth values. -/
def Confirms (encoder : Encoder) (assignment : Nat → Bool) (formula : Expr) : Prop :=
  (∀ symbol ∈ formula.symbols, encoder.Within assignment symbol) ∧
    (formula.choosesTruth = false → formula.truth (encoder.interpret assignment) = true)

/-- The truth value is that of a conjunction within the domains of its symbols. -/
structure Reflects (encoder : Encoder) (formulas : List Expr) (assignment : Nat → Bool)
    (truth : Bool) : Prop where
  confirms : truth = true → ∀ formula ∈ formulas, encoder.Confirms assignment formula
  holds : (∀ formula ∈ formulas, formula.choosesTruth = false) →
    (∀ formula ∈ formulas, encoder.Confirms assignment formula) → truth = true

/-- The edge is the diagram of a conjunction within the domains of its symbols. -/
structure Decides (encoder : Encoder) (formulas : List Expr) (edge : Edge) : Prop where
  enumerable {formula : Expr} : formula ∈ formulas → ∀ symbol ∈ formula.symbols,
    encoder.Enumerable symbol
  means : encoder.Means edge (encoder.Reflects formulas)

theorem confirms_iff_of_grown {after : Encoder} {formula : Expr}
    (enumerable : ∀ symbol ∈ formula.symbols, encoder.Enumerable symbol)
    (grown : encoder.Extends alphabet after) (assignment : Nat → Bool) :
    after.Confirms assignment formula ↔ encoder.Confirms assignment formula := by
  unfold Confirms
  rw [within_iff_of_grown enumerable grown, truth_of_grown enumerable grown]

theorem Reflects.grow {after : Encoder} {formulas : List Expr} {assignment : Nat → Bool}
    {truth : Bool} (reflects : encoder.Reflects formulas assignment truth)
    (enumerable : ∀ {formula : Expr}, formula ∈ formulas → ∀ symbol ∈ formula.symbols,
      encoder.Enumerable symbol)
    (grown : encoder.Extends alphabet after) : after.Reflects formulas assignment truth := by
  have same : (∀ formula ∈ formulas, after.Confirms assignment formula) ↔
      ∀ formula ∈ formulas, encoder.Confirms assignment formula :=
    forall₂_congr fun formula member =>
      confirms_iff_of_grown (enumerable member) grown assignment
  exact ⟨fun isTrue => same.mpr (reflects.confirms isTrue),
    fun plain confirms => reflects.holds plain (same.mp confirms)⟩

theorem Reflects.and {first second : List Expr} {assignment : Nat → Bool} {truth truth' : Bool}
    (reflects : encoder.Reflects first assignment truth)
    (reflects' : encoder.Reflects second assignment truth') :
    encoder.Reflects (first ++ second) assignment (truth && truth') := by
  constructor
  · intro both
    rw [Bool.and_eq_true] at both
    exact List.forall_mem_append.mpr ⟨reflects.confirms both.1, reflects'.confirms both.2⟩
  · intro plain confirms
    obtain ⟨plain, plain'⟩ := List.forall_mem_append.mp plain
    obtain ⟨confirms, confirms'⟩ := List.forall_mem_append.mp confirms
    rw [reflects.holds plain confirms, reflects'.holds plain' confirms']
    rfl

theorem Decides.grow {after : Encoder} {formulas : List Expr} {edge : Edge}
    (decides : encoder.Decides formulas edge) (wellFormed : encoder.WellFormed)
    (grown : encoder.Extends alphabet after) : after.Decides formulas edge where
  enumerable member symbol occurs := (decides.enumerable member symbol occurs).grow grown
  means := (decides.means.grow wellFormed grown).mono fun _ _ reflects =>
    reflects.grow decides.enumerable grown

theorem decides_nil (wellFormed : encoder.WellFormed) : encoder.Decides [] .one where
  enumerable member := by cases member
  means := (means_one wellFormed).mono fun _ _ isTrue =>
    ⟨fun _ => List.forall_mem_nil _, fun _ _ => isTrue⟩

end Encoder

namespace Encoding

variable {alphabet : List Symbol} {encoder : Encoder}

/-- The conjunction of two conjunctions. -/
theorem ensures_conj {first second : List Expr} {edge edge' : Edge}
    (decides : encoder.WellFormed → encoder.Decides first edge)
    (decides' : encoder.WellFormed → encoder.Decides second edge') :
    Ensures alphabet (Encoder.diagram (DiagramManager.conj edge edge')) encoder
      fun result after => after.Decides (first ++ second) result := by
  apply ensures_of_wellFormed
  intro wellFormed
  have decides := decides wellFormed
  have decides' := decides' wellFormed
  refine (ensures_operation DiagramManager.conj_delivers (fun _ => decides.means)
    fun _ => decides'.means).mono ?_
  intro result after grown _ means
  have enumerable {formula : Expr} (member : formula ∈ first ++ second) :
      ∀ symbol ∈ formula.symbols, encoder.Enumerable symbol :=
    (List.mem_append.mp member).elim decides.enumerable decides'.enumerable
  refine ⟨fun member symbol occurs => (enumerable member symbol occurs).grow grown,
    means.mono ?_⟩
  rintro assignment _ ⟨truth, truth', reflects, reflects', rfl⟩
  exact (reflects.and reflects').grow enumerable grown

/-- The diagram of a formula within the domains of its symbols. -/
theorem ensures_encodeValid {formula : Expr}
    (occurs : ∀ symbol ∈ formula.symbols, symbol ∈ alphabet) :
    Ensures alphabet (Encoder.encodeValid formula) encoder fun edge after =>
      after.Decides [formula] edge := by
  refine (ensures_encode occurs).bind ?_
  intro edge middle _ wellFormed encodes
  refine (ensures_domainConstraint occurs).bind ?_
  rintro valid after grown wellFormed' ⟨-, constrains⟩
  have encodes := encodes.grow wellFormed grown
  refine (ensures_operation DiagramManager.conj_delivers (fun _ => encodes.means)
    fun _ => constrains).mono ?_
  intro result last grown' _ means
  constructor
  · intro other member symbol inside
    rw [List.mem_singleton.mp member] at inside
    exact (encodes.enumerable symbol inside).grow grown'
  · apply means.mono
    rintro assignment _ ⟨truth, within, meaning, isWithin, rfl⟩
    have same := Encoder.confirms_iff_of_grown encodes.enumerable grown' assignment
    constructor
    · intro both
      rw [Bool.and_eq_true, isWithin] at both
      rw [List.forall_mem_singleton, same]
      exact ⟨both.2, fun plain => (meaning plain both.2).symm.trans both.1⟩
    · intro plain confirms
      rw [List.forall_mem_singleton] at plain confirms
      obtain ⟨inside, holds⟩ := same.mp confirms
      rw [Bool.and_eq_true, meaning plain inside, isWithin]
      exact ⟨holds plain, inside⟩

/-- The diagram of a conjunction within the domains of its symbols. -/
theorem ensures_encodeAllValid {formulas : List Expr}
    (occurs : ∀ formula ∈ formulas, ∀ symbol ∈ formula.symbols, symbol ∈ alphabet) :
    Ensures alphabet (Encoder.encodeAllValid formulas) encoder fun edge after =>
      after.manager.exhaustion = none ∧ after.Decides formulas edge := by
  refine (ensures_foldlM (fun done total after => after.Decides done total) formulas
    Encoder.decides_nil ?_).bind ?_
  · intro done formula rest total middle split grown wellFormed decides
    have member : formula ∈ formulas := by simp [split]
    refine (ensures_encodeValid (occurs formula member)).bind ?_
    intro edge after grown' _ decides'
    exact ensures_conj (fun _ => decides.grow wellFormed grown') fun _ => decides'
  · intro total after _ wellFormed decides
    refine ensures_checkExhausted.bind ?_
    intro _ last grown _ unexhausted
    exact ensures_pure fun _ => ⟨unexhausted, decides.grow wellFormed grown⟩

end Encoding

namespace Encoder

variable {encoder : Encoder} {formulas : List Expr} {edge : Edge}

/-- The offset at which a value stands in the domain of an encoded symbol. -/
noncomputable def offsetOfValue (encoder : Encoder) (values : Symbol → Value)
    (symbol : Symbol) : Nat :=
  open Classical in
  if stands : ∃ offset, ∃ encoded, OrderedMap.find? symbol encoder.symbols = some encoded ∧
      offset < encoded.size ∧ encoded.domain.value offset = values symbol then
    stands.choose
  else 0

/-- An assignment of the levels at which an enumerable symbol has an admitted value. -/
theorem interpret_offsetOfValue (wellFormed : encoder.WellFormed)
    (lawful : encoder.config.Lawful)
    (countable : (encoder.config.maxAtomAssignments : Int) < maxInt64) {symbol : Symbol}
    (enumerable : encoder.Enumerable symbol) {values : Symbol → Value}
    (admits : encoder.config.Admits symbol.decl (values symbol)) :
    let assignment := encoder.assignmentOf (encoder.offsetOfValue values)
    encoder.Within assignment symbol ∧
      encoder.interpret assignment symbol = some (values symbol) := by
  obtain ⟨encoded, found, few⟩ := enumerable
  have places := wellFormed.places found
  obtain ⟨offset, small, value⟩ := exists_offset_of_admits lawful places.domain_eq
    (fun integer => Int.lt_of_le_of_lt (Int.ofNat_le.mpr (few integer)) countable) admits
  have stands : ∃ offset, ∃ encoded, OrderedMap.find? symbol encoder.symbols = some encoded ∧
      offset < encoded.size ∧ encoded.domain.value offset = values symbol :=
    ⟨offset, encoded, found, small, value⟩
  have chosen : encoder.offsetOfValue values symbol = stands.choose := dif_pos stands
  obtain ⟨encoded', found', small', value'⟩ := stands.choose_spec
  rw [← chosen] at small' value'
  rw [found] at found'
  cases found'
  have offsetEq := offset_assignmentOf wellFormed found small'
  constructor
  · exact ⟨encoded, found, by rw [offsetEq]; exact small'⟩
  · rw [interpret, found, Option.map_some, offsetEq, value']

/-- At the assignment of admitted values that make every formula true, the diagram is
true. -/
theorem Decides.value_eq (decides : encoder.Decides formulas edge)
    (wellFormed : encoder.WellFormed) (exact_ : encoder.config.Exact)
    (plain : ∀ formula ∈ formulas, formula.choosesTruth = false)
    (unexhausted : encoder.manager.exhaustion = none) {values : Symbol → Value}
    (admits : encoder.config.AdmitsAll values formulas) (fulfills : Fulfills values formulas) :
    encoder.manager.value (encoder.assignmentOf (encoder.offsetOfValue values)) edge = true := by
  refine (decides.means.value unexhausted _).holds plain fun formula member => ?_
  have reached {symbol : Symbol} (occurs : symbol ∈ formula.symbols) :=
    interpret_offsetOfValue wellFormed exact_.lawful exact_.countable
      (decides.enumerable member symbol occurs) (admits formula member symbol occurs)
  refine ⟨fun symbol occurs => (reached occurs).1, fun _ => ?_⟩
  rw [Expr.truth_congr fun symbol occurs => (reached occurs).2]
  exact fulfills formula member

theorem Decides.not_fulfills (decides : encoder.Decides formulas .zero)
    (wellFormed : encoder.WellFormed) (exact_ : encoder.config.Exact)
    (plain : ∀ formula ∈ formulas, formula.choosesTruth = false)
    (unexhausted : encoder.manager.exhaustion = none) {values : Symbol → Value}
    (admits : encoder.config.AdmitsAll values formulas) : ¬ Fulfills values formulas := by
  intro fulfills
  have isTrue := decides.value_eq wellFormed exact_ plain unexhausted admits fulfills
  rw [DiagramManager.value_zero] at isTrue
  cases isTrue

/-- Where a diagram is true, the symbols have admitted values that make every formula
true that does not choose between truth values. -/
theorem Decides.exists_values (decides : encoder.Decides formulas edge)
    (wellFormed : encoder.WellFormed) (lawful : encoder.config.Lawful)
    (unexhausted : encoder.manager.exhaustion = none) {assignment : Nat → Bool}
    (holds : encoder.manager.value assignment edge = true) :
    ∃ values, encoder.config.AdmitsAll values formulas ∧
      (∀ formula ∈ formulas, formula.choosesTruth = false →
        formula.truth (fun symbol => some (values symbol)) = true) ∧
      ∀ formula ∈ formulas, ∀ symbol ∈ formula.symbols,
        encoder.interpret assignment symbol = some (values symbol) := by
  have confirms := (decides.means.value unexhausted assignment).confirms holds
  let values (symbol : Symbol) : Value := (encoder.interpret assignment symbol).getD default
  have interpreted {formula : Expr} (member : formula ∈ formulas) {symbol : Symbol}
      (occurs : symbol ∈ formula.symbols) :
      encoder.interpret assignment symbol = some (values symbol) ∧
        encoder.config.Admits symbol.decl (values symbol) := by
    obtain ⟨value, equal, admits⟩ :=
      ((confirms formula member).1 symbol occurs).admits wellFormed lawful
    have chosen : values symbol = value := by
      show (encoder.interpret assignment symbol).getD default = value
      rw [equal, Option.getD_some]
    rw [chosen]
    exact ⟨equal, admits⟩
  refine ⟨values, fun formula member symbol occurs => (interpreted member occurs).2, ?_,
    fun formula member symbol occurs => (interpreted member occurs).1⟩
  intro formula member plain
  rw [← (confirms formula member).2 plain]
  exact Expr.truth_congr fun symbol occurs => (interpreted member occurs).1.symm

end Encoder

end AbstractionRefinement
