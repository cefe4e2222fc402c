import AbstractionRefinement.Proofs.ReachedManagers
import AbstractionRefinement.Proofs.SessionAnswers

/-!
# Reached encoders

An encoder is reached from a new one by encodings of formulas and of the constraints of
their symbols, and by operations on diagrams that it owns.  While at most `32767` nodes are
allocated, a reached encoder is well formed under the lowered node limit.

The diagram of a formula then agrees with evaluation: at bits that represent values of the
symbols' domains it has the truth value of the formula, wherever that evaluates.  The constraint
of a formula holds exactly at the bits that give every symbol an offset of its domain.
-/

namespace AbstractionRefinement

theorem exists_of_isOk {ε α : Type} {outcome : Except ε α} (isOk : outcome.isOk = true) :
    ∃ result, outcome = .ok result := by
  cases outcome with
  | error error => cases isOk
  | ok result => exact ⟨result, rfl⟩

/-- The value stands at an offset of the symbol's domain. -/
def SolverConfig.InDomain (config : SolverConfig) (symbol : Symbol) (value : Value) : Prop :=
  ∃ domain size offset, Encoder.domainOf config symbol = .ok (domain, size) ∧
    offset < size ∧ domain.value offset = value

/-- The values of a domain are the admitted ones, unless the interval has as many numbers as
can be counted. -/
theorem SolverConfig.inDomain_iff_admits {config : SolverConfig} (lawful : config.Lawful)
    {symbol : Symbol} {domain : BitDomain} {size : Nat}
    (hasDomain : Encoder.domainOf config symbol = .ok (domain, size))
    (countable : symbol.ty = .int → (size : Int) < maxInt64) {value : Value} :
    config.InDomain symbol value ↔ config.Admits symbol.decl value := by
  constructor
  · rintro ⟨_, _, offset, hasDomain, small, rfl⟩
    exact Encoder.admits_of_domainOf lawful hasDomain small
  · intro admits
    obtain ⟨offset, small, same⟩ :=
      Encoder.exists_offset_of_admits lawful hasDomain countable admits
    exact ⟨domain, size, offset, hasDomain, small, same⟩

namespace Encoder

open DiagramManager (keyBudget)

variable {config : SolverConfig} {encoder : Encoder}

/-- The bits give the symbol the offset at which its value stands in its domain. -/
def Represents (encoder : Encoder) (bits : Nat → Bool) (values : Symbol → Option Value)
    (symbol : Symbol) : Prop :=
  encoder.Within bits symbol ∧ encoder.interpret bits symbol = values symbol

/-- Some bits represent all values of domains of encoded symbols. -/
theorem exists_represents (wellFormed : encoder.WellFormed) (values : Symbol → Option Value) :
    ∃ bits, ∀ symbol, encoder.Knows symbol →
      (∃ value, values symbol = some value ∧ encoder.config.InDomain symbol value) →
        encoder.Represents bits values symbol := by
  have placed (symbol : Symbol) : ∃ offset, ∀ encoded,
      OrderedMap.find? symbol encoder.symbols = some encoded →
      (∃ value, values symbol = some value ∧ encoder.config.InDomain symbol value) →
        offset < encoded.size ∧ some (encoded.domain.value offset) = values symbol := by
    by_cases valued : encoder.Knows symbol ∧
        ∃ value, values symbol = some value ∧ encoder.config.InDomain symbol value
    · obtain ⟨⟨encoded, found⟩, value, given, domain, size, offset, hasDomain, small, stands⟩ :=
        valued
      rw [(wellFormed.places found).domain_eq] at hasDomain
      cases hasDomain
      refine ⟨offset, fun other found' _ => ?_⟩
      cases found.symm.trans found'
      exact ⟨small, by rw [given, stands]⟩
    · exact ⟨0, fun encoded found inDomain => absurd ⟨⟨encoded, found⟩, inDomain⟩ valued⟩
  choose offsets placed using placed
  refine ⟨encoder.assignmentOf offsets, ?_⟩
  rintro symbol ⟨encoded, found⟩ inDomain
  obtain ⟨small, stands⟩ := placed symbol encoded found inDomain
  have same := offset_assignmentOf wellFormed found small
  exact ⟨⟨encoded, found, by rwa [same]⟩, by rw [interpret, found, Option.map_some, same, stands]⟩

theorem Represents.hasType (wellFormed : encoder.WellFormed) (lawful : encoder.config.Lawful)
    {bits : Nat → Bool} {values : Symbol → Option Value} {symbol : Symbol}
    (represents : encoder.Represents bits values symbol) :
    OptionHasType (values symbol) symbol.ty := by
  obtain ⟨within, same⟩ := represents
  obtain ⟨value, given, admits⟩ := within.admits wellFormed lawful
  rw [← same, given]
  rintro _ ⟨⟩
  exact admits.1

/-- The encoders that arise from a new one, without a deadline.  An encoding may fail. -/
inductive Reached (config : SolverConfig) : Encoder → Prop
  | start : Reached config (.new config)
  | encoding {encoder : Encoder} (reached : Reached config encoder) (formula : Expr) :
      Reached config (encode formula encoder).2
  | constraint {encoder : Encoder} (reached : Reached config encoder) (formula : Expr) :
      Reached config (domainConstraint formula encoder).2
  | validEncoding {encoder : Encoder} (reached : Reached config encoder) (formula : Expr) :
      Reached config (encodeValid formula encoder).2
  | choice {encoder : Encoder} (reached : Reached config encoder) {f g h : Edge}
      (ownsF : encoder.manager.Owns f) (ownsG : encoder.manager.Owns g)
      (ownsH : encoder.manager.Owns h) :
      Reached config (diagram (DiagramManager.ite f g h) encoder).2
  | quantification {encoder : Encoder} (reached : Reached config encoder) (quantified : Nat → Bool)
      {edge : Edge} (owns : encoder.manager.Owns edge) :
      Reached config (diagram (DiagramManager.quantify quantified edge) encoder).2

/-- No deadline has passed, and while few nodes are in use the encoder is well formed under
the lowered node limit. -/
structure Steady (config : SolverConfig) (encoder : Encoder) : Prop where
  early : encoder.manager.deadlinePassed = false
  wellFormed : encoder.manager.nodes.size ≤ keyBudget → (encoder.capped keyBudget).WellFormed
  config_eq : encoder.manager.nodes.size ≤ keyBudget →
    (encoder.capped keyBudget).config = config.capped keyBudget

theorem nodes_le_keyBudget {manager : DiagramManager} (few : manager.size ≤ 32767) :
    manager.nodes.size ≤ keyBudget := by
  unfold DiagramManager.size at few
  unfold keyBudget
  omega

section Steps

variable {α : Type} {alphabet : List Symbol} {computation : Encoding α}
  {returns : α → Encoder → Prop}

theorem Steady.ensures (steady : encoder.Steady config)
    (budgeted : Encoding.Budgeted computation)
    (ensures : Encoding.Ensures alphabet computation (encoder.capped keyBudget) returns)
    (few : (computation encoder).2.manager.nodes.size ≤ keyBudget) :
    ((computation encoder).2.capped keyBudget).WellFormed ∧
      ((computation encoder).2.capped keyBudget).config = config.capped keyBudget ∧
      ∀ result, (computation encoder).1 = .ok result →
        returns result ((computation encoder).2.capped keyBudget) := by
  have fewer := Nat.le_trans (budgeted.nodes_le encoder) few
  obtain ⟨wellFormed, grown, returned⟩ :=
    budgeted.ensures steady.early few ensures (steady.wellFormed fewer)
  exact ⟨wellFormed, grown.config_eq.trans (steady.config_eq fewer), returned⟩

theorem Steady.after (steady : encoder.Steady config) (budgeted : Encoding.Budgeted computation)
    (ensures : Encoding.Ensures alphabet computation (encoder.capped keyBudget) returns) :
    (computation encoder).2.Steady config where
  early := (budgeted.late_eq encoder).trans steady.early
  wellFormed few := (steady.ensures budgeted ensures few).1
  config_eq few := (steady.ensures budgeted ensures few).2.1

end Steps

theorem Reached.steady (reached : encoder.Reached config) : encoder.Steady config := by
  induction reached with
  | start =>
      have distinct : DiagramManager.DistinctKeys (config.capped keyBudget).nodeLimit :=
        DiagramManager.distinctKeys_of_le (Nat.min_le_right _ _)
      exact ⟨rfl, fun _ => wellFormed_new distinct, fun _ => rfl⟩
  | encoding reached formula ih =>
      exact ih.after (Encoding.budgeted_encode formula)
        (Encoding.ensures_encode fun symbol occurs => occurs)
  | constraint reached formula ih =>
      exact ih.after (Encoding.budgeted_domainConstraint formula)
        (Encoding.ensures_domainConstraint fun symbol occurs => occurs)
  | validEncoding reached formula ih =>
      exact ih.after (Encoding.budgeted_encodeValid formula)
        (Encoding.ensures_encodeValid fun symbol occurs => occurs)
  | @choice encoder reached f g h ownsF ownsG ownsH ih =>
      have delivers : Encoding.Ensures [] (diagram (DiagramManager.ite f g h))
          (encoder.capped keyBudget) _ :=
        Encoding.ensures_diagram fun wellFormed => DiagramManager.ite_delivers
          wellFormed.diagrams wellFormed.distinct ownsF ownsG ownsH
      exact ih.after (Encoding.budgeted_diagram (DiagramManager.budgeted_ite f g h)) delivers
  | @quantification encoder reached quantified edge owns ih =>
      have delivers : Encoding.Ensures [] (diagram (DiagramManager.quantify quantified edge))
          (encoder.capped keyBudget) _ :=
        Encoding.ensures_diagram fun wellFormed => DiagramManager.quantify_delivers
          wellFormed.diagrams wellFormed.distinct owns quantified
      exact ih.after (Encoding.budgeted_diagram (DiagramManager.budgeted_quantify quantified edge))
        delivers

theorem Steady.lawful (steady : encoder.Steady config)
    (few : encoder.manager.nodes.size ≤ keyBudget) (lawful : config.Lawful) :
    (encoder.capped keyBudget).config.Lawful := by
  rw [steady.config_eq few]
  exact lawful

theorem Reached.exists_represents (reached : encoder.Reached config)
    (few : encoder.manager.size ≤ 32767) (values : Symbol → Option Value) :
    ∃ bits, ∀ symbol, encoder.Knows symbol →
      (∃ value, values symbol = some value ∧ config.InDomain symbol value) →
        encoder.Represents bits values symbol := by
  have represented :=
    Encoder.exists_represents (reached.steady.wellFormed (nodes_le_keyBudget few)) values
  rwa [reached.steady.config_eq (nodes_le_keyBudget few)] at represented

theorem Means.of_capped {budget : Nat} {edge : Edge} {meaning : (Nat → Bool) → Bool → Prop}
    (means : (encoder.capped budget).Means edge meaning)
    (unexhausted : encoder.manager.exhaustion = none) (bits : Nat → Bool) :
    meaning bits (encoder.manager.value bits edge) := by
  have valued := means.value unexhausted bits
  rwa [show (encoder.capped budget).manager.value bits edge = encoder.manager.value bits edge from
    DiagramManager.value_capped budget encoder.manager bits edge] at valued

/-- Values of the domains of a formula's symbols are represented by bits, and at all bits that
represent values the edge has the truth value to which the formula evaluates. -/
structure AgreesWithEvaluation (encoder : Encoder) (config : SolverConfig) (formula : Expr)
    (edge : Edge) : Prop where
  represented {values : Symbol → Option Value} :
    (∀ symbol ∈ formula.symbols,
      ∃ value, values symbol = some value ∧ config.InDomain symbol value) →
      ∃ bits, ∀ symbol ∈ formula.symbols, encoder.Represents bits values symbol
  value_eq {values : Symbol → Option Value} {bits : Nat → Bool} {truth : Bool} :
    (∀ symbol ∈ formula.symbols, encoder.Represents bits values symbol) →
      formula.evalBool values = some truth → encoder.manager.value bits edge = truth

/-- The edge is true exactly at the bits that give every symbol of the formula an offset of its
domain. -/
def ConstrainsDomains (encoder : Encoder) (config : SolverConfig) (formula : Expr)
    (edge : Edge) : Prop :=
  ∀ bits, encoder.manager.value bits edge = true ↔ ∀ symbol ∈ formula.symbols, ∃ encoded,
    OrderedMap.find? symbol encoder.symbols = some encoded ∧
      domainOf config symbol = .ok (encoded.domain, encoded.size) ∧
      encoded.offset bits < encoded.size

namespace Reached

variable {formula : Expr} {edge : Edge}

/-- The diagram of a formula that does not choose between truth values. -/
theorem agrees_encode (reached : encoder.Reached config) (lawful : config.Lawful)
    (encodable : formula.Encodable) (encoded : (encode formula encoder).1 = .ok edge)
    (unexhausted : (encode formula encoder).2.manager.exhaustion = none)
    (few : (encode formula encoder).2.manager.size ≤ 32767) :
    (encode formula encoder).2.AgreesWithEvaluation config formula edge := by
  obtain ⟨wellFormed, -, returned⟩ := reached.steady.ensures
    (Encoding.budgeted_encode formula) (Encoding.ensures_encode fun _ occurs => occurs)
    (nodes_le_keyBudget few)
  have encodes := returned edge encoded
  have reached' := reached.encoding formula
  constructor
  · intro values inDomain
    obtain ⟨bits, represents⟩ := reached'.exists_represents few values
    exact ⟨bits, fun symbol occurs =>
      represents symbol (encodes.enumerable symbol occurs).knows (inDomain symbol occurs)⟩
  · intro values bits truth represents evaluates
    have represents (symbol : Symbol) (occurs : symbol ∈ formula.symbols) :
        ((encode formula encoder).2.capped keyBudget).Represents bits values symbol :=
      represents symbol occurs
    have same := encodes.means.of_capped unexhausted bits encodable.plain fun symbol occurs =>
      (represents symbol occurs).1
    rw [same, Expr.truth_congr fun symbol occurs => (represents symbol occurs).2]
    have lawful' := reached'.steady.lawful (nodes_le_keyBudget few) lawful
    exact encodable.wellTyped.refines_truth
      (fun symbol occurs => (represents symbol occurs).hasType wellFormed lawful') truth evaluates

/-- The diagram of the constraint of a formula. -/
theorem constrains_domainConstraint (reached : encoder.Reached config)
    (encoded : (domainConstraint formula encoder).1 = .ok edge)
    (unexhausted : (domainConstraint formula encoder).2.manager.exhaustion = none)
    (few : (domainConstraint formula encoder).2.manager.size ≤ 32767) :
    (domainConstraint formula encoder).2.ConstrainsDomains config formula edge := by
  obtain ⟨wellFormed, sameConfig, returned⟩ := reached.steady.ensures
    (Encoding.budgeted_domainConstraint formula)
    (Encoding.ensures_domainConstraint fun _ occurs => occurs) (nodes_le_keyBudget few)
  obtain ⟨-, means⟩ := returned edge encoded
  intro bits
  refine (means.of_capped unexhausted bits).trans (forall₂_congr fun symbol _ => ?_)
  constructor
  · rintro ⟨encoded, found, small⟩
    have hasDomain := (wellFormed.places found).domain_eq
    rw [sameConfig] at hasDomain
    exact ⟨encoded, found, hasDomain, small⟩
  · rintro ⟨encoded, found, -, small⟩
    exact ⟨encoded, found, small⟩

end Reached

def unevenConfig : SolverConfig :=
  { Session.narrowConfig with defaultRange := (0, 2) }

theorem unevenConfig_lawful : unevenConfig.Lawful := by
  intro _
  show FitsInt64 0 ∧ FitsInt64 2 ∧ (0 : Int) ≤ 2
  decide

def flaggedEncoder : Encoder :=
  (encode Session.flag (.new unevenConfig)).2

theorem reached_flaggedEncoder : flaggedEncoder.Reached unevenConfig :=
  .encoding .start Session.flag

def falseChoice : Expr :=
  .ternary .ite Session.flag (.ofBool false) Session.flag .bool

theorem wellTyped_falseChoice : falseChoice.WellTyped :=
  ⟨⟨rfl, rfl, rfl⟩, trivial, Value.hasType_bool false, trivial⟩

end Encoder

end AbstractionRefinement
