import AbstractionRefinement.Proofs.ReachedEncoders
import AbstractionRefinement.Proofs.StrongestConsequences

/-!
# Decoded diagrams

A diagram over the levels of encoded symbols is decoded exactly: at values of the symbols'
domains the formula evaluates to the value of the diagram on the bits that represent them.  So
what is encoded within the domains of its symbols and decoded again is equivalent to the
formula at all such values, wherever that evaluates.
-/

namespace AbstractionRefinement

namespace Encoder

open DiagramManager (keyBudget)

variable {config : SolverConfig} {encoder : Encoder} {edge : Edge} {formula decoded : Expr}
  {values : Symbol → Option Value} {bits : Nat → Bool}

/-- The edge depends on levels of encoded symbols only. -/
def OverSymbols (encoder : Encoder) (edge : Edge) : Prop :=
  ∀ level, encoder.manager.DependsOn edge level → ∃ symbol encoded,
    OrderedMap.find? symbol encoder.symbols = some encoded ∧ level ∈ encoded.bits

theorem owns_capped {budget : Nat} :
    (encoder.capped budget).manager.Owns edge ↔ encoder.manager.Owns edge :=
  Iff.rfl

theorem dependsOn_capped {budget level : Nat} :
    (encoder.capped budget).manager.DependsOn edge level ↔
      encoder.manager.DependsOn edge level := by
  unfold DiagramManager.DependsOn
  simp only [show (encoder.capped budget).manager = encoder.manager.capped budget from rfl,
    DiagramManager.value_capped]

theorem matters_capped {budget : Nat} {symbol : Symbol} :
    (encoder.capped budget).Matters edge symbol ↔ encoder.Matters edge symbol := by
  unfold Matters
  simp only [dependsOn_capped]
  rfl

theorem Decides.overSymbols {budget : Nat} {formulas : List Expr}
    (decides : (encoder.capped budget).Decides formulas edge)
    (plain : ∀ formula ∈ formulas, formula.choosesTruth = false)
    (unexhausted : encoder.manager.exhaustion = none) : encoder.OverSymbols edge := by
  intro level depends
  obtain ⟨symbol, encoded, -, found, isBit⟩ :=
    decides.exists_of_dependsOn plain unexhausted (dependsOn_capped.mpr depends)
  exact ⟨symbol, encoded, found, isBit⟩

/-- At represented values of its symbols, the diagram of a formula within their domains has the
truth value to which the formula evaluates. -/
theorem Decides.value_of_represents (decides : encoder.Decides [formula] edge)
    (wellFormed : encoder.WellFormed) (lawful : encoder.config.Lawful)
    (encodable : formula.Encodable) (unexhausted : encoder.manager.exhaustion = none)
    (represents : ∀ symbol ∈ formula.symbols, encoder.Represents bits values symbol)
    {truth : Bool} (evaluates : formula.evalBool values = some truth) :
    encoder.manager.value bits edge = truth := by
  have reflects := decides.means.value unexhausted bits
  have same : formula.truth (encoder.interpret bits) = truth := by
    rw [Expr.truth_congr fun symbol occurs => (represents symbol occurs).2]
    exact encodable.wellTyped.refines_truth (fun symbol occurs =>
      (represents symbol occurs).hasType wellFormed lawful) truth evaluates
  have within (symbol : Symbol) (occurs : symbol ∈ formula.symbols) :=
    (represents symbol occurs).1
  rw [Bool.eq_iff_iff]
  constructor
  · intro holds
    rw [← same]
    exact (reflects.confirms holds formula (List.mem_singleton_self formula)).2 encodable.plain
  · rintro rfl
    refine reflects.holds (by simpa using encodable.plain) ?_
    rw [List.forall_mem_singleton]
    exact ⟨within, fun _ => same⟩

/-- Values of the domains of the encoded symbols are represented by bits, and at all bits that
represent the values of the symbols that the edge depends on, the formula evaluates to the value
of the edge. -/
structure DecodesExactly (encoder : Encoder) (config : SolverConfig) (edge : Edge)
    (decoded : Expr) : Prop where
  represented {values : Symbol → Option Value} :
    (∀ symbol, encoder.Knows symbol →
      ∃ value, values symbol = some value ∧ config.InDomain symbol value) →
      ∃ bits, ∀ symbol, encoder.Knows symbol → encoder.Represents bits values symbol
  evalBool_eq {values : Symbol → Option Value} {bits : Nat → Bool} :
    (∀ symbol, encoder.Matters edge symbol → encoder.Represents bits values symbol) →
      decoded.evalBool values = some (encoder.manager.value bits edge)

/-- At all values of the domains of the first formula's symbols at which that evaluates, the
second one evaluates to the same. -/
def EquivalentInDomains (config : SolverConfig) (formula decoded : Expr) : Prop :=
  ∀ values : Symbol → Option Value,
    (∀ symbol ∈ formula.symbols,
      ∃ value, values symbol = some value ∧ config.InDomain symbol value) →
      ∀ truth, formula.evalBool values = some truth → decoded.evalBool values = some truth

namespace Reached

/-- What a diagram is decoded to. -/
theorem decodesExactly (reached : encoder.Reached config) (lawful : config.Lawful)
    (few : encoder.manager.size ≤ 32767) (fewLevels : encoder.nextLevel ≤ 2147483648)
    (owns : encoder.manager.Owns edge) (overSymbols : encoder.OverSymbols edge)
    (made : encoder.decode edge = .ok decoded) :
    encoder.DecodesExactly config edge decoded := by
  have small := nodes_le_keyBudget few
  constructor
  · intro values inDomain
    obtain ⟨bits, represents⟩ := reached.exists_represents few values
    exact ⟨bits, fun symbol known => represents symbol known (inDomain symbol known)⟩
  · intro values bits represents
    have expresses := expresses_decode (reached.steady.wellFormed small)
      (reached.steady.lawful small lawful) fewLevels owns
      (fun level depends => overSymbols level (dependsOn_capped.mp depends))
      ((decode_capped keyBudget encoder edge).trans made)
    have represents (symbol : Symbol)
        (matters : (encoder.capped keyBudget).Matters edge symbol) :
        (encoder.capped keyBudget).Represents bits values symbol :=
      represents symbol (matters_capped.mp matters)
    have evaluates := expresses.evaluates fun symbol matters => (represents symbol matters).1
    rw [Expr.evalBool_congr fun symbol occurs =>
      (represents symbol (expresses.mentions occurs)).2] at evaluates
    exact evaluates.trans (congrArg some (DiagramManager.value_capped keyBudget _ bits edge))

theorem decides_encodeValid (reached : encoder.Reached config)
    (encoded : (encodeValid formula encoder).1 = .ok edge)
    (few : (encodeValid formula encoder).2.manager.size ≤ 32767) :
    ((encodeValid formula encoder).2.capped keyBudget).Decides [formula] edge :=
  (reached.steady.ensures (Encoding.budgeted_encodeValid formula)
    (Encoding.ensures_encodeValid fun _ occurs => occurs) (nodes_le_keyBudget few)).2.2 edge
      encoded

/-- What the diagram of a formula within the domains of its symbols is decoded to. -/
theorem equivalent_decode (reached : encoder.Reached config) (lawful : config.Lawful)
    (encodable : formula.Encodable) (encoded : (encodeValid formula encoder).1 = .ok edge)
    (unexhausted : (encodeValid formula encoder).2.manager.exhaustion = none)
    (few : (encodeValid formula encoder).2.manager.size ≤ 32767)
    (fewLevels : (encodeValid formula encoder).2.nextLevel ≤ 2147483648)
    (made : (encodeValid formula encoder).2.decode edge = .ok decoded) :
    EquivalentInDomains config formula decoded := by
  have decides := reached.decides_encodeValid encoded few
  have reached' := reached.validEncoding formula
  generalize (encodeValid formula encoder).2 = after at *
  have plain : ∀ other ∈ [formula], other.choosesTruth = false := by
    simpa using encodable.plain
  have wellFormed := reached'.steady.wellFormed (nodes_le_keyBudget few)
  have exact_ := reached'.decodesExactly lawful few fewLevels decides.means.owns
    (decides.overSymbols plain unexhausted) made
  intro values inDomain truth evaluates
  obtain ⟨bits, represents⟩ := reached'.exists_represents few values
  have represents (symbol : Symbol) (occurs : symbol ∈ formula.symbols) :
      (after.capped keyBudget).Represents bits values symbol :=
    represents symbol
      (decides.enumerable (List.mem_singleton_self formula) symbol occurs).knows
      (inDomain symbol occurs)
  have same := decides.value_of_represents wellFormed
    (reached'.steady.lawful (nodes_le_keyBudget few) lawful) encodable unexhausted represents
    evaluates
  rw [show (after.capped keyBudget).manager.value bits edge = after.manager.value bits edge from
    DiagramManager.value_capped ..] at same
  rw [exact_.evalBool_eq, same]
  -- The symbols that the diagram depends on are those of the formula.
  rintro symbol ⟨encoded, found, level, isBit, depends⟩
  obtain ⟨other, encoded', ⟨_, member, occurs⟩, found', isBit'⟩ :=
    decides.exists_of_dependsOn plain unexhausted (dependsOn_capped.mpr depends)
  obtain rfl := wellFormed.eq_of_mem_bits found' found isBit' isBit
  rw [List.mem_singleton.mp member] at occurs
  exact represents other occurs

/-- Diagrams over encoded symbols are decoded exactly, and a formula that is encoded within the
domains of its symbols is decoded as an equivalent one. -/
theorem decode_exact (reached : encoder.Reached config) (lawful : config.Lawful) :
    (∀ edge decoded, encoder.manager.size ≤ 32767 → encoder.nextLevel ≤ 2147483648 →
      encoder.manager.Owns edge → encoder.OverSymbols edge →
      encoder.decode edge = .ok decoded → encoder.DecodesExactly config edge decoded) ∧
      ∀ formula edge decoded, formula.Encodable →
        (encodeValid formula encoder).1 = .ok edge →
        (encodeValid formula encoder).2.manager.exhaustion = none →
        (encodeValid formula encoder).2.manager.size ≤ 32767 →
        (encodeValid formula encoder).2.nextLevel ≤ 2147483648 →
        (encodeValid formula encoder).2.decode edge = .ok decoded →
          EquivalentInDomains config formula decoded :=
  ⟨fun _ _ few fewLevels owns overSymbols made =>
      reached.decodesExactly lawful few fewLevels owns overSymbols made,
    fun _ _ _ encodable encoded unexhausted few fewLevels made =>
      reached.equivalent_decode lawful encodable encoded unexhausted few fewLevels made⟩

end Reached

theorem encodeValid_amountIs :
    (encodeValid (Session.amountIs 2) flaggedEncoder).1 = .ok ⟨-6⟩ ∧
      (encodeValid (Session.amountIs 2) flaggedEncoder).2.manager.exhaustion = none ∧
      (encodeValid (Session.amountIs 2) flaggedEncoder).2.manager.size ≤ 32767 ∧
      (encodeValid (Session.amountIs 2) flaggedEncoder).2.nextLevel ≤ 2147483648 ∧
      (encodeValid (Session.amountIs 2) flaggedEncoder).2.decode ⟨-6⟩ =
        .ok (Session.amountIs 2) := by
  decide +kernel

/-- An equation over three numbers is decoded within its domain as itself, and exactly. -/
theorem amountIs_decoded : flaggedEncoder.Reached unevenConfig ∧ unevenConfig.Lawful ∧
    (encodeValid (Session.amountIs 2) flaggedEncoder).2.manager.Owns ⟨-6⟩ ∧
    (encodeValid (Session.amountIs 2) flaggedEncoder).2.OverSymbols ⟨-6⟩ ∧
    (Session.amountIs 2).Encodable ∧
    (encodeValid (Session.amountIs 2) flaggedEncoder).2.DecodesExactly unevenConfig ⟨-6⟩
      (Session.amountIs 2) ∧
    EquivalentInDomains unevenConfig (Session.amountIs 2) (Session.amountIs 2) := by
  have encodable : (Session.amountIs 2).Encodable := Session.encodable_amountIs (by decide)
  obtain ⟨encoded, unexhausted, few, fewLevels, made⟩ := encodeValid_amountIs
  have decides := reached_flaggedEncoder.decides_encodeValid encoded few
  have owns := owns_capped.mp decides.means.owns
  have overSymbols := decides.overSymbols (by simpa using encodable.plain) unexhausted
  have reached := reached_flaggedEncoder.validEncoding (Session.amountIs 2)
  have exactly := (reached.decode_exact unevenConfig_lawful).1 ⟨-6⟩ (Session.amountIs 2) few
    fewLevels owns overSymbols made
  have equivalent := (reached_flaggedEncoder.decode_exact unevenConfig_lawful).2
    (Session.amountIs 2) ⟨-6⟩ (Session.amountIs 2) encodable encoded unexhausted few fewLevels made
  exact ⟨reached_flaggedEncoder, unevenConfig_lawful, owns, overSymbols, encodable, exactly,
    equivalent⟩

theorem encodeValid_falseChoice :
    (encodeValid falseChoice (.new Session.narrowConfig)).1 = .ok ⟨2⟩ ∧
      (encodeValid falseChoice (.new Session.narrowConfig)).2.manager.exhaustion = none ∧
      (encodeValid falseChoice (.new Session.narrowConfig)).2.decode ⟨2⟩ = .ok Session.flag := by
  decide +kernel

/-- The choice of false or the flag by the flag is decoded as the flag, so not every formula is
decoded as an equivalent one. -/
theorem falseChoice_decoded_wrongly : ¬ ∀ (config : SolverConfig) (encoder : Encoder)
    (formula : Expr) (edge : Edge) (decoded : Expr), config.Lawful → encoder.Reached config →
      formula.WellTyped → (encodeValid formula encoder).1 = .ok edge →
      (encodeValid formula encoder).2.manager.exhaustion = none →
      (encodeValid formula encoder).2.decode edge = .ok decoded →
        EquivalentInDomains config formula decoded := by
  intro claimed
  obtain ⟨encoded, unexhausted, made⟩ := encodeValid_falseChoice
  have equivalent := claimed Session.narrowConfig _ falseChoice _ Session.flag
    Session.narrowConfig_lawful .start wellTyped_falseChoice encoded unexhausted made
  have inDomain : ∀ symbol ∈ falseChoice.symbols, ∃ value,
      some (Value.bool true) = some value ∧ Session.narrowConfig.InDomain symbol value := by
    rw [show falseChoice.symbols = [⟨⟨"flag", .bool⟩, none⟩] by decide +kernel,
      List.forall_mem_singleton]
    exact ⟨_, rfl, .bool, 2, 1, rfl, by decide, rfl⟩
  have differs := equivalent (fun _ => some (.bool true)) inDomain false (by decide)
  have holds : Session.flag.evalBool (fun _ => some (.bool true)) = some true := by decide
  rw [holds] at differs
  cases differs

end Encoder

end AbstractionRefinement
