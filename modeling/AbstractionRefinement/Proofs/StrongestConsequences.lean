import AbstractionRefinement.Proofs.DiagramDecoding
import AbstractionRefinement.Proofs.DiagramQuantification
import AbstractionRefinement.Proofs.TraceInterpolation

/-!
# Strongest consequences

The diagram of some formulas depends only on levels of their symbols.  When the levels of
some of the symbols are quantified, what is left is decoded as the strongest consequence
of the formulas over the other symbols: it follows from the formulas, and wherever it
holds, the quantified symbols have values with which the formulas hold.
-/

namespace AbstractionRefinement

/-- A formula over symbols of some formulas that are kept.  It follows from the formulas,
and where it holds, the symbols that are not kept have values that fulfil them. -/
structure StrongestConsequence (config : SolverConfig) (formulas : List Expr)
    (kept : Symbol → Prop) (consequence : Expr) : Prop where
  encodable : consequence.Encodable
  boolean : consequence.ty = .bool
  unprimed : consequence.hasPrime = false
  mentions {symbol : Symbol} : symbol ∈ consequence.symbols →
    Occurs symbol formulas ∧ kept symbol
  decided {values : Symbol → Value} :
    (∀ symbol, Occurs symbol formulas → kept symbol →
      config.Admits symbol.decl (values symbol)) →
    (consequence.evalBool fun symbol => some (values symbol)).isSome
  follows {values : Symbol → Value} : config.AdmitsAll values formulas →
    Fulfills values formulas →
      consequence.evalBool (fun symbol => some (values symbol)) = some true
  completes {values : Symbol → Value} :
    (∀ symbol, Occurs symbol formulas → kept symbol →
      config.Admits symbol.decl (values symbol)) →
    consequence.evalBool (fun symbol => some (values symbol)) = some true →
      ∃ values', config.AdmitsAll values' formulas ∧ Fulfills values' formulas ∧
        ∀ symbol, (Occurs symbol formulas → kept symbol) → values' symbol = values symbol

namespace Encoder

variable {encoder : Encoder} {formulas : List Expr} {edge : Edge}
  {assignment assignment' : Nat → Bool}

/-- The assignments agree on the levels of the symbol. -/
def AgreeOn (encoder : Encoder) (assignment assignment' : Nat → Bool) (symbol : Symbol) : Prop :=
  ∀ encoded, OrderedMap.find? symbol encoder.symbols = some encoded →
    ∀ level ∈ encoded.bits, assignment level = assignment' level

theorem AgreeOn.offset_eq {symbol : Symbol} {encoded : SymbolBits}
    (agree : encoder.AgreeOn assignment assignment' symbol)
    (found : OrderedMap.find? symbol encoder.symbols = some encoded) :
    encoded.offset assignment = encoded.offset assignment' := by
  apply Nat.eq_of_testBit_eq
  intro position
  rw [SymbolBits.offset, SymbolBits.offset, testBit_binaryOffset, testBit_binaryOffset]
  cases inside : encoded.bits[position]? with
  | none => rfl
  | some level => exact agree encoded found level (List.mem_of_getElem? inside)

theorem AgreeOn.interpret_eq {symbol : Symbol}
    (agree : encoder.AgreeOn assignment assignment' symbol) :
    encoder.interpret assignment symbol = encoder.interpret assignment' symbol := by
  unfold interpret
  cases found : OrderedMap.find? symbol encoder.symbols with
  | none => rfl
  | some encoded => rw [Option.map_some, Option.map_some, agree.offset_eq found]

theorem AgreeOn.within {symbol : Symbol} (agree : encoder.AgreeOn assignment assignment' symbol)
    (within : encoder.Within assignment symbol) : encoder.Within assignment' symbol := by
  obtain ⟨encoded, found, small⟩ := within
  exact ⟨encoded, found, agree.offset_eq found ▸ small⟩

theorem Confirms.congr {formula : Expr} (confirms : encoder.Confirms assignment formula)
    (agree : ∀ symbol ∈ formula.symbols, encoder.AgreeOn assignment assignment' symbol) :
    encoder.Confirms assignment' formula := by
  refine ⟨fun symbol occurs => (agree symbol occurs).within (confirms.1 symbol occurs),
    fun plain => ?_⟩
  rw [← confirms.2 plain]
  exact Expr.truth_congr fun symbol occurs => (agree symbol occurs).interpret_eq.symm

/-- The diagram of formulas without choices between truth values depends only on levels of
their symbols. -/
theorem Decides.exists_of_dependsOn (decides : encoder.Decides formulas edge)
    (plain : ∀ formula ∈ formulas, formula.choosesTruth = false)
    (unexhausted : encoder.manager.exhaustion = none) {level : Nat}
    (depends : encoder.manager.DependsOn edge level) :
    ∃ symbol encoded, Occurs symbol formulas ∧
      OrderedMap.find? symbol encoder.symbols = some encoded ∧ level ∈ encoded.bits := by
  by_contra none
  obtain ⟨assignment, differ⟩ := depends
  have agree (truth truth' : Bool) {formula : Expr} (member : formula ∈ formulas)
      {symbol : Symbol} (occurs : symbol ∈ formula.symbols) :
      encoder.AgreeOn (Function.update assignment level truth)
        (Function.update assignment level truth') symbol := by
    intro encoded found other isBit
    have apart : other ≠ level := by
      rintro rfl
      exact none ⟨symbol, encoded, ⟨formula, member, occurs⟩, found, isBit⟩
    rw [Function.update_of_ne apart, Function.update_of_ne apart]
  have transfer (truth truth' : Bool)
      (holds : encoder.manager.value (Function.update assignment level truth) edge = true) :
      encoder.manager.value (Function.update assignment level truth') edge = true := by
    have confirms := (decides.means.value unexhausted _).confirms holds
    exact (decides.means.value unexhausted _).holds plain fun formula member =>
      (confirms formula member).congr fun symbol occurs => agree truth truth' member occurs
  exact differ (Bool.eq_iff_iff.mpr ⟨transfer true false, transfer false true⟩)

theorem WellFormed.eq_of_mem_bits (wellFormed : encoder.WellFormed) {symbol symbol' : Symbol}
    {encoded encoded' : SymbolBits}
    (found : OrderedMap.find? symbol encoder.symbols = some encoded)
    (found' : OrderedMap.find? symbol' encoder.symbols = some encoded') {level : Nat}
    (isBit : level ∈ encoded.bits) (isBit' : level ∈ encoded'.bits) : symbol = symbol' := by
  have owner := (wellFormed.places found).owner_eq isBit
  rw [(wellFormed.places found').owner_eq isBit'] at owner
  exact (Option.some.inj owner).symm

theorem mem_levelsOf {symbols : List Symbol} {level : Nat} : level ∈ encoder.levelsOf symbols ↔
    ∃ symbol ∈ symbols, ∃ encoded, OrderedMap.find? symbol encoder.symbols = some encoded ∧
      level ∈ encoded.bits := by
  unfold levelsOf
  rw [List.mem_flatMap]
  refine exists_congr fun symbol => and_congr_right fun _ => ?_
  cases OrderedMap.find? symbol encoder.symbols <;> simp

/-- The second edge is the diagram of some formulas, which choose between no truth values,
with the levels of some symbols quantified. -/
structure Projects (encoder : Encoder) (formulas : List Expr) (symbols : List Symbol)
    (edge projected : Edge) : Prop where
  wellFormed : encoder.WellFormed
  exact : encoder.config.Exact
  few : encoder.nextLevel ≤ 2147483648
  unexhausted : encoder.manager.exhaustion = none
  plain : ∀ formula ∈ formulas, formula.choosesTruth = false
  decides : encoder.Decides formulas edge
  owns : encoder.manager.Owns projected
  quantifies : encoder.manager.Quantifies (encoder.levelsOf symbols).contains edge projected

namespace Projects

variable {symbols : List Symbol} {projected : Edge} {values : Symbol → Value}
  (projects : encoder.Projects formulas symbols edge projected)
include projects

theorem exists_of_dependsOn {level : Nat} (depends : encoder.manager.DependsOn projected level) :
    ∃ symbol encoded, Occurs symbol formulas ∧ symbol ∉ symbols ∧
      OrderedMap.find? symbol encoder.symbols = some encoded ∧ level ∈ encoded.bits := by
  obtain ⟨symbol, encoded, occurs, found, isBit⟩ := projects.decides.exists_of_dependsOn
    projects.plain projects.unexhausted (projects.quantifies.dependsOn depends)
  refine ⟨symbol, encoded, occurs, fun member => ?_, found, isBit⟩
  refine projects.quantifies.not_dependsOn ?_ depends
  rw [List.contains_iff_mem, mem_levelsOf]
  exact ⟨symbol, member, encoded, found, isBit⟩

theorem reaches {symbol : Symbol} (occurs : Occurs symbol formulas)
    (admits : encoder.config.Admits symbol.decl (values symbol)) :
    encoder.Within (encoder.assignmentOf (encoder.offsetOfValue values)) symbol ∧
      encoder.interpret (encoder.assignmentOf (encoder.offsetOfValue values)) symbol =
        some (values symbol) := by
  obtain ⟨formula, member, inside⟩ := occurs
  exact interpret_offsetOfValue projects.wellFormed projects.exact.lawful projects.exact.countable
    (projects.decides.enumerable member symbol inside) admits

/-- Where the projection is true, the quantified symbols have values that fulfil the
formulas. -/
theorem exists_values
    (admits : ∀ symbol, Occurs symbol formulas → symbol ∉ symbols →
      encoder.config.Admits symbol.decl (values symbol))
    (holds : encoder.manager.value (encoder.assignmentOf (encoder.offsetOfValue values))
      projected = true) :
    ∃ values', encoder.config.AdmitsAll values' formulas ∧ Fulfills values' formulas ∧
      ∀ symbol, (Occurs symbol formulas → symbol ∉ symbols) → values' symbol = values symbol := by
  obtain ⟨assignment, agree, holds⟩ := (projects.quantifies.value_iff _).mp holds
  obtain ⟨values', admits', fulfills', interpreted⟩ := projects.decides.exists_values
    projects.wellFormed projects.exact.lawful projects.unexhausted holds
  have same (symbol : Symbol) (occurs : Occurs symbol formulas) (kept : symbol ∉ symbols) :
      values' symbol = values symbol := by
    -- The levels of a symbol that is kept belong to no quantified symbol.
    have same : encoder.AgreeOn assignment
        (encoder.assignmentOf (encoder.offsetOfValue values)) symbol := by
      intro encoded found level isBit
      refine agree level (Bool.eq_false_iff.mpr fun isQuantified => kept ?_)
      rw [List.contains_iff_mem, mem_levelsOf] at isQuantified
      obtain ⟨other, isOther, encoded', found', isBit'⟩ := isQuantified
      exact projects.wellFormed.eq_of_mem_bits found found' isBit isBit' ▸ isOther
    have reached := (projects.reaches occurs (admits symbol occurs kept)).2
    obtain ⟨formula, member, inside⟩ := occurs
    rw [← same.interpret_eq, interpreted formula member symbol inside] at reached
    exact Option.some.inj reached
  classical
  refine ⟨fun symbol => if Occurs symbol formulas then values' symbol else values symbol,
    fun formula member symbol occurs => ?_, fun formula member => ?_, fun symbol kept => ?_⟩
  · dsimp only
    rw [if_pos ⟨formula, member, occurs⟩]
    exact admits' formula member symbol occurs
  · rw [← fulfills' formula member (projects.plain formula member)]
    exact Expr.truth_congr fun symbol occurs => congrArg some (if_pos ⟨formula, member, occurs⟩)
  · dsimp only
    split
    case isTrue occurs => exact same symbol occurs (kept occurs)
    case isFalse => rfl

/-- What the projection is decoded to is the strongest consequence. -/
theorem strongestConsequence {consequence : Expr}
    (decoded : encoder.decode projected = .ok consequence) :
    StrongestConsequence encoder.config formulas (· ∉ symbols) consequence := by
  have expresses := expresses_decode projects.wellFormed projects.exact.lawful projects.few
    projects.owns (fun level depends =>
      have ⟨symbol, encoded, _, _, found, isBit⟩ := projects.exists_of_dependsOn depends
      ⟨symbol, encoded, found, isBit⟩) decoded
  have kept {symbol : Symbol} (matters : encoder.Matters projected symbol) :
      Occurs symbol formulas ∧ symbol ∉ symbols := by
    obtain ⟨encoded, found, level, isBit, depends⟩ := matters
    obtain ⟨other, encoded', occurs, kept, found', isBit'⟩ :=
      projects.exists_of_dependsOn depends
    obtain rfl := projects.wellFormed.eq_of_mem_bits found' found isBit' isBit
    exact ⟨occurs, kept⟩
  have evaluates {values : Symbol → Value} (admits : ∀ symbol, Occurs symbol formulas →
      symbol ∉ symbols → encoder.config.Admits symbol.decl (values symbol)) :
      consequence.evalBool (fun symbol => some (values symbol)) =
        some (encoder.manager.value (encoder.assignmentOf (encoder.offsetOfValue values))
          projected) := by
    have reaches {symbol : Symbol} (matters : encoder.Matters projected symbol) :=
      have ⟨occurs, kept⟩ := kept matters
      projects.reaches occurs (admits symbol occurs kept)
    rw [← expresses.evaluates fun symbol matters => (reaches matters).1]
    exact Expr.evalBool_congr fun symbol occurs => (reaches (expresses.mentions occurs)).2.symm
  refine ⟨expresses.encodable, expresses.boolean, expresses.unprimed,
    fun occurs => kept (expresses.mentions occurs), fun admits => ?_,
    fun {values} admits fulfills => ?_, fun {values} admits holds => ?_⟩
  · rw [evaluates admits]
    rfl
  · rw [evaluates fun symbol ⟨formula, member, occurs⟩ _ => admits formula member symbol occurs]
    refine congrArg some ((projects.quantifies.value_iff _).mpr ⟨_, fun _ _ => rfl, ?_⟩)
    exact projects.decides.value_eq projects.wellFormed projects.exact projects.plain
      projects.unexhausted admits fulfills
  · rw [evaluates admits, Option.some.injEq] at holds
    exact projects.exists_values admits holds

end Projects

/-- The formula is decoded from a projection. -/
def ProjectsTo (encoder : Encoder) (formulas : List Expr) (symbols : List Symbol)
    (consequence : Expr) : Prop :=
  ∃ edge projected, encoder.Projects formulas symbols edge projected ∧
    encoder.decode projected = .ok consequence

end Encoder

end AbstractionRefinement
