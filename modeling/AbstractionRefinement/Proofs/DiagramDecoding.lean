import AbstractionRefinement.BitDecoding
import AbstractionRefinement.Proofs.PathEnumeration
import AbstractionRefinement.Proofs.StateFormulas

/-!
# Decoding decision diagrams

A diagram over the levels of encoded symbols is decoded as a formula that mentions only
symbols whose levels the diagram depends on.  Where these symbols have values of their
domains, the formula has the truth value of the diagram.

The proof follows the construction: an interval of offsets, the offsets that agree with
some literals, the literals of a path grouped by the symbols that own their levels, and
the paths of the diagram.
-/

namespace AbstractionRefinement

namespace Expr

variable {operands : List Expr} {formula : Expr}

/-- The formula is the disjunction that is built of the operands. -/
inductive IsDisjunction : List Expr → Expr → Prop
  | nil : IsDisjunction [] bottom
  | singleton (operand : Expr) : IsDisjunction [operand] operand
  | many (operands : List Expr) : IsDisjunction operands (nary .or operands .bool)

theorem isDisjunction_of_mkOr (built : mkOr operands = .ok formula) :
    IsDisjunction operands formula := by
  obtain ⟨_, -, built⟩ := exists_of_bind_eq_ok built
  split at built
  · cases built
    exact .nil
  · cases built
    exact .singleton _
  · cases built
    exact .many _

namespace IsDisjunction

theorem encodable (isDisjunction : IsDisjunction operands formula)
    (all : ∀ operand ∈ operands, operand.Encodable)
    (boolean : ∀ operand ∈ operands, operand.ty = .bool) :
    formula.Encodable ∧ formula.ty = .bool := by
  cases isDisjunction with
  | nil => exact ⟨⟨Value.hasType_bool false, rfl⟩, rfl⟩
  | singleton => exact ⟨all formula (by simp), boolean formula (by simp)⟩
  | many operands =>
      refine ⟨⟨⟨⟨rfl, List.forall_mem_map.mpr boolean⟩, ?_⟩, ?_⟩, rfl⟩
      · exact allWellTyped_iff.mpr fun operand member => (all operand member).wellTyped
      · rw [choosesTruth, choosesTruthAny_eq_any, List.any_eq_false]
        intro operand member
        rw [(all operand member).plain]
        decide

theorem mem_symbols (isDisjunction : IsDisjunction operands formula) {symbol : Symbol} :
    symbol ∈ formula.symbols ↔ ∃ operand ∈ operands, symbol ∈ operand.symbols := by
  cases isDisjunction with
  | nil => exact iff_of_false mem_symbols_lit (by simp)
  | singleton => simp
  | many => exact mem_symbols_nary

theorem hasPrime (isDisjunction : IsDisjunction operands formula)
    (all : ∀ operand ∈ operands, operand.hasPrime = false) : formula.hasPrime = false := by
  cases isDisjunction with
  | nil => rfl
  | singleton => exact all formula (by simp)
  | many operands =>
      rw [Expr.hasPrime, hasPrimeAny_eq_any, List.any_eq_false]
      intro operand member
      rw [all operand member]
      decide

/-- A disjunction of truth values is true if one of them is. -/
theorem evalBool_eq (isDisjunction : IsDisjunction operands formula)
    {assignment : Symbol → Option Value}
    (all : ∀ operand ∈ operands, (operand.evalBool assignment).isSome) :
    formula.evalBool assignment =
      some (operands.any fun operand => operand.evalBool assignment = some true) := by
  cases isDisjunction with
  | nil => rfl
  | singleton =>
      obtain ⟨truth, known⟩ := Option.isSome_iff_exists.mp (all formula (by simp))
      cases truth <;> simp [known]
  | many operands =>
      have known : none ∉ operands.map (evalBool assignment) := by
        rw [List.mem_map]
        rintro ⟨operand, member, unknown⟩
        have known := all operand member
        rw [unknown] at known
        cases known
      rw [evalBool_or]
      unfold disjunction
      by_cases holds : some true ∈ operands.map (evalBool assignment)
      · obtain ⟨operand, member, isTrue⟩ := List.mem_map.mp holds
        rw [if_pos (by rwa [List.contains_iff_mem])]
        exact congrArg some
          (List.any_eq_true.mpr ⟨operand, member, decide_eq_true isTrue⟩).symm
      · rw [if_neg (by rwa [List.contains_iff_mem]), if_neg (by rwa [List.contains_iff_mem])]
        refine congrArg some (List.any_eq_false.mpr fun operand member isTrue => holds ?_).symm
        exact List.mem_map.mpr ⟨operand, member, of_decide_eq_true isTrue⟩

end IsDisjunction

theorem IsConjunction.hasPrime (isConjunction : IsConjunction operands formula)
    (all : ∀ operand ∈ operands, operand.hasPrime = false) : formula.hasPrime = false := by
  cases isConjunction with
  | nil => rfl
  | singleton => exact all formula (by simp)
  | many operands =>
      rw [Expr.hasPrime, hasPrimeAny_eq_any, List.any_eq_false]
      intro operand member
      rw [all operand member]
      decide

end Expr

namespace Encoder

variable {encoder : Encoder}

/-- The formula mentions only some symbols, and where these have values of their domains
it has the given truth value. -/
structure Expresses (encoder : Encoder) (among : Symbol → Prop) (truth : (Nat → Bool) → Bool)
    (formula : Expr) : Prop where
  encodable : formula.Encodable
  boolean : formula.ty = .bool
  unprimed : formula.hasPrime = false
  mentions {symbol : Symbol} : symbol ∈ formula.symbols → among symbol
  evaluates {assignment : Nat → Bool} :
    (∀ symbol, among symbol → encoder.Within assignment symbol) →
      formula.evalBool (encoder.interpret assignment) = some (truth assignment)

section Expressions

variable {among : Symbol → Prop} {truth : (Nat → Bool) → Bool} {formula : Expr}

theorem Expresses.mono {among' : Symbol → Prop} {truth' : (Nat → Bool) → Bool}
    (expresses : encoder.Expresses among truth formula)
    (weaker : ∀ symbol, among symbol → among' symbol)
    (same : ∀ assignment, (∀ symbol, among' symbol → encoder.Within assignment symbol) →
      truth assignment = truth' assignment) : encoder.Expresses among' truth' formula where
  encodable := expresses.encodable
  boolean := expresses.boolean
  unprimed := expresses.unprimed
  mentions occurs := weaker _ (expresses.mentions occurs)
  evaluates within := by
    rw [← same _ within]
    exact expresses.evaluates fun symbol member => within symbol (weaker symbol member)

theorem expresses_ofBool (value : Bool) :
    encoder.Expresses among (fun _ => value) (.ofBool value) where
  encodable := ⟨Value.hasType_bool value, rfl⟩
  boolean := rfl
  unprimed := rfl
  mentions occurs := absurd occurs Expr.mem_symbols_lit
  evaluates _ := rfl

theorem Expresses.not (expresses : encoder.Expresses among truth formula) :
    encoder.Expresses among (fun assignment => !truth assignment) (.unary .not formula .bool) where
  encodable := expresses.encodable.not expresses.boolean
  boolean := rfl
  unprimed := expresses.unprimed
  mentions occurs := expresses.mentions (Expr.mem_symbols_unary.mp occurs)
  evaluates within := by
    rw [Expr.evalBool_not, expresses.evaluates within]
    rfl

/-- A conjunction of operands that express something. -/
theorem expresses_of_isConjunction {operands : List Expr}
    (isConjunction : Expr.IsConjunction operands formula)
    (each : ∀ operand ∈ operands, ∃ truth, encoder.Expresses among truth operand)
    (same : ∀ assignment, (∀ symbol, among symbol → encoder.Within assignment symbol) →
      (truth assignment = true ↔
        ∀ operand ∈ operands, operand.evalBool (encoder.interpret assignment) = some true)) :
    encoder.Expresses among truth formula := by
  have ⟨encodable, boolean⟩ := isConjunction.encodable
    (fun operand member => (each operand member).elim fun _ expresses => expresses.encodable)
    fun operand member => (each operand member).elim fun _ expresses => expresses.boolean
  refine ⟨encodable, boolean, isConjunction.hasPrime fun operand member =>
    (each operand member).elim fun _ expresses => expresses.unprimed, fun occurs => ?_,
    fun {assignment} within => ?_⟩
  · obtain ⟨operand, member, occurs⟩ := isConjunction.mem_symbols.mp occurs
    obtain ⟨_, expresses⟩ := each operand member
    exact expresses.mentions occurs
  · have decided : ∀ operand ∈ operands,
        (operand.evalBool (encoder.interpret assignment)).isSome := by
      intro operand member
      obtain ⟨_, expresses⟩ := each operand member
      rw [expresses.evaluates within]
      rfl
    obtain ⟨value, known⟩ :=
      Option.isSome_iff_exists.mp (isConjunction.isSome_evalBool decided)
    have holds := isConjunction.evalBool_iff (encoder.interpret assignment)
    rw [← same assignment within, known, Option.some.injEq, ← Bool.eq_iff_iff] at holds
    rw [known, holds]

/-- A disjunction of operands that express something. -/
theorem expresses_of_isDisjunction {operands : List Expr}
    (isDisjunction : Expr.IsDisjunction operands formula)
    (each : ∀ operand ∈ operands, ∃ truth, encoder.Expresses among truth operand)
    (same : ∀ assignment, (∀ symbol, among symbol → encoder.Within assignment symbol) →
      (truth assignment = true ↔
        ∃ operand ∈ operands, operand.evalBool (encoder.interpret assignment) = some true)) :
    encoder.Expresses among truth formula := by
  have ⟨encodable, boolean⟩ := isDisjunction.encodable
    (fun operand member => (each operand member).elim fun _ expresses => expresses.encodable)
    fun operand member => (each operand member).elim fun _ expresses => expresses.boolean
  refine ⟨encodable, boolean, isDisjunction.hasPrime fun operand member =>
    (each operand member).elim fun _ expresses => expresses.unprimed, fun occurs => ?_,
    fun {assignment} within => ?_⟩
  · obtain ⟨operand, member, occurs⟩ := isDisjunction.mem_symbols.mp occurs
    obtain ⟨_, expresses⟩ := each operand member
    exact expresses.mentions occurs
  · have decided : ∀ operand ∈ operands,
        (operand.evalBool (encoder.interpret assignment)).isSome := by
      intro operand member
      obtain ⟨_, expresses⟩ := each operand member
      rw [expresses.evaluates within]
      rfl
    rw [isDisjunction.evalBool_eq decided, Option.some.injEq, Bool.eq_iff_iff,
      List.any_eq_true, same assignment within]
    simp

end Expressions

/-- A number agrees with the masks of some literals, the one of the positive literals and
that of all of them, if and only if the literals hold for its bits. -/
theorem agrees_iff {levels : List Nat} {literals : List Int} {assignment : Nat → Bool}
    (positive : ∀ level ∈ levels, 1 ≤ level)
    (among : ∀ literal ∈ literals, literal.natAbs ∈ levels)
    (consistent : ∀ literal ∈ literals, -literal ∉ literals) :
    binaryOffset assignment levels &&&
        (binaryOffset (fun level => literals.contains ((1 : Int) * level)) levels |||
          binaryOffset (fun level => literals.contains (-1 * level)) levels) =
        binaryOffset (fun level => literals.contains ((1 : Int) * level)) levels ↔
      literals.all (DiagramManager.LiteralHolds assignment) = true := by
  have digits : binaryOffset assignment levels &&&
        (binaryOffset (fun level => literals.contains ((1 : Int) * level)) levels |||
          binaryOffset (fun level => literals.contains (-1 * level)) levels) =
        binaryOffset (fun level => literals.contains ((1 : Int) * level)) levels ↔
      ∀ level ∈ levels, (assignment level &&
        (literals.contains ((1 : Int) * level) || literals.contains (-1 * level))) =
          literals.contains ((1 : Int) * level) := by
    constructor
    · intro same level member
      obtain ⟨position, inside, rfl⟩ := List.mem_iff_getElem.mp member
      have bit := congrArg (Nat.testBit · position) same
      simpa [Nat.testBit_and, Nat.testBit_or, testBit_binaryOffset, inside] using bit
    · intro each
      apply Nat.eq_of_testBit_eq
      intro position
      rw [Nat.testBit_and, Nat.testBit_or, testBit_binaryOffset, testBit_binaryOffset,
        testBit_binaryOffset]
      cases found : levels[position]? with
      | none => rfl
      | some level => exact each level (List.mem_of_getElem? found)
  have holds {level : Nat} (isPositive : 1 ≤ level) :
      DiagramManager.LiteralHolds assignment level = assignment level ∧
        DiagramManager.LiteralHolds assignment (-(level : Int)) = !assignment level := by
    unfold DiagramManager.LiteralHolds
    rw [if_neg (by omega), if_pos (by omega), Int.natAbs_neg, Int.natAbs_natCast]
    exact ⟨rfl, rfl⟩
  simp only [one_mul, neg_one_mul] at digits ⊢
  rw [digits, List.all_eq_true]
  constructor
  · intro each literal member
    have inside := among literal member
    have bit := each _ inside
    obtain ⟨whenPositive, whenNegative⟩ := holds (positive _ inside)
    rcases Int.natAbs_eq literal with same | same
    · rw [same, whenPositive]
      rw [← same, List.contains_iff_mem.mpr member] at bit
      simpa using bit
    · have absent : literals.contains (literal.natAbs : Int) = false := by
        rw [Bool.eq_false_iff, ne_eq, List.contains_iff_mem]
        rw [show (literal.natAbs : Int) = -literal by omega]
        exact consistent literal member
      rw [same, whenNegative]
      rw [← same, List.contains_iff_mem.mpr member, absent] at bit
      simpa using bit
  · intro each level member
    obtain ⟨whenPositive, whenNegative⟩ := holds (positive level member)
    by_cases occurs : (level : Int) ∈ literals
    · have isTrue := each _ occurs
      rw [whenPositive] at isTrue
      simp [isTrue, occurs]
    · by_cases occurs' : -(level : Int) ∈ literals
      · have isFalse := each _ occurs'
        rw [whenNegative] at isFalse
        simp [occurs, occurs', by simpa using isFalse]
      · simp [occurs, occurs']

/-- The intervals of increasing numbers hold exactly these, and their ends are among
them. -/
theorem mem_intervals {numbers : List Nat} (increasing : numbers.Pairwise (· < ·)) :
    (∀ number, number ∈ numbers ↔
      ∃ interval ∈ intervals numbers, interval.1 ≤ number ∧ number ≤ interval.2) ∧
    (∀ interval ∈ intervals numbers, interval.1 ≤ interval.2 ∧ interval.2 ∈ numbers) ∧
    (intervals numbers).head?.map Prod.fst = numbers.head? := by
  induction numbers with
  | nil => simp [intervals]
  | cons number numbers ih =>
      obtain ⟨below, increasing⟩ := List.pairwise_cons.mp increasing
      obtain ⟨same, ends, first⟩ := ih increasing
      unfold intervals
      cases rest : intervals numbers with
      | nil =>
          rw [rest] at same first
          obtain rfl : numbers = [] := by
            cases numbers with
            | nil => rfl
            | cons => cases first
          refine ⟨fun other => ?_, by simp, rfl⟩
          simp only [List.mem_singleton, exists_eq_left]
          omega
      | cons interval others =>
          obtain ⟨low, high⟩ := interval
          rw [rest] at same ends first
          simp only [List.exists_mem_cons_iff, List.forall_mem_cons] at same ends
          obtain ⟨ordered, others'⟩ := ends
          dsimp only
          split
          case isTrue adjacent =>
            refine ⟨fun other => ?_, ?_, rfl⟩
            · rw [List.mem_cons, same, List.exists_mem_cons_iff, ← or_assoc]
              exact or_congr_left (by omega)
            · rw [List.forall_mem_cons]
              refine ⟨⟨by omega, List.mem_cons_of_mem _ ordered.2⟩, fun interval member => ?_⟩
              exact ⟨(others' interval member).1, List.mem_cons_of_mem _ (others' interval member).2⟩
          case isFalse =>
            refine ⟨fun other => ?_, ?_, rfl⟩
            · rw [List.mem_cons, same, List.exists_mem_cons_iff, List.exists_mem_cons_iff]
              exact or_congr_left (by omega)
            · rw [List.forall_mem_cons, List.forall_mem_cons]
              refine ⟨⟨Nat.le_refl _, List.mem_cons_self⟩,
                ⟨ordered.1, List.mem_cons_of_mem _ ordered.2⟩, fun interval member => ?_⟩
              exact ⟨(others' interval member).1, List.mem_cons_of_mem _ (others' interval member).2⟩

theorem decodeFormula_eq_ok {α : Type} {construction : Except FormulaError α} {formula : α}
    (decoded : decodeFormula construction = .ok formula) : construction = .ok formula := by
  cases construction with
  | error => cases decoded
  | ok formula => exact congrArg Except.ok (Except.ok.inj decoded)

/-- Where all operands express the same, they all hold if that is true. -/
theorem forall_true_iff {among : Symbol → Prop} {truth : (Nat → Bool) → Bool}
    {operands : List Expr} {assignment : Nat → Bool}
    (same : ∀ operand ∈ operands, encoder.Expresses among truth operand)
    (within : ∀ symbol, among symbol → encoder.Within assignment symbol)
    (trivially : operands = [] → truth assignment = true) : truth assignment = true ↔
      ∀ operand ∈ operands, operand.evalBool (encoder.interpret assignment) = some true := by
  constructor
  · intro holds operand member
    rw [(same operand member).evaluates within, holds]
  · intro holds
    cases operands with
    | nil => exact trivially rfl
    | cons operand =>
        have holds := holds operand List.mem_cons_self
        rw [(same operand List.mem_cons_self).evaluates within] at holds
        exact Option.some.inj holds

section Symbols

theorem Places.positive {symbol : Symbol} {encoded : SymbolBits}
    (places : encoder.Places symbol encoded) {level : Nat} (isBit : level ∈ encoded.bits) :
    1 ≤ level := by
  obtain ⟨first, isPositive, block⟩ := places.bits_eq
  rw [block, List.mem_range'_1] at isBit
  omega

variable {symbol : Symbol} {encoded : SymbolBits} {assignment : Nat → Bool} {offset : Nat}
  {formula : Expr}

theorem interpret_of_find? (found : OrderedMap.find? symbol encoder.symbols = some encoded) :
    encoder.interpret assignment symbol =
      some (encoded.domain.value (encoded.offset assignment)) := by
  rw [interpret, found]
  rfl

theorem hasType_value (wellFormed : encoder.WellFormed) (lawful : encoder.config.Lawful)
    (found : OrderedMap.find? symbol encoder.symbols = some encoded)
    (small : offset < encoded.size) : (encoded.domain.value offset).HasType symbol.ty :=
  (admits_of_domainOf lawful (wellFormed.places found).domain_eq small).1

/-- A comparison of a symbol with a value of its type. -/
theorem expresses_comparison {value : Value} (typed : value.HasType symbol.ty)
    {operator : BinaryOperator} (types : operator.Types symbol.ty symbol.ty .bool)
    {left right : Expr} (sides : left = .sym symbol ∧ right = .lit value ∨
      left = .lit value ∧ right = .sym symbol) {truth : (Nat → Bool) → Bool}
    (evaluates : ∀ assignment, truthOf (operator.evaluate
      (left.eval (encoder.interpret assignment)) (right.eval (encoder.interpret assignment))) =
        some (truth assignment)) :
    encoder.Expresses (· = symbol) truth (.binary operator left right .bool) := by
  have literal : (Expr.lit value).WellTyped ∧ (Expr.lit value).ty = symbol.ty := by
    refine ⟨?_, typed.ty_eq⟩
    show value.HasType value.ty
    rwa [typed.ty_eq]
  rcases sides with ⟨rfl, rfl⟩ | ⟨rfl, rfl⟩
  · refine ⟨⟨⟨?_, trivial, literal.1⟩, rfl⟩, rfl, rfl, fun occurs => ?_, fun _ => evaluates _⟩
    · rw [literal.2]
      exact types
    · exact (Expr.mem_symbols_binary.mp occurs).elim Expr.mem_symbols_sym.mp
        fun occurs => absurd occurs Expr.mem_symbols_lit
  · refine ⟨⟨⟨?_, literal.1, trivial⟩, rfl⟩, rfl, rfl, fun occurs => ?_, fun _ => evaluates _⟩
    · rw [literal.2]
      exact types
    · exact (Expr.mem_symbols_binary.mp occurs).elim
        (fun occurs => absurd occurs Expr.mem_symbols_lit) Expr.mem_symbols_sym.mp

theorem value_inj {domain : BitDomain} (notBool : domain ≠ .bool) {first second : Nat} :
    domain.value first = domain.value second ↔ first = second := by
  cases domain with
  | bool => exact absurd rfl notBool
  | int least => simp [BitDomain.value]
  | bitVec width => simp [BitDomain.value]

variable (wellFormed : encoder.WellFormed) (lawful : encoder.config.Lawful)
  (found : OrderedMap.find? symbol encoder.symbols = some encoded)

include wellFormed lawful found

theorem expresses_mkEq (notBool : encoded.domain ≠ .bool) (small : offset < encoded.size)
    (built : Expr.mkEq symbol.toExpr (.lit (encoded.domain.value offset)) = .ok formula) :
    encoder.Expresses (· = symbol)
      (fun assignment => decide (encoded.offset assignment = offset)) formula := by
  obtain ⟨_, -, built⟩ := exists_of_bind_eq_ok built
  cases built
  have types : BinaryOperator.eq.Types symbol.ty symbol.ty .bool := ⟨rfl, rfl⟩
  refine expresses_comparison (hasType_value wellFormed lawful found small) types
    (.inl ⟨rfl, rfl⟩) fun assignment => ?_
  rw [Expr.eval, Expr.eval, interpret_of_find? found]
  exact congrArg some (decide_eq_decide.mpr (value_inj notBool))

theorem expresses_sym (isBool : encoded.domain = .bool) :
    encoder.Expresses (· = symbol)
      (fun assignment => decide (encoded.offset assignment ≠ 0)) symbol.toExpr := by
  have boolean : symbol.ty = .bool := by
    have typed := hasType_value wellFormed lawful found
      (size_pos_of_domainOf (wellFormed.places found).domain_eq)
    rw [← typed.ty_eq, isBool]
    rfl
  refine ⟨⟨trivial, rfl⟩, boolean, rfl, Expr.mem_symbols_sym.mp, fun _ => ?_⟩
  show truthOf (encoder.interpret _ symbol) = _
  rw [interpret_of_find? found, isBool]
  rfl

/-- The comparisons of an integer symbol with the value at an offset. -/
theorem expresses_mkComparison {least : Int} (integer : encoded.domain = .int least)
    (small : offset < encoded.size) :
    (Expr.mkComparison .leq (.lit (encoded.domain.value offset)) symbol.toExpr = .ok formula →
      encoder.Expresses (· = symbol)
        (fun assignment => decide (offset ≤ encoded.offset assignment)) formula) ∧
    (Expr.mkComparison .leq symbol.toExpr (.lit (encoded.domain.value offset)) = .ok formula →
      encoder.Expresses (· = symbol)
        (fun assignment => decide (encoded.offset assignment ≤ offset)) formula) := by
  have typed := hasType_value wellFormed lawful found small
  have isInteger : symbol.ty = .int := by
    rw [← typed.ty_eq, integer]
    rfl
  have types : BinaryOperator.leq.Types symbol.ty symbol.ty .bool := by
    rw [isInteger]
    exact ⟨rfl, rfl, rfl⟩
  constructor
  · intro built
    obtain ⟨_, -, built⟩ := exists_of_bind_eq_ok built
    obtain ⟨_, -, built⟩ := exists_of_bind_eq_ok built
    cases built
    refine expresses_comparison typed types (.inr ⟨rfl, rfl⟩) fun assignment => ?_
    rw [Expr.eval, Expr.eval, interpret_of_find? found, integer,
      BitDomain.value, BitDomain.value, BinaryOperator.truthOf_leq]
    exact congrArg some (decide_eq_decide.mpr (by omega))
  · intro built
    obtain ⟨_, -, built⟩ := exists_of_bind_eq_ok built
    obtain ⟨_, -, built⟩ := exists_of_bind_eq_ok built
    cases built
    refine expresses_comparison typed types (.inl ⟨rfl, rfl⟩) fun assignment => ?_
    rw [Expr.eval, Expr.eval, interpret_of_find? found, integer,
      BitDomain.value, BitDomain.value, BinaryOperator.truthOf_leq]
    exact congrArg some (decide_eq_decide.mpr (by omega))

/-- An interval of offsets of an integer symbol, where a side that always holds is left
out. -/
theorem expresses_integerInterval {least : Int} (integer : encoded.domain = .int least)
    {low high : Nat} (ordered : low ≤ high) (small : high < encoded.size)
    {lower upper : List Expr}
    (isLower : lower = [] ∧ low = 0 ∨ ∃ operand, lower = [operand] ∧
      Expr.mkComparison .leq (.lit (encoded.domain.value low)) symbol.toExpr = .ok operand)
    (isUpper : upper = [] ∧ encoded.size ≤ high + 1 ∨ ∃ operand, upper = [operand] ∧
      Expr.mkComparison .leq symbol.toExpr (.lit (encoded.domain.value high)) = .ok operand)
    (built : Expr.mkAnd (lower ++ upper) = .ok formula) :
    encoder.Expresses (· = symbol) (fun assignment =>
      decide (low ≤ encoded.offset assignment ∧ encoded.offset assignment ≤ high)) formula := by
  have lower' : (∀ operand ∈ lower, encoder.Expresses (· = symbol)
      (fun assignment => decide (low ≤ encoded.offset assignment)) operand) ∧
        (lower = [] → low = 0) := by
    rcases isLower with ⟨rfl, least⟩ | ⟨operand, rfl, bounds⟩
    · exact ⟨List.forall_mem_nil _, fun _ => least⟩
    · rw [List.forall_mem_singleton]
      exact ⟨(expresses_mkComparison wellFormed lawful found integer (by omega)).1 bounds,
        by rintro ⟨⟩⟩
  have upper' : (∀ operand ∈ upper, encoder.Expresses (· = symbol)
      (fun assignment => decide (encoded.offset assignment ≤ high)) operand) ∧
        (upper = [] → encoded.size ≤ high + 1) := by
    rcases isUpper with ⟨rfl, greatest⟩ | ⟨operand, rfl, bounds⟩
    · exact ⟨List.forall_mem_nil _, fun _ => greatest⟩
    · rw [List.forall_mem_singleton]
      exact ⟨(expresses_mkComparison wellFormed lawful found integer small).2 bounds,
        by rintro ⟨⟩⟩
  refine expresses_of_isConjunction (Expr.isConjunction_of_mkAnd built) ?_ ?_
  · rw [List.forall_mem_append]
    exact ⟨fun operand member => ⟨_, lower'.1 operand member⟩,
      fun operand member => ⟨_, upper'.1 operand member⟩⟩
  · intro assignment within
    obtain ⟨encoded', found', inside⟩ := within symbol rfl
    cases found.symm.trans found'
    rw [List.forall_mem_append, ← forall_true_iff lower'.1 within fun none =>
      decide_eq_true (by have := lower'.2 none; omega), ← forall_true_iff upper'.1 within
        fun none => decide_eq_true (by have := upper'.2 none; omega)]
    simp

/-- The equations with the values at the offsets of an interval. -/
theorem expresses_equations (notBool : encoded.domain ≠ .bool) {low high : Nat}
    (ordered : low ≤ high) (small : high < encoded.size) {equations : List Expr}
    (made : (List.range' low (high + 1 - low)).mapM (fun offset =>
      decodeFormula (Expr.mkEq symbol.toExpr (.lit (encoded.domain.value offset)))) =
        .ok equations)
    (built : Expr.mkOr equations = .ok formula) :
    encoder.Expresses (· = symbol) (fun assignment =>
      decide (low ≤ encoded.offset assignment ∧ encoded.offset assignment ≤ high)) formula := by
  have each := forall₂_of_mapM_eq_ok made
  have expresses {offset : Nat} {equation : Expr} (inside : offset < encoded.size)
      (decoded : decodeFormula (Expr.mkEq symbol.toExpr (.lit (encoded.domain.value offset))) =
        .ok equation) := expresses_mkEq wellFormed lawful found notBool inside
    (decodeFormula_eq_ok decoded)
  have inside {offset : Nat} (member : offset ∈ List.range' low (high + 1 - low)) :
      offset < encoded.size := by
    rw [List.mem_range'_1] at member
    omega
  refine expresses_of_isDisjunction (Expr.isDisjunction_of_mkOr built) ?_ ?_
  · intro equation member
    obtain ⟨offset, isOffset, decoded⟩ := exists_of_forall₂ each member
    exact ⟨_, expresses (inside isOffset) decoded⟩
  · intro assignment within
    rw [decide_eq_true_iff]
    constructor
    · rintro ⟨above, below⟩
      obtain ⟨equation, member, decoded⟩ := exists_of_forall₂ each.flip
        (show encoded.offset assignment ∈ _ by rw [List.mem_range'_1]; omega)
      refine ⟨equation, member, ?_⟩
      rw [(expresses (by omega) decoded).evaluates within, decide_eq_true rfl]
    · rintro ⟨equation, member, holds⟩
      obtain ⟨offset, isOffset, decoded⟩ := exists_of_forall₂ each member
      rw [(expresses (inside isOffset) decoded).evaluates within, Option.some.injEq,
        decide_eq_true_iff] at holds
      rw [List.mem_range'_1] at isOffset
      omega

omit wellFormed lawful found in
theorem exists_of_side {side : Except UnknownCause Expr} {condition : Prop} [Decidable condition]
    {rest : List Expr → Except UnknownCause Expr}
    (decoded : (if condition then side >>= fun operand => pure [operand] >>= rest
      else pure [] >>= rest) = .ok formula) :
    ∃ operands, (operands = [] ∧ ¬condition ∨
      ∃ operand, operands = [operand] ∧ side = .ok operand) ∧ rest operands = .ok formula := by
  split at decoded
  · obtain ⟨operand, isSide, decoded⟩ := exists_of_bind_eq_ok decoded
    exact ⟨[operand], .inr ⟨operand, rfl, isSide⟩, decoded⟩
  case isFalse ends => exact ⟨[], .inl ⟨rfl, ends⟩, decoded⟩

/-- An interval of offsets of a symbol. -/
theorem expresses_decodeInterval (notBool : encoded.domain ≠ .bool) {low high : Nat}
    (ordered : low ≤ high) (small : high < encoded.size)
    (decoded : decodeInterval symbol encoded (low, high) = .ok formula) :
    encoder.Expresses (· = symbol) (fun assignment =>
      decide (low ≤ encoded.offset assignment ∧ encoded.offset assignment ≤ high)) formula := by
  unfold decodeInterval at decoded
  dsimp only at decoded
  by_cases single : low = high
  · rw [if_pos single] at decoded
    refine (expresses_mkEq wellFormed lawful found notBool (by omega)
      (decodeFormula_eq_ok decoded)).mono (fun _ same => same) fun assignment _ => ?_
    exact decide_eq_decide.mpr (by omega)
  · rw [if_neg single] at decoded
    split at decoded
    case h_1 least integer =>
      obtain ⟨lower, isLower, decoded⟩ := exists_of_side decoded
      obtain ⟨upper, isUpper, decoded⟩ := exists_of_side decoded
      refine expresses_integerInterval wellFormed lawful found integer ordered small
        (isLower.imp (And.imp_right fun ends => by omega) ?_)
        (isUpper.imp (And.imp_right fun ends => by omega) ?_) (decodeFormula_eq_ok decoded)
      · exact fun ⟨operand, same, made⟩ => ⟨operand, same, decodeFormula_eq_ok made⟩
      · exact fun ⟨operand, same, made⟩ => ⟨operand, same, decodeFormula_eq_ok made⟩
    case h_2 =>
      obtain ⟨equations, made, decoded⟩ := exists_of_bind_eq_ok decoded
      exact expresses_equations wellFormed lawful found notBool ordered small made
        (decodeFormula_eq_ok decoded)

omit wellFormed lawful found in
theorem size_of_domainOf_bool {config : SolverConfig} {size : Nat}
    (hasDomain : domainOf config symbol = .ok (.bool, size)) : size = 2 := by
  unfold domainOf at hasDomain
  split at hasDomain
  · cases hasDomain
    rfl
  · cases hasDomain
  · split at hasDomain <;> cases hasDomain
  · cases hasDomain

omit wellFormed lawful found in
def agreeing (encoded : SymbolBits) (literals : List Int) : List Nat :=
  let positions (sign : Int) : Nat :=
    binaryOffset (fun level => literals.contains (sign * level)) encoded.bits
  (List.range encoded.size).filter fun offset =>
    offset &&& (positions 1 ||| positions (-1)) = positions 1

omit wellFormed lawful found in
theorem agreeing_of_size_eq_two (literals : List Int) (two : encoded.size = 2) :
    agreeing encoded literals = [] ∨ agreeing encoded literals = [0] ∨
      agreeing encoded literals = [1] ∨ agreeing encoded literals = [0, 1] := by
  have options (agrees : Nat → Bool) : (List.range 2).filter agrees = [] ∨
      (List.range 2).filter agrees = [0] ∨ (List.range 2).filter agrees = [1] ∨
        (List.range 2).filter agrees = [0, 1] := by
    cases first : agrees 0 <;> cases second : agrees 1 <;> simp [List.range_succ, first, second]
  unfold agreeing
  rw [two]
  exact options _

omit lawful in
/-- An assignment within a symbol's domain agrees with literals of its levels if and only
if these hold. -/
theorem mem_agreeing {literals : List Int}
    (among : ∀ literal ∈ literals, literal.natAbs ∈ encoded.bits)
    (consistent : ∀ literal ∈ literals, -literal ∉ literals)
    (within : encoder.Within assignment symbol) :
    encoded.offset assignment < encoded.size ∧
      (encoded.offset assignment ∈ agreeing encoded literals ↔
        literals.all (DiagramManager.LiteralHolds assignment) = true) := by
  obtain ⟨encoded', found', inside⟩ := within
  cases found.symm.trans found'
  rw [← agrees_iff (fun _ => (wellFormed.places found).positive) among consistent]
  refine ⟨inside, ?_⟩
  unfold agreeing
  rw [List.mem_filter, List.mem_range, decide_eq_true_iff]
  exact and_iff_right inside

/-- The offsets that agree with some literals, interval by interval. -/
theorem expresses_intervals {literals : List Int} {formula : Expr} {parts : List Expr}
    (notBool : encoded.domain ≠ .bool)
    (agrees : ∀ {assignment : Nat → Bool}, encoder.Within assignment symbol →
      encoded.offset assignment < encoded.size ∧
        (encoded.offset assignment ∈ agreeing encoded literals ↔
          literals.all (DiagramManager.LiteralHolds assignment) = true))
    (made : (intervals (agreeing encoded literals)).mapM (decodeInterval symbol encoded) =
      .ok parts)
    (built : Expr.mkOr parts = .ok formula) : encoder.Expresses (· = symbol)
      (fun assignment => literals.all (DiagramManager.LiteralHolds assignment)) formula := by
  have increasing : (agreeing encoded literals).Pairwise (· < ·) :=
    List.pairwise_lt_range.filter _
  have ⟨same, ends, _⟩ := mem_intervals increasing
  have expresses {interval : Nat × Nat} {part : Expr}
      (member : interval ∈ intervals (agreeing encoded literals))
      (decoded : decodeInterval symbol encoded interval = .ok part) :=
    expresses_decodeInterval wellFormed lawful found notBool (ends interval member).1
      (List.mem_range.mp (List.mem_of_mem_filter (ends interval member).2)) decoded
  have each := forall₂_of_mapM_eq_ok made
  refine expresses_of_isDisjunction (Expr.isDisjunction_of_mkOr built) ?_ ?_
  · intro part member
    obtain ⟨interval, isInterval, decoded⟩ := exists_of_forall₂ each member
    exact ⟨_, expresses isInterval decoded⟩
  · intro assignment within
    rw [← (agrees (within symbol rfl)).2, same]
    constructor
    · rintro ⟨interval, isInterval, inside⟩
      obtain ⟨part, member, decoded⟩ := exists_of_forall₂ each.flip isInterval
      refine ⟨part, member, ?_⟩
      rw [(expresses isInterval decoded).evaluates within, decide_eq_true inside]
    · rintro ⟨part, member, holds⟩
      obtain ⟨interval, isInterval, decoded⟩ := exists_of_forall₂ each member
      rw [(expresses isInterval decoded).evaluates within, Option.some.injEq,
        decide_eq_true_iff] at holds
      exact ⟨interval, isInterval, holds⟩

/-- The constraint that some literals of a symbol's levels hold; it is left out if they
hold for all values of the domain. -/
theorem expresses_decodeSymbol {literals : List Int}
    (among : ∀ literal ∈ literals, literal.natAbs ∈ encoded.bits)
    (consistent : ∀ literal ∈ literals, -literal ∉ literals) {result : Option Expr}
    (decoded : decodeSymbol encoder.config symbol encoded literals = .ok result) :
    (∀ operand ∈ result, encoder.Expresses (· = symbol)
      (fun assignment => literals.all (DiagramManager.LiteralHolds assignment)) operand) ∧
    (result = none → ∀ assignment, encoder.Within assignment symbol →
      literals.all (DiagramManager.LiteralHolds assignment) = true) := by
  have agrees {assignment : Nat → Bool} (within : encoder.Within assignment symbol) :=
    mem_agreeing wellFormed found among consistent within
  unfold decodeSymbol at decoded
  dsimp only at decoded
  split at decoded
  · cases decoded
  generalize computed : List.filter _ (List.range encoded.size) = offsets at decoded
  change agreeing encoded literals = offsets at computed
  subst computed
  split at decoded
  case isTrue all =>
    cases decoded
    refine ⟨by simp, fun _ assignment within => (agrees within).2.mp ?_⟩
    have same : agreeing encoded literals = List.range encoded.size :=
      List.filter_sublist.eq_of_length (by rwa [List.length_range])
    rw [same, List.mem_range]
    exact (agrees within).1
  case isFalse notAll =>
    suffices formula : ∃ formula, result = some formula ∧ encoder.Expresses (· = symbol)
        (fun assignment => literals.all (DiagramManager.LiteralHolds assignment)) formula by
      obtain ⟨formula, rfl, expresses⟩ := formula
      exact ⟨by simpa using expresses, by rintro ⟨⟩⟩
    split at decoded
    case h_1 isBool =>
      have isTruth := expresses_sym wellFormed lawful found isBool
      have two : encoded.size = 2 := size_of_domainOf_bool
        (isBool ▸ (wellFormed.places found).domain_eq)
      split at decoded
      case h_1 isTrue =>
        cases decoded
        refine ⟨_, rfl, isTruth.mono (fun _ same => same) fun assignment within => ?_⟩
        have ⟨inside, agrees⟩ := agrees (within symbol rfl)
        rw [isTrue, List.mem_singleton] at agrees
        rw [Bool.eq_iff_iff, ← agrees, decide_eq_true_iff]
        omega
      case h_2 isFalse =>
        obtain ⟨formula, built, decoded⟩ := exists_of_bind_eq_ok decoded
        cases decoded
        obtain ⟨_, -, built⟩ := exists_of_bind_eq_ok (decodeFormula_eq_ok built)
        cases built
        refine ⟨_, rfl, isTruth.not.mono (fun _ same => same) fun assignment within => ?_⟩
        have ⟨_, agrees⟩ := agrees (within symbol rfl)
        rw [isFalse, List.mem_singleton] at agrees
        rw [Bool.eq_iff_iff, ← agrees]
        simp
      case h_3 =>
        cases decoded
        refine ⟨_, rfl, (expresses_ofBool false).mono (fun _ same => same)
          fun assignment within => ?_⟩
        have none : agreeing encoded literals = [] := by
          rcases agreeing_of_size_eq_two literals two with none | one | one | all
          · exact none
          · exact absurd one ‹_›
          · exact absurd one ‹_›
          · rw [all, two] at notAll
            exact absurd rfl notAll
        have ⟨_, agrees⟩ := agrees (within symbol rfl)
        rw [none] at agrees
        simpa using agrees
    case h_2 notBool =>
      obtain ⟨parts, made, decoded⟩ := exists_of_bind_eq_ok decoded
      obtain ⟨formula, built, decoded⟩ := exists_of_bind_eq_ok decoded
      cases decoded
      exact ⟨formula, rfl, expresses_intervals wellFormed lawful found notBool agrees made
        (decodeFormula_eq_ok built)⟩

end Symbols

/-- The literals of a path are grouped by the owners of their levels. -/
structure Groups (encoder : Encoder) (path : List Int) (groups : List (Symbol × List Int)) :
    Prop where
  sorted : OrderedMap.Sorted groups
  nonempty {group : Symbol × List Int} : group ∈ groups → group.2 ≠ []
  owned {literal : Int} : literal ∈ path → ∃ owner, encoder.owners[literal.natAbs]? = some owner
  group_eq (symbol : Symbol) : (OrderedMap.find? symbol groups).getD [] =
    path.filter fun literal => encoder.owners[literal.natAbs]? = some symbol

theorem Groups.groupByOwner {done path : List Int} {groups groups' : List (Symbol × List Int)}
    (before : encoder.Groups done groups)
    (grouped : encoder.groupByOwner path groups = .ok groups') :
    encoder.Groups (done ++ path) groups' := by
  induction path generalizing done groups with
  | nil =>
      cases grouped
      rwa [List.append_nil]
  | cons literal path ih =>
      unfold Encoder.groupByOwner at grouped
      split at grouped
      · cases grouped
      case h_2 owner isOwner =>
        rw [← List.singleton_append, ← List.append_assoc]
        refine ih ⟨before.sorted.insert _ _, fun member => ?_, fun member => ?_, fun symbol => ?_⟩
          grouped
        · rcases OrderedMap.mem_of_mem_insert member with rfl | member
          · exact List.append_ne_nil_of_right_ne_nil _ (List.cons_ne_nil _ _)
          · exact before.nonempty member
        · rcases List.mem_append.mp member with member | member
          · exact before.owned member
          · rw [List.mem_singleton.mp member]
            exact ⟨owner, isOwner⟩
        · rw [OrderedMap.find?_insert, List.filter_append, ← before.group_eq]
          by_cases same : symbol = owner
          · subst same
            simp [isOwner]
          · have other : encoder.owners[literal.natAbs]? ≠ some symbol := by
              rw [isOwner]
              exact fun same' => same (Option.some.inj same').symm
            simp [same, other]

theorem Groups.mem {path : List Int} {groups : List (Symbol × List Int)}
    (grouped : encoder.Groups path groups) {symbol : Symbol} {literals : List Int}
    (member : (symbol, literals) ∈ groups) :
    literals = path.filter fun literal => encoder.owners[literal.natAbs]? = some symbol := by
  rw [← grouped.group_eq, grouped.sorted.find?_eq_some_iff.mpr member]
  rfl

/-- All literals of a path hold if and only if those of every group do. -/
theorem Groups.all_iff {path : List Int} {groups : List (Symbol × List Int)}
    (grouped : encoder.Groups path groups) (holds : Int → Bool) :
    path.all holds = true ↔ ∀ group ∈ groups, group.2.all holds = true := by
  rw [List.all_eq_true]
  constructor
  · rintro all ⟨symbol, literals⟩ member
    rw [grouped.mem member]
    exact List.all_eq_true.mpr fun literal inside => all literal (List.mem_of_mem_filter inside)
  · intro each literal member
    obtain ⟨owner, isOwner⟩ := grouped.owned member
    have inside : literal ∈ (OrderedMap.find? owner groups).getD [] := by
      rw [grouped.group_eq, List.mem_filter]
      exact ⟨member, decide_eq_true isOwner⟩
    cases found : OrderedMap.find? owner groups with
    | none =>
        rw [found] at inside
        cases inside
    | some literals =>
        rw [found] at inside
        exact List.all_eq_true.mp (each _ (OrderedMap.mem_of_find? found)) literal inside

section Paths

variable {among : Symbol → Prop} {formula : Expr}

/-- The literals of a group are on levels of its symbol, no two of them on the same one. -/
theorem Groups.exists_encoded (wellFormed : encoder.WellFormed)
    {path : List Int} (increasing : path.Pairwise fun first second => first.natAbs < second.natAbs)
    (owned : ∀ literal ∈ path, ∃ symbol encoded, among symbol ∧
      OrderedMap.find? symbol encoder.symbols = some encoded ∧ literal.natAbs ∈ encoded.bits)
    {groups : List (Symbol × List Int)} (grouped : encoder.Groups path groups)
    {symbol : Symbol} {literals : List Int} (member : (symbol, literals) ∈ groups) :
    among symbol ∧ ∃ encoded, OrderedMap.find? symbol encoder.symbols = some encoded ∧
      (∀ literal ∈ literals, literal.natAbs ∈ encoded.bits) ∧
        ∀ literal ∈ literals, -literal ∉ literals := by
  have each : ∀ literal ∈ literals, literal ∈ path ∧ among symbol ∧ ∃ encoded,
      OrderedMap.find? symbol encoder.symbols = some encoded ∧ literal.natAbs ∈ encoded.bits := by
    intro literal inside
    rw [grouped.mem member, List.mem_filter, decide_eq_true_iff] at inside
    obtain ⟨onPath, isOwner⟩ := inside
    obtain ⟨owner, encoded, isAmong, found, isBit⟩ := owned literal onPath
    rw [(wellFormed.places found).owner_eq isBit, Option.some.injEq] at isOwner
    subst isOwner
    exact ⟨onPath, isAmong, encoded, found, isBit⟩
  obtain ⟨literal, inside⟩ := List.exists_mem_of_ne_nil _ (grouped.nonempty member)
  obtain ⟨-, isAmong, encoded, found, -⟩ := each literal inside
  have bits : ∀ literal ∈ literals, literal.natAbs ∈ encoded.bits := by
    intro literal inside
    obtain ⟨-, -, encoded', found', isBit⟩ := each literal inside
    cases found.symm.trans found'
    exact isBit
  refine ⟨isAmong, encoded, found, bits, fun literal inside inside' => ?_⟩
  have distinct : (path.map Int.natAbs).Nodup :=
    (List.pairwise_map.mpr increasing).imp Nat.ne_of_lt
  have same := List.inj_on_of_nodup_map distinct (each _ inside).1 (each _ inside').1
    (Int.natAbs_neg literal).symm
  have positive := (wellFormed.places found).positive (bits literal inside)
  omega

/-- The constraint of one group of a path's literals. -/
theorem expresses_group (wellFormed : encoder.WellFormed) (lawful : encoder.config.Lawful)
    {path : List Int} (increasing : path.Pairwise fun first second => first.natAbs < second.natAbs)
    (owned : ∀ literal ∈ path, ∃ symbol encoded, among symbol ∧
      OrderedMap.find? symbol encoder.symbols = some encoded ∧ literal.natAbs ∈ encoded.bits)
    {groups : List (Symbol × List Int)} (grouped : encoder.Groups path groups)
    {group : Symbol × List Int} (member : group ∈ groups) {result : Option Expr}
    (decoded : (match OrderedMap.find? group.1 encoder.symbols with
      | some encoded => decodeSymbol encoder.config group.1 encoded group.2
      | none => .error (.unavailable ("no encoding for " ++ group.1.display))) = .ok result) :
    among group.1 ∧ (∀ operand ∈ result, encoder.Expresses (· = group.1)
      (fun assignment => group.2.all (DiagramManager.LiteralHolds assignment)) operand) ∧
    (result = none → ∀ assignment, encoder.Within assignment group.1 →
      group.2.all (DiagramManager.LiteralHolds assignment) = true) := by
  obtain ⟨isAmong, encoded, found, bits, consistent⟩ :=
    grouped.exists_encoded wellFormed increasing owned member
  rw [found] at decoded
  exact ⟨isAmong, expresses_decodeSymbol wellFormed lawful found bits consistent decoded⟩

/-- The conjunction of a path's constraints on symbols. -/
theorem expresses_decodePath (wellFormed : encoder.WellFormed) (lawful : encoder.config.Lawful)
    {path : List Int} (increasing : path.Pairwise fun first second => first.natAbs < second.natAbs)
    (owned : ∀ literal ∈ path, ∃ symbol encoded, among symbol ∧
      OrderedMap.find? symbol encoder.symbols = some encoded ∧ literal.natAbs ∈ encoded.bits)
    (decoded : encoder.decodePath path = .ok formula) : encoder.Expresses among
      (fun assignment => path.all (DiagramManager.LiteralHolds assignment)) formula := by
  obtain ⟨groups, grouped, decoded⟩ := exists_of_bind_eq_ok decoded
  obtain ⟨conjuncts, made, decoded⟩ := exists_of_bind_eq_ok decoded
  have isGrouped : encoder.Groups path groups :=
    have nothing : encoder.Groups [] [] := ⟨.nil, by simp, by simp, fun _ => rfl⟩
    nothing.groupByOwner grouped
  obtain ⟨each, back⟩ := mem_of_filterMapM_eq_ok made
  have expresses {group : Symbol × List Int} (member : group ∈ groups) {result : Option Expr}
      (decoded : _ = Except.ok result) :=
    expresses_group wellFormed lawful increasing owned isGrouped member decoded
  refine expresses_of_isConjunction
    (Expr.isConjunction_of_mkAnd (decodeFormula_eq_ok decoded)) ?_ ?_
  · intro operand member
    obtain ⟨group, isGroup, decoded⟩ := back operand member
    obtain ⟨isAmong, expresses, -⟩ := expresses isGroup decoded
    exact ⟨_, (expresses operand rfl).mono (fun _ same => same ▸ isAmong) fun _ _ => rfl⟩
  · intro assignment within
    rw [isGrouped.all_iff]
    constructor
    · intro all operand member
      obtain ⟨group, isGroup, decoded⟩ := back operand member
      obtain ⟨isAmong, expresses, -⟩ := expresses isGroup decoded
      rw [(expresses operand rfl).evaluates fun _ same => same ▸ within _ isAmong,
        all group isGroup]
    · intro all group isGroup
      obtain ⟨result, decoded, kept⟩ := each group isGroup
      obtain ⟨isAmong, expresses, trivially⟩ := expresses isGroup decoded
      cases result with
      | none => exact trivially rfl assignment (within _ isAmong)
      | some operand =>
          have holds := all operand (kept operand rfl)
          rw [(expresses operand rfl).evaluates fun _ same => same ▸ within _ isAmong] at holds
          exact Option.some.inj holds

theorem eq_top_of_isTop (isTop : formula.isTop = true) : formula = .top := by
  unfold Expr.isTop at isTop
  split at isTop
  · rfl
  · cases isTop

/-- A list of paths after some others, all of them decoded one by one. -/
theorem expresses_decodePaths {literals : List (List Int)} {disjuncts : List Expr}
    {paths : List (List Int)}
    (done : List.Forall₂ (fun path disjunct => encoder.Expresses among
      (fun assignment => path.all (DiagramManager.LiteralHolds assignment)) disjunct)
        literals disjuncts)
    (each : ∀ path ∈ paths, ∀ {disjunct : Expr}, encoder.decodePath path = .ok disjunct →
      encoder.Expresses among
        (fun assignment => path.all (DiagramManager.LiteralHolds assignment)) disjunct)
    (decoded : encoder.decodePaths disjuncts paths = .ok formula) : encoder.Expresses among
      (fun assignment => (literals ++ paths).any fun path =>
        path.all (DiagramManager.LiteralHolds assignment)) formula := by
  induction paths generalizing literals disjuncts with
  | nil =>
      rw [List.append_nil]
      refine expresses_of_isDisjunction
        (Expr.isDisjunction_of_mkOr (decodeFormula_eq_ok decoded)) ?_ ?_
      · intro disjunct member
        obtain ⟨path, -, expresses⟩ := exists_of_forall₂ done member
        exact ⟨_, expresses⟩
      · intro assignment within
        rw [List.any_eq_true]
        constructor
        · rintro ⟨path, member, holds⟩
          obtain ⟨disjunct, isDisjunct, expresses⟩ := exists_of_forall₂ done.flip member
          exact ⟨disjunct, isDisjunct, by rw [expresses.evaluates within, holds]⟩
        · rintro ⟨disjunct, member, holds⟩
          obtain ⟨path, isPath, expresses⟩ := exists_of_forall₂ done member
          rw [expresses.evaluates within] at holds
          exact ⟨path, isPath, Option.some.inj holds⟩
  | cons path paths ih =>
      rw [List.forall_mem_cons] at each
      obtain ⟨disjunct, here, decoded⟩ := exists_of_bind_eq_ok decoded
      have expresses := each.1 here
      split at decoded
      case isTrue isTop =>
        cases decoded
        refine (expresses_ofBool true).mono (fun _ isAmong => isAmong) fun assignment within => ?_
        have holds := expresses.evaluates within
        rw [eq_top_of_isTop isTop] at holds
        exact (List.any_eq_true.mpr ⟨path, by simp, (Option.some.inj holds).symm⟩).symm
      case isFalse =>
        rw [← List.singleton_append, ← List.append_assoc]
        exact ih (List.rel_append done (.cons expresses .nil)) each.2 decoded

end Paths

/-- The edge depends on a level of the symbol. -/
def Matters (encoder : Encoder) (edge : Edge) (symbol : Symbol) : Prop :=
  ∃ encoded, OrderedMap.find? symbol encoder.symbols = some encoded ∧
    ∃ level ∈ encoded.bits, encoder.manager.DependsOn edge level

/-- A diagram is decoded as a formula over the symbols that it depends on. -/
theorem expresses_decode (wellFormed : encoder.WellFormed) (lawful : encoder.config.Lawful)
    (few : encoder.nextLevel ≤ 2147483648) {edge : Edge} (owns : encoder.manager.Owns edge)
    (owned : ∀ level, encoder.manager.DependsOn edge level → ∃ symbol encoded,
      OrderedMap.find? symbol encoder.symbols = some encoded ∧ level ∈ encoded.bits)
    {formula : Expr} (decoded : encoder.decode edge = .ok formula) :
    encoder.Expresses (encoder.Matters edge)
      (fun assignment => encoder.manager.value assignment edge) formula := by
  unfold decode at decoded
  split at decoded
  · cases decoded
  case h_2 paths found =>
    have describes :=
      DiagramManager.describedBy_of_paths? wellFormed.diagrams.toOrdered few owns found
    refine (expresses_decodePaths .nil (fun path member _ decoded => ?_) decoded).mono
      (fun _ isAmong => isAmong) fun assignment _ => (describes.value_eq assignment).symm
    refine expresses_decodePath wellFormed lawful (describes.increasing member) ?_ decoded
    intro literal inside
    have depends := describes.depends member literal inside
    obtain ⟨symbol, encoded, found, isBit⟩ := owned _ depends
    exact ⟨symbol, encoded, ⟨encoded, found, _, isBit, depends⟩, found, isBit⟩

end Encoder

end AbstractionRefinement
