import AbstractionRefinement.Proofs.DecodedDiagrams
import AbstractionRefinement.Proofs.SessionIndependence

/-!
# Symbols of decoded diagrams

A diagram is decoded as a formula that mentions only symbols on whose levels it depends.  If it
is false outside the domains of these symbols, all of them are mentioned: on every path, the
literals of a symbol exclude an offset of its domain, since each of its levels tells two such
offsets apart.

So a symbol that does not matter within the domains is mentioned exactly if the diagram carries
the constraint of its domain, which depends on the levels of the symbol unless the number of
its values is a power of two.
-/

namespace AbstractionRefinement

namespace DiagramManager

variable {manager : DiagramManager} {edge : Edge} {paths : List (List Int)}
  {assignment assignment' : Nat → Bool}

theorem literalHolds_congr {literal : Int}
    (same : assignment literal.natAbs = assignment' literal.natAbs) :
    LiteralHolds assignment literal = LiteralHolds assignment' literal := by
  unfold LiteralHolds
  rw [same]

theorem DescribedBy.value_congr (describes : manager.DescribedBy edge paths)
    (same : ∀ level, manager.DependsOn edge level → assignment level = assignment' level) :
    manager.value assignment edge = manager.value assignment' edge := by
  rw [describes.value_eq, describes.value_eq, Bool.eq_iff_iff, List.any_eq_true, List.any_eq_true]
  refine exists_congr fun path => and_congr_right fun member => ?_
  rw [List.all_eq_true, List.all_eq_true]
  refine forall₂_congr fun literal inside => ?_
  rw [literalHolds_congr (same _ (describes.depends member literal inside))]

/-- On a level that an edge depends on there is a literal of some path. -/
theorem DescribedBy.exists_literal (describes : manager.DescribedBy edge paths) {level : Nat}
    (depends : manager.DependsOn edge level) :
    ∃ path ∈ paths, ∃ literal ∈ path, literal.natAbs = level := by
  by_contra none
  push Not at none
  obtain ⟨assignment, differ⟩ := depends
  refine differ ?_
  rw [describes.value_eq, describes.value_eq, Bool.eq_iff_iff, List.any_eq_true, List.any_eq_true]
  refine exists_congr fun path => and_congr_right fun member => ?_
  rw [List.all_eq_true, List.all_eq_true]
  refine forall₂_congr fun literal inside => ?_
  have apart := none path member literal inside
  rw [literalHolds_congr]
  rw [Function.update_of_ne apart, Function.update_of_ne apart]

/-- The literals of a path hold together. -/
theorem exists_all_literalHolds {path : List Int}
    (increasing : path.Pairwise fun first second => first.natAbs < second.natAbs)
    (positive : ∀ literal ∈ path, 1 ≤ literal.natAbs) :
    ∃ assignment, path.all (LiteralHolds assignment) = true := by
  refine ⟨fun level => path.contains (level : Int), List.all_eq_true.mpr fun literal member => ?_⟩
  have nonzero := positive literal member
  unfold LiteralHolds
  split
  case isTrue negative =>
    have distinct : (path.map Int.natAbs).Nodup :=
      (List.pairwise_map.mpr increasing).imp Nat.ne_of_lt
    rw [Bool.not_eq_true', Bool.eq_false_iff, ne_eq, List.contains_iff_mem]
    intro member'
    have same := List.inj_on_of_nodup_map distinct member' member (Int.natAbs_natCast _)
    omega
  case isFalse =>
    rw [List.contains_iff_mem]
    rwa [show (literal.natAbs : Int) = literal by omega]

end DiagramManager

namespace Encoder

variable {encoder : Encoder}

section Symbols

variable {symbol : Symbol} {encoded : SymbolBits} {formula : Expr} {literals : List Int}

theorem mem_symbols_of_mkEq {value : Value}
    (built : Expr.mkEq symbol.toExpr (.lit value) = .ok formula) : symbol ∈ formula.symbols := by
  obtain ⟨_, -, built⟩ := exists_of_bind_eq_ok built
  cases built
  exact Expr.mem_symbols_binary.mpr (.inl (Expr.mem_symbols_sym.mpr rfl))

theorem mem_symbols_of_mkComparison {operator : BinaryOperator} {left right : Expr}
    (built : Expr.mkComparison operator left right = .ok formula)
    (occurs : symbol ∈ left.symbols ∨ symbol ∈ right.symbols) : symbol ∈ formula.symbols := by
  obtain ⟨_, -, built⟩ := exists_of_bind_eq_ok built
  obtain ⟨_, -, built⟩ := exists_of_bind_eq_ok built
  cases built
  exact Expr.mem_symbols_binary.mpr occurs

/-- An interval that does not cover the domain is a constraint on the symbol. -/
theorem mem_symbols_of_decodeInterval {low high : Nat} (ordered : low ≤ high)
    (excludes : 0 < low ∨ high + 1 < encoded.size)
    (decoded : decodeInterval symbol encoded (low, high) = .ok formula) :
    symbol ∈ formula.symbols := by
  have occurs : symbol ∈ symbol.toExpr.symbols := Expr.mem_symbols_sym.mpr rfl
  unfold decodeInterval at decoded
  dsimp only at decoded
  split at decoded
  case isTrue => exact mem_symbols_of_mkEq (decodeFormula_eq_ok decoded)
  case isFalse =>
    split at decoded
    case h_1 =>
      obtain ⟨lower, isLower, decoded⟩ := exists_of_side decoded
      obtain ⟨upper, isUpper, decoded⟩ := exists_of_side decoded
      have conjunction := Expr.isConjunction_of_mkAnd (decodeFormula_eq_ok decoded)
      rw [conjunction.mem_symbols]
      rcases isLower with ⟨rfl, least⟩ | ⟨operand, rfl, made⟩
      · rcases isUpper with ⟨rfl, greatest⟩ | ⟨operand, rfl, made⟩
        · exact absurd excludes (by omega)
        · exact ⟨operand, by simp, mem_symbols_of_mkComparison (decodeFormula_eq_ok made)
            (.inl occurs)⟩
      · exact ⟨operand, by simp, mem_symbols_of_mkComparison (decodeFormula_eq_ok made)
          (.inr occurs)⟩
    case h_2 =>
      obtain ⟨equations, made, decoded⟩ := exists_of_bind_eq_ok decoded
      rw [(Expr.isDisjunction_of_mkOr (decodeFormula_eq_ok decoded)).mem_symbols]
      obtain ⟨equation, member, built⟩ := exists_of_forall₂ (forall₂_of_mapM_eq_ok made).flip
        (show low ∈ List.range' low (high + 1 - low) by rw [List.mem_range'_1]; omega)
      exact ⟨equation, member, mem_symbols_of_mkEq (decodeFormula_eq_ok built)⟩

/-- Literals that hold for some values of a domain and not for all of them are a constraint on
the symbol. -/
theorem mem_symbols_of_decodeSymbol {config : SolverConfig}
    (hasDomain : domainOf config symbol = .ok (encoded.domain, encoded.size)) {offset : Nat}
    (agrees : offset ∈ agreeing encoded literals) {excluded : Nat} (small : excluded < encoded.size)
    (excludes : excluded ∉ agreeing encoded literals) {result : Option Expr}
    (decoded : decodeSymbol config symbol encoded literals = .ok result) :
    ∃ operand, result = some operand ∧ symbol ∈ operand.symbols := by
  have occurs : symbol ∈ symbol.toExpr.symbols := Expr.mem_symbols_sym.mpr rfl
  have notAll : agreeing encoded literals ≠ List.range encoded.size := by
    intro same
    rw [same, List.mem_range] at excludes
    exact excludes small
  unfold decodeSymbol at decoded
  dsimp only at decoded
  split at decoded
  · cases decoded
  generalize computed : List.filter _ (List.range encoded.size) = offsets at decoded
  change agreeing encoded literals = offsets at computed
  subst computed
  split at decoded
  case isTrue all =>
    exact absurd (List.filter_sublist.eq_of_length (by rwa [List.length_range])) notAll
  case isFalse =>
    split at decoded
    case h_1 isBool =>
      have two : encoded.size = 2 := size_of_domainOf_bool (isBool ▸ hasDomain)
      split at decoded
      case h_1 =>
        cases decoded
        exact ⟨_, rfl, occurs⟩
      case h_2 =>
        obtain ⟨formula, built, decoded⟩ := exists_of_bind_eq_ok decoded
        cases decoded
        obtain ⟨_, -, built⟩ := exists_of_bind_eq_ok (decodeFormula_eq_ok built)
        cases built
        exact ⟨_, rfl, Expr.mem_symbols_unary.mpr occurs⟩
      case h_3 notTrue notFalse =>
        rcases agreeing_of_size_eq_two literals two with none | zero | one | both
        · rw [none] at agrees
          cases agrees
        · exact absurd zero notFalse
        · exact absurd one notTrue
        · exact absurd (both.trans (by rw [two]; rfl)) notAll
    case h_2 =>
      obtain ⟨parts, made, decoded⟩ := exists_of_bind_eq_ok decoded
      obtain ⟨formula, built, decoded⟩ := exists_of_bind_eq_ok decoded
      cases decoded
      refine ⟨formula, rfl, ?_⟩
      rw [(Expr.isDisjunction_of_mkOr (decodeFormula_eq_ok built)).mem_symbols]
      have increasing : (agreeing encoded literals).Pairwise (· < ·) :=
        List.pairwise_lt_range.filter _
      have ⟨same, ends, _⟩ := mem_intervals increasing
      obtain ⟨⟨low, high⟩, member, -⟩ := (same offset).mp agrees
      obtain ⟨part, isPart, decoded⟩ := exists_of_forall₂ (forall₂_of_mapM_eq_ok made).flip member
      refine ⟨part, isPart, mem_symbols_of_decodeInterval (ends _ member).1 ?_ decoded⟩
      -- An interval with all offsets would hold the excluded one.
      by_contra covers
      exact excludes ((same excluded).mpr ⟨_, member, by dsimp only; omega, by dsimp only; omega⟩)

/-- Every level of a symbol tells the first offset of its domain apart from another one. -/
theorem exists_offset_of_mem_bits (wellFormed : encoder.WellFormed)
    (found : OrderedMap.find? symbol encoder.symbols = some encoded) {level : Nat}
    (isBit : level ∈ encoded.bits) : ∃ assignment assignment',
      encoder.Within assignment symbol ∧ encoder.Within assignment' symbol ∧
        assignment level = true ∧ assignment' level = false := by
  have places := wellFormed.places found
  obtain ⟨position, isLevel⟩ := List.mem_iff_getElem?.mp isBit
  have inside := (List.getElem?_eq_some_iff.mp isLevel).1
  have fits : 2 ^ position < encoded.size := by
    obtain ⟨first, -, block⟩ := places.bits_eq
    rw [block, List.length_range'] at inside
    have nonzero : encoded.size - 1 ≠ 0 := by
      intro zero
      rw [zero] at inside
      cases inside
    have digits : 2 ^ position ≤ encoded.size - 1 := by
      by_contra small
      exact absurd (binaryLength_le (Nat.lt_of_not_le small)) (Nat.not_le_of_lt inside)
    omega
  have bit {offset : Nat} (small : offset < encoded.size) :
      encoder.Within (encoder.assignmentOf fun _ => offset) symbol ∧
        (encoder.assignmentOf fun _ => offset) level = offset.testBit position := by
    have same : encoded.offset (encoder.assignmentOf fun _ => offset) = offset :=
      offset_assignmentOf wellFormed found small
    refine ⟨⟨encoded, found, by rwa [same]⟩, ?_⟩
    have digit := congrArg (Nat.testBit · position) same
    simpa [SymbolBits.offset, testBit_binaryOffset, isLevel] using digit
  refine ⟨_, _, (bit fits).1, (bit (size_pos_of_domainOf places.domain_eq)).1, ?_, ?_⟩
  · rw [(bit fits).2, Nat.testBit_two_pow_self]
  · rw [(bit (size_pos_of_domainOf places.domain_eq)).2, Nat.zero_testBit]

/-- A literal on a level of a symbol excludes an offset of its domain. -/
theorem exists_excluded (wellFormed : encoder.WellFormed)
    (found : OrderedMap.find? symbol encoder.symbols = some encoded)
    (among : ∀ literal ∈ literals, literal.natAbs ∈ encoded.bits)
    (consistent : ∀ literal ∈ literals, -literal ∉ literals) {literal : Int}
    (member : literal ∈ literals) :
    ∃ excluded < encoded.size, excluded ∉ agreeing encoded literals := by
  obtain ⟨assignment, assignment', within, within', isTrue, isFalse⟩ :=
    exists_offset_of_mem_bits wellFormed found (among literal member)
  have ⟨small, agrees⟩ := mem_agreeing wellFormed found among consistent within
  have ⟨small', agrees'⟩ := mem_agreeing wellFormed found among consistent within'
  by_contra none
  push Not at none
  have holds := List.all_eq_true.mp (agrees.mp (none _ small)) literal member
  have holds' := List.all_eq_true.mp (agrees'.mp (none _ small')) literal member
  unfold DiagramManager.LiteralHolds at holds holds'
  rw [isTrue] at holds
  rw [isFalse] at holds'
  by_cases negative : literal < 0
  · rw [if_pos negative] at holds
    cases holds
  · rw [if_neg negative] at holds'
    cases holds'

end Symbols

section Paths

variable {among : Symbol → Prop} {formula : Expr} {symbol : Symbol} {encoded : SymbolBits}

/-- A path that holds within the domains of its symbols is a constraint on all of them. -/
theorem mem_symbols_of_decodePath (wellFormed : encoder.WellFormed) {path : List Int}
    (increasing : path.Pairwise fun first second => first.natAbs < second.natAbs)
    (owned : ∀ literal ∈ path, ∃ symbol encoded, among symbol ∧
      OrderedMap.find? symbol encoder.symbols = some encoded ∧ literal.natAbs ∈ encoded.bits)
    {assignment : Nat → Bool} (holds : path.all (DiagramManager.LiteralHolds assignment) = true)
    (within : ∀ symbol, among symbol → encoder.Within assignment symbol)
    (decoded : encoder.decodePath path = .ok formula) {literal : Int} (onPath : literal ∈ path)
    (found : OrderedMap.find? symbol encoder.symbols = some encoded)
    (isBit : literal.natAbs ∈ encoded.bits) : symbol ∈ formula.symbols := by
  obtain ⟨groups, grouped, decoded⟩ := exists_of_bind_eq_ok decoded
  obtain ⟨conjuncts, made, decoded⟩ := exists_of_bind_eq_ok decoded
  have isGrouped : encoder.Groups path groups :=
    have nothing : encoder.Groups [] [] := ⟨.nil, by simp, by simp, fun _ => rfl⟩
    nothing.groupByOwner grouped
  obtain ⟨literals, member, inside⟩ : ∃ literals, (symbol, literals) ∈ groups ∧
      literal ∈ literals := by
    have inside : literal ∈ (OrderedMap.find? symbol groups).getD [] := by
      rw [isGrouped.group_eq, List.mem_filter, decide_eq_true_iff]
      exact ⟨onPath, (wellFormed.places found).owner_eq isBit⟩
    cases grouped : OrderedMap.find? symbol groups with
    | none =>
        rw [grouped] at inside
        cases inside
    | some literals =>
        rw [grouped] at inside
        exact ⟨literals, OrderedMap.mem_of_find? grouped, inside⟩
  obtain ⟨isAmong, encoded', found', bits, consistent⟩ :=
    isGrouped.exists_encoded wellFormed increasing owned member
  cases found.symm.trans found'
  obtain ⟨result, decodedGroup, kept⟩ := (mem_of_filterMapM_eq_ok made).1 _ member
  dsimp only at decodedGroup
  rw [found] at decodedGroup
  obtain ⟨excluded, small, excludes⟩ := exists_excluded wellFormed found bits consistent inside
  have agrees := (mem_agreeing wellFormed found bits consistent (within symbol isAmong)).2.mpr
    ((isGrouped.all_iff _).mp holds _ member)
  obtain ⟨operand, rfl, occurs⟩ := mem_symbols_of_decodeSymbol (wellFormed.places found).domain_eq
    agrees small excludes decodedGroup
  rw [(Expr.isConjunction_of_mkAnd (decodeFormula_eq_ok decoded)).mem_symbols]
  exact ⟨operand, kept operand rfl, occurs⟩

/-- If no path is decoded as true, what one of them mentions is mentioned by the disjunction. -/
theorem mem_symbols_of_decodePaths {disjuncts : List Expr} {paths : List (List Int)}
    (mentions : ∀ path ∈ paths, ∀ disjunct, encoder.decodePath path = .ok disjunct →
      ∃ symbol, symbol ∈ disjunct.symbols)
    (decoded : encoder.decodePaths disjuncts paths = .ok formula)
    (occurs : (∃ disjunct ∈ disjuncts, symbol ∈ disjunct.symbols) ∨
      ∃ path ∈ paths, ∀ disjunct, encoder.decodePath path = .ok disjunct →
        symbol ∈ disjunct.symbols) : symbol ∈ formula.symbols := by
  induction paths generalizing disjuncts with
  | nil =>
      rw [(Expr.isDisjunction_of_mkOr (decodeFormula_eq_ok decoded)).mem_symbols]
      exact occurs.resolve_right (by rintro ⟨_, ⟨⟩, -⟩)
  | cons path paths ih =>
      rw [List.forall_mem_cons] at mentions
      obtain ⟨disjunct, here, decoded⟩ := exists_of_bind_eq_ok decoded
      have notTop : ¬ disjunct.isTop = true := by
        intro isTop
        obtain ⟨other, occurs⟩ := mentions.1 disjunct here
        rw [eq_top_of_isTop isTop] at occurs
        exact Expr.mem_symbols_lit occurs
      rw [if_neg notTop] at decoded
      refine ih mentions.2 decoded ?_
      rcases occurs with ⟨other, member, inside⟩ | ⟨other, member, inside⟩
      · exact .inl ⟨other, List.mem_append_left _ member, inside⟩
      · rcases List.mem_cons.mp member with rfl | member
        · exact .inl ⟨disjunct, by simp, inside disjunct here⟩
        · exact .inr ⟨other, member, inside⟩

end Paths

/-- The edge is false outside the domains of the symbols that it depends on. -/
def Confined (encoder : Encoder) (edge : Edge) : Prop :=
  ∀ assignment, encoder.manager.value assignment edge = true →
    ∀ symbol, encoder.Matters edge symbol → encoder.Within assignment symbol

/-- Within the domains of all encoded symbols, the edge has the same value when only the levels
of the symbol differ. -/
def Irrelevant (encoder : Encoder) (edge : Edge) (symbol : Symbol) : Prop :=
  ∀ encoded, OrderedMap.find? symbol encoder.symbols = some encoded →
    ∀ assignment assignment' : Nat → Bool,
      (∀ other, encoder.Knows other →
        encoder.Within assignment other ∧ encoder.Within assignment' other) →
      (∀ level, level ∉ encoded.bits → assignment level = assignment' level) →
        encoder.manager.value assignment edge = encoder.manager.value assignment' edge

section Diagrams

variable {edge : Edge} {formula : Expr} {symbol : Symbol} {encoded : SymbolBits}
  (wellFormed : encoder.WellFormed) (few : encoder.nextLevel ≤ 2147483648)
  (owns : encoder.manager.Owns edge) (overSymbols : encoder.OverSymbols edge)
  (decoded : encoder.decode edge = .ok formula)

include wellFormed few owns decoded in
theorem exists_describedBy : ∃ paths, encoder.manager.DescribedBy edge paths ∧
    encoder.decodePaths [] paths = .ok formula := by
  unfold decode at decoded
  split at decoded
  · cases decoded
  case h_2 paths found =>
    exact ⟨paths, DiagramManager.describedBy_of_paths? wellFormed.diagrams.toOrdered few owns
      found, decoded⟩

include wellFormed few owns overSymbols decoded in
/-- If an edge is false outside the domains, the formula mentions all symbols on which it
depends. -/
theorem mem_symbols_of_matters (confined : encoder.Confined edge)
    (matters : encoder.Matters edge symbol) : symbol ∈ formula.symbols := by
  obtain ⟨paths, describes, decoded⟩ := exists_describedBy wellFormed few owns decoded
  have owned {path : List Int} (isPath : path ∈ paths) : ∀ literal ∈ path, ∃ symbol encoded,
      encoder.Matters edge symbol ∧ OrderedMap.find? symbol encoder.symbols = some encoded ∧
        literal.natAbs ∈ encoded.bits := by
    intro literal inside
    have depends := describes.depends isPath literal inside
    obtain ⟨symbol, encoded, found, isBit⟩ := overSymbols _ depends
    exact ⟨symbol, encoded, ⟨encoded, found, _, isBit, depends⟩, found, isBit⟩
  have mentions {path : List Int} (isPath : path ∈ paths) {literal : Int} (inside : literal ∈ path)
      {symbol : Symbol} {encoded : SymbolBits}
      (found : OrderedMap.find? symbol encoder.symbols = some encoded)
      (isBit : literal.natAbs ∈ encoded.bits) {disjunct : Expr}
      (decoded : encoder.decodePath path = .ok disjunct) : symbol ∈ disjunct.symbols := by
    obtain ⟨assignment, holds⟩ := DiagramManager.exists_all_literalHolds
      (describes.increasing isPath) fun literal inside => by
        obtain ⟨symbol, encoded, -, found, isBit⟩ := owned isPath literal inside
        exact (wellFormed.places found).positive isBit
    refine mem_symbols_of_decodePath wellFormed (describes.increasing isPath) (owned isPath) holds
      (confined assignment ?_) decoded inside found isBit
    rw [describes.value_eq]
    exact List.any_eq_true.mpr ⟨path, isPath, holds⟩
  obtain ⟨encoded, found, level, isBit, depends⟩ := matters
  refine mem_symbols_of_decodePaths ?_ decoded (.inr ?_)
  · -- A path without literals would make the edge true everywhere.
    intro path isPath disjunct decoded
    cases path with
    | nil =>
        have always (assignment : Nat → Bool) : encoder.manager.value assignment edge = true := by
          rw [describes.value_eq]
          exact List.any_eq_true.mpr ⟨[], isPath, rfl⟩
        obtain ⟨assignment, differ⟩ := depends
        exact absurd ((always _).trans (always _).symm) differ
    | cons literal path =>
        obtain ⟨symbol, encoded, -, found, isBit⟩ := owned isPath literal List.mem_cons_self
        exact ⟨symbol, mentions isPath List.mem_cons_self found isBit decoded⟩
  · obtain ⟨path, isPath, literal, inside, rfl⟩ := describes.exists_literal depends
    exact ⟨path, isPath, fun disjunct decoded => mentions isPath inside found isBit decoded⟩

theorem offset_lt_of_eq_two_pow (places : encoder.Places symbol encoded) {exponent : Nat}
    (power : encoded.size = 2 ^ exponent) (assignment : Nat → Bool) :
    encoded.offset assignment < encoded.size := by
  obtain ⟨first, -, block⟩ := places.bits_eq
  have digits : encoded.bits.length ≤ exponent := by
    rw [block, List.length_range', power]
    exact binaryLength_le (Nat.sub_lt (Nat.two_pow_pos exponent) Nat.one_pos)
  rw [power]
  exact Nat.lt_of_lt_of_le (binaryOffset_lt assignment encoded.bits)
    (Nat.pow_le_pow_right (by decide) digits)

/-- With any other number of values an offset is outside. -/
theorem exists_size_le_offset (places : encoder.Places symbol encoded)
    (noPower : ∀ exponent, encoded.size ≠ 2 ^ exponent) (assignment : Nat → Bool) :
    encoded.size ≤ encoded.offset fun level => level ∈ encoded.bits || assignment level := by
  have greatest : (encoded.offset fun level => level ∈ encoded.bits || assignment level) =
      2 ^ encoded.bits.length - 1 := by
    apply Nat.eq_of_testBit_eq
    intro position
    rw [SymbolBits.offset, testBit_binaryOffset, Nat.testBit_two_pow_sub_one]
    cases isLevel : encoded.bits[position]? with
    | none => simp [List.getElem?_eq_none_iff.mp isLevel]
    | some level =>
        simp [List.mem_of_getElem? isLevel, (List.getElem?_eq_some_iff.mp isLevel).1]
  have small := Nat.lt_of_le_of_ne places.size_le (noPower _)
  omega

open Classical in
/-- The assignment with all levels cleared but those of symbols on which the edge depends. -/
noncomputable def cleared (encoder : Encoder) (edge : Edge) (assignment : Nat → Bool)
    (level : Nat) : Bool :=
  if ∃ symbol encoded, encoder.Matters edge symbol ∧
      OrderedMap.find? symbol encoder.symbols = some encoded ∧ level ∈ encoded.bits then
    assignment level
  else false

include overSymbols in
theorem value_cleared {paths : List (List Int)}
    (describes : encoder.manager.DescribedBy edge paths) (assignment : Nat → Bool) :
    encoder.manager.value (encoder.cleared edge assignment) edge =
      encoder.manager.value assignment edge := by
  refine describes.value_congr fun level depends => if_pos ?_
  obtain ⟨symbol, encoded, found, isBit⟩ := overSymbols level depends
  exact ⟨symbol, encoded, ⟨encoded, found, level, isBit, depends⟩, found, isBit⟩

include wellFormed in
/-- A cleared assignment is within the domains of the symbols that do not matter. -/
theorem within_cleared {assignment : Nat → Bool} (knows : encoder.Knows symbol)
    (within : encoder.Matters edge symbol → encoder.Within assignment symbol) :
    encoder.Within (encoder.cleared edge assignment) symbol := by
  obtain ⟨encoded, found⟩ := knows
  by_cases matters : encoder.Matters edge symbol
  · refine AgreeOn.within (fun encoded found level isBit => ?_) (within matters)
    exact (if_pos ⟨symbol, encoded, matters, found, isBit⟩).symm
  · refine ⟨encoded, found, ?_⟩
    have zero : encoded.offset (encoder.cleared edge assignment) = 0 := by
      apply Nat.eq_of_testBit_eq
      intro position
      rw [SymbolBits.offset, testBit_binaryOffset, Nat.zero_testBit]
      cases isLevel : encoded.bits[position]? with
      | none => rfl
      | some level =>
          refine if_neg ?_
          rintro ⟨other, encoded', matters', found', isBit'⟩
          obtain rfl := wellFormed.eq_of_mem_bits found' found isBit' (List.mem_of_getElem? isLevel)
          exact matters matters'
    rw [zero]
    exact size_pos_of_domainOf (wellFormed.places found).domain_eq

include wellFormed overSymbols in
/-- A symbol with a power of two of values that does not matter within the domains does not
matter at all. -/
theorem not_matters_of_eq_two_pow {paths : List (List Int)}
    (describes : encoder.manager.DescribedBy edge paths) (confined : encoder.Confined edge)
    (irrelevant : encoder.Irrelevant edge symbol)
    (found : OrderedMap.find? symbol encoder.symbols = some encoded) {exponent : Nat}
    (power : encoded.size = 2 ^ exponent) : ¬ encoder.Matters edge symbol := by
  have transfer {assignment assignment' : Nat → Bool}
      (same : ∀ level, level ∉ encoded.bits → assignment level = assignment' level)
      (holds : encoder.manager.value assignment edge = true) :
      encoder.manager.value assignment' edge = true := by
    have within' {other : Symbol} (matters : encoder.Matters edge other) :
        encoder.Within assignment' other := by
      by_cases isSymbol : other = symbol
      · rw [isSymbol]
        exact ⟨encoded, found, offset_lt_of_eq_two_pow (wellFormed.places found) power _⟩
      · refine AgreeOn.within (fun encoded' found' level isBit => same level fun isBit' => ?_)
          (confined assignment holds other matters)
        exact isSymbol (wellFormed.eq_of_mem_bits found' found isBit isBit')
    rw [← value_cleared overSymbols describes] at holds ⊢
    rw [← holds]
    refine (irrelevant encoded found _ _ (fun other knows => ⟨?_, ?_⟩) fun level isBit => ?_).symm
    · exact within_cleared wellFormed knows (confined assignment
        (by rwa [value_cleared overSymbols describes] at holds) other)
    · exact within_cleared wellFormed knows within'
    · unfold cleared
      rw [same level isBit]
  rintro ⟨encoded', found', level, isBit, assignment, differ⟩
  cases found.symm.trans found'
  have apart (truth truth' : Bool) (other : Nat) (isOther : other ∉ encoded.bits) :
      Function.update assignment level truth other =
        Function.update assignment level truth' other := by
    have differs : other ≠ level := fun same => isOther (same ▸ isBit)
    rw [Function.update_of_ne differs, Function.update_of_ne differs]
  exact differ (Bool.eq_iff_iff.mpr ⟨transfer (apart _ _), transfer (apart _ _)⟩)

/-- An edge that is false outside a symbol's domain depends on levels of the symbol unless the
number of its values is a power of two. -/
theorem matters_of_ne_two_pow {paths : List (List Int)}
    (describes : encoder.manager.DescribedBy edge paths)
    (found : OrderedMap.find? symbol encoder.symbols = some encoded)
    (places : encoder.Places symbol encoded)
    (noPower : ∀ exponent, encoded.size ≠ 2 ^ exponent)
    (within : ∀ assignment, encoder.manager.value assignment edge = true →
      encoder.Within assignment symbol) {assignment : Nat → Bool}
    (holds : encoder.manager.value assignment edge = true) : encoder.Matters edge symbol := by
  by_contra unaffected
  have same : encoder.manager.value assignment edge = encoder.manager.value
      (fun level => level ∈ encoded.bits || assignment level) edge := by
    refine describes.value_congr fun level depends => ?_
    have other : level ∉ encoded.bits := fun isBit =>
      unaffected ⟨encoded, found, level, isBit, depends⟩
    simp [other]
  obtain ⟨encoded', found', small⟩ := within _ (same.symm.trans holds)
  cases found.symm.trans found'
  exact absurd (exists_size_le_offset places noPower assignment) (Nat.not_le_of_lt small)

include wellFormed owns in
theorem exists_true_of_ne_zero (nonzero : edge ≠ .zero) :
    ∃ assignment, encoder.manager.value assignment edge = true := by
  by_contra none
  push Not at none
  have ordered := wellFormed.diagrams.toOrdered
  refine nonzero (ordered.eq_of_value_eq owns (DiagramManager.owns_zero ordered)
    fun assignment => ?_)
  rw [DiagramManager.value_zero]
  simpa using none assignment

include wellFormed few owns overSymbols decoded in
/-- A symbol that does not matter within the domains is mentioned exactly if the edge is true
somewhere, false outside the symbol's domain, and this domain has no power of two of values. -/
theorem mem_symbols_iff_of_irrelevant (lawful : encoder.config.Lawful)
    (confined : encoder.Confined edge) (irrelevant : encoder.Irrelevant edge symbol)
    (found : OrderedMap.find? symbol encoder.symbols = some encoded) :
    symbol ∈ formula.symbols ↔ edge ≠ .zero ∧
      (∀ assignment, encoder.manager.value assignment edge = true →
        encoder.Within assignment symbol) ∧ ∀ exponent, encoded.size ≠ 2 ^ exponent := by
  obtain ⟨paths, describes, -⟩ := exists_describedBy wellFormed few owns decoded
  have mentions : symbol ∈ formula.symbols ↔ encoder.Matters edge symbol :=
    ⟨(expresses_decode wellFormed lawful few owns overSymbols decoded).mentions,
      mem_symbols_of_matters wellFormed few owns overSymbols decoded confined⟩
  rw [mentions]
  constructor
  · intro matters
    refine ⟨?_, fun assignment holds => confined assignment holds symbol matters,
      fun exponent power => not_matters_of_eq_two_pow wellFormed overSymbols describes confined
        irrelevant found power matters⟩
    rintro rfl
    obtain ⟨_, _, level, _, assignment, differ⟩ := matters
    rw [DiagramManager.value_zero, DiagramManager.value_zero] at differ
    exact differ rfl
  · rintro ⟨nonzero, within, noPower⟩
    obtain ⟨assignment, holds⟩ := exists_true_of_ne_zero wellFormed owns nonzero
    exact matters_of_ne_two_pow describes found (wellFormed.places found) noPower within holds

end Diagrams

/-- The symbols that a decoded formula mentions.  They are symbols on whose levels the edge
depends, and all of these if it is false outside their domains; then a symbol that does not matter
within the domains is mentioned exactly for the constraint of its own domain. -/
structure MentionsRelevant (encoder : Encoder) (edge : Edge) (decoded : Expr) : Prop where
  matters : ∀ symbol ∈ decoded.symbols, encoder.Matters edge symbol
  mem_of_matters : encoder.Confined edge →
    ∀ symbol, encoder.Matters edge symbol → symbol ∈ decoded.symbols
  mem_iff_of_irrelevant : encoder.Confined edge →
    ∀ symbol encoded, OrderedMap.find? symbol encoder.symbols = some encoded →
      encoder.Irrelevant edge symbol → (symbol ∈ decoded.symbols ↔ edge ≠ .zero ∧
        (∀ assignment, encoder.manager.value assignment edge = true →
          encoder.Within assignment symbol) ∧ ∀ exponent, encoded.size ≠ 2 ^ exponent)

/-- What a diagram of a small reached encoder is decoded to. -/
theorem Reached.mentionsRelevant {config : SolverConfig} {edge : Edge} {decoded : Expr}
    (reached : encoder.Reached config) (lawful : config.Lawful)
    (few : encoder.manager.size ≤ 32767) (fewLevels : encoder.nextLevel ≤ 2147483648)
    (owns : encoder.manager.Owns edge) (overSymbols : encoder.OverSymbols edge)
    (made : encoder.decode edge = .ok decoded) : encoder.MentionsRelevant edge decoded := by
  have small := nodes_le_keyBudget few
  have wellFormed := reached.steady.wellFormed small
  have lawful' := reached.steady.lawful small lawful
  have made' := (decode_capped DiagramManager.keyBudget encoder edge).trans made
  have overSymbols' : (encoder.capped DiagramManager.keyBudget).OverSymbols edge :=
    fun level depends => overSymbols level (dependsOn_capped.mp depends)
  have value_eq (assignment : Nat → Bool) :
      (encoder.capped DiagramManager.keyBudget).manager.value assignment edge =
        encoder.manager.value assignment edge :=
    DiagramManager.value_capped ..
  have confined' (confined : encoder.Confined edge) :
      (encoder.capped DiagramManager.keyBudget).Confined edge :=
    fun assignment holds symbol matters =>
      confined assignment ((value_eq assignment).symm.trans holds) symbol (matters_capped.mp matters)
  refine ⟨fun symbol occurs => ?_, fun confined symbol matters => ?_,
    fun confined symbol encoded found irrelevant => ?_⟩
  · exact matters_capped.mp
      ((expresses_decode wellFormed lawful' fewLevels owns overSymbols' made').mentions occurs)
  · exact mem_symbols_of_matters wellFormed fewLevels owns overSymbols' made' (confined' confined)
      (matters_capped.mpr matters)
  · have irrelevant' : (encoder.capped DiagramManager.keyBudget).Irrelevant edge symbol := by
      intro encoded found assignment assignment' within same
      rw [value_eq, value_eq]
      exact irrelevant encoded found assignment assignment' within same
    rw [mem_symbols_iff_of_irrelevant wellFormed fewLevels owns overSymbols' made' lawful'
      (confined' confined) irrelevant' found]
    simp only [value_eq]
    rfl

end Encoder

/-- Within the domains, what fulfils the formulas does so with any value of the symbol. -/
def Unconstrained (config : SolverConfig) (formulas : List Expr) (symbol : Symbol) : Prop :=
  ∀ (values : Symbol → Value) (value : Value),
    (∀ other, Occurs other formulas → config.InDomain other (values other)) →
    config.InDomain symbol value → Fulfills values formulas →
      Fulfills (Function.update values symbol value) formulas

namespace Encoder.Projects

variable {encoder : Encoder} {formulas : List Expr} {symbols : List Symbol}
  {edge projected : Edge} {symbol : Symbol} {assignment : Nat → Bool}
  (projects : encoder.Projects formulas symbols edge projected)
include projects

theorem overSymbols : encoder.OverSymbols projected := fun _ depends =>
  have ⟨symbol, encoded, _, _, found, isBit⟩ := projects.exists_of_dependsOn depends
  ⟨symbol, encoded, found, isBit⟩

/-- Where a projection is true, the symbols that are kept are within their domains. -/
theorem within (holds : encoder.manager.value assignment projected = true)
    (occurs : Occurs symbol formulas) (kept : symbol ∉ symbols) :
    encoder.Within assignment symbol := by
  obtain ⟨assignment', agree, holds'⟩ := (projects.quantifies.value_iff _).mp holds
  obtain ⟨formula, member, inside⟩ := occurs
  have within' := ((projects.decides.means.value projects.unexhausted assignment').confirms holds'
    formula member).1 symbol inside
  refine AgreeOn.within (fun encoded found level isBit => ?_) within'
  refine agree level (Bool.eq_false_iff.mpr fun isQuantified => kept ?_)
  rw [List.contains_iff_mem, mem_levelsOf] at isQuantified
  obtain ⟨other, isOther, encoded', found', isBit'⟩ := isQuantified
  exact projects.wellFormed.eq_of_mem_bits found found' isBit isBit' ▸ isOther

theorem confined : encoder.Confined projected := by
  rintro assignment holds symbol ⟨encoded, found, level, isBit, depends⟩
  obtain ⟨other, encoded', occurs, kept, found', isBit'⟩ := projects.exists_of_dependsOn depends
  obtain rfl := projects.wellFormed.eq_of_mem_bits found' found isBit' isBit
  exact projects.within holds occurs kept

/-- A projection is true somewhere exactly if the formulas are satisfiable. -/
theorem ne_zero_iff : projected ≠ .zero ↔ encoder.config.Satisfiable formulas := by
  constructor
  · intro nonzero
    obtain ⟨assignment, holds⟩ :=
      exists_true_of_ne_zero projects.wellFormed projects.owns nonzero
    obtain ⟨assignment', -, holds'⟩ := (projects.quantifies.value_iff _).mp holds
    exact projects.decides.satisfiable projects.wellFormed projects.plain projects.unexhausted
      holds'
  · rintro satisfiable rfl
    obtain ⟨assignment, holds⟩ := projects.decides.exists_true projects.wellFormed projects.plain
      projects.unexhausted satisfiable
    have holds' := (projects.quantifies.value_iff _).mpr ⟨assignment, fun _ _ => rfl, holds⟩
    rw [DiagramManager.value_zero] at holds'
    cases holds'

/-- An unconstrained symbol does not matter to the projection within the domains. -/
theorem irrelevant (unconstrained : Unconstrained encoder.config formulas symbol) :
    encoder.Irrelevant projected symbol := by
  intro encoded found
  have transfer {assignment assignment' : Nat → Bool} (within' : encoder.Within assignment' symbol)
      (same : ∀ level, level ∉ encoded.bits → assignment level = assignment' level)
      (holds : encoder.manager.value assignment projected = true) :
      encoder.manager.value assignment' projected = true := by
    obtain ⟨bits, agree, holds⟩ := (projects.quantifies.value_iff _).mp holds
    obtain ⟨values, interpreted, fulfills⟩ := projects.decides.exists_fulfilling
      projects.wellFormed projects.plain projects.unexhausted holds
    have confirms := (projects.decides.means.value projects.unexhausted bits).confirms holds
    obtain ⟨value, equal, inDomain⟩ := within'.inDomain projects.wellFormed
    have fulfills' := unconstrained values value (fun other ⟨formula, member, occurs⟩ =>
      (interpreted formula member other occurs).2) inDomain fulfills
    -- The bits behind the projection, with the levels of the symbol exchanged.
    let exchanged (level : Nat) : Bool :=
      if level ∈ encoded.bits then assignment' level else bits level
    have agreeSymbol : encoder.AgreeOn assignment' exchanged symbol := by
      intro encoded' found' level isBit
      cases found.symm.trans found'
      exact (if_pos isBit).symm
    have agreeOther {other : Symbol} (isOther : other ≠ symbol) :
        encoder.AgreeOn bits exchanged other := fun encoded' found' level isBit =>
      (if_neg fun isBit' => isOther (projects.wellFormed.eq_of_mem_bits found' found isBit
        isBit')).symm
    refine (projects.quantifies.value_iff _).mpr ⟨exchanged, fun level unquantified => ?_, ?_⟩
    · by_cases isBit : level ∈ encoded.bits
      · exact if_pos isBit
      · exact (if_neg isBit).trans ((agree level unquantified).trans (same level isBit))
    · refine (projects.decides.means.value projects.unexhausted exchanged).holds projects.plain
        fun formula member => ⟨fun other occurs => ?_, fun _ => ?_⟩
      · by_cases isSymbol : other = symbol
        · rw [isSymbol]
          exact agreeSymbol.within within'
        · exact (agreeOther isSymbol).within ((confirms formula member).1 other occurs)
      · rw [← fulfills' formula member]
        refine Expr.truth_congr fun other occurs => ?_
        by_cases isSymbol : other = symbol
        · rw [isSymbol, ← agreeSymbol.interpret_eq, equal, Function.update_self]
        · rw [← (agreeOther isSymbol).interpret_eq, Function.update_of_ne isSymbol]
          exact (interpreted formula member other occurs).1
  intro assignment assignment' within same
  have known : encoder.Knows symbol := ⟨encoded, found⟩
  exact Bool.eq_iff_iff.mpr ⟨transfer (within symbol known).2 same,
    transfer (within symbol known).1 fun level isBit => (same level isBit).symm⟩

/-- What a projection is decoded to mentions an unconstrained symbol that is kept exactly if the
formulas are satisfiable and the domain of the symbol has no power of two of values. -/
theorem mem_symbols_iff {consequence : Expr}
    (decoded : encoder.decode projected = .ok consequence) (occurs : Occurs symbol formulas)
    (kept : symbol ∉ symbols) (unconstrained : Unconstrained encoder.config formulas symbol) :
    symbol ∈ consequence.symbols ↔ encoder.config.Satisfiable formulas ∧
      ∀ exponent, domainSize encoder.config symbol ≠ 2 ^ exponent := by
  obtain ⟨encoded, found⟩ : encoder.Knows symbol := by
    obtain ⟨formula, member, inside⟩ := occurs
    exact (projects.decides.enumerable member symbol inside).knows
  have size_eq : domainSize encoder.config symbol = encoded.size := by
    unfold domainSize
    rw [(projects.wellFormed.places found).domain_eq]
  rw [mem_symbols_iff_of_irrelevant projects.wellFormed projects.few projects.owns
    projects.overSymbols decoded projects.exact.lawful projects.confined
    (projects.irrelevant unconstrained) found, projects.ne_zero_iff, size_eq]
  refine and_congr_right fun _ => and_iff_right fun assignment holds => ?_
  exact projects.within holds occurs kept

end Encoder.Projects

end AbstractionRefinement
