import AbstractionRefinement.Proofs.FormulaTyping
import AbstractionRefinement.Proofs.SymbolEncoding

/-!
# Values of domains

The solver decides formulas over the values that a configuration admits: integers
of the configured interval, all truth values and all bitvectors shorter than a
machine word.  The offsets of a symbol's domain are exactly these values, unless
the interval has as many numbers as can be counted.  The number of values of an
encoded bitvector is a shifted machine word, so an encoded vector as long as a word
is considered at zero only.
-/

namespace AbstractionRefinement

namespace SolverConfig

/-- Every interval is one of machine integers and is not empty. -/
def Lawful (config : SolverConfig) : Prop :=
  ∀ name, FitsInt64 (config.rangeOf name).1 ∧ FitsInt64 (config.rangeOf name).2 ∧
    (config.rangeOf name).1 ≤ (config.rangeOf name).2

/-- The value is one of the variable's type, an integer lies in the interval of the
variable, and a bitvector that is short enough to be encoded has an offset. -/
def Admits (config : SolverConfig) (decl : VarDecl) (value : Value) : Prop :=
  value.HasType decl.ty ∧
    (∀ number, value = .int number →
      (config.rangeOf decl.name).1 ≤ number ∧ number ≤ (config.rangeOf decl.name).2) ∧
    ∀ bits width, value = .bitVec bits width → width ≤ config.maxBitVecWidth →
      bits < shiftedOne width

theorem admits_iff_of_maxBitVecWidth_lt {config : SolverConfig}
    (short : config.maxBitVecWidth < 64) {decl : VarDecl} {value : Value} :
    config.Admits decl value ↔ value.HasType decl.ty ∧ ∀ number, value = .int number →
      (config.rangeOf decl.name).1 ≤ number ∧ number ≤ (config.rangeOf decl.name).2 := by
  refine ⟨fun admits => ⟨admits.1, admits.2.1⟩, fun ⟨typed, inRange⟩ => ⟨typed, inRange, ?_⟩⟩
  rintro bits width rfl encoded
  rw [← typed.ty_eq] at typed
  rw [shiftedOne_of_lt (by omega)]
  exact typed.2

theorem admits_bool {config : SolverConfig} {decl : VarDecl} (isBool : decl.ty = .bool)
    (truth : Bool) : config.Admits decl (.bool truth) :=
  ⟨isBool ▸ Value.hasType_bool truth, by rintro _ ⟨⟩, by rintro _ _ ⟨⟩⟩

theorem admits_int {config : SolverConfig} {decl : VarDecl} (isInt : decl.ty = .int)
    {number : Int} (fits : FitsInt64 number) (lower : (config.rangeOf decl.name).1 ≤ number)
    (upper : number ≤ (config.rangeOf decl.name).2) : config.Admits decl (.int number) :=
  ⟨isInt ▸ fits, by rintro _ ⟨⟩; exact ⟨lower, upper⟩, by rintro _ _ ⟨⟩⟩

end SolverConfig

/-- A value of the type in which all integers are the given number. -/
def Ty.sample (number : Int) : Ty → Value
  | bool => .bool false
  | int => .int number
  | rat => .rat default
  | bitVec width => .bitVec 0 width
  | array index element => .array index (element.sample number) []

theorem Ty.hasType_sample {number : Int} (fits : FitsInt64 number) (ty : Ty) :
    (ty.sample number).HasType ty := by
  induction ty with
  | bool => exact Value.hasType_bool false
  | int => exact fits
  | rat => trivial
  | bitVec width => exact ⟨rfl, Nat.two_pow_pos width⟩
  | array index element _ ih => exact ⟨rfl, ih, trivial⟩

theorem Ty.eq_of_sample {number other : Int} {ty : Ty} (same : ty.sample number = .int other) :
    other = number := by
  cases ty <;> cases same
  rfl

theorem Ty.eq_zero_of_sample {number : Int} {bits width : Nat} {ty : Ty}
    (same : ty.sample number = .bitVec bits width) : bits = 0 := by
  cases ty <;> cases same
  rfl

theorem SolverConfig.Lawful.exists_admits {config : SolverConfig} (lawful : config.Lawful)
    (decl : VarDecl) : ∃ value, config.Admits decl value := by
  by_cases integer : decl.ty = .int
  · obtain ⟨fitsLow, -, ordered⟩ := lawful decl.name
    exact ⟨_, SolverConfig.admits_int integer fitsLow (Int.le_refl _) ordered⟩
  · have typed : (decl.ty.sample 0).HasType decl.ty := Ty.hasType_sample (by decide) decl.ty
    refine ⟨_, typed, fun number isNumber => ?_, fun bits width isVector _ => ?_⟩
    · rw [isNumber] at typed
      exact absurd typed.ty_eq.symm integer
    · rw [Ty.eq_zero_of_sample isVector]
      exact shiftedOne_pos width

namespace Encoder

variable {config : SolverConfig} {symbol : Symbol} {domain : BitDomain} {size : Nat}

theorem size_pos_of_domainOf (hasDomain : domainOf config symbol = .ok (domain, size)) :
    1 ≤ size := by
  unfold domainOf at hasDomain
  split at hasDomain
  · cases hasDomain
    decide
  · simp only [Except.ok.injEq, Prod.mk.injEq] at hasDomain
    omega
  · split at hasDomain
    · cases hasDomain
      exact Nat.two_pow_pos _
    · cases hasDomain
  · cases hasDomain

example : domainOf { maxBitVecWidth := 64 } ⟨⟨"word", .bitVec 64⟩, none⟩ = .ok (.bitVec 64, 1) :=
  rfl

/-- An offset of the domain stands for an admitted value. -/
theorem admits_of_domainOf (lawful : config.Lawful)
    (hasDomain : domainOf config symbol = .ok (domain, size)) {offset : Nat}
    (small : offset < size) : config.Admits symbol.decl (domain.value offset) := by
  unfold domainOf at hasDomain
  split at hasDomain
  case h_1 boolean =>
    cases hasDomain
    exact SolverConfig.admits_bool boolean _
  case h_2 integer =>
    obtain ⟨fitsLow, fitsHigh, ordered⟩ := lawful symbol.decl.name
    simp only [Except.ok.injEq, Prod.mk.injEq] at hasDomain
    obtain ⟨rfl, rfl⟩ := hasDomain
    unfold saturateInt64 at small
    unfold FitsInt64 minInt64 maxInt64 at *
    refine SolverConfig.admits_int integer ?_ ?_ ?_
    · unfold FitsInt64 minInt64 maxInt64
      omega
    · omega
    · omega
  case h_3 width bitVec =>
    split at hasDomain
    · cases hasDomain
      unfold SolverConfig.Admits
      rw [show symbol.decl.ty = .bitVec width from bitVec]
      refine ⟨⟨rfl, Nat.lt_of_lt_of_le small (shiftedOne_le width)⟩, by rintro number ⟨⟩, ?_⟩
      rintro bits width ⟨⟩ -
      exact small
    · cases hasDomain
  case h_4 => cases hasDomain

/-- An admitted value stands at an offset of the domain. -/
theorem exists_offset_of_admits (lawful : config.Lawful)
    (hasDomain : domainOf config symbol = .ok (domain, size))
    (countable : symbol.ty = .int → (size : Int) < maxInt64) {value : Value}
    (admits : config.Admits symbol.decl value) : ∃ offset < size, domain.value offset = value := by
  obtain ⟨typed, inRange, inVector⟩ := admits
  unfold domainOf at hasDomain
  split at hasDomain
  case h_1 boolean =>
    cases hasDomain
    rw [show symbol.decl.ty = .bool from boolean] at typed
    obtain ⟨truth, rfl⟩ := typed.exists_bool
    refine ⟨truth.toNat, ?_, ?_⟩
    · cases truth <;> decide
    · cases truth <;> rfl
  case h_2 integer =>
    have countable := countable integer
    simp only [Except.ok.injEq, Prod.mk.injEq] at hasDomain
    obtain ⟨rfl, rfl⟩ := hasDomain
    rw [show symbol.decl.ty = .int from integer] at typed
    obtain ⟨number, rfl, fits⟩ := typed.exists_int
    obtain ⟨lower, upper⟩ := inRange number rfl
    obtain ⟨fitsLow, fitsHigh, ordered⟩ := lawful symbol.decl.name
    refine ⟨(number - (config.rangeOf symbol.decl.name).1).toNat, ?_, ?_⟩
    · unfold saturateInt64 at *
      unfold FitsInt64 minInt64 maxInt64 at *
      omega
    · show Value.int _ = _
      congr 1
      omega
  case h_3 width bitVec =>
    split at hasDomain
    case isTrue encoded =>
      cases hasDomain
      rw [show symbol.decl.ty = .bitVec width from bitVec] at typed
      obtain ⟨bits, rfl, -⟩ := typed.exists_bitVec
      exact ⟨bits, inVector bits width rfl encoded, rfl⟩
    · cases hasDomain
  case h_4 => cases hasDomain

theorem Within.admits {encoder : Encoder} (wellFormed : encoder.WellFormed)
    (lawful : encoder.config.Lawful) {assignment : Nat → Bool} {symbol : Symbol}
    (within : encoder.Within assignment symbol) :
    ∃ value, encoder.interpret assignment symbol = some value ∧
      encoder.config.Admits symbol.decl value := by
  obtain ⟨encoded, found, small⟩ := within
  refine ⟨encoded.domain.value (encoded.offset assignment), by rw [interpret, found]; rfl, ?_⟩
  exact admits_of_domainOf lawful (wellFormed.places found).domain_eq small

end Encoder

end AbstractionRefinement
