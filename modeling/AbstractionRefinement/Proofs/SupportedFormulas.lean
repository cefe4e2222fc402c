import AbstractionRefinement.Proofs.EncodingFailures
import AbstractionRefinement.Proofs.ModelProjections

/-!
# Supported formulas

A formula is refused because of a prime, a symbol without a domain, or an atom with too many
assignments.  The symbols of a formula that is not refused have domains, and a comparison of
one of them with a value is not refused either.  So the exclusion of a projection is encoded
whenever the formulas are from which the projection comes.
-/

namespace AbstractionRefinement

namespace Encoder

variable {config : SolverConfig} {formula : Expr} {symbol : Symbol}

/-- The symbol has a domain, and unless it is Boolean, no more values than an atom may have
assignments. -/
structure Supports (config : SolverConfig) (symbol : Symbol) : Prop where
  hasDomain : symbolFailure config symbol = none
  small : symbol.ty.isBool = false → domainSize config symbol ≤ config.maxAtomAssignments

theorem domainSize_pos (hasDomain : symbolFailure config symbol = none) :
    1 ≤ domainSize config symbol := by
  obtain ⟨⟨domain, size⟩, same⟩ := exists_of_failure?_eq_none hasDomain
  unfold domainSize
  rw [same]
  exact size_pos_of_domainOf same

/-- The symbols of an atom that is not refused are supported, since none of them has more values
than the atom has assignments. -/
theorem supports_of_atomFailure (countable : (config.maxAtomAssignments : Int) < maxInt64)
    (passes : atomFailure config formula = none) (occurs : symbol ∈ formula.symbols) :
    Supports config symbol := by
  unfold atomFailure at passes
  split at passes
  case isTrue => cases passes
  case isFalse =>
    obtain ⟨hasDomains, few⟩ := Option.or_eq_none_iff.mp passes
    rw [List.findSome?_eq_none_iff] at hasDomains
    refine ⟨hasDomains symbol occurs, fun _ => ?_⟩
    have factor : domainSize config symbol ≤ assignmentTotal config formula.symbols :=
      (le_foldl_mul (fun other member => domainSize_pos (hasDomains other member)) 1
        (Nat.le_refl 1)).2 occurs
    split at few
    case isTrue => cases few
    case isFalse counted =>
      unfold maxCountedAssignments at counted
      unfold maxInt64 at countable
      omega

/-- The symbols of a formula that is not refused are supported. -/
theorem supports_of_encodingFailure (countable : (config.maxAtomAssignments : Int) < maxInt64)
    (passes : encodingFailure config formula = none) (occurs : symbol ∈ formula.symbols) :
    Supports config symbol := by
  induction formula with
  | lit value => exact absurd occurs Expr.mem_symbols_lit
  | sym other =>
      rw [encodingFailure] at passes
      split at passes
      case isTrue boolean =>
        obtain rfl := Expr.mem_symbols_sym.mp occurs
        exact ⟨passes, fun notBoolean => absurd boolean (by rw [notBoolean]; simp)⟩
      case isFalse => exact supports_of_atomFailure countable passes occurs
  | unary operator operand ty ih =>
      rw [encodingFailure] at passes
      split at passes
      case isTrue => exact ih passes (Expr.mem_symbols_unary.mp occurs)
      case isFalse => exact supports_of_atomFailure countable passes occurs
  | binary operator left right ty ihLeft ihRight =>
      rw [encodingFailure] at passes
      split at passes
      case isTrue =>
        obtain ⟨passesLeft, passesRight⟩ := Option.or_eq_none_iff.mp passes
        exact (Expr.mem_symbols_binary.mp occurs).elim (ihLeft passesLeft) (ihRight passesRight)
      case isFalse => exact supports_of_atomFailure countable passes occurs
  | ternary operator first second third ty ihFirst ihSecond ihThird =>
      rw [encodingFailure] at passes
      split at passes
      case isTrue =>
        obtain ⟨passesFirst, passes⟩ := Option.or_eq_none_iff.mp passes
        obtain ⟨passesSecond, passesThird⟩ := Option.or_eq_none_iff.mp passes
        rcases Expr.mem_symbols_ternary.mp occurs with occurs | occurs | occurs
        · exact ihFirst passesFirst occurs
        · exact ihSecond passesSecond occurs
        · exact ihThird passesThird occurs
      case isFalse => exact supports_of_atomFailure countable passes occurs
  | nary operator operands ty ih =>
      rw [encodingFailure] at passes
      split at passes
      case isTrue =>
        rw [firstFailure_eq_findSome?, List.findSome?_eq_none_iff] at passes
        obtain ⟨operand, member, occurs⟩ := Expr.mem_symbols_nary.mp occurs
        exact ih operand member (passes operand member) occurs
      case isFalse => exact supports_of_atomFailure countable passes occurs

/-- The comparison of a supported symbol with a value is not refused. -/
theorem encodingFailure_hasValue (supports : Supports config symbol) {value : Value}
    (typed : value.HasType symbol.ty) : encodingFailure config (symbol.hasValue value) = none := by
  rcases symbol.hasValue_cases typed with ⟨-, boolean, same⟩ | ⟨-, boolean, same⟩ | same
  · rw [same, encodingFailure, boolean]
    exact supports.hasDomain
  · rw [same, encodingFailure, if_pos rfl, encodingFailure, boolean]
    exact supports.hasDomain
  · rw [same, encodingFailure]
    have ty_eq : (Expr.sym symbol).ty = symbol.ty := rfl
    split
    case isTrue connects =>
      have boolean : symbol.ty.isBool = true := by
        by_contra notBoolean
        rw [ty_eq, BinaryOperator.connective, if_neg notBoolean] at connects
        cases connects
      have left : encodingFailure config (.sym symbol) = none := by
        rw [encodingFailure, if_pos boolean, supports.hasDomain]
      have right : encodingFailure config (.lit value) = none := by
        have truth : value.asBool.isSome = true := by
          rw [← typed.ty_eq] at boolean
          cases value <;> first | rfl | cases boolean
        rw [encodingFailure, if_pos truth]
      rw [left, right]
      rfl
    case isFalse disconnected =>
      have notBoolean : symbol.ty.isBool = false := by
        rw [Bool.eq_false_iff]
        intro boolean
        rw [ty_eq, BinaryOperator.connective, if_pos boolean] at disconnected
        exact disconnected rfl
      have only : (Expr.binary .eq (.sym symbol) (.lit value) .bool).symbols = [symbol] := rfl
      have few : ¬ config.maxAtomAssignments <
          min (assignmentTotal config [symbol]) maxCountedAssignments := by
        have small := supports.small notBoolean
        have total : assignmentTotal config [symbol] = domainSize config symbol := Nat.one_mul _
        omega
      rw [atomFailure, if_neg (by exact Bool.false_ne_true), only, List.findSome?_cons,
        supports.hasDomain, List.findSome?_nil, if_neg few]
      rfl

theorem encodingFailure_conjunction {operands : List Expr}
    (isConjunction : Expr.IsConjunction operands formula)
    (passes : ∀ operand ∈ operands, encodingFailure config operand = none) :
    encodingFailure config formula = none := by
  cases isConjunction with
  | nil => rfl
  | singleton operand => exact passes _ (List.mem_singleton_self _)
  | many operands =>
      rw [encodingFailure, if_pos (.inl rfl), firstFailure_eq_findSome?, List.findSome?_eq_none_iff]
      exact passes

theorem assertionFailure_exclusion {projection : Valuation} (wellTyped : projection.WellTyped)
    (supports : ∀ symbol ∈ projection.symbols, Supports config symbol) :
    assertionFailure config projection.exclusion = none := by
  have passes : encodingFailure config projection.toExpr = none :=
    encodingFailure_conjunction wellTyped.isConjunction <| List.forall_mem_map.mpr
      fun entry member => encodingFailure_hasValue (supports entry.1 (List.mem_map_of_mem member))
        (wellTyped entry member)
  rw [assertionFailure, Valuation.exclusion, encodingFailure, if_pos rfl, passes,
    Option.none_or, List.findSome?_eq_none_iff]
  intro symbol occurs
  rw [Expr.mem_symbols_unary] at occurs
  exact (supports symbol (wellTyped.mem_symbols_toExpr occurs)).hasDomain

/-- Why a formula may be refused. -/
inductive Refuses (config : SolverConfig) (formula : Expr) : UnknownCause → Prop
  | primed {cause : UnknownCause} (primed : formula.hasPrime = true) : Refuses config formula cause
  | unbounded {symbol : Symbol} {cause : UnknownCause} (occurs : symbol ∈ formula.symbols)
      (noDomain : symbolFailure config symbol = some cause) : Refuses config formula cause
  | limited : Refuses config formula .resourceLimit

theorem Refuses.lift {part : Expr} {cause : UnknownCause} (refuses : Refuses config part cause)
    (primes : part.hasPrime = true → formula.hasPrime = true)
    (included : ∀ symbol ∈ part.symbols, symbol ∈ formula.symbols) :
    Refuses config formula cause := by
  cases refuses with
  | primed primed => exact .primed (primes primed)
  | unbounded occurs noDomain => exact .unbounded (included _ occurs) noDomain
  | limited => exact .limited

theorem refuses_of_atomFailure {cause : UnknownCause}
    (fails : atomFailure config formula = some cause) : Refuses config formula cause := by
  unfold atomFailure at fails
  split at fails
  case isTrue primed => exact .primed primed
  case isFalse =>
    rcases Option.or_eq_some_iff.mp fails with noDomain | ⟨-, many⟩
    · obtain ⟨symbol, occurs, noDomain⟩ := List.exists_of_findSome?_eq_some noDomain
      exact .unbounded occurs noDomain
    · split at many
      · cases many
        exact .limited
      · cases many

/-- There is a reason whenever a formula is refused. -/
theorem refuses_of_encodingFailure {cause : UnknownCause}
    (fails : encodingFailure config formula = some cause) : Refuses config formula cause := by
  induction formula with
  | lit value =>
      rw [encodingFailure] at fails
      split at fails
      · cases fails
      · exact refuses_of_atomFailure fails
  | sym symbol =>
      rw [encodingFailure] at fails
      split at fails
      · exact .unbounded (Expr.mem_symbols_sym.mpr rfl) fails
      · exact refuses_of_atomFailure fails
  | unary operator operand ty ih =>
      rw [encodingFailure] at fails
      split at fails
      · refine (ih fails).lift (fun primed => ?_) fun symbol => Expr.mem_symbols_unary.mpr
        rw [Expr.hasPrime, primed, Bool.or_true]
      · exact refuses_of_atomFailure fails
  | binary operator left right ty ihLeft ihRight =>
      rw [encodingFailure] at fails
      split at fails
      · rcases Option.or_eq_some_iff.mp fails with first | ⟨-, second⟩
        · refine (ihLeft first).lift (fun primed => ?_) fun symbol occurs =>
            Expr.mem_symbols_binary.mpr (.inl occurs)
          rw [Expr.hasPrime, primed, Bool.true_or]
        · refine (ihRight second).lift (fun primed => ?_) fun symbol occurs =>
            Expr.mem_symbols_binary.mpr (.inr occurs)
          rw [Expr.hasPrime, primed, Bool.or_true]
      · exact refuses_of_atomFailure fails
  | ternary operator first second third ty ihFirst ihSecond ihThird =>
      rw [encodingFailure] at fails
      split at fails
      · rcases Option.or_eq_some_iff.mp fails with inFirst | ⟨-, fails⟩
        · refine (ihFirst inFirst).lift (fun primed => ?_) fun symbol occurs =>
            Expr.mem_symbols_ternary.mpr (.inl occurs)
          rw [Expr.hasPrime, primed, Bool.true_or, Bool.true_or]
        · rcases Option.or_eq_some_iff.mp fails with inSecond | ⟨-, inThird⟩
          · refine (ihSecond inSecond).lift (fun primed => ?_) fun symbol occurs =>
              Expr.mem_symbols_ternary.mpr (.inr (.inl occurs))
            rw [Expr.hasPrime, primed, Bool.or_true, Bool.true_or]
          · refine (ihThird inThird).lift (fun primed => ?_) fun symbol occurs =>
              Expr.mem_symbols_ternary.mpr (.inr (.inr occurs))
            rw [Expr.hasPrime, primed, Bool.or_true]
      · exact refuses_of_atomFailure fails
  | nary operator operands ty ih =>
      rw [encodingFailure] at fails
      split at fails
      · rw [firstFailure_eq_findSome?] at fails
        obtain ⟨operand, member, fails⟩ := List.exists_of_findSome?_eq_some fails
        refine (ih operand member fails).lift (fun primed => ?_) fun symbol occurs =>
          Expr.mem_symbols_nary.mpr ⟨operand, member, occurs⟩
        rw [Expr.hasPrime, Expr.hasPrimeAny_eq_any, List.any_eq_true]
        exact ⟨operand, member, primed⟩
      · exact refuses_of_atomFailure fails

theorem refuses_of_assertionFailure {cause : UnknownCause}
    (fails : assertionFailure config formula = some cause) : Refuses config formula cause := by
  rcases Option.or_eq_some_iff.mp fails with refused | ⟨-, noDomain⟩
  · exact refuses_of_encodingFailure refused
  · obtain ⟨symbol, occurs, noDomain⟩ := List.exists_of_findSome?_eq_some noDomain
    exact .unbounded occurs noDomain

end Encoder

end AbstractionRefinement
