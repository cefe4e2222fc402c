import AbstractionRefinement.Proofs.ArithmeticOverflow
import AbstractionRefinement.Proofs.TraceInterpolation

/-!
# Folding and unfolding

Unfolding counts the primes above a variable into its time step and drops them; folding
puts one prime on a variable for each step after its offset.  So folding undoes unfolding
where every prime stands on a variable, unfolding undoes folding where every symbol is at
its offset or later, and primes on compound formulas are lost only once.
-/

namespace AbstractionRefinement

namespace Expr

variable {indexing : Indexing} {formula : Expr}

section Constructors

@[simp]
theorem fold_lit (value : Value) : (lit value).fold indexing = lit value :=
  rfl

@[simp]
theorem fold_indexed (decl : VarDecl) (step : Nat) :
    (sym ⟨decl, some step⟩).fold indexing = primedVariable decl (step - indexing.get decl) :=
  rfl

@[simp]
theorem fold_unary (operator : UnaryOperator) (operand : Expr) (ty : Ty) :
    (unary operator operand ty).fold indexing = unary operator (operand.fold indexing) ty :=
  rfl

@[simp]
theorem fold_binary (operator : BinaryOperator) (left right : Expr) (ty : Ty) :
    (binary operator left right ty).fold indexing =
      binary operator (left.fold indexing) (right.fold indexing) ty :=
  rfl

@[simp]
theorem fold_ternary (operator : TernaryOperator) (first second third : Expr) (ty : Ty) :
    (ternary operator first second third ty).fold indexing =
      ternary operator (first.fold indexing) (second.fold indexing) (third.fold indexing) ty :=
  rfl

@[simp]
theorem fold_nary (operator : NaryOperator) (operands : List Expr) (ty : Ty) :
    (nary operator operands ty).fold indexing =
      nary operator (operands.map (fold indexing)) ty := by
  show nary operator (replaceAllBottomUp _ operands) ty = _
  rw [replaceAllBottomUp_eq_map]
  rfl

end Constructors

theorem wellTyped_primedVariable (decl : VarDecl) (primes : Nat) :
    (primedVariable decl primes).WellTyped := by
  induction primes with
  | zero => trivial
  | succ primes ih => exact ⟨(ty_primedVariable decl primes).symm, ih⟩

@[simp]
theorem ty_fold (formula : Expr) : (formula.fold indexing).ty = formula.ty := by
  cases formula with
  | sym symbol =>
      obtain ⟨decl, _ | step⟩ := symbol
      · rfl
      · exact ty_primedVariable decl _
  | _ => rfl

theorem WellTyped.fold (wellTyped : formula.WellTyped) : (formula.fold indexing).WellTyped := by
  induction formula with
  | lit value => exact wellTyped
  | sym symbol =>
      obtain ⟨decl, _ | step⟩ := symbol
      · trivial
      · exact wellTyped_primedVariable decl _
  | unary operator operand ty ih =>
      rw [fold_unary]
      refine ⟨?_, ih wellTyped.2⟩
      rw [ty_fold]
      exact wellTyped.1
  | binary operator left right ty ihLeft ihRight =>
      rw [fold_binary]
      refine ⟨?_, ihLeft wellTyped.2.1, ihRight wellTyped.2.2⟩
      rw [ty_fold, ty_fold]
      exact wellTyped.1
  | ternary operator first second third ty ihFirst ihSecond ihThird =>
      obtain ⟨types, typedFirst, typedSecond, typedThird⟩ := wellTyped
      rw [fold_ternary]
      refine ⟨?_, ihFirst typedFirst, ihSecond typedSecond, ihThird typedThird⟩
      rw [ty_fold, ty_fold, ty_fold]
      exact types
  | nary operator operands ty ih =>
      obtain ⟨types, typed⟩ := wellTyped
      rw [fold_nary]
      refine ⟨?_, ?_⟩
      · simpa only [List.map_map, Function.comp_def, ty_fold] using types
      · rw [allWellTyped_iff] at typed ⊢
        simp only [List.forall_mem_map]
        exact fun operand member => ih operand member (typed operand member)

theorem WellTyped.ty_unfoldUnder (wellTyped : formula.WellTyped) (primes : Nat) :
    (formula.unfoldUnder indexing primes).ty = formula.ty := by
  induction formula generalizing primes with
  | sym symbol => obtain ⟨decl, _ | step⟩ := symbol <;> rfl
  | unary operator operand ty ih =>
      obtain ⟨types, wellTyped⟩ := wellTyped
      cases operator with
      | prime =>
          obtain rfl : ty = operand.ty := types
          exact ih wellTyped (primes + 1)
      | _ => rfl
  | _ => rfl

theorem WellTyped.unfoldUnder (wellTyped : formula.WellTyped) (primes : Nat) :
    (formula.unfoldUnder indexing primes).WellTyped := by
  induction formula generalizing primes with
  | lit value => exact wellTyped
  | sym symbol => obtain ⟨decl, _ | step⟩ := symbol <;> trivial
  | unary operator operand ty ih =>
      obtain ⟨types, wellTyped⟩ := wellTyped
      cases operator with
      | prime => exact ih wellTyped (primes + 1)
      | _ =>
          refine ⟨?_, ih wellTyped primes⟩
          rwa [wellTyped.ty_unfoldUnder]
  | binary operator left right ty ihLeft ihRight =>
      obtain ⟨types, typedLeft, typedRight⟩ := wellTyped
      refine ⟨?_, ihLeft typedLeft primes, ihRight typedRight primes⟩
      rwa [typedLeft.ty_unfoldUnder, typedRight.ty_unfoldUnder]
  | ternary operator first second third ty ihFirst ihSecond ihThird =>
      obtain ⟨types, typedFirst, typedSecond, typedThird⟩ := wellTyped
      refine ⟨?_, ihFirst typedFirst primes, ihSecond typedSecond primes, ihThird typedThird primes⟩
      rwa [typedFirst.ty_unfoldUnder, typedSecond.ty_unfoldUnder, typedThird.ty_unfoldUnder]
  | nary operator operands ty ih =>
      obtain ⟨types, typed⟩ := wellTyped
      rw [allWellTyped_iff] at typed
      have sameTypes : (operands.map (Expr.unfoldUnder indexing primes)).map Expr.ty =
          operands.map Expr.ty := by
        rw [List.map_map]
        exact List.map_congr_left fun operand member => (typed operand member).ty_unfoldUnder primes
      rw [Expr.unfoldUnder, unfoldAllUnder_eq_map]
      refine ⟨?_, ?_⟩
      · rwa [sameTypes]
      · rw [allWellTyped_iff, List.forall_mem_map]
        exact fun operand member => ih operand member (typed operand member) primes

/-- Unfolding leaves no prime. -/
theorem hasPrime_unfoldUnder (formula : Expr) (primes : Nat) :
    (formula.unfoldUnder indexing primes).hasPrime = false := by
  induction formula generalizing primes with
  | lit value => rfl
  | sym symbol => obtain ⟨decl, _ | step⟩ := symbol <;> rfl
  | unary operator operand ty ih =>
      cases operator with
      | prime => exact ih (primes + 1)
      | _ => exact ih primes
  | binary operator left right ty ihLeft ihRight =>
      rw [unfoldUnder, hasPrime, ihLeft, ihRight, Bool.or_false]
  | ternary operator first second third ty ihFirst ihSecond ihThird =>
      rw [unfoldUnder, hasPrime, ihFirst, ihSecond, ihThird, Bool.or_false, Bool.or_false]
  | nary operator operands ty ih =>
      rw [unfoldUnder, unfoldAllUnder_eq_map, hasPrime, hasPrimeAny_eq_any, List.any_map,
        List.any_eq_false]
      intro operand member
      rw [Function.comp_apply, ih operand member primes]
      exact Bool.false_ne_true

theorem from_unfold (unindexed : formula.isIndexed = false) :
    (formula.unfold indexing).From indexing.get := by
  intro symbol occurs
  rw [unfold_eq_moved indexing unindexed, mem_symbols_moved] at occurs
  obtain ⟨other, inside, rfl⟩ := occurs
  obtain ⟨-, -, -, indexed⟩ := exists_of_mem_symbols_unfoldUnder inside
  obtain ⟨step, isIndex⟩ := Option.isSome_iff_exists.mp indexed
  exact ⟨indexing.get other.decl + step, by rw [Symbol.moved, later, isIndex]; rfl,
    Nat.le_add_right ..⟩

/-- Unfolding undoes folding, if no symbol is earlier than its offset: the steps after the
offset become primes, and the primes become steps again. -/
theorem unfold_fold (unprimed : formula.hasPrime = false)
    (atOrAfter : formula.From indexing.get) : (formula.fold indexing).unfold indexing = formula := by
  unfold Expr.unfold
  induction formula with
  | lit value => rfl
  | sym symbol =>
      obtain ⟨step, isIndex, late⟩ := atOrAfter symbol (mem_symbols_sym.mpr rfl)
      obtain ⟨decl, index⟩ := symbol
      obtain rfl : index = some step := isIndex
      rw [fold_indexed, unfoldUnder_primedVariable, Nat.add_zero, Nat.add_sub_of_le late,
        VarDecl.atStep]
  | unary operator operand ty ih =>
      simp only [hasPrime, Bool.or_eq_false_iff, decide_eq_false_iff_not] at unprimed
      have ih := ih unprimed.2 atOrAfter
      cases operator with
      | prime => exact absurd rfl unprimed.1
      | _ => exact congrArg (unary _ · ty) ih
  | binary operator left right ty ihLeft ihRight =>
      simp only [hasPrime, Bool.or_eq_false_iff] at unprimed
      simp only [From, mem_symbols_binary] at atOrAfter
      rw [fold_binary, unfoldUnder,
        ihLeft unprimed.1 fun symbol occurs => atOrAfter symbol (.inl occurs),
        ihRight unprimed.2 fun symbol occurs => atOrAfter symbol (.inr occurs)]
  | ternary operator first second third ty ihFirst ihSecond ihThird =>
      simp only [hasPrime, Bool.or_eq_false_iff] at unprimed
      simp only [From, mem_symbols_ternary] at atOrAfter
      rw [fold_ternary, unfoldUnder,
        ihFirst unprimed.1.1 fun symbol occurs => atOrAfter symbol (.inl occurs),
        ihSecond unprimed.1.2 fun symbol occurs => atOrAfter symbol (.inr (.inl occurs)),
        ihThird unprimed.2 fun symbol occurs => atOrAfter symbol (.inr (.inr occurs))]
  | nary operator operands ty ih =>
      simp only [From, mem_symbols_nary] at atOrAfter
      rw [fold_nary, unfoldUnder, unfoldAllUnder_eq_map, List.map_map]
      refine congrArg (nary operator · ty) ((List.map_congr_left fun operand member => ?_).trans
        (List.map_id' operands))
      exact ih operand member (hasPrime_of_mem unprimed member)
        fun symbol occurs => atOrAfter symbol ⟨operand, member, occurs⟩

/-- The formula is a variable under any number of primes. -/
def IsPrimedVariable : Expr → Prop
  | sym _ => True
  | unary .prime operand _ => operand.IsPrimedVariable
  | _ => False

mutual

/-- Priming is applied to variables only, any number of times. -/
def PrimesVariables : Expr → Prop
  | lit _ | sym _ => True
  | unary .prime operand _ => operand.IsPrimedVariable
  | unary _ operand _ => operand.PrimesVariables
  | binary _ left right _ => left.PrimesVariables ∧ right.PrimesVariables
  | ternary _ first second third _ =>
      first.PrimesVariables ∧ second.PrimesVariables ∧ third.PrimesVariables
  | nary _ operands _ => AllPrimeVariables operands

def AllPrimeVariables : List Expr → Prop
  | [] => True
  | operand :: operands => operand.PrimesVariables ∧ AllPrimeVariables operands

end

theorem allPrimeVariables_iff {operands : List Expr} :
    AllPrimeVariables operands ↔ ∀ operand ∈ operands, operand.PrimesVariables := by
  induction operands with
  | nil => simp [AllPrimeVariables]
  | cons operand operands ih => simp [AllPrimeVariables, ih]

/-- A variable under primes is determined by the variable and their number. -/
theorem IsPrimedVariable.exists_eq (primed : formula.IsPrimedVariable)
    (wellTyped : formula.WellTyped) (unindexed : ∀ symbol ∈ formula.symbols, symbol.index = none) :
    ∃ decl primes, formula = primedVariable decl primes := by
  induction formula with
  | sym symbol =>
      obtain ⟨decl, index⟩ := symbol
      obtain rfl : index = none := unindexed _ (mem_symbols_sym.mpr rfl)
      exact ⟨decl, 0, rfl⟩
  | unary operator operand ty ih =>
      cases operator with
      | prime =>
          obtain ⟨types, wellTyped⟩ := wellTyped
          obtain ⟨decl, primes, rfl⟩ := ih primed wellTyped unindexed
          obtain rfl : ty = (primedVariable decl primes).ty := types
          exact ⟨decl, primes + 1, by rw [ty_primedVariable]; rfl⟩
      | _ => cases primed
  | _ => cases primed

theorem fold_unfold_primedVariable (decl : VarDecl) (primes : Nat) :
    ((primedVariable decl primes).unfold indexing).fold indexing = primedVariable decl primes := by
  rw [unfold, unfoldUnder_primedVariable, VarDecl.atStep, fold_indexed, Nat.add_zero,
    Nat.add_sub_cancel_left]

/-- Folding undoes unfolding, if every prime stands on a variable. -/
theorem WellTyped.fold_unfold (wellTyped : formula.WellTyped)
    (unindexed : ∀ symbol ∈ formula.symbols, symbol.index = none)
    (primes : formula.PrimesVariables) : (formula.unfold indexing).fold indexing = formula := by
  induction formula with
  | lit value => rfl
  | sym symbol =>
      obtain ⟨decl, index⟩ := symbol
      obtain rfl : index = none := unindexed _ (mem_symbols_sym.mpr rfl)
      exact fold_unfold_primedVariable decl 0
  | unary operator operand ty ih =>
      cases operator with
      | prime =>
          have primed : (unary .prime operand ty).IsPrimedVariable := primes
          obtain ⟨decl, count, same⟩ := primed.exists_eq wellTyped unindexed
          rw [same, fold_unfold_primedVariable]
      | _ => exact congrArg (unary _ · ty) (ih wellTyped.2 unindexed primes)
  | binary operator left right ty ihLeft ihRight =>
      obtain ⟨-, typedLeft, typedRight⟩ := wellTyped
      simp only [mem_symbols_binary] at unindexed
      exact congrArg₂ (binary operator · · ty)
        (ihLeft typedLeft (fun symbol occurs => unindexed symbol (.inl occurs)) primes.1)
        (ihRight typedRight (fun symbol occurs => unindexed symbol (.inr occurs)) primes.2)
  | ternary operator first second third ty ihFirst ihSecond ihThird =>
      obtain ⟨-, typedFirst, typedSecond, typedThird⟩ := wellTyped
      obtain ⟨primesFirst, primesSecond, primesThird⟩ := primes
      simp only [mem_symbols_ternary] at unindexed
      have first_eq :=
        ihFirst typedFirst (fun symbol occurs => unindexed symbol (.inl occurs)) primesFirst
      have second_eq := ihSecond typedSecond
        (fun symbol occurs => unindexed symbol (.inr (.inl occurs))) primesSecond
      have third_eq := ihThird typedThird
        (fun symbol occurs => unindexed symbol (.inr (.inr occurs))) primesThird
      unfold Expr.unfold at *
      rw [Expr.unfoldUnder, fold_ternary, first_eq, second_eq, third_eq]
  | nary operator operands ty ih =>
      obtain ⟨-, typed⟩ := wellTyped
      rw [allWellTyped_iff] at typed
      rw [PrimesVariables, allPrimeVariables_iff] at primes
      simp only [mem_symbols_nary] at unindexed
      rw [Expr.unfold, Expr.unfoldUnder, unfoldAllUnder_eq_map, fold_nary, List.map_map]
      refine congrArg (nary operator · ty) ((List.map_congr_left fun operand member => ?_).trans
        (List.map_id' operands))
      exact ih operand member (typed operand member)
        (fun symbol occurs => unindexed symbol ⟨operand, member, occurs⟩) (primes operand member)

/-- Unfolding and folding are inverse to each other.  Folding gives back an unfolded formula
whose primes stand on variables, and unfolding gives back a folded formula without primes
whose symbols are at their offsets or later.  Primes elsewhere are pushed to the variables by
the first unfolding, so that one more round changes nothing.  Types are kept throughout. -/
theorem unfolding_and_folding_inverse (indexing : Indexing) :
    (∀ formula : Expr, formula.WellTyped → formula.isIndexed = false → formula.PrimesVariables →
      (formula.unfold indexing).fold indexing = formula) ∧
    (∀ formula : Expr, formula.hasPrime = false → formula.From indexing.get →
      (formula.fold indexing).unfold indexing = formula ∧
      (formula.fold indexing).ty = formula.ty ∧
      (formula.WellTyped → (formula.fold indexing).WellTyped)) ∧
    (∀ formula : Expr, formula.WellTyped → formula.isIndexed = false →
      ((formula.unfold indexing).fold indexing).unfold indexing = formula.unfold indexing ∧
      (formula.unfold indexing).ty = formula.ty ∧ (formula.unfold indexing).WellTyped) := by
  refine ⟨?_, ?_, ?_⟩
  · intro formula wellTyped unindexed primes
    exact wellTyped.fold_unfold (fun _ => index_eq_none unindexed) primes
  · intro formula unprimed atOrAfter
    exact ⟨unfold_fold unprimed atOrAfter, ty_fold formula, WellTyped.fold⟩
  · intro formula wellTyped unindexed
    exact ⟨unfold_fold (hasPrime_unfoldUnder formula 0) (from_unfold unindexed),
      wellTyped.ty_unfoldUnder 0, wellTyped.unfoldUnder 0⟩

def levelAhead : Expr :=
  binary .eq (primedVariable ⟨"level", .int⟩ 2)
    (nary .add [VarDecl.toExpr ⟨"amount", .int⟩, primedVariable ⟨"level", .int⟩ 1] .int) .bool

/-- The same said of the next state, with the sum taken one step later: one prime stands on the
equation and one on the sum. -/
def levelPutOff : Expr :=
  unary .prime (binary .eq (primedVariable ⟨"level", .int⟩ 2)
    (unary .prime (nary .add [VarDecl.toExpr ⟨"amount", .int⟩, primedVariable ⟨"level", .int⟩ 1]
      .int) .int) .bool) .bool

/-- Formulas about levels from step 5 on and amounts from step 2 on are folded and unfolded. -/
theorem levelAhead_unfolded_and_folded :
    let indexing := (Indexing.constant 2).withOffset ⟨"level", .int⟩ 5
    let placed := binary .eq (VarDecl.atStep ⟨"level", .int⟩ 7)
      (nary .add [VarDecl.atStep ⟨"amount", .int⟩ 2, VarDecl.atStep ⟨"level", .int⟩ 6] .int) .bool
    (levelAhead.unfold indexing).fold indexing = levelAhead ∧
      (placed.fold indexing).unfold indexing = placed ∧
      ((levelPutOff.unfold indexing).fold indexing).unfold indexing =
        levelPutOff.unfold indexing := by
  intro indexing placed
  obtain ⟨undone, redone, settled⟩ := unfolding_and_folding_inverse indexing
  have sum : (nary .add [VarDecl.toExpr ⟨"amount", .int⟩, primedVariable ⟨"level", .int⟩ 1]
      .int).WellTyped := ⟨⟨rfl, by decide⟩, trivial, wellTyped_primedVariable _ 1, trivial⟩
  have atOrAfter : placed.From indexing.get := by
    have occurring : placed.symbols = [⟨⟨"amount", .int⟩, some 2⟩, ⟨⟨"level", .int⟩, some 6⟩,
        ⟨⟨"level", .int⟩, some 7⟩] := by decide +kernel
    intro symbol occurs
    rw [occurring] at occurs
    simp only [List.mem_cons, List.not_mem_nil, or_false] at occurs
    rcases occurs with rfl | rfl | rfl
    · exact ⟨2, rfl, by decide +kernel⟩
    · exact ⟨6, rfl, by decide +kernel⟩
    · exact ⟨7, rfl, by decide +kernel⟩
  refine ⟨undone levelAhead ?_ (by decide +kernel) ⟨trivial, trivial, trivial, trivial⟩,
    (redone placed (by decide +kernel) atOrAfter).1,
    (settled levelPutOff ?_ (by decide +kernel)).1⟩
  · exact ⟨⟨rfl, rfl⟩, wellTyped_primedVariable _ 2, sum⟩
  · exact ⟨rfl, ⟨rfl, rfl⟩, wellTyped_primedVariable _ 2, rfl, sum⟩

end Expr

end AbstractionRefinement
