import AbstractionRefinement.Proofs.ConjunctionEncoding

/-!
# Formulas moved in time

Unfolding, folding and versions change the time steps of the symbols of a formula and
nothing else.  A formula moved in time means under an assignment what the formula means
under the assignment read at the new time steps.
-/

namespace AbstractionRefinement

def Symbol.moved (move : Symbol → Option Nat) (symbol : Symbol) : Symbol :=
  ⟨symbol.decl, move symbol⟩

namespace Expr

def moved (move : Symbol → Option Nat) (formula : Expr) : Expr :=
  formula.replaceBottomUp fun
    | sym symbol => some (sym (symbol.moved move))
    | _ => none

variable {move : Symbol → Option Nat}

section Constructors

@[simp]
theorem moved_lit (value : Value) : (lit value).moved move = lit value :=
  rfl

@[simp]
theorem moved_sym (symbol : Symbol) : (sym symbol).moved move = sym (symbol.moved move) :=
  rfl

@[simp]
theorem moved_unary (operator : UnaryOperator) (operand : Expr) (ty : Ty) :
    (unary operator operand ty).moved move = unary operator (operand.moved move) ty :=
  rfl

@[simp]
theorem moved_binary (operator : BinaryOperator) (left right : Expr) (ty : Ty) :
    (binary operator left right ty).moved move =
      binary operator (left.moved move) (right.moved move) ty :=
  rfl

@[simp]
theorem moved_ternary (operator : TernaryOperator) (first second third : Expr) (ty : Ty) :
    (ternary operator first second third ty).moved move =
      ternary operator (first.moved move) (second.moved move) (third.moved move) ty :=
  rfl

@[simp]
theorem moved_nary (operator : NaryOperator) (operands : List Expr) (ty : Ty) :
    (nary operator operands ty).moved move = nary operator (operands.map (moved move)) ty := by
  show nary operator (replaceAllBottomUp _ operands) ty = _
  rw [replaceAllBottomUp_eq_map]
  rfl

end Constructors

@[simp]
theorem ty_moved (formula : Expr) : (formula.moved move).ty = formula.ty := by
  cases formula with
  | nary operator operands ty => rw [moved_nary]; rfl
  | _ => rfl

theorem mem_symbols_moved {formula : Expr} {symbol : Symbol} :
    symbol ∈ (formula.moved move).symbols ↔
      ∃ other ∈ formula.symbols, other.moved move = symbol := by
  induction formula with
  | lit value => simp
  | sym other => simp [eq_comm]
  | unary operator operand ty ih => simpa using ih
  | binary operator left right ty ihLeft ihRight =>
      rw [moved_binary, mem_symbols_binary, ihLeft, ihRight]
      simp only [mem_symbols_binary, or_and_right, exists_or]
  | ternary operator first second third ty ihFirst ihSecond ihThird =>
      rw [moved_ternary, mem_symbols_ternary, ihFirst, ihSecond, ihThird]
      simp only [mem_symbols_ternary, or_and_right, exists_or]
  | nary operator operands ty ih =>
      simp only [moved_nary, mem_symbols_nary, List.mem_map, exists_exists_and_eq_and]
      constructor
      · rintro ⟨operand, member, occurs⟩
        obtain ⟨other, inside, same⟩ := (ih operand member).mp occurs
        exact ⟨other, ⟨operand, member, inside⟩, same⟩
      · rintro ⟨other, ⟨operand, member, inside⟩, same⟩
        exact ⟨operand, member, (ih operand member).mpr ⟨other, inside, same⟩⟩

/-- Two ways to move a formula are the same if they move its symbols alike. -/
theorem moved_congr {move' : Symbol → Option Nat} {formula : Expr}
    (same : ∀ symbol ∈ formula.symbols, move symbol = move' symbol) :
    formula.moved move = formula.moved move' := by
  induction formula with
  | lit value => rfl
  | sym symbol => rw [moved_sym, moved_sym, Symbol.moved, same _ (by simp), Symbol.moved]
  | unary operator operand ty ih =>
      rw [moved_unary, moved_unary, ih fun symbol occurs => same symbol (by simpa using occurs)]
  | binary operator left right ty ihLeft ihRight =>
      simp only [mem_symbols_binary] at same
      rw [moved_binary, moved_binary, ihLeft fun symbol occurs => same symbol (.inl occurs),
        ihRight fun symbol occurs => same symbol (.inr occurs)]
  | ternary operator first second third ty ihFirst ihSecond ihThird =>
      simp only [mem_symbols_ternary] at same
      rw [moved_ternary, moved_ternary, ihFirst fun symbol occurs => same symbol (.inl occurs),
        ihSecond fun symbol occurs => same symbol (.inr (.inl occurs)),
        ihThird fun symbol occurs => same symbol (.inr (.inr occurs))]
  | nary operator operands ty ih =>
      simp only [mem_symbols_nary] at same
      rw [moved_nary, moved_nary, List.map_congr_left fun operand member =>
        ih operand member fun symbol occurs => same symbol ⟨operand, member, occurs⟩]

@[simp]
theorem hasPrime_moved (formula : Expr) : (formula.moved move).hasPrime = formula.hasPrime := by
  induction formula with
  | lit value => rfl
  | sym symbol => rfl
  | unary operator operand ty ih => rw [moved_unary, hasPrime, ih, hasPrime]
  | binary operator left right ty ihLeft ihRight =>
      rw [moved_binary, hasPrime, ihLeft, ihRight, hasPrime]
  | ternary operator first second third ty ihFirst ihSecond ihThird =>
      rw [moved_ternary, hasPrime, ihFirst, ihSecond, ihThird, hasPrime]
  | nary operator operands ty ih =>
      rw [moved_nary, hasPrime, hasPrime, hasPrimeAny_eq_any, hasPrimeAny_eq_any, List.any_map,
        Bool.eq_iff_iff, List.any_eq_true, List.any_eq_true]
      exact exists_congr fun operand => and_congr_right fun member => by
        rw [Function.comp_apply, ih operand member]

theorem WellTyped.moved {formula : Expr} (wellTyped : formula.WellTyped) :
    (formula.moved move).WellTyped := by
  induction formula with
  | lit value => exact wellTyped
  | sym symbol => trivial
  | unary operator operand ty ih =>
      rw [moved_unary]
      refine ⟨?_, ih wellTyped.2⟩
      rw [ty_moved]
      exact wellTyped.1
  | binary operator left right ty ihLeft ihRight =>
      rw [moved_binary]
      refine ⟨?_, ihLeft wellTyped.2.1, ihRight wellTyped.2.2⟩
      rw [ty_moved, ty_moved]
      exact wellTyped.1
  | ternary operator first second third ty ihFirst ihSecond ihThird =>
      obtain ⟨types, typedFirst, typedSecond, typedThird⟩ := wellTyped
      rw [moved_ternary]
      refine ⟨?_, ihFirst typedFirst, ihSecond typedSecond, ihThird typedThird⟩
      rw [ty_moved, ty_moved, ty_moved]
      exact types
  | nary operator operands ty ih =>
      obtain ⟨types, typed⟩ := wellTyped
      rw [moved_nary]
      refine ⟨?_, ?_⟩
      · simpa only [List.map_map, Function.comp_def, ty_moved] using types
      · rw [allWellTyped_iff] at typed ⊢
        simp only [List.forall_mem_map]
        exact fun operand member => ih operand member (typed operand member)

@[simp]
theorem choosesTruth_moved (formula : Expr) :
    (formula.moved move).choosesTruth = formula.choosesTruth := by
  induction formula with
  | lit value => rfl
  | sym symbol => rfl
  | unary operator operand ty ih => exact ih
  | binary operator left right ty ihLeft ihRight =>
      rw [moved_binary, choosesTruth, ihLeft, ihRight, choosesTruth]
  | ternary operator first second third ty ihFirst ihSecond ihThird =>
      rw [moved_ternary, choosesTruth, ty_moved, choosesTruth]
  | nary operator operands ty ih =>
      rw [moved_nary, choosesTruth, choosesTruth, choosesTruthAny_eq_any,
        choosesTruthAny_eq_any, List.any_map, Bool.eq_iff_iff, List.any_eq_true, List.any_eq_true]
      exact exists_congr fun operand => and_congr_right fun member => by
        rw [Function.comp_apply, ih operand member]

theorem Encodable.moved {formula : Expr} (encodable : formula.Encodable) :
    (formula.moved move).Encodable :=
  ⟨encodable.wellTyped.moved, (choosesTruth_moved formula).trans encodable.plain⟩

theorem eval_moved {assignment : Symbol → Option Value} (formula : Expr) :
    (formula.moved move).eval assignment =
      formula.eval fun symbol => assignment (symbol.moved move) := by
  induction formula with
  | lit value => rfl
  | sym symbol => rfl
  | unary operator operand ty ih => rw [moved_unary, eval, eval, ih]
  | binary operator left right ty ihLeft ihRight =>
      rw [moved_binary, eval, eval, ihLeft, ihRight]
  | ternary operator first second third ty ihFirst ihSecond ihThird =>
      rw [moved_ternary, eval, eval, ihFirst, ihSecond, ihThird]
  | nary operator operands ty ih =>
      rw [moved_nary, eval, eval, evalAll_eq_map, evalAll_eq_map, List.map_map]
      congr 1
      exact List.map_congr_left ih

theorem unfoldAllUnder_eq_map (indexing : Indexing) (primes : Nat) (operands : List Expr) :
    unfoldAllUnder indexing primes operands = operands.map (unfoldUnder indexing primes) := by
  induction operands with
  | nil => rfl
  | cons operand operands ih => rw [unfoldAllUnder, ih, List.map_cons]

theorem index_eq_none {formula : Expr} (unindexed : formula.isIndexed = false) {symbol : Symbol}
    (occurs : symbol ∈ formula.symbols) : symbol.index = none := by
  rw [isIndexed, List.any_eq_false] at unindexed
  simpa using unindexed symbol occurs

def later (indexing : Indexing) (symbol : Symbol) : Option Nat :=
  symbol.index.map (indexing.get symbol.decl + ·)

/-- A formula is unfolded by unfolding it from the start and moving it on. -/
theorem unfoldUnder_eq_moved (indexing : Indexing) {formula : Expr}
    (unindexed : ∀ symbol ∈ formula.symbols, symbol.index = none) (primes : Nat) :
    formula.unfoldUnder indexing primes =
      (formula.unfoldUnder (.constant 0) primes).moved (later indexing) := by
  induction formula generalizing primes with
  | lit value => rfl
  | sym symbol =>
      obtain ⟨decl, index⟩ := symbol
      obtain rfl : index = none := unindexed _ (mem_symbols_sym.mpr rfl)
      show sym ⟨decl, some (indexing.get decl + primes)⟩ =
        sym ⟨decl, some (indexing.get decl + (0 + primes))⟩
      rw [Nat.zero_add]
  | unary operator operand ty ih =>
      have ih := ih fun symbol occurs => unindexed symbol (by simpa using occurs)
      cases operator with
      | prime => exact ih (primes + 1)
      | _ => exact congrArg (unary _ · ty) (ih primes)
  | binary operator left right ty ihLeft ihRight =>
      simp only [mem_symbols_binary] at unindexed
      rw [unfoldUnder, unfoldUnder, moved_binary,
        ihLeft fun symbol occurs => unindexed symbol (.inl occurs),
        ihRight fun symbol occurs => unindexed symbol (.inr occurs)]
  | ternary operator first second third ty ihFirst ihSecond ihThird =>
      simp only [mem_symbols_ternary] at unindexed
      rw [unfoldUnder, unfoldUnder, moved_ternary,
        ihFirst fun symbol occurs => unindexed symbol (.inl occurs),
        ihSecond fun symbol occurs => unindexed symbol (.inr (.inl occurs)),
        ihThird fun symbol occurs => unindexed symbol (.inr (.inr occurs))]
  | nary operator operands ty ih =>
      simp only [mem_symbols_nary] at unindexed
      rw [unfoldUnder, unfoldUnder, moved_nary, unfoldAllUnder_eq_map, unfoldAllUnder_eq_map,
        List.map_map]
      refine congrArg (nary operator · ty) (List.map_congr_left fun operand member => ?_)
      exact ih operand member (fun symbol occurs => unindexed symbol ⟨operand, member, occurs⟩) primes

theorem unfold_eq_moved (indexing : Indexing) {formula : Expr}
    (unindexed : formula.isIndexed = false) :
    formula.unfold indexing = (formula.unfold (.constant 0)).moved (later indexing) :=
  unfoldUnder_eq_moved indexing (fun _ => index_eq_none unindexed) 0

/-- Folding a formula whose symbols are all at the steps of their variables. -/
theorem fold_eq_moved {indexing : Indexing} {formula : Expr} (atSteps : ∀ symbol ∈ formula.symbols,
      symbol.index = some (indexing.get symbol.decl)) :
    formula.fold indexing = formula.moved fun _ => none := by
  induction formula with
  | lit value => rfl
  | sym symbol =>
      obtain ⟨decl, index⟩ := symbol
      obtain rfl : index = some (indexing.get decl) := atSteps _ (mem_symbols_sym.mpr rfl)
      show primedVariable decl (indexing.get decl - indexing.get decl) = decl.toExpr
      rw [Nat.sub_self, primedVariable]
  | unary operator operand ty ih =>
      exact congrArg (unary operator · ty)
        (ih fun symbol occurs => atSteps symbol (by simpa using occurs))
  | binary operator left right ty ihLeft ihRight =>
      simp only [mem_symbols_binary] at atSteps
      exact congrArg₂ (binary operator · · ty) (ihLeft fun symbol occurs => atSteps symbol (.inl occurs))
        (ihRight fun symbol occurs => atSteps symbol (.inr occurs))
  | ternary operator first second third ty ihFirst ihSecond ihThird =>
      simp only [mem_symbols_ternary] at atSteps
      rw [moved_ternary, ← ihFirst fun symbol occurs => atSteps symbol (.inl occurs),
        ← ihSecond fun symbol occurs => atSteps symbol (.inr (.inl occurs)),
        ← ihThird fun symbol occurs => atSteps symbol (.inr (.inr occurs))]
      rfl
  | nary operator operands ty ih =>
      simp only [mem_symbols_nary] at atSteps
      show nary operator (replaceAllBottomUp _ operands) ty = _
      rw [moved_nary, replaceAllBottomUp_eq_map]
      refine congrArg (nary operator · ty) (List.map_congr_left fun operand member => ?_)
      exact ih operand member fun symbol occurs => atSteps symbol ⟨operand, member, occurs⟩

end Expr

end AbstractionRefinement
