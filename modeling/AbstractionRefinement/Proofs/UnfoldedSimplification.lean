import AbstractionRefinement.Proofs.FormulaSimplification

/-!
# Simplification before unfolding

Unfolding makes the next-state values of a formula values at later time steps, so an
unfolded formula is evaluated along a timeline.  Simplification substitutes assigned
symbols under primes, too.  Hence it commutes with unfolding where an assigned variable
keeps its value at the later steps that the formula reads it at, and not in general: a
formula about the next-state value of an assigned variable changes its meaning.
-/

namespace AbstractionRefinement

/-- The timeline of the time steps after the offsets of the variables. -/
def Timeline.unfolding (indexing : Indexing) (assignment : Symbol → Option Value) :
    Timeline Nat where
  next primes := some (primes + 1)
  values primes symbol :=
    match symbol.index with
    | none => assignment ⟨symbol.decl, some (indexing.get symbol.decl + primes)⟩
    | some _ => assignment symbol

namespace Expr

variable {indexing : Indexing} {assignment assignment' : Symbol → Option Value}

/-- An unfolded formula has the value of the formula along the time steps. -/
theorem eval_unfoldUnder (formula : Expr) (primes : Nat) :
    (formula.unfoldUnder indexing primes).eval assignment =
      formula.evalIn (.unfolding indexing assignment) primes := by
  induction formula generalizing primes with
  | lit value => rfl
  | sym symbol => obtain ⟨decl, _ | step⟩ := symbol <;> rfl
  | unary operator operand ty ih =>
      cases operator with
      | prime => exact ih (primes + 1)
      | _ => exact congrArg _ (ih primes)
  | binary operator left right ty ihLeft ihRight =>
      rw [unfoldUnder, eval, evalIn, ihLeft, ihRight]
  | ternary operator first second third ty ihFirst ihSecond ihThird =>
      rw [unfoldUnder, eval, evalIn, ihFirst, ihSecond, ihThird]
  | nary operator operands ty ih =>
      rw [unfoldUnder, eval, evalIn, unfoldAllUnder_eq_map, evalAll_eq_map, evalAllIn_eq_map,
        List.map_map]
      exact congrArg _ (List.map_congr_left fun operand member => ih operand member primes)

/-- An unfolded formula reads an assigned variable only where it has its assigned value. -/
theorem respects_unfolding {formula : Expr}
    (unindexed : ∀ symbol ∈ formula.symbols, symbol.index = none) {primes : Nat}
    (agrees : ∀ symbol ∈ (formula.unfoldUnder indexing primes).symbols,
      StaysKnown (assignment ⟨symbol.decl, none⟩) (assignment' symbol)) :
    formula.Respects (.unfolding indexing assignment') assignment primes := by
  induction formula generalizing primes with
  | lit value => trivial
  | sym symbol =>
      obtain ⟨decl, index⟩ := symbol
      obtain rfl : index = none := unindexed _ (mem_symbols_sym.mpr rfl)
      exact agrees ⟨decl, some (indexing.get decl + primes)⟩ (mem_symbols_sym.mpr rfl)
  | unary operator operand ty ih =>
      cases operator with
      | prime =>
          rintro later ⟨⟩
          exact ih unindexed agrees
      | _ => exact ih unindexed agrees
  | binary operator left right ty ihLeft ihRight =>
      simp only [unfoldUnder, mem_symbols_binary] at unindexed agrees
      exact ⟨ihLeft (fun symbol occurs => unindexed symbol (.inl occurs))
          fun symbol occurs => agrees symbol (.inl occurs),
        ihRight (fun symbol occurs => unindexed symbol (.inr occurs))
          fun symbol occurs => agrees symbol (.inr occurs)⟩
  | ternary operator first second third ty ihFirst ihSecond ihThird =>
      simp only [unfoldUnder, mem_symbols_ternary] at unindexed agrees
      exact ⟨ihFirst (fun symbol occurs => unindexed symbol (.inl occurs))
          fun symbol occurs => agrees symbol (.inl occurs),
        ihSecond (fun symbol occurs => unindexed symbol (.inr (.inl occurs)))
          fun symbol occurs => agrees symbol (.inr (.inl occurs)),
        ihThird (fun symbol occurs => unindexed symbol (.inr (.inr occurs)))
          fun symbol occurs => agrees symbol (.inr (.inr occurs))⟩
  | nary operator operands ty ih =>
      simp only [unfoldUnder, unfoldAllUnder_eq_map, mem_symbols_nary, List.mem_map,
        exists_exists_and_eq_and] at unindexed agrees
      exact allRespect_iff.mpr fun operand member =>
        ih operand member (fun symbol occurs => unindexed symbol ⟨operand, member, occurs⟩)
          fun symbol occurs => agrees symbol ⟨operand, member, occurs⟩

/-- A formula may be simplified under the current values of some variables before it is
unfolded, if each of them keeps its value at the later steps the formula reads it at. -/
theorem WellTyped.eval_unfold_simplify {formula : Expr} (wellTyped : formula.WellTyped)
    (unindexed : formula.isIndexed = false) {valuation : Valuation} (typed : valuation.Typed)
    {world : Valuation} (typed' : world.WellTyped) (indexing : Indexing)
    (current : ∀ decl value, valuation.getVar? decl = some value →
      world.get? ⟨decl, some (indexing.get decl)⟩ = some value)
    (steady : ∀ symbol ∈ (formula.unfold indexing).symbols,
      symbol.index ≠ some (indexing.get symbol.decl) →
        ∀ value, valuation.getVar? symbol.decl = some value → world.get? symbol = some value) :
    ((formula.simplify valuation.get?).unfold indexing).eval world.get? =
      (formula.unfold indexing).eval world.get? := by
  have preserves : Preserves (.unfolding indexing world.get?) valuation.get? formula
      (formula.simplify valuation.get?) := by
    refine wellTyped.preserves_simplify typed.wellTyped.optionHasType fun primes symbol => ?_
    obtain ⟨decl, _ | step⟩ := symbol
    · exact typed'.optionHasType ⟨decl, some (indexing.get decl + primes)⟩
    · exact typed'.optionHasType ⟨decl, some step⟩
  rw [unfold, unfold, eval_unfoldUnder, eval_unfoldUnder]
  refine preserves.evalIn (respects_unfolding (fun symbol => index_eq_none unindexed)
    fun symbol occurs value assigned => ?_)
  by_cases atOffset : symbol.index = some (indexing.get symbol.decl)
  · obtain ⟨decl, index⟩ := symbol
    obtain rfl : index = some (indexing.get decl) := atOffset
    exact current decl value assigned
  · exact steady symbol occurs atOffset value assigned

def levelFollows : Expr :=
  let amount : VarDecl := ⟨"amount", .int⟩
  let level : VarDecl := ⟨"level", .int⟩
  nary .and
    [binary .leq amount.toExpr (ofInt 1) .bool, binary .eq level.primed amount.toExpr .bool] .bool

/-- A current amount may be substituted in a formula about the next level. -/
theorem levelFollows_simplified :
    let amount : VarDecl := ⟨"amount", .int⟩
    let level : VarDecl := ⟨"level", .int⟩
    let valuation : Valuation := ⟨[(⟨amount, none⟩, .int 1)]⟩
    let world : Valuation := ⟨[(⟨amount, some 3⟩, .int 1), (⟨level, some 4⟩, .int 1)]⟩
    ((levelFollows.simplify valuation.get?).unfold (.constant 3)).eval world.get? =
      (levelFollows.unfold (.constant 3)).eval world.get? := by
  intro amount level valuation world
  have fits : FitsInt64 1 := by decide
  have wellTyped : levelFollows.WellTyped :=
    ⟨⟨rfl, by decide⟩, ⟨⟨rfl, rfl, rfl⟩, trivial, fits⟩, ⟨⟨rfl, rfl⟩, ⟨rfl, trivial⟩, trivial⟩,
      trivial⟩
  have typed : valuation.Typed := by
    rintro entry (_ | ⟨_, ⟨⟩⟩)
    exact ⟨rfl, fits⟩
  have typed' : world.WellTyped := by
    rintro entry (_ | ⟨_, _ | ⟨_, ⟨⟩⟩⟩)
    · exact fits
    · exact fits
  have assigned {decl : VarDecl} {value : Value} (found : valuation.getVar? decl = some value) :
      decl = amount ∧ value = .int 1 := by
    simpa [valuation] using OrderedMap.mem_of_find? found
  have occurring : (levelFollows.unfold (.constant 3)).symbols =
      [⟨amount, some 3⟩, ⟨level, some 4⟩] := by decide +kernel
  refine wellTyped.eval_unfold_simplify (by decide +kernel) typed typed' _
    (fun decl value found => ?_) fun symbol occurs later value found => ?_
  · obtain ⟨rfl, rfl⟩ := assigned found
    decide +kernel
  · obtain ⟨isAmount, -⟩ := assigned found
    rw [occurring, List.mem_cons, List.mem_singleton] at occurs
    rcases occurs with rfl | rfl
    · exact absurd rfl later
    · exact absurd isAmount (show level ≠ amount by decide)

/-- Under a prime the current value of a variable replaces its next-state value: where the
amount is one and becomes two, the formula that says so is false once it is simplified
under the current amount. -/
theorem next_value_simplified_wrongly : ¬ ∀ (formula : Expr) (valuation world : Valuation)
    (indexing : Indexing), formula.WellTyped → formula.isIndexed = false → valuation.Typed →
      world.WellTyped → (∀ decl value, valuation.getVar? decl = some value →
        world.get? ⟨decl, some (indexing.get decl)⟩ = some value) →
      ((formula.simplify valuation.get?).unfold indexing).eval world.get? =
        (formula.unfold indexing).eval world.get? := by
  intro claimed
  let amount : VarDecl := ⟨"amount", .int⟩
  let formula := binary .eq amount.primed (ofInt 2) .bool
  let valuation : Valuation := ⟨[(⟨amount, none⟩, .int 1)]⟩
  let world : Valuation := ⟨[(⟨amount, some 0⟩, .int 1), (⟨amount, some 1⟩, .int 2)]⟩
  have fits : FitsInt64 1 ∧ FitsInt64 2 := by decide
  have wellTyped : formula.WellTyped := ⟨⟨rfl, rfl⟩, ⟨rfl, trivial⟩, fits.2⟩
  have typed : valuation.Typed := by
    rintro entry (_ | ⟨_, ⟨⟩⟩)
    exact ⟨rfl, fits.1⟩
  have typed' : world.WellTyped := by
    rintro entry (_ | ⟨_, _ | ⟨_, ⟨⟩⟩⟩)
    · exact fits.1
    · exact fits.2
  have same := claimed formula valuation world (.constant 0) wellTyped (by decide +kernel) typed
    typed' (by
      intro decl value found
      obtain ⟨rfl, rfl⟩ : decl = amount ∧ value = .int 1 := by
        simpa [valuation] using OrderedMap.mem_of_find? found
      decide +kernel)
  revert same
  decide +kernel

end Expr

end AbstractionRefinement
