import AbstractionRefinement.Proofs.StatementExecutions
import AbstractionRefinement.Proofs.TimeShifts

/-!
# Single assignment

The formula of a sequence of statements names every value a variable takes by a version
of the variable.  This file unfolds such formulas: a formula over current values becomes
the same formula at the versions reached so far, whether its variables were primed or
moved to time steps.  The values of all versions then describe an execution of the
statements, and every execution is described by such values.
-/

namespace AbstractionRefinement

/-- The store in which every variable has the value of its version. -/
def storeAt (values : Symbol → Value) (versions : VarDecl → Nat) : Store :=
  fun decl => values ⟨decl, some (versions decl)⟩

namespace Indexing

open OrderedMap

variable {indexing first second : Indexing}

theorem get_withOffset (decl other : VarDecl) (step : Nat) :
    (indexing.withOffset decl step).get other = if other = decl then step else indexing.get other := by
  simp only [get, withOffset, find?_insert]
  split <;> rfl

theorem get_increment (decl : VarDecl) :
    (indexing.increment decl).get = Function.update indexing.get decl (indexing.get decl + 1) := by
  funext other
  rw [increment, get_withOffset, Function.update_apply]

@[simp]
theorem get_constant (step : Nat) (decl : VarDecl) : (constant step).get decl = step :=
  rfl

/-- A listed variable is at the step it was given, any other one at its old step. -/
theorem get_foldl_withOffset (steps : VarDecl → Nat) (offsets : List (VarDecl × Nat))
    (decl : VarDecl) :
    (offsets.foldl (fun total offset => total.withOffset offset.1 (steps offset.1))
        indexing).get decl =
      if decl ∈ offsets.map Prod.fst then steps decl else indexing.get decl := by
  induction offsets generalizing indexing with
  | nil => rfl
  | cons offset offsets ih =>
      rw [List.foldl_cons, ih, get_withOffset, List.map_cons]
      by_cases later : decl ∈ offsets.map Prod.fst
      · rw [if_pos later, if_pos (List.mem_cons_of_mem _ later)]
      · rw [if_neg later]
        by_cases same : decl = offset.1
        · rw [if_pos same, if_pos (same ▸ List.mem_cons_self), same]
        · rw [if_neg same, if_neg (by simp [same, later])]

theorem get_of_not_listed {decl : VarDecl} (absent : decl ∉ indexing.offsets.map Prod.fst) :
    indexing.get decl = indexing.default := by
  unfold get
  cases found : find? decl indexing.offsets with
  | none => rfl
  | some step =>
      exact absurd (List.mem_map_of_mem (mem_of_find? found)) absent

theorem get_add (decl : VarDecl) : (first.add second).get decl = first.get decl + second.get decl := by
  unfold add
  rw [get_foldl_withOffset fun decl => first.get decl + second.get decl]
  split
  case isTrue => rfl
  case isFalse absent =>
    rw [List.map_append, List.mem_append, not_or] at absent
    rw [get_of_not_listed absent.1, get_of_not_listed absent.2, get_constant]

end Indexing

namespace Expr

def atVersions (versions : VarDecl → Nat) (formula : Expr) : Expr :=
  formula.replaceBottomUp fun
    | sym ⟨decl, none⟩ => some (decl.atStep (versions decl))
    | _ => none

/-- The formula speaks about current values only. -/
structure IsCurrent (formula : Expr) : Prop where
  unprimed : formula.hasPrime = false
  unindexed : formula.isIndexed = false

section Constructors

variable {versions : VarDecl → Nat}

@[simp]
theorem atVersions_lit (value : Value) : (lit value).atVersions versions = lit value :=
  rfl

@[simp]
theorem atVersions_sym (decl : VarDecl) :
    (sym ⟨decl, none⟩).atVersions versions = sym ⟨decl, some (versions decl)⟩ :=
  rfl

@[simp]
theorem atVersions_sym_some (decl : VarDecl) (step : Nat) :
    (sym ⟨decl, some step⟩).atVersions versions = sym ⟨decl, some step⟩ :=
  rfl

@[simp]
theorem atVersions_unary (operator : UnaryOperator) (operand : Expr) (ty : Ty) :
    (unary operator operand ty).atVersions versions =
      unary operator (operand.atVersions versions) ty :=
  rfl

@[simp]
theorem atVersions_binary (operator : BinaryOperator) (left right : Expr) (ty : Ty) :
    (binary operator left right ty).atVersions versions =
      binary operator (left.atVersions versions) (right.atVersions versions) ty :=
  rfl

@[simp]
theorem atVersions_ternary (operator : TernaryOperator) (first second third : Expr) (ty : Ty) :
    (ternary operator first second third ty).atVersions versions =
      ternary operator (first.atVersions versions) (second.atVersions versions)
        (third.atVersions versions) ty :=
  rfl

@[simp]
theorem atVersions_nary (operator : NaryOperator) (operands : List Expr) (ty : Ty) :
    (nary operator operands ty).atVersions versions =
      nary operator (operands.map (atVersions versions)) ty := by
  show nary operator (replaceAllBottomUp _ operands) ty = _
  rw [replaceAllBottomUp_eq_map]
  rfl

end Constructors

@[simp]
theorem ty_primedVariable (decl : VarDecl) (count : Nat) :
    (primedVariable decl count).ty = decl.ty := by
  cases count <;> rfl

theorem unfoldUnder_primedVariable (indexing : Indexing) (primes : Nat) (decl : VarDecl)
    (count : Nat) : (primedVariable decl count).unfoldUnder indexing primes =
      decl.atStep (indexing.get decl + primes + count) := by
  induction count generalizing primes with
  | zero => rfl
  | succ count ih =>
      show (primedVariable decl count).unfoldUnder indexing (primes + 1) = _
      rw [ih, Nat.add_assoc, Nat.add_assoc, Nat.add_assoc, Nat.add_comm 1]

/-- A formula over current values, shifted over assignments and then unfolded, is the
formula at the sums of both. -/
theorem unfoldUnder_shift {formula : Expr} (unprimed : formula.hasPrime = false)
    (indexing offsets : Indexing) (primes : Nat) :
    (formula.shift offsets).unfoldUnder indexing primes =
      formula.atVersions fun decl => indexing.get decl + primes + offsets.get decl := by
  induction formula with
  | lit value => rfl
  | sym symbol =>
      obtain ⟨decl, _ | step⟩ := symbol
      · exact unfoldUnder_primedVariable indexing primes decl (offsets.get decl)
      · rfl
  | unary operator operand ty ih =>
      simp only [hasPrime, Bool.or_eq_false_iff, decide_eq_false_iff_not] at unprimed
      rw [atVersions_unary, ← ih unprimed.2]
      cases operator with
      | prime => exact absurd rfl unprimed.1
      | _ => rfl
  | binary operator left right ty ihLeft ihRight =>
      simp only [hasPrime, Bool.or_eq_false_iff] at unprimed
      rw [atVersions_binary, ← ihLeft unprimed.1, ← ihRight unprimed.2]
      rfl
  | ternary operator first second third ty ihFirst ihSecond ihThird =>
      simp only [hasPrime, Bool.or_eq_false_iff] at unprimed
      rw [atVersions_ternary, ← ihFirst unprimed.1.1, ← ihSecond unprimed.1.2,
        ← ihThird unprimed.2]
      rfl
  | nary operator operands ty ih =>
      simp only [hasPrime, hasPrimeAny_eq_any, List.any_eq_false, Bool.not_eq_true] at unprimed
      show nary operator (unfoldAllUnder indexing primes (replaceAllBottomUp _ operands)) ty = _
      rw [atVersions_nary, unfoldAllUnder_eq_map, replaceAllBottomUp_eq_map, List.map_map]
      congr 1
      apply List.map_congr_left
      exact fun operand member => ih operand member (unprimed operand member)

@[simp]
theorem ty_shift (offsets : Indexing) (formula : Expr) : (formula.shift offsets).ty = formula.ty := by
  cases formula with
  | sym symbol =>
      obtain ⟨decl, _ | step⟩ := symbol
      · exact ty_primedVariable decl (offsets.get decl)
      · rfl
  | _ => rfl

theorem shift_constant_zero (formula : Expr) : formula.shift (.constant 0) = formula := by
  induction formula with
  | lit value => rfl
  | sym symbol => obtain ⟨decl, _ | step⟩ := symbol <;> rfl
  | unary operator operand ty ih =>
      show unary operator (operand.shift _) ty = _
      rw [ih]
  | binary operator left right ty ihLeft ihRight =>
      show binary operator (left.shift _) (right.shift _) ty = _
      rw [ihLeft, ihRight]
  | ternary operator first second third ty ihFirst ihSecond ihThird =>
      show ternary operator (first.shift _) (second.shift _) (third.shift _) ty = _
      rw [ihFirst, ihSecond, ihThird]
  | nary operator operands ty ih =>
      show nary operator (replaceAllBottomUp _ operands) ty = _
      rw [replaceAllBottomUp_eq_map]
      exact congrArg (nary operator · ty) ((List.map_congr_left ih).trans (List.map_id' operands))

@[simp]
theorem mem_symbols_primedVariable {decl : VarDecl} {count : Nat} {symbol : Symbol} :
    symbol ∈ (primedVariable decl count).symbols ↔ symbol = ⟨decl, none⟩ := by
  induction count with
  | zero => exact mem_symbols_sym
  | succ count ih => exact mem_symbols_unary.trans ih

/-- Shifting a formula keeps its symbols. -/
theorem mem_symbols_of_shift {formula : Expr} {offsets : Indexing} {symbol : Symbol}
    (occurs : symbol ∈ (formula.shift offsets).symbols) : symbol ∈ formula.symbols := by
  induction formula with
  | lit value => exact occurs
  | sym other =>
      obtain ⟨decl, _ | step⟩ := other
      · exact mem_symbols_sym.mpr (mem_symbols_primedVariable.mp occurs)
      · exact occurs
  | unary operator operand ty ih =>
      exact mem_symbols_unary.mpr (ih (mem_symbols_unary.mp occurs))
  | binary operator left right ty ihLeft ihRight =>
      exact mem_symbols_binary.mpr ((mem_symbols_binary.mp occurs).imp ihLeft ihRight)
  | ternary operator first second third ty ihFirst ihSecond ihThird =>
      exact mem_symbols_ternary.mpr
        ((mem_symbols_ternary.mp occurs).imp ihFirst (Or.imp ihSecond ihThird))
  | nary operator operands ty ih =>
      change symbol ∈ (nary operator (replaceAllBottomUp _ operands) ty).symbols at occurs
      rw [replaceAllBottomUp_eq_map, mem_symbols_nary] at occurs
      obtain ⟨_, mapped, inside⟩ := occurs
      obtain ⟨operand, member, rfl⟩ := List.mem_map.mp mapped
      exact mem_symbols_nary.mpr ⟨operand, member, ih operand member inside⟩

/-- Moving a formula to time steps keeps its variables, and all of them are at time steps. -/
theorem exists_of_mem_symbols_unfoldUnder {formula : Expr} {indexing : Indexing} {primes : Nat}
    {symbol : Symbol} (occurs : symbol ∈ (formula.unfoldUnder indexing primes).symbols) :
    ∃ other ∈ formula.symbols, symbol.decl = other.decl ∧ symbol.index.isSome := by
  induction formula generalizing primes with
  | lit value => exact absurd occurs mem_symbols_lit
  | sym other =>
      obtain ⟨decl, _ | step⟩ := other <;>
      · rw [mem_symbols_sym.mp occurs]
        exact ⟨_, mem_symbols_sym.mpr rfl, rfl, rfl⟩
  | unary operator operand ty ih => cases operator <;> exact ih occurs
  | binary operator left right ty ihLeft ihRight =>
      rcases mem_symbols_binary.mp occurs with occurs | occurs
      · obtain ⟨other, member, same⟩ := ihLeft occurs
        exact ⟨other, mem_symbols_binary.mpr (.inl member), same⟩
      · obtain ⟨other, member, same⟩ := ihRight occurs
        exact ⟨other, mem_symbols_binary.mpr (.inr member), same⟩
  | ternary operator first second third ty ihFirst ihSecond ihThird =>
      rcases mem_symbols_ternary.mp occurs with occurs | occurs | occurs
      · obtain ⟨other, member, same⟩ := ihFirst occurs
        exact ⟨other, mem_symbols_ternary.mpr (.inl member), same⟩
      · obtain ⟨other, member, same⟩ := ihSecond occurs
        exact ⟨other, mem_symbols_ternary.mpr (.inr (.inl member)), same⟩
      · obtain ⟨other, member, same⟩ := ihThird occurs
        exact ⟨other, mem_symbols_ternary.mpr (.inr (.inr member)), same⟩
  | nary operator operands ty ih =>
      rw [unfoldUnder, mem_symbols_nary, unfoldAllUnder_eq_map] at occurs
      obtain ⟨_, mapped, occurs⟩ := occurs
      obtain ⟨operand, member, rfl⟩ := List.mem_map.mp mapped
      obtain ⟨other, isOther, same⟩ := ih operand member occurs
      exact ⟨other, mem_symbols_nary.mpr ⟨operand, member, isOther⟩, same⟩

theorem unfold_eq_atVersions {formula : Expr} (unprimed : formula.hasPrime = false)
    (indexing : Indexing) : formula.unfold indexing = formula.atVersions indexing.get := by
  have unfolded := unfoldUnder_shift unprimed indexing (.constant 0) 0
  rwa [shift_constant_zero] at unfolded

variable (versions : VarDecl → Nat)

theorem atVersions_eq_moved (formula : Expr) : formula.atVersions versions =
    formula.moved fun symbol => some (symbol.index.getD (versions symbol.decl)) := by
  induction formula with
  | lit value => rfl
  | sym symbol => obtain ⟨decl, _ | step⟩ := symbol <;> rfl
  | unary operator operand ty ih => rw [atVersions_unary, ih, moved_unary]
  | binary operator left right ty ihLeft ihRight =>
      rw [atVersions_binary, ihLeft, ihRight, moved_binary]
  | ternary operator first second third ty ihFirst ihSecond ihThird =>
      rw [atVersions_ternary, ihFirst, ihSecond, ihThird, moved_ternary]
  | nary operator operands ty ih =>
      rw [atVersions_nary, moved_nary, List.map_congr_left ih]

@[simp]
theorem ty_atVersions (formula : Expr) : (formula.atVersions versions).ty = formula.ty := by
  rw [atVersions_eq_moved, ty_moved]

theorem WellTyped.atVersions {formula : Expr} (wellTyped : formula.WellTyped) :
    (formula.atVersions versions).WellTyped := by
  rw [atVersions_eq_moved]
  exact wellTyped.moved

@[simp]
theorem choosesTruth_atVersions (formula : Expr) :
    (formula.atVersions versions).choosesTruth = formula.choosesTruth := by
  rw [atVersions_eq_moved, choosesTruth_moved]

theorem Encodable.atVersions {formula : Expr} (encodable : formula.Encodable) :
    (formula.atVersions versions).Encodable := by
  rw [atVersions_eq_moved]
  exact encodable.moved

theorem eval_atVersions (values : Symbol → Value) {formula : Expr}
    (unindexed : ∀ symbol ∈ formula.symbols, symbol.index = none) :
    (formula.atVersions versions).eval (fun symbol => some (values symbol)) =
      formula.eval (storeAt values versions).read := by
  rw [atVersions_eq_moved, eval_moved]
  refine eval_congr fun symbol occurs => ?_
  obtain ⟨decl, index⟩ := symbol
  obtain rfl : index = none := unindexed _ occurs
  rfl

theorem exists_of_mem_symbols_atVersions {formula : Expr} {symbol : Symbol}
    (occurs : symbol ∈ (formula.atVersions versions).symbols) :
    ∃ other ∈ formula.symbols, symbol.decl = other.decl ∧
      (other.index = none → symbol.index = some (versions symbol.decl)) := by
  rw [atVersions_eq_moved, mem_symbols_moved] at occurs
  obtain ⟨⟨decl, index⟩, member, rfl⟩ := occurs
  refine ⟨_, member, rfl, ?_⟩
  rintro rfl
  rfl

end Expr

def written (versions : VarDecl → Nat) (target : VarDecl) : VarDecl → Nat :=
  Function.update versions target (versions target + 1)

@[simp]
theorem written_self (versions : VarDecl → Nat) (target : VarDecl) :
    written versions target target = versions target + 1 :=
  Function.update_self ..

theorem written_of_ne {versions : VarDecl → Nat} {target decl : VarDecl} (differ : decl ≠ target) :
    written versions target decl = versions decl :=
  Function.update_of_ne differ ..

theorem storeAt_written (values : Symbol → Value) (versions : VarDecl → Nat) (target : VarDecl) :
    storeAt values (written versions target) =
      (storeAt values versions).write target (values ⟨target, some (versions target + 1)⟩) := by
  funext decl
  by_cases same : decl = target
  · subst same
    simp [storeAt]
  · simp [storeAt, written_of_ne same, Store.write_of_ne _ same]

def versionsAfter (versions : VarDecl → Nat) : List Statement → VarDecl → Nat
  | [] => versions
  | .assign target _ :: statements | .havoc target :: statements =>
      versionsAfter (written versions target) statements
  | .assume _ :: statements | .clockGuard _ :: statements | .clockReset .. :: statements =>
      versionsAfter versions statements

theorem versionsAfter_append (versions : VarDecl → Nat) (first second : List Statement) :
    versionsAfter versions (first ++ second) =
      versionsAfter (versionsAfter versions first) second := by
  induction first generalizing versions with
  | nil => rfl
  | cons statement statements ih => cases statement <;> exact ih _

theorem le_versionsAfter (versions : VarDecl → Nat) (statements : List Statement)
    (decl : VarDecl) : versions decl ≤ versionsAfter versions statements decl := by
  have le_written (versions : VarDecl → Nat) (target : VarDecl) :
      versions decl ≤ written versions target decl := by
    by_cases same : decl = target
    · subst same
      rw [written_self]
      omega
    · rw [written_of_ne same]
  induction statements generalizing versions with
  | nil => exact Nat.le_refl _
  | cons statement statements ih =>
      cases statement with
      | assign target _ => exact Nat.le_trans (le_written versions target) (ih _)
      | havoc target => exact Nat.le_trans (le_written versions target) (ih _)
      | _ => exact ih _

/-- The values of the versions from the given ones on describe an execution of the
statements. -/
def Describes (values : Symbol → Value) (versions : VarDecl → Nat) : List Statement → Prop
  | [] => True
  | .assume condition :: statements =>
      condition.Holds (storeAt values versions) ∧ Describes values versions statements
  | .assign target value :: statements =>
      value.eval (storeAt values versions).read =
          some (values ⟨target, some (versions target + 1)⟩) ∧
        Describes values (written versions target) statements
  | .havoc target :: statements => Describes values (written versions target) statements
  | .clockGuard _ :: statements | .clockReset .. :: statements =>
      Describes values versions statements

theorem describes_append {values : Symbol → Value} {versions : VarDecl → Nat}
    (first second : List Statement) : Describes values versions (first ++ second) ↔
      Describes values versions first ∧
        Describes values (versionsAfter versions first) second := by
  induction first generalizing versions with
  | nil => simp [Describes, versionsAfter]
  | cons statement statements ih =>
      cases statement <;>
        simp only [List.cons_append, Describes, versionsAfter, ih, and_assoc]

/-- Earlier versions do not matter. -/
theorem Describes.congr {values values' : Symbol → Value} {versions : VarDecl → Nat}
    {statements : List Statement}
    (same : ∀ decl step, versions decl ≤ step →
      values ⟨decl, some step⟩ = values' ⟨decl, some step⟩)
    (describes : Describes values versions statements) :
    Describes values' versions statements := by
  have later (versions : VarDecl → Nat) (target : VarDecl)
      (same : ∀ decl step, versions decl ≤ step →
        values ⟨decl, some step⟩ = values' ⟨decl, some step⟩) :
      ∀ decl step, written versions target decl ≤ step →
        values ⟨decl, some step⟩ = values' ⟨decl, some step⟩ := by
    intro decl step le
    apply same
    by_cases equal : decl = target
    · subst equal
      rw [written_self] at le
      omega
    · rwa [written_of_ne equal] at le
  have sameStore {versions : VarDecl → Nat} (same : ∀ decl step, versions decl ≤ step →
      values ⟨decl, some step⟩ = values' ⟨decl, some step⟩) :
      storeAt values' versions = storeAt values versions :=
    funext fun decl => (same decl _ (Nat.le_refl _)).symm
  induction statements generalizing versions with
  | nil => trivial
  | cons statement statements ih =>
      cases statement with
      | assume condition =>
          exact ⟨by rw [sameStore same]; exact describes.1, ih same describes.2⟩
      | assign target value =>
          refine ⟨?_, ih (later _ target same) describes.2⟩
          rw [sameStore same, describes.1, same target _ (Nat.le_succ _)]
      | havoc target => exact ih (later _ target same) describes
      | clockGuard _ => exact ih same describes
      | clockReset _ _ => exact ih same describes

/-- Every value is one the configuration admits for its variable. -/
def SolverConfig.InRange (config : SolverConfig) (store : Store) : Prop :=
  ∀ decl, config.Admits decl (store decl)

section Executions

variable {domain : VarDecl → Value → Prop} {versions : VarDecl → Nat} {statements : List Statement}

/-- The described execution. -/
theorem Describes.executesOver {values : Symbol → Value}
    (admitted : ∀ symbol, domain symbol.decl (values symbol))
    (describes : Describes values versions statements) :
    ExecutesOver domain statements (storeAt values versions)
      (storeAt values (versionsAfter versions statements)) := by
  have within (versions : VarDecl → Nat) : (storeAt values versions).Within domain :=
    fun decl => admitted ⟨decl, some (versions decl)⟩
  induction statements generalizing versions with
  | nil => exact .nil (within versions)
  | cons statement statements ih =>
      cases statement with
      | assume condition => exact .cons (within versions) (.assume describes.1) (ih describes.2)
      | assign target value =>
          refine .cons (within versions) (.assign describes.1) ?_
          rw [← storeAt_written]
          exact ih describes.2
      | havoc target =>
          refine .cons (within versions)
            (.havoc _ (admitted ⟨target, some (versions target + 1)⟩)) ?_
          rw [← storeAt_written]
          exact ih describes
      | clockGuard _ => exact .cons (within versions) .clockGuard (ih describes)
      | clockReset _ _ => exact .cons (within versions) .clockReset (ih describes)

/-- Versions for what follows a write give versions for the write and what follows it:
only the overwritten value has to be added. -/
theorem exists_describes_written {store final : Store} {target : VarDecl} {result : Value}
    (within : store.Within domain)
    (later : ∃ values, (∀ symbol, domain symbol.decl (values symbol)) ∧
      storeAt values (written versions target) = store.write target result ∧
      storeAt values (versionsAfter (written versions target) statements) = final ∧
      Describes values (written versions target) statements) :
    ∃ values, (∀ symbol, domain symbol.decl (values symbol)) ∧
      storeAt values versions = store ∧ values ⟨target, some (versions target + 1)⟩ = result ∧
      storeAt values (versionsAfter (written versions target) statements) = final ∧
      Describes values (written versions target) statements := by
  obtain ⟨values, admitted, sameStore, sameFinal, describes⟩ := later
  let overwritten : Symbol := ⟨target, some (versions target)⟩
  have untouched {decl : VarDecl} {step : Nat} (le : written versions target decl ≤ step) :
      Function.update values overwritten (store target) ⟨decl, some step⟩ =
        values ⟨decl, some step⟩ := by
    apply Function.update_of_ne
    intro same
    obtain ⟨rfl, sameStep⟩ := Symbol.mk.inj same
    obtain rfl := Option.some.inj sameStep
    rw [written_self] at le
    omega
  refine ⟨Function.update values overwritten (store target), ?_, ?_, ?_, ?_, ?_⟩
  · intro symbol
    rw [Function.update_apply]
    split
    case isTrue same => exact same ▸ within target
    case isFalse => exact admitted symbol
  · funext decl
    by_cases same : decl = target
    · subst same
      exact Function.update_self ..
    · have value := congrFun sameStore decl
      rw [storeAt, written_of_ne same, Store.write_of_ne _ same] at value
      rw [storeAt, Function.update_of_ne (fun equal => same (Symbol.mk.inj equal).1), value]
  · have value := congrFun sameStore target
    rw [storeAt, written_self, Store.write_self] at value
    rw [untouched (by simp), value]
  · rw [← sameFinal]
    exact funext fun decl => untouched (le_versionsAfter _ _ decl)
  · exact describes.congr fun decl step le => (untouched le).symm

/-- Every execution is described by some values. -/
theorem ExecutesOver.exists_describes {store final : Store}
    (executes : ExecutesOver domain statements store final) (versions : VarDecl → Nat) :
    ∃ values, (∀ symbol, domain symbol.decl (values symbol)) ∧
      storeAt values versions = store ∧
      storeAt values (versionsAfter versions statements) = final ∧
      Describes values versions statements := by
  induction executes generalizing versions with
  | @nil store within =>
      exact ⟨fun symbol => store symbol.decl, fun _ => within _, rfl, rfl, trivial⟩
  | @cons statement statements store middle final within runs rest ih =>
      cases runs with
      | assume holds =>
          obtain ⟨values, admitted, sameStore, sameFinal, describes⟩ := ih versions
          exact ⟨values, admitted, sameStore, sameFinal, sameStore.symm ▸ holds, describes⟩
      | @assign target value _ result evaluates =>
          obtain ⟨values, admitted, sameStore, sameResult, sameFinal, describes⟩ :=
            exists_describes_written within (ih (written versions target))
          refine ⟨values, admitted, sameStore, sameFinal, ?_, describes⟩
          rw [sameStore, sameResult, evaluates]
      | @havoc target _ result admits =>
          obtain ⟨values, admitted, sameStore, -, sameFinal, describes⟩ :=
            exists_describes_written within (ih (written versions target))
          exact ⟨values, admitted, sameStore, sameFinal, describes⟩
      | clockGuard => exact ih versions
      | clockReset => exact ih versions

variable {config : SolverConfig}

theorem Describes.executes {values : Symbol → Value}
    (admitted : ∀ symbol, config.Admits symbol.decl (values symbol))
    (describes : Describes values versions statements) :
    Executes config.InRange statements (storeAt values versions)
      (storeAt values (versionsAfter versions statements)) :=
  (ExecutesOver.executes_iff fun _ _ admits => admits.1).mp (describes.executesOver admitted)

theorem Executes.exists_describes {store final : Store}
    (executes : Executes config.InRange statements store final) (versions : VarDecl → Nat) :
    ∃ values, (∀ symbol, config.Admits symbol.decl (values symbol)) ∧
      storeAt values versions = store ∧
      storeAt values (versionsAfter versions statements) = final ∧
      Describes values versions statements :=
  ((ExecutesOver.executes_iff fun _ _ admits => admits.1).mpr executes).exists_describes versions

end Executions

end AbstractionRefinement
