import AbstractionRefinement.TraceFeasibility
import AbstractionRefinement.Proofs.ComputationLaws
import AbstractionRefinement.Proofs.SingleAssignment

/-!
# Formulas of paths

The formulas of a trace hold under values of all versions exactly when the values
describe an execution of the conditions and statements along the trace.  On admitted
values all of them have truth values, if the formulas they are made of do.
-/

namespace AbstractionRefinement

open AbstractionRefinement.Computation

/-- The assignment of all symbols. -/
abbrev total (values : Symbol → Value) (symbol : Symbol) : Option Value :=
  some (values symbol)

namespace Expr

variable {config : SolverConfig} {formula : Expr}

/-- A formula over current values that is encoded exactly. -/
structure Proper (formula : Expr) : Prop where
  current : formula.IsCurrent
  encodable : formula.Encodable

/-- A condition on stores that is encoded exactly. -/
structure ProperCondition (formula : Expr) : Prop extends formula.Proper where
  boolean : formula.ty = .bool

/-- The formula has a value at every store within the configured intervals. -/
def Defined (config : SolverConfig) (formula : Expr) : Prop :=
  ∀ ⦃store : Store⦄, config.InRange store → (formula.eval store.read).isSome

/-- A condition on stores that is encoded exactly and has a value at every store within
the configured intervals. -/
structure RegularCondition (config : SolverConfig) (formula : Expr) : Prop
    extends formula.ProperCondition where
  defined : formula.Defined config

theorem regularCondition_ofBool (truth : Bool) (config : SolverConfig) :
    (ofBool truth).RegularCondition config where
  current := ⟨rfl, rfl⟩
  encodable := ⟨Value.hasType_bool truth, rfl⟩
  defined _ _ := rfl
  boolean := rfl

/-- A Boolean formula that is encoded exactly and has a truth value at all admitted
values. -/
structure Settled (config : SolverConfig) (formula : Expr) : Prop where
  encodable : formula.Encodable
  boolean : formula.ty = .bool
  decided {values : Symbol → Value} : (∀ symbol, config.Admits symbol.decl (values symbol)) →
    (formula.evalBool (total values)).isSome

namespace IsCurrent

variable (current : formula.IsCurrent)
include current

theorem index_eq_none : ∀ symbol ∈ formula.symbols, symbol.index = none := by
  have unindexed := current.unindexed
  simpa only [isIndexed, List.any_eq_false, Bool.not_eq_true, Option.isSome_eq_false_iff,
    Option.isNone_iff_eq_none] using unindexed

theorem eval_atVersions (values : Symbol → Value) (versions : VarDecl → Nat) :
    (formula.atVersions versions).eval (total values) =
      formula.eval (storeAt values versions).read :=
  Expr.eval_atVersions versions values current.index_eq_none

theorem evalBool_atVersions (values : Symbol → Value) (versions : VarDecl → Nat) :
    (formula.atVersions versions).evalBool (total values) = some true ↔
      formula.Holds (storeAt values versions) := by
  rw [evalBool, current.eval_atVersions, ← evalBool, Holds]

end IsCurrent

theorem Encodable.isSome_evalBool (encodable : formula.Encodable) (boolean : formula.ty = .bool)
    {values : Symbol → Value} (admitted : ∀ symbol, config.Admits symbol.decl (values symbol))
    (defined : (formula.eval (total values)).isSome) :
    (formula.evalBool (total values)).isSome := by
  obtain ⟨value, evaluates⟩ := Option.isSome_iff_exists.mp defined
  have typed : ∀ symbol ∈ formula.symbols, OptionHasType (total values symbol) symbol.ty := by
    rintro symbol - _ ⟨⟩
    exact (admitted symbol).1
  obtain ⟨truth, -, holds⟩ := encodable.wellTyped.exists_bool boolean typed evaluates
  rw [holds]
  rfl

theorem Defined.isSome_atVersions (defined : formula.Defined config)
    (current : formula.IsCurrent) {values : Symbol → Value}
    (admitted : ∀ symbol, config.Admits symbol.decl (values symbol))
    (versions : VarDecl → Nat) :
    ((formula.atVersions versions).eval (total values)).isSome := by
  rw [current.eval_atVersions]
  exact defined fun decl => admitted _

/-- The formula is the conjunction that is built of the operands. -/
inductive IsConjunction : List Expr → Expr → Prop
  | nil : IsConjunction [] top
  | singleton (operand : Expr) : IsConjunction [operand] operand
  | many (operands : List Expr) : IsConjunction operands (nary .and operands .bool)

theorem isConjunction_of_mkAnd {operands : List Expr} (built : mkAnd operands = .ok formula) :
    IsConjunction operands formula := by
  obtain ⟨_, -, built⟩ := exists_of_bind_eq_ok built
  split at built
  · cases built
    exact .nil
  · cases built
    exact .singleton _
  · cases built
    exact .many _

namespace IsConjunction

variable {operands : List Expr}

theorem unfold (isConjunction : IsConjunction operands formula) (indexing : Indexing) :
    IsConjunction (operands.map (Expr.unfold indexing)) (formula.unfold indexing) := by
  cases isConjunction with
  | nil => exact .nil
  | singleton operand => exact .singleton _
  | many operands =>
      show IsConjunction _ (nary .and (unfoldAllUnder indexing 0 operands) .bool)
      rw [unfoldAllUnder_eq_map]
      exact .many _

theorem evalBool_iff (isConjunction : IsConjunction operands formula)
    (assignment : Symbol → Option Value) : formula.evalBool assignment = some true ↔
      ∀ operand ∈ operands, operand.evalBool assignment = some true := by
  cases isConjunction with
  | nil => exact iff_of_true rfl (by simp)
  | singleton operand => simp
  | many operands => simp [evalBool_and, conjunction_eq_true_iff]

theorem plain (isConjunction : IsConjunction operands formula)
    (all : ∀ operand ∈ operands, operand.choosesTruth = false) :
    formula.choosesTruth = false := by
  cases isConjunction with
  | nil => rfl
  | singleton => exact all formula (by simp)
  | many operands =>
      rw [choosesTruth, choosesTruthAny_eq_any, List.any_eq_false]
      intro operand member
      rw [all operand member]
      decide

theorem encodable (isConjunction : IsConjunction operands formula)
    (all : ∀ operand ∈ operands, operand.Encodable)
    (boolean : ∀ operand ∈ operands, operand.ty = .bool) :
    formula.Encodable ∧ formula.ty = .bool := by
  have plain := isConjunction.plain fun operand member => (all operand member).plain
  cases isConjunction with
  | nil => exact ⟨⟨Value.hasType_bool true, plain⟩, rfl⟩
  | singleton => exact ⟨all formula (by simp), boolean formula (by simp)⟩
  | many operands =>
      refine ⟨⟨⟨⟨rfl, List.forall_mem_map.mpr boolean⟩, ?_⟩, plain⟩, rfl⟩
      exact allWellTyped_iff.mpr fun operand member => (all operand member).wellTyped

/-- A conjunction of truth values is one. -/
theorem isSome_evalBool (isConjunction : IsConjunction operands formula)
    {assignment : Symbol → Option Value}
    (all : ∀ operand ∈ operands, (operand.evalBool assignment).isSome) :
    (formula.evalBool assignment).isSome := by
  cases isConjunction with
  | nil => rfl
  | singleton => exact all formula (by simp)
  | many operands =>
      have known : none ∉ operands.map (evalBool assignment) := by
        rw [List.mem_map]
        rintro ⟨operand, member, unknown⟩
        have known := all operand member
        rw [unknown] at known
        cases known
      rw [evalBool_and]
      unfold conjunction
      split
      · rfl
      · rw [if_neg (by rwa [List.contains_iff_mem])]
        rfl

end IsConjunction

end Expr

namespace Statement

/-- The formulas of a statement. -/
def formulas : Statement → List Expr
  | assume condition => [condition]
  | assign _ value => [value]
  | _ => []

/-- A validated statement whose formulas are encoded exactly. -/
structure Proper (statement : Statement) : Prop where
  valid : statement.validate = .ok ()
  encodable {formula : Expr} : formula ∈ statement.formulas → formula.Encodable

/-- The formulas of the statement have values within the configured intervals. -/
def Defined (config : SolverConfig) (statement : Statement) : Prop :=
  ∀ formula ∈ statement.formulas, formula.Defined config

theorem isCurrent_of_expectUnprimed {name : String} {formula : Expr}
    (valid : expectUnprimed name formula = .ok ()) : formula.IsCurrent := by
  unfold expectUnprimed at valid
  split at valid
  case isTrue => cases valid
  case isFalse absent =>
    simp only [Bool.or_eq_true, not_or, Bool.not_eq_true] at absent
    exact ⟨absent.1, absent.2⟩

theorem of_expect {name : String} {formula : Expr} {ty : Ty}
    (valid : (do expectUnprimed name formula; Expr.expectType name formula ty) = .ok ()) :
    formula.IsCurrent ∧ formula.ty = ty := by
  obtain ⟨_, unprimed, typed⟩ := exists_of_bind_eq_ok valid
  refine ⟨isCurrent_of_expectUnprimed unprimed, ?_⟩
  unfold Expr.expectType at typed
  split at typed
  case isTrue same => exact same
  case isFalse => cases typed

theorem proper_assume {condition : Expr} (proper : (assume condition).Proper) :
    condition.ProperCondition :=
  have ⟨current, boolean⟩ := of_expect proper.valid
  { current, boolean
    encodable := proper.encodable (List.mem_singleton_self _) }

theorem proper_assign {target : VarDecl} {value : Expr} (proper : (assign target value).Proper) :
    value.Proper ∧ value.ty = target.ty :=
  have ⟨current, typed⟩ := of_expect proper.valid
  ⟨⟨current, proper.encodable (List.mem_singleton_self _)⟩, typed⟩

end Statement

/-- Formulas over time steps that say what values of versions describe.  Where the
statements have values, the formulas have truth values. -/
structure SpellsOut (versions : VarDecl → Nat) (statements : List Statement)
    (formulas : List Expr) : Prop where
  encodable : ∀ formula ∈ formulas, formula.Encodable
  boolean : ∀ formula ∈ formulas, formula.ty = .bool
  decided {config : SolverConfig} {values : Symbol → Value} :
    (∀ statement ∈ statements, statement.Defined config) →
      (∀ symbol, config.Admits symbol.decl (values symbol)) →
        ∀ formula ∈ formulas, (formula.evalBool (total values)).isSome
  holds (values : Symbol → Value) :
    (∀ formula ∈ formulas, formula.evalBool (total values) = some true) ↔
      Describes values versions statements

theorem SpellsOut.settled {config : SolverConfig} {versions : VarDecl → Nat}
    {statements : List Statement} {formulas : List Expr}
    (spellsOut : SpellsOut versions statements formulas)
    (defined : ∀ statement ∈ statements, statement.Defined config) {formula : Expr}
    (member : formula ∈ formulas) : formula.Settled config where
  encodable := spellsOut.encodable formula member
  boolean := spellsOut.boolean formula member
  decided admitted := spellsOut.decided defined admitted formula member

section Statements

variable {statements : List Statement} {formulas : List Expr} {versions : VarDecl → Nat}

theorem spellsOut_nil (versions : VarDecl → Nat) : SpellsOut versions [] [] where
  encodable := by simp
  boolean := by simp
  decided _ _ := by simp
  holds values := by simp [Describes]

/-- An assumed condition is spelled out at the versions it reads. -/
theorem SpellsOut.assume (spellsOut : SpellsOut versions statements formulas)
    {condition : Expr} (proper : condition.ProperCondition) :
    SpellsOut versions (.assume condition :: statements)
      (condition.atVersions versions :: formulas) where
  encodable := List.forall_mem_cons.mpr
    ⟨proper.encodable.atVersions versions, spellsOut.encodable⟩
  boolean := List.forall_mem_cons.mpr
    ⟨(Expr.ty_atVersions versions condition).trans proper.boolean, spellsOut.boolean⟩
  decided defined admitted := by
    obtain ⟨definedFirst, definedRest⟩ := List.forall_mem_cons.mp defined
    refine List.forall_mem_cons.mpr ⟨?_, spellsOut.decided definedRest admitted⟩
    have definedCondition := definedFirst condition (List.mem_singleton_self _)
    exact (proper.encodable.atVersions versions).isSome_evalBool
      ((Expr.ty_atVersions versions condition).trans proper.boolean) admitted
      (definedCondition.isSome_atVersions proper.current admitted versions)
  holds values := by
    rw [List.forall_mem_cons, spellsOut.holds, proper.current.evalBool_atVersions, Describes]

/-- The equation of a written version and the value it is given. -/
def assignment (versions : VarDecl → Nat) (target : VarDecl) (value : Expr) : Expr :=
  .binary .eq (.sym ⟨target, some (versions target + 1)⟩) (value.atVersions versions) .bool

theorem eval_assignment (values : Symbol → Value) (target : VarDecl) {value : Expr}
    (current : value.IsCurrent) : (assignment versions target value).eval (total values) =
      (value.eval (storeAt values versions).read).map fun result =>
        Value.bool (decide (values ⟨target, some (versions target + 1)⟩ = result)) := by
  rw [← current.eval_atVersions]
  show (do return Value.bool (decide ((← total values _) = (← _)))) = _
  cases (value.atVersions versions).eval (total values) <;> rfl

theorem evalBool_assignment (values : Symbol → Value) (target : VarDecl) {value : Expr}
    (current : value.IsCurrent) :
    (assignment versions target value).evalBool (total values) = some true ↔
      value.eval (storeAt values versions).read =
        some (values ⟨target, some (versions target + 1)⟩) := by
  rw [Expr.evalBool, eval_assignment _ _ current]
  cases value.eval (storeAt values versions).read with
  | none => simp [truthOf]
  | some result => simp [truthOf, Value.asBool, eq_comm]

theorem encodable_assignment {target : VarDecl} {value : Expr} (proper : value.Proper)
    (typed : value.ty = target.ty) : (assignment versions target value).Encodable := by
  refine ⟨⟨⟨?_, rfl⟩, trivial, proper.encodable.wellTyped.atVersions versions⟩, ?_⟩
  · rw [Expr.ty_atVersions, typed]
    rfl
  · show (false || _) = false
    rw [Bool.false_or, Expr.choosesTruth_atVersions, proper.encodable.plain]

/-- An assignment is spelled out by the equation of the new version. -/
theorem SpellsOut.assign {target : VarDecl}
    (spellsOut : SpellsOut (written versions target) statements formulas) {value : Expr}
    (proper : value.Proper) (typed : value.ty = target.ty) :
    SpellsOut versions (.assign target value :: statements)
      (assignment versions target value :: formulas) where
  encodable := List.forall_mem_cons.mpr
    ⟨encodable_assignment proper typed, spellsOut.encodable⟩
  boolean := List.forall_mem_cons.mpr ⟨rfl, spellsOut.boolean⟩
  decided defined admitted := by
    obtain ⟨definedFirst, definedRest⟩ := List.forall_mem_cons.mp defined
    refine List.forall_mem_cons.mpr ⟨?_, spellsOut.decided definedRest admitted⟩
    have definedValue := definedFirst value (List.mem_singleton_self _)
    apply (encodable_assignment proper typed).isSome_evalBool rfl admitted
    rw [eval_assignment _ _ proper.current, Option.isSome_map]
    exact definedValue fun decl => admitted _
  holds values := by
    rw [List.forall_mem_cons, spellsOut.holds, evalBool_assignment _ _ proper.current, Describes]

theorem SpellsOut.skip {statement : Statement} {versions' : VarDecl → Nat}
    (spellsOut : SpellsOut versions' statements formulas)
    (same : ∀ values, Describes values versions' statements ↔
      Describes values versions (statement :: statements)) :
    SpellsOut versions (statement :: statements) formulas where
  encodable := spellsOut.encodable
  boolean := spellsOut.boolean
  decided defined := spellsOut.decided (List.forall_mem_cons.mp defined).2
  holds values := (spellsOut.holds values).trans (same values)

theorem unfold_assignment (indexing offsets : Indexing) (target : VarDecl) {value : Expr}
    (unprimed : value.hasPrime = false) :
    (Expr.binary .eq (Expr.primedVariable target ((offsets.increment target).get target))
        (value.shift offsets) .bool).unfold indexing =
      assignment (fun decl => indexing.get decl + offsets.get decl) target value := by
  show Expr.binary .eq ((Expr.primedVariable target _).unfoldUnder indexing 0)
    ((value.shift offsets).unfoldUnder indexing 0) .bool = _
  rw [Expr.unfoldUnder_primedVariable, Expr.unfoldUnder_shift unprimed, Indexing.get_increment,
    Function.update_self]
  rfl

/-- The formulas of statements at the versions that are reached before each of them. -/
def conjunctsAt (versions : VarDecl → Nat) : List Statement → List Expr
  | [] => []
  | .assume condition :: statements => condition.atVersions versions :: conjunctsAt versions statements
  | .assign target value :: statements =>
      assignment versions target value :: conjunctsAt (written versions target) statements
  | .havoc target :: statements => conjunctsAt (written versions target) statements
  | .clockGuard _ :: statements | .clockReset .. :: statements => conjunctsAt versions statements

/-- The formulas of proper statements spell them out. -/
theorem spellsOut_conjunctsAt (proper : ∀ statement ∈ statements, statement.Proper)
    (versions : VarDecl → Nat) :
    SpellsOut versions statements (conjunctsAt versions statements) := by
  induction statements generalizing versions with
  | nil => exact spellsOut_nil versions
  | cons statement statements ih =>
      obtain ⟨properFirst, properRest⟩ := List.forall_mem_cons.mp proper
      cases statement with
      | assume condition => exact (ih properRest versions).assume (Statement.proper_assume properFirst)
      | assign target value =>
          obtain ⟨properValue, typed⟩ := Statement.proper_assign properFirst
          exact (ih properRest (written versions target)).assign properValue typed
      | havoc target => exact (ih properRest (written versions target)).skip fun _ => Iff.rfl
      | clockGuard _ => exact (ih properRest versions).skip fun _ => Iff.rfl
      | clockReset _ _ => exact (ih properRest versions).skip fun _ => Iff.rfl

/-- The formulas of validated statements hold at the values that describe an execution. -/
theorem conjunctsAt_hold_iff (valid : ∀ statement ∈ statements, statement.validate = .ok ())
    (values : Symbol → Value) (versions : VarDecl → Nat) :
    (∀ conjunct ∈ conjunctsAt versions statements,
      conjunct.evalBool (total values) = some true) ↔ Describes values versions statements := by
  induction statements generalizing versions with
  | nil => simp [conjunctsAt, Describes]
  | cons statement statements ih =>
      obtain ⟨validFirst, validRest⟩ := List.forall_mem_cons.mp valid
      cases statement with
      | assume condition =>
          obtain ⟨current, -⟩ := Statement.of_expect validFirst
          rw [conjunctsAt, List.forall_mem_cons, ih validRest, current.evalBool_atVersions,
            Describes]
      | assign target value =>
          obtain ⟨current, -⟩ := Statement.of_expect validFirst
          rw [conjunctsAt, List.forall_mem_cons, ih validRest, evalBool_assignment _ _ current,
            Describes]
      | havoc target => exact ih validRest (written versions target)
      | clockGuard _ => exact ih validRest versions
      | clockReset _ _ => exact ih validRest versions

/-- Validated statements are encoded by their formulas: primes and the time steps of
unfolding add up to versions. -/
theorem exists_encodeStatements (valid : ∀ statement ∈ statements, statement.validate = .ok ())
    (offsets : Indexing) : ∃ conjuncts final,
      encodeStatements offsets statements = .ok (conjuncts, final) ∧
        (∀ conjunct ∈ conjuncts, conjunct.ty = .bool) ∧ ∀ indexing : Indexing,
          conjuncts.map (Expr.unfold indexing) =
              conjunctsAt (fun decl => indexing.get decl + offsets.get decl) statements ∧
            (fun decl => indexing.get decl + final.get decl) =
              versionsAfter (fun decl => indexing.get decl + offsets.get decl) statements := by
  have incremented (indexing offsets : Indexing) (target : VarDecl) :
      (fun decl => indexing.get decl + (offsets.increment target).get decl) =
        written (fun decl => indexing.get decl + offsets.get decl) target := by
    funext decl
    rw [Indexing.get_increment]
    by_cases same : decl = target
    · subst same
      rw [Function.update_self, written_self, Nat.add_assoc]
    · rw [Function.update_of_ne same, written_of_ne same]
  induction statements generalizing offsets with
  | nil => exact ⟨[], offsets, rfl, List.forall_mem_nil _, fun _ => ⟨rfl, rfl⟩⟩
  | cons statement statements ih =>
      obtain ⟨validFirst, validRest⟩ := List.forall_mem_cons.mp valid
      cases statement with
      | assume condition =>
          obtain ⟨current, boolean⟩ := Statement.of_expect validFirst
          obtain ⟨conjuncts, final, encoded, booleans, unfolds⟩ := ih validRest offsets
          refine ⟨condition.shift offsets :: conjuncts, final, ?_, List.forall_mem_cons.mpr
            ⟨(Expr.ty_shift offsets condition).trans boolean, booleans⟩, fun indexing => ?_⟩
          · rw [encodeStatements, encoded]
            rfl
          · obtain ⟨sameConjuncts, sameFinal⟩ := unfolds indexing
            refine ⟨?_, sameFinal⟩
            rw [List.map_cons, sameConjuncts, Expr.unfold, Expr.unfoldUnder_shift current.unprimed]
            rfl
      | assign target value =>
          obtain ⟨current, typed⟩ := Statement.of_expect validFirst
          obtain ⟨conjuncts, final, encoded, booleans, unfolds⟩ :=
            ih validRest (offsets.increment target)
          let equation := Expr.binary .eq (Expr.primedVariable target
            ((offsets.increment target).get target)) (value.shift offsets) .bool
          have equated : Expr.mkEq (Expr.primedVariable target
              ((offsets.increment target).get target)) (value.shift offsets) = .ok equation := by
            unfold Expr.mkEq Expr.mkEquation Expr.expectType
            rw [if_pos (by simp [typed])]
            rfl
          refine ⟨equation :: conjuncts, final, ?_, List.forall_mem_cons.mpr ⟨rfl, booleans⟩,
            fun indexing => ?_⟩
          · rw [encodeStatements, equated, encoded]
            rfl
          · obtain ⟨sameConjuncts, sameFinal⟩ := unfolds indexing
            rw [incremented] at sameConjuncts sameFinal
            refine ⟨?_, sameFinal⟩
            rw [List.map_cons, sameConjuncts, unfold_assignment indexing offsets target
              current.unprimed]
            rfl
      | havoc target =>
          obtain ⟨conjuncts, final, encoded, booleans, unfolds⟩ :=
            ih validRest (offsets.increment target)
          refine ⟨conjuncts, final, encoded, booleans, fun indexing => ?_⟩
          rw [(unfolds indexing).1, (unfolds indexing).2, incremented]
          exact ⟨rfl, rfl⟩
      | clockGuard _ => exact ih validRest offsets
      | clockReset _ _ => exact ih validRest offsets

theorem spellsOut_encodeStatements {offsets final : Indexing} {conjuncts : List Expr}
    (encoded : encodeStatements offsets statements = .ok (conjuncts, final))
    (proper : ∀ statement ∈ statements, statement.Proper) (indexing : Indexing) :
    SpellsOut (fun decl => indexing.get decl + offsets.get decl) statements
        (conjuncts.map (Expr.unfold indexing)) ∧
      (fun decl => indexing.get decl + final.get decl) =
        versionsAfter (fun decl => indexing.get decl + offsets.get decl) statements := by
  obtain ⟨_, _, encoded', -, unfolds⟩ :=
    exists_encodeStatements (fun statement member => (proper statement member).valid) offsets
  obtain ⟨rfl, rfl⟩ := Prod.mk.inj (Except.ok.inj (encoded.symm.trans encoded'))
  obtain ⟨sameConjuncts, sameFinal⟩ := unfolds indexing
  exact ⟨sameConjuncts ▸ spellsOut_conjunctsAt proper _, sameFinal⟩

theorem SpellsOut.append {statements' : List Statement} {formulas' : List Expr}
    (spellsOut : SpellsOut versions statements formulas)
    (spellsOut' : SpellsOut (versionsAfter versions statements) statements' formulas') :
    SpellsOut versions (statements ++ statements') (formulas ++ formulas') where
  encodable := List.forall_mem_append.mpr ⟨spellsOut.encodable, spellsOut'.encodable⟩
  boolean := List.forall_mem_append.mpr ⟨spellsOut.boolean, spellsOut'.boolean⟩
  decided defined admitted := by
    obtain ⟨defined, defined'⟩ := List.forall_mem_append.mp defined
    exact List.forall_mem_append.mpr
      ⟨spellsOut.decided defined admitted, spellsOut'.decided defined' admitted⟩
  holds values := by
    rw [List.forall_mem_append, spellsOut.holds, spellsOut'.holds, describes_append]

theorem SpellsOut.conjunction {formula : Expr}
    (spellsOut : SpellsOut versions statements formulas)
    (isConjunction : Expr.IsConjunction formulas formula) :
    SpellsOut versions statements [formula] where
  encodable := List.forall_mem_singleton.mpr
    (isConjunction.encodable spellsOut.encodable spellsOut.boolean).1
  boolean := List.forall_mem_singleton.mpr
    (isConjunction.encodable spellsOut.encodable spellsOut.boolean).2
  decided defined admitted := by
    rw [List.forall_mem_singleton]
    exact isConjunction.isSome_evalBool (spellsOut.decided defined admitted)
  holds values := by
    rw [List.forall_mem_singleton, isConjunction.evalBool_iff, spellsOut.holds]

theorem spellsOut_unfold {condition : Expr} (proper : condition.ProperCondition)
    (indexing : Indexing) :
    SpellsOut indexing.get [.assume condition] [condition.unfold indexing] := by
  rw [Expr.unfold_eq_atVersions proper.current.unprimed]
  exact (spellsOut_nil _).assume proper

end Statements

namespace ControlEdge

/-- An edge made of validated statements whose formulas are encoded exactly. -/
structure Proper (edge : ControlEdge) : Prop where
  made : ∃ locations,
    ofStatements locations edge.source edge.target edge.statements = .ok edge
  proper {statement : Statement} : statement ∈ edge.statements → statement.Proper

/-- A proper edge whose formulas have values within the configured intervals. -/
structure Regular (config : SolverConfig) (edge : ControlEdge) : Prop extends edge.Proper where
  defined : ∀ statement ∈ edge.statements, statement.Defined config

/-- The unfolded formula of an edge spells out its statements, and its last versions are
those after the statements. -/
theorem Proper.spellsOut {edge : ControlEdge} (proper : edge.Proper) (indexing : Indexing) :
    SpellsOut indexing.get edge.statements [edge.formula.unfold indexing] ∧
      (indexing.add edge.next).get = versionsAfter indexing.get edge.statements := by
  obtain ⟨locations, made⟩ := proper.made
  obtain ⟨⟨conjuncts, next⟩, encoded, composed⟩ := exists_of_bind_eq_ok made
  obtain ⟨formula, joined, composed⟩ := exists_of_bind_eq_ok composed
  obtain ⟨spellsOut, after⟩ :=
    spellsOut_encodeStatements encoded (fun _ => proper.proper) indexing
  have sameFormula : formula = edge.formula := congrArg ControlEdge.formula (Except.ok.inj composed)
  have sameNext : next = edge.next := congrArg ControlEdge.next (Except.ok.inj composed)
  subst sameFormula sameNext
  exact ⟨spellsOut.conjunction ((Expr.isConjunction_of_mkAnd joined).unfold indexing),
    (funext Indexing.get_add).trans after⟩

end ControlEdge

namespace Trace

variable {σ : Type} [ExprState σ] {config : SolverConfig} {target : Expr}

/-- The conditions and statements along some steps of a trace, and the target
condition. -/
def statementsFrom (target : Expr) : List (ControlEdge × σ) → List Statement
  | [] => [.assume target]
  | (edge, state) :: steps =>
      (edge.statements ++ [.assume (ExprState.toExpr state)]) ++ statementsFrom target steps

def statements (initial target : Expr) (trace : Trace σ ControlEdge) : List Statement :=
  [.assume initial, .assume (ExprState.toExpr trace.first)] ++
    statementsFrom target trace.steps

/-- Steps whose edges and conditions are proper. -/
def ProperSteps (steps : List (ControlEdge × σ)) : Prop :=
  ∀ step ∈ steps, step.1.Proper ∧ (ExprState.toExpr step.2).ProperCondition

/-- Steps whose edges and conditions are regular. -/
def RegularSteps (config : SolverConfig) (steps : List (ControlEdge × σ)) : Prop :=
  ∀ step ∈ steps, step.1.Regular config ∧ (ExprState.toExpr step.2).RegularCondition config

theorem RegularSteps.proper {steps : List (ControlEdge × σ)}
    (regular : RegularSteps config steps) : ProperSteps steps := fun step member =>
  have ⟨regularEdge, regularState⟩ := regular step member
  ⟨regularEdge.toProper, regularState.toProperCondition⟩

theorem spellsOut_ofActions {indexing : Indexing} {steps : List (ControlEdge × σ)}
    {path : PathFormula} (written : PathFormula.ofActions target indexing steps = .ok path)
    (properTarget : target.ProperCondition) (proper : ProperSteps steps) :
    SpellsOut indexing.get (statementsFrom target steps) path.steps := by
  induction steps generalizing indexing path with
  | nil =>
      cases written
      exact spellsOut_unfold properTarget indexing
  | cons step steps ih =>
      obtain ⟨⟨properEdge, properState⟩, properRest⟩ := List.forall_mem_cons.mp proper
      obtain ⟨joined, joinedBy, composed⟩ := exists_of_bind_eq_ok written
      obtain ⟨following, writtenRest, result⟩ := exists_of_bind_eq_ok composed
      cases result
      obtain ⟨spellsOut, after⟩ := properEdge.spellsOut indexing
      have spellsOutRest := ih writtenRest properRest
      have spellsOutState := spellsOut_unfold properState (indexing.add step.1.next)
      have spellsOutStep := (spellsOut.append (after ▸ spellsOutState)).conjunction
        (Expr.isConjunction_of_mkAnd joinedBy)
      refine SpellsOut.append spellsOutStep ?_
      rw [versionsAfter_append, ← after]
      exact spellsOutRest

theorem spellsOut_ofTrace {initial : Expr} {trace : Trace σ ControlEdge} {path : PathFormula}
    (written : PathFormula.ofTrace initial target trace = .ok path)
    (properInitial : initial.ProperCondition) (properTarget : target.ProperCondition)
    (properFirst : (ExprState.toExpr trace.first).ProperCondition)
    (proper : ProperSteps trace.steps) :
    SpellsOut (Indexing.constant 0).get (trace.statements initial target) path.steps := by
  obtain ⟨joined, joinedBy, composed⟩ := exists_of_bind_eq_ok written
  obtain ⟨following, writtenRest, result⟩ := exists_of_bind_eq_ok composed
  cases result
  have spellsOutStart := (spellsOut_unfold properInitial (.constant 0)).append
    (spellsOut_unfold properFirst (.constant 0))
  exact (spellsOutStart.conjunction ((Expr.isConjunction_of_mkAnd joinedBy).unfold _)).append
    (spellsOut_ofActions writtenRest properTarget proper)

/-- Regular conditions and edges have values along the whole trace. -/
theorem defined_statementsFrom {steps : List (ControlEdge × σ)}
    (regularTarget : target.RegularCondition config) (regular : RegularSteps config steps) :
    ∀ statement ∈ statementsFrom target steps, statement.Defined config := by
  have assumed {condition : Expr} (defined : condition.Defined config) :
      ∀ statement ∈ [Statement.assume condition], statement.Defined config := by
    rw [List.forall_mem_singleton]
    exact List.forall_mem_singleton.mpr defined
  induction steps with
  | nil => exact assumed regularTarget.defined
  | cons step steps ih =>
      obtain ⟨⟨regularEdge, regularState⟩, regularRest⟩ := List.forall_mem_cons.mp regular
      exact List.forall_mem_append.mpr ⟨List.forall_mem_append.mpr
        ⟨regularEdge.defined, assumed regularState.defined⟩, ih regularRest⟩

theorem defined_statements {initial : Expr} {trace : Trace σ ControlEdge}
    (regularInitial : initial.RegularCondition config)
    (regularTarget : target.RegularCondition config)
    (regularFirst : (ExprState.toExpr trace.first).RegularCondition config)
    (regular : RegularSteps config trace.steps) :
    ∀ statement ∈ trace.statements initial target, statement.Defined config := by
  refine List.forall_mem_append.mpr ⟨?_, defined_statementsFrom regularTarget regular⟩
  simp only [List.forall_mem_cons, List.not_mem_nil, false_implies, implies_true, and_true]
  exact ⟨List.forall_mem_singleton.mpr regularInitial.defined,
    List.forall_mem_singleton.mpr regularFirst.defined⟩

theorem FollowedFrom.executes {region : Store → Prop} {store : Store}
    {steps : List (ControlEdge × σ)} {stores : List Store}
    (followed : FollowedFrom region target store steps stores) :
    ∃ final, Executes region (statementsFrom target steps) store final := by
  induction followed with
  | done inside holds => exact ⟨_, .cons inside (.assume holds) (.nil inside)⟩
  | step executes holds rest ih =>
      obtain ⟨final, executesRest⟩ := ih
      have inside := executes.inside_last
      exact ⟨final, (executes.append (.cons inside (.assume holds) (.nil inside))).append
        executesRest⟩

theorem FollowedBy.executes {region : Store → Prop} {initial : Expr}
    {trace : Trace σ ControlEdge} {stores : List Store}
    (followed : trace.FollowedBy region initial target stores) :
    ∃ store final, Executes region (trace.statements initial target) store final := by
  obtain ⟨starts, holds, rest⟩ := followed
  obtain ⟨final, executes⟩ := rest.executes
  have inside := executes.inside_first
  exact ⟨_, final, .cons inside (.assume starts) (.cons inside (.assume holds) executes)⟩

section Described

variable {values : Symbol → Value}
  (admitted : ∀ symbol, config.Admits symbol.decl (values symbol))
include admitted

/-- Values that describe the statements along some steps give stores that follow them. -/
theorem followedFrom_of_describes {indexing : Indexing} {steps : List (ControlEdge × σ)}
    {path : PathFormula} (written : PathFormula.ofActions target indexing steps = .ok path)
    (proper : ProperSteps steps)
    (describes : Describes values indexing.get (statementsFrom target steps)) :
    ∃ stores, path.indexings.map (fun indexing => storeAt values indexing.get) =
        storeAt values indexing.get :: stores ∧
      FollowedFrom config.InRange target (storeAt values indexing.get) steps stores := by
  induction steps generalizing indexing path with
  | nil =>
      cases written
      exact ⟨[], rfl, .done (fun decl => admitted _) describes.1⟩
  | cons step steps ih =>
      obtain ⟨⟨properEdge, -⟩, properRest⟩ := List.forall_mem_cons.mp proper
      obtain ⟨joined, -, composed⟩ := exists_of_bind_eq_ok written
      obtain ⟨following, writtenRest, result⟩ := exists_of_bind_eq_ok composed
      cases result
      have after := (properEdge.spellsOut indexing).2
      obtain ⟨describesStep, describesRest⟩ := (describes_append _ _).mp describes
      obtain ⟨describesEdge, holds, -⟩ := (describes_append _ _).mp describesStep
      rw [versionsAfter_append] at describesRest
      rw [← after] at holds
      obtain ⟨stores, sameStores, followed⟩ := ih writtenRest properRest (after ▸ describesRest)
      have executes := describesEdge.executes admitted
      rw [← after] at executes
      refine ⟨_ :: stores, ?_, .step executes holds followed⟩
      exact congrArg (storeAt values indexing.get :: ·) sameStores

theorem followedBy_of_describes {initial : Expr} {trace : Trace σ ControlEdge}
    {path : PathFormula} (written : PathFormula.ofTrace initial target trace = .ok path)
    (proper : ProperSteps trace.steps)
    (describes : Describes values (Indexing.constant 0).get (trace.statements initial target)) :
    trace.FollowedBy config.InRange initial target
      (path.indexings.map fun indexing => storeAt values indexing.get) := by
  obtain ⟨joined, -, composed⟩ := exists_of_bind_eq_ok written
  obtain ⟨following, writtenRest, result⟩ := exists_of_bind_eq_ok composed
  cases result
  obtain ⟨starts, holds, describesRest⟩ := describes
  obtain ⟨stores, sameStores, followed⟩ :=
    followedFrom_of_describes admitted writtenRest proper describesRest
  rw [sameStores]
  exact .intro starts holds followed

end Described

end Trace

end AbstractionRefinement
