import AbstractionRefinement.Proofs.PathFormulas
import AbstractionRefinement.Proofs.StateFormulas

/-!
# Formulas of edges

The formula of an edge says exactly what its statements do: they lead from one store to
another if and only if some values of all versions begin at the first one, end at the
second one and satisfy the formula.  This holds over every domain of values, so over all
values, over those of the types of the variables, and over intervals.
-/

namespace AbstractionRefinement

namespace ControlEdge

variable {locations : List Location} {source target : Nat} {statements : List Statement}
  {domain : VarDecl → Value → Prop} {before after : Store}

/-- Values of all versions begin at one store, end at another one and satisfy the formula of
the edge. -/
structure Relates (edge : ControlEdge) (domain : VarDecl → Value → Prop) (before after : Store)
    (values : Symbol → Value) : Prop where
  within : ∀ symbol, domain symbol.decl (values symbol)
  before_eq (decl : VarDecl) : values ⟨decl, some 0⟩ = before decl
  after_eq (decl : VarDecl) : values ⟨decl, some (edge.next.get decl)⟩ = after decl
  holds : (edge.formula.unfold (.constant 0)).evalBool (fun symbol => some (values symbol)) =
    some true

/-- An edge is made of validated statements.  Its formula holds at the values that describe
an execution of them, which ends at the last versions. -/
theorem exists_ofStatements (locations : List Location) (source target : Nat)
    (valid : ∀ statement ∈ statements, statement.validate = .ok ()) :
    ∃ edge, ofStatements locations source target statements = .ok edge ∧
      edge.next.get = versionsAfter (fun _ => 0) statements ∧ ∀ values,
        (edge.formula.unfold (.constant 0)).evalBool (total values) = some true ↔
          Describes values (fun _ => 0) statements := by
  obtain ⟨conjuncts, next, encoded, boolean, unfolds⟩ :=
    exists_encodeStatements valid (.constant 0)
  obtain ⟨formula, conjoined⟩ := Expr.exists_mkAnd boolean
  obtain ⟨sameConjuncts, sameNext⟩ := unfolds (.constant 0)
  simp only [Indexing.get_constant, Nat.zero_add] at sameConjuncts sameNext
  refine ⟨_, by rw [ofStatements, encoded]; dsimp only [bind, Except.bind]; rw [conjoined]; rfl,
    sameNext, fun values => ?_⟩
  have isConjunction := (Expr.isConjunction_of_mkAnd conjoined).unfold (.constant 0)
  rw [isConjunction.evalBool_iff, sameConjuncts, conjunctsAt_hold_iff valid]

/-- The statements of an edge lead from one store to another exactly when values of all
versions from the one to the other satisfy its formula. -/
theorem executes_iff_exists_relates
    (valid : ∀ statement ∈ statements, statement.validate = .ok ()) :
    ∃ edge, ofStatements locations source target statements = .ok edge ∧
      ∀ (domain : VarDecl → Value → Prop) (before after : Store),
        ExecutesOver domain statements before after ↔
          ∃ values, edge.Relates domain before after values := by
  obtain ⟨edge, made, ends, describes⟩ := exists_ofStatements locations source target valid
  refine ⟨edge, made, fun domain before after => ⟨fun executes => ?_, ?_⟩⟩
  · obtain ⟨values, within, begins, final, described⟩ := executes.exists_describes fun _ => 0
    rw [← ends] at final
    exact ⟨values, within, congrFun begins, congrFun final, (describes values).mpr described⟩
  · rintro ⟨values, related⟩
    have executes := ((describes values).mp related.holds).executesOver related.within
    rw [← ends] at executes
    have begins : storeAt values (fun _ => 0) = before := funext related.before_eq
    have final : storeAt values edge.next.get = after := funext related.after_eq
    rwa [begins, final] at executes

def counted : VarDecl :=
  ⟨"counted", .int⟩

def chosen : VarDecl :=
  ⟨"chosen", .int⟩

/-- Both assignments read the variable that they write, and the second one a freed one too. -/
def countingStatements : List Statement :=
  [.assign counted (.nary .add [counted.toExpr, .ofInt 1] .int),
    .clockReset ⟨"watch", .int⟩ 0,
    .havoc chosen,
    .assume (.binary .lt counted.toExpr chosen.toExpr .bool),
    .assign counted (.nary .add [counted.toExpr, chosen.toExpr] .int)]

def zeroStore : Store :=
  fun _ => .int 0

def countedStore : Store :=
  ((zeroStore.write counted (.int 1)).write chosen (.int 5)).write counted (.int 6)

theorem countingStatements_execute :
    ExecutesOver (fun _ _ => True) countingStatements zeroStore countedStore := by
  have written : (Expr.nary .add [counted.toExpr, .ofInt 1] .int).eval zeroStore.read =
      some (.int 1) := by
    decide
  have fulfilled : (Expr.binary .lt counted.toExpr chosen.toExpr .bool).Holds
      ((zeroStore.write counted (.int 1)).write chosen (.int 5)) := by
    unfold Expr.Holds
    decide
  have rewritten : (Expr.nary .add [counted.toExpr, chosen.toExpr] .int).eval
      ((zeroStore.write counted (.int 1)).write chosen (.int 5)).read = some (.int 6) := by
    decide
  refine .cons (fun _ => trivial) (.assign written) ?_
  refine .cons (fun _ => trivial) .clockReset ?_
  refine .cons (fun _ => trivial) (.havoc (.int 5) trivial) ?_
  refine .cons (fun _ => trivial) (.assume fulfilled) ?_
  exact .cons (fun _ => trivial) (.assign rewritten) (.nil fun _ => trivial)

/-- Values of the versions satisfy the formula of the edge. -/
theorem countingStatements_related :
    (∀ statement ∈ countingStatements, statement.validate = .ok ()) ∧
      ∃ edge, ofStatements [] 0 1 countingStatements = .ok edge ∧
        ∃ values, edge.Relates (fun _ _ => True) zeroStore countedStore values := by
  have valid : ∀ statement ∈ countingStatements, statement.validate = .ok () := by
    simp only [countingStatements, List.forall_mem_cons]
    exact ⟨rfl, rfl, rfl, rfl, rfl, List.forall_mem_nil _⟩
  obtain ⟨edge, made, executes_iff⟩ : ∃ edge,
      ofStatements [] 0 1 countingStatements = .ok edge ∧ ∀ domain before after,
        ExecutesOver domain countingStatements before after ↔
          ∃ values, edge.Relates domain before after values :=
    executes_iff_exists_relates valid
  exact ⟨valid, edge, made, (executes_iff _ _ _).mp countingStatements_execute⟩

end ControlEdge

end AbstractionRefinement
