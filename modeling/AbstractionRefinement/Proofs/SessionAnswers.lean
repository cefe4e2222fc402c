import AbstractionRefinement.Proofs.SessionRuns

/-!
# Answers of sessions

Whatever calls led to it, an unsatisfiable answer is right for all values of the
configured intervals and of the widened ones if no assertion chooses between truth
values.  After a satisfiable answer there is a model, and every assertion without such a
choice evaluates to true in it unless its arithmetic overflows.  Both hold as long as at
most `32767` nodes are allocated.
-/

namespace AbstractionRefinement

/-- The symbols of the formulas that the calls assert. -/
def assertedSymbols (calls : List SessionCall) : List Symbol :=
  calls.flatMap fun call => call.formula?.toList.flatMap Expr.symbols

theorem mem_assertedSymbols {calls : List SessionCall} {call : SessionCall} (member : call ∈ calls)
    {formula : Expr} (asserts : formula ∈ call.formula?) {symbol : Symbol}
    (occurs : symbol ∈ formula.symbols) : symbol ∈ assertedSymbols calls :=
  List.mem_flatMap.mpr ⟨call, member, List.mem_flatMap.mpr
    ⟨formula, Option.mem_toList.mpr asserts, occurs⟩⟩

namespace Session

variable {config : SolverConfig} {theme : SessionTheme} {calls : List SessionCall}
  {session : Session}

/-- A check remembers its answer and keeps the assertions. -/
theorem check_state (session : Session) :
    (check session).2.status = some (check session).1 ∧
      (check session).2.formulas = session.formulas := by
  generalize run : check session = outcome
  unfold check at run
  rw [SessionState.bind_run, SessionState.get_run] at run
  dsimp only at run
  cases known : session.status with
  | some status =>
      rw [known] at run
      rw [← run]
      exact ⟨known, rfl⟩
  | none =>
      obtain ⟨encoder, conjunction, state, -⟩ := settleConjunction_state session
      have sameFormulas : (decideConjunction session).2.formulas = session.formulas := by
        rw [decideConjunction_run, state]
        rfl
      rw [known] at run
      rw [← run]
      exact ⟨rfl, sameFormulas⟩

theorem Undecided.check (undecided : session.Undecided config) :
    ∃ cause, (Session.check session).1 = .unknown cause :=
  (undecided.perform .check).unknown (check_state session).1

/-- Unless the answer is inconclusive, what is known of a session in use holds after a
check. -/
theorem soundWithin_check (lawful : config.Lawful) {status : SolverStatus}
    (answer : (check ((start config theme).after calls)).1 = status)
    (decided : ∀ cause, status ≠ .unknown cause) :
    (check ((start config theme).after calls)).2.SoundWithin 32768 config
      (assertedSymbols calls) := by
  have punctual : config.timeoutPasses = false := by
    rw [Bool.eq_false_iff]
    intro late
    have undecided : (start config theme).Undecided config := ⟨rfl, late, by rintro _ ⟨⟩⟩
    obtain ⟨cause, unknown⟩ := (undecided.after calls).check
    exact decided cause (answer.symm.trans unknown)
  have within := (start_soundWithin lawful (Nat.le_refl _) punctual theme).after calls
    fun call member formula asserts symbol => mem_assertedSymbols member asserts
  exact within.perform .check (by rintro _ ⟨⟩)

/-- What is known of a session in use holds after an unsatisfiable answer, since no deadline
passed before it. -/
theorem soundWithin_of_unsat (lawful : config.Lawful) (theme : SessionTheme)
    (calls : List SessionCall) (unsat : ((start config theme).after calls).status = some .unsat) :
    ((start config theme).after calls).SoundWithin 32768 config (assertedSymbols calls) := by
  have punctual : config.timeoutPasses = false := by
    rw [Bool.eq_false_iff]
    intro late
    have undecided : (start config theme).Undecided config := ⟨rfl, late, by rintro _ ⟨⟩⟩
    obtain ⟨cause, unknown⟩ := (undecided.after calls).unknown unsat
    cases unknown
  exact (start_soundWithin lawful (Nat.le_refl _) punctual theme).after calls
    fun call member formula asserts symbol => mem_assertedSymbols member asserts

/-- Of the values that are considered none satisfy the formulas of an unsatisfiable
session. -/
theorem SoundWithin.not_satisfies {alphabet : List Symbol}
    (within : session.SoundWithin 32768 config alphabet) (lawful : config.Lawful)
    (countable : (config.maxAtomAssignments : Int) < maxInt64)
    (encodable : ∀ formula ∈ session.formulas, formula.Encodable)
    (unsat : session.status = some .unsat) (few : session.encoder.manager.size ≤ 32767)
    (fewConfirming : confirmationSize config session.formulas ≤ 32767) {values : Symbol → Value}
    (considers : config.Considers session.formulas values) :
    ¬ Satisfies values session.formulas := by
  have exact_ : (config.capped 32768).Exact :=
    ⟨lawful, countable, DiagramManager.distinctKeys_of_le (Nat.min_le_right _ _)⟩
  have few : session.encoder.manager.nodes.size ≤ 32768 := by
    unfold DiagramManager.size at few
    omega
  have excludes := within.refutes few unsat (Nat.lt_succ_of_le fewConfirming) exact_
    (fun formula member => (encodable formula member).plain) values considers
  intro satisfies
  rcases considers with admits | ⟨-, admits⟩
  · exact excludes (satisfies.fulfills encodable admits)
  · exact excludes (satisfies.fulfills encodable admits)

def narrowConfig : SolverConfig where
  nodeLimit := 4096
  defaultRange := (0, 3)
  margin := 1

theorem narrowConfig_lawful : narrowConfig.Lawful := by
  intro _
  show FitsInt64 0 ∧ FitsInt64 3 ∧ (0 : Int) ≤ 3
  decide

def amount : Symbol :=
  ⟨⟨"amount", .int⟩, none⟩

def amountIs (number : Int) : Expr :=
  .binary .eq (.sym amount) (.ofInt number) .bool

theorem encodable_amountIs {number : Int} (fits : FitsInt64 number) :
    (amountIs number).Encodable :=
  ⟨⟨⟨rfl, rfl⟩, trivial, fits⟩, rfl⟩

theorem admitsAll_amountIs {numbers : List Int} {value : Value}
    (admits : config.Admits amount.decl value) :
    config.AdmitsAll (fun _ => value) (numbers.map amountIs) := by
  intro formula member symbol occurs
  obtain ⟨number, -, rfl⟩ := List.mem_map.mp member
  have same : symbol = amount := by
    simpa [amountIs, Expr.mem_symbols_binary, Expr.ofInt] using occurs
  rw [same]
  exact admits

def contradictoryCalls : List SessionCall :=
  [.add (amountIs 1), .push, .track (amountIs 2)]

def flag : Expr :=
  .sym ⟨⟨"flag", .bool⟩, none⟩

def negatedChoice : Expr :=
  .unary .not (.ternary .ite flag (.ofBool false) flag .bool) .bool

theorem model_capped (budget : Nat) (sat : session.status = some .sat) :
    (session.capped budget).model = session.model := by
  have samePath : (session.capped budget).encoder.manager.onePath? session.conjunction =
      session.encoder.manager.onePath? session.conjunction :=
    DiagramManager.onePath?_capped ..
  unfold model lastStatus
  rw [status_capped_of_sat sat, sat,
    show (session.capped budget).conjunction = session.conjunction from rfl, samePath]
  rfl

/-- The model assigns admitted values to exactly the symbols of the formulas.  Of those that
do not choose between truth values it makes the diagrams true, and every such formula
evaluates to true unless its arithmetic overflows. -/
structure Models (config : SolverConfig) (formulas : List Expr) (model : Valuation) : Prop where
  assigns (symbol : Symbol) : (model.get? symbol).isSome ↔
    ∃ formula ∈ formulas, symbol ∈ formula.symbols
  admits {symbol : Symbol} {value : Value} : model.get? symbol = some value →
    config.Admits symbol.decl value
  fulfills {formula : Expr} : formula ∈ formulas → formula.choosesTruth = false →
    formula.truth model.get? = true
  satisfies {formula : Expr} : formula ∈ formulas → formula.Encodable →
    formula.evalBool model.get? = some true ∨
      formula.evalBool model.get? = none ∧ formula.Overflows model.get?

/-- A satisfiable session has a model. -/
theorem SoundWithin.exists_model {alphabet : List Symbol}
    (within : session.SoundWithin 32768 config alphabet) (sat : session.status = some .sat)
    (few : session.encoder.manager.size ≤ 32767)
    (fewLevels : session.encoder.nextLevel ≤ 2147483648) :
    ∃ model, session.model = .ok model ∧ Models config session.formulas model := by
  have few : session.encoder.manager.nodes.size ≤ 32768 := by
    unfold DiagramManager.size at few
    omega
  have sound := within.sound few
  obtain ⟨model, values, given, admits, fulfills, assigned⟩ :=
    sound.exists_model fewLevels (status_capped_of_sat sat)
  rw [model_capped 32768 sat] at given
  have sameConfig : (session.capped 32768).config = config.capped 32768 :=
    congrArg (SolverConfig.capped 32768) within.config_eq
  rw [sameConfig] at admits
  have valued {formula : Expr} (member : formula ∈ session.formulas) {symbol : Symbol}
      (occurs : symbol ∈ formula.symbols) : model.get? symbol = some (values symbol) :=
    (assigned symbol _).mpr ⟨⟨formula, member, occurs⟩, rfl⟩
  have holds {formula : Expr} (member : formula ∈ session.formulas)
      (plain : formula.choosesTruth = false) : formula.truth model.get? = true := by
    rw [← fulfills formula member plain]
    exact Expr.truth_congr fun symbol occurs => valued member occurs
  refine ⟨model, given, fun symbol => ?_, fun {symbol value} found => ?_, holds,
    fun {formula} member encodable => ?_⟩
  · constructor
    · intro isSome
      obtain ⟨value, found⟩ := Option.isSome_iff_exists.mp isSome
      exact ((assigned symbol value).mp found).1
    · rintro ⟨formula, member, occurs⟩
      rw [valued member occurs]
      rfl
  · obtain ⟨⟨formula, member, occurs⟩, rfl⟩ := (assigned symbol value).mp found
    exact admits formula member symbol occurs
  · obtain ⟨assertion, live, rfl⟩ := List.mem_map.mp member
    obtain ⟨edge, encoded⟩ := within.encoded few sat assertion live
    rw [← holds member encodable.plain]
    exact encodable.evalBool_eq (within.boolean assertion live)
      (within.current assertion live edge encoded) fun symbol occurs =>
        ⟨_, valued member occurs, (admits _ member symbol occurs).1⟩

/-- After a satisfiable answer there is a model. -/
theorem exists_model_of_sat (lawful : config.Lawful)
    (sat : (check ((start config theme).after calls)).1 = .sat)
    (few : (check ((start config theme).after calls)).2.encoder.manager.size ≤ 32767)
    (fewLevels : (check ((start config theme).after calls)).2.encoder.nextLevel ≤ 2147483648) :
    ∃ model, (check ((start config theme).after calls)).2.model = .ok model ∧
      Models config ((start config theme).after calls).formulas model := by
  have within := soundWithin_check lawful sat (by rintro _ ⟨⟩)
  obtain ⟨answered, sameFormulas⟩ := check_state ((start config theme).after calls)
  rw [← sameFormulas]
  exact within.exists_model (answered.trans (congrArg some sat)) few fewLevels

def satisfiableCalls : List SessionCall :=
  [.add (.unary .not (amountIs 0) .bool), .push, .track (amountIs 0), .check, .pop]

/-- Another value is found for the variable. -/
theorem satisfiableCalls_modelled : narrowConfig.Lawful ∧
    (check ((start narrowConfig .plain).after satisfiableCalls)).1 = .sat ∧
    (check ((start narrowConfig .plain).after satisfiableCalls)).2.encoder.manager.size ≤ 32767 ∧
    (check ((start narrowConfig .plain).after satisfiableCalls)).2.encoder.nextLevel ≤
      2147483648 ∧
    ∃ model, (check ((start narrowConfig .plain).after satisfiableCalls)).2.model = .ok model ∧
      Models narrowConfig ((start narrowConfig .plain).after satisfiableCalls).formulas model := by
  have sat : (check ((start narrowConfig .plain).after satisfiableCalls)).1 = .sat := by
    decide +kernel
  have few : (check ((start narrowConfig .plain).after
      satisfiableCalls)).2.encoder.manager.size ≤ 32767 := by
    decide +kernel
  have fewLevels : (check ((start narrowConfig .plain).after
      satisfiableCalls)).2.encoder.nextLevel ≤ 2147483648 := by
    decide +kernel
  exact ⟨narrowConfig_lawful, sat, few, fewLevels,
    exists_model_of_sat narrowConfig_lawful sat few fewLevels⟩

/-- The sum of the variable and the second greatest number is not the greatest one.  It
overflows from two on. -/
def notGreatest : Expr :=
  .unary .not (.binary .eq
    (.nary .add [.sym amount, .ofInt 9223372036854775806] .int)
    (.ofInt 9223372036854775807) .bool) .bool

/-- In the model that is found the sum overflows, so not every assertion evaluates to
true. -/
theorem overflowing_model : ¬ ∀ (config : SolverConfig) (theme : SessionTheme)
    (calls : List SessionCall) (model : Valuation), config.Lawful →
      (check ((start config theme).after calls)).1 = .sat →
      (check ((start config theme).after calls)).2.model = .ok model →
      ∀ formula ∈ ((start config theme).after calls).formulas,
        formula.evalBool model.get? = some true := by
  intro claimed
  have evaluates := claimed { narrowConfig with margin := 0 } .plain [.add notGreatest]
    ⟨[(amount, .int 3)]⟩ (fun _ => narrowConfig_lawful amount.decl.name) (by decide +kernel)
    (by decide +kernel) notGreatest (by decide +kernel)
  have undefined : notGreatest.evalBool
      (Valuation.get? ⟨[(amount, .int 3)]⟩) = none := by
    decide
  rw [undefined] at evaluates
  cases evaluates

end Session

end AbstractionRefinement
