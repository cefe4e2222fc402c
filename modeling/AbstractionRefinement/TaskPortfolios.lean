import AbstractionRefinement.RefinementLoop

/-!
# Portfolios of tasks

Several configurations of a verification task are tried one after the other
until one of them is conclusive.
-/

namespace AbstractionRefinement

/-- What is reported about a finished task. -/
structure Summary where
  verdict : Verdict
  reason : Option UnknownReason
  statistics : RunStatistics
deriving DecidableEq, Inhabited

namespace Summary

/-- The summary of a result. -/
def ofResult {σ α π : Type} (result : SafetyResult σ α π) : Summary :=
  ⟨result.outcome.verdict, result.outcome.reason, result.statistics⟩

/-- The first conclusive summary with its position, or the last one. -/
def firstConclusive? (summaries : List Summary) : Option (Nat × Summary) :=
  let numbered := summaries.zipIdx.map fun (summary, position) => (position, summary)
  (numbered.find? fun (_, summary) => summary.verdict ≠ .unknown) <|> numbered.getLast?

end Summary

end AbstractionRefinement
