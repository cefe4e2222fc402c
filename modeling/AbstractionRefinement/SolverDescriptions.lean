import AbstractionRefinement.FormulaDescriptions
import AbstractionRefinement.SolverSessions

/-!
# Descriptions of solver settings

A record describes the settings that differ from the usual ones.
-/

namespace AbstractionRefinement

/-- An interval of integers. -/
def rangeOfDescription : Description → Reading (Int × Int)
  | .list [low, high] => do
      let low ← low.asInt64
      return (low, ← high.asInt64)
  | _ => malformed

/-- What a session will be used for; nothing special if that is not said. -/
def SessionTheme.ofDescription : Description → Reading SessionTheme
  | .empty | .text "plain" => .ok plain
  | .text "incremental" => .ok forIncrementalUse
  | .text "interpolating" => .ok forInterpolation
  | _ => malformed

/-- The settings of a solver. -/
def SolverConfig.ofDescription (description : Description) : Reading SolverConfig := do
  let usual : SolverConfig := {}
  let config := { usual with
    nodeLimit := ← description.fieldOr "node_limit" Description.asWord64 usual.nodeLimit
    cacheBits := ← description.fieldOr "cache_bits" Description.asWord64 usual.cacheBits
    timeout := ← description.fieldOr "timeout_ms" (fun d => some <$> d.asWord64) none
    maxBitVecWidth := ← description.fieldOr "max_bv" Description.asWord32 usual.maxBitVecWidth
    maxAtomAssignments :=
      ← description.fieldOr "max_assign" Description.asWord64 usual.maxAtomAssignments
    maxPaths := ← description.fieldOr "max_paths" Description.asWord64 usual.maxPaths }
  let config ←
    description.fieldOr "range"
      (fun d => do
        let (low, high) ← rangeOfDescription d
        return config.withDefaultRange low high)
      config
  let ranges ←
    description.fieldOr "ranges"
      (fun d => do
        (← d.asRecord).mapM fun (name, range) => return (name, ← rangeOfDescription range))
      []
  let config := ranges.foldl (fun config (name, low, high) => config.withRange name low high)
    config
  description.fieldOr "margin" (fun d => return config.withMargin (← d.asInt64)) config

end AbstractionRefinement
