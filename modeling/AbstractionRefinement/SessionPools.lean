import AbstractionRefinement.SolverQueries

/-!
# Pools of solver sessions

A pool holds the sessions that were opened with the same settings, one of which
is the current one, and counts sessions and checks over all of them.
-/

namespace AbstractionRefinement

/-- Open sessions with the number of the current one. -/
structure SessionPool where
  config : SolverConfig
  sessions : List Session
  current : Nat
  statistics : SolverStatistics

namespace SessionPool

/-- Open another session, which becomes the current one and is numbered after
those before it. -/
def openSession (theme : SessionTheme) : Computation SessionPool Nat := do
  let pool ← get
  let (opened, statistics) := (Query.openSession pool.config theme).runOn pool.statistics
  set { pool with statistics }
  let session ← (opened : Except EngineError Session)
  let number := pool.sessions.length
  modify fun pool => { pool with sessions := pool.sessions ++ [session], current := number }
  return number

/-- A pool with one session. -/
def start (config : SolverConfig) (theme : SessionTheme) :
    Except EngineError SessionPool :=
  let (opened, pool) := (openSession theme).runOn ⟨config, [], 0, {}⟩
  opened.map fun _ => pool

/-- Make another session the current one, if it exists. -/
def select? (pool : SessionPool) (number : Nat) : Option SessionPool :=
  if number < pool.sessions.length then some { pool with current := number } else none

/-- Run a query on the current session. -/
def run {α : Type} (query : Query α) : Computation SessionPool α := fun pool =>
  let session := pool.sessions.getD pool.current (.start pool.config .plain)
  let (result, state) := query ⟨session, pool.statistics⟩
  (result, { pool with
    sessions := pool.sessions.set pool.current state.session
    statistics := state.statistics })

end SessionPool

end AbstractionRefinement
