import CodingGateway.Model.Main
import CodingGateway.Model.MetricsPage
set_option autoImplicit false

/-!
# Answering a metrics request (`main.c`)

For a request `main` copies the name, the loss rate and the round-trip time of every path out
of the strategy, and hands them to `metrics_handle` with the redundancy ratio in force.
-/

namespace CodingGateway.Model

open Library.Printf

/-- `strategy_get_path_state`; `none` is `NULL`. -/
def strategyGetPathState (ctx : StrategyCtx) (idx : ℤ) : Option PathState :=
  if idx < 0 ∨ (ctx.pathCount : ℤ) ≤ idx then none else some (ctx.paths idx.toNat)

/-- `strategy_path_count`. -/
def strategyPathCount (ctx : StrategyCtx) : ℤ := ctx.pathCount

/-- A `float` given to `snprintf`. -/
def floatValue (q : ℚ) : FloatValue := .finite (decide (q < 0)) |q|

/-- What `main` stores for path `pi` in its arrays `pnames`, `loss` and `rtt`. -/
structure PathGauges where
  name : List UInt8
  loss : ℚ
  rtt : ℚ

def pathGauges (ctx : StrategyCtx) (pi : ℕ) : PathGauges :=
  match strategyGetPathState ctx pi with
  | some ps => ⟨ps.cfg.name, ps.lossRate, ps.rttMs⟩
  | none => ⟨[], 0, 0⟩

/-- What is written to a client that connects; `body` and `resp` are the uninitialised arrays of
`metrics_handle`. -/
def mainPage (st : MainState) (body resp : Bytes) : Option (List UInt8) :=
  metricsHandle st.metrics (fun pi => (pathGauges st.sctx pi).name) (strategyPathCount st.sctx)
    (fun pi => floatValue (pathGauges st.sctx pi).loss)
    (fun pi => floatValue (pathGauges st.sctx pi).rtt) (floatValue st.cfg.redundancyRatio) body resp

end CodingGateway.Model
