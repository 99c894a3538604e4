import CodingGateway.Model.Common
import Mathlib.Data.Rat.Init
set_option autoImplicit false

/-!
# Counters (`metrics.h`)
-/

namespace CodingGateway.Model

/-- `struct metrics`; the latency sum is read as an exact rational. -/
structure Metrics where
  shardsSent : ℕ → UInt64
  shardsReceived : ℕ → UInt64
  decodeSuccess : UInt64
  decodeFailure : UInt64
  blocksEncoded : UInt64
  latencyBucket : ℕ → UInt64
  latencyCount : UInt64
  latencySumMs : ℚ

/-- `memset(&g_metrics, 0, sizeof(g_metrics))`. -/
def zeroMetrics : Metrics where
  shardsSent _ := 0
  shardsReceived _ := 0
  decodeSuccess := 0
  decodeFailure := 0
  blocksEncoded := 0
  latencyBucket _ := 0
  latencyCount := 0
  latencySumMs := 0

/-- `counter[i]++`. -/
def bump (counter : ℕ → UInt64) (i : ℕ) : ℕ → UInt64 :=
  Function.update counter i (counter i + 1)

end CodingGateway.Model
