import CodingGateway.Library.Printf
import CodingGateway.Model.Config
import CodingGateway.Model.Metrics
set_option autoImplicit false

/-!
# The metrics page (`metrics.c`)

Latencies are recorded in buckets, and a page with all counters is written to whoever
connects.
-/

namespace CodingGateway.Model

open Library.Printf

def metricsLatencyBuckets : ℕ := 8

/-- `metrics_latency_bounds`, in milliseconds. -/
def metricsLatencyBounds : List ℕ := [1, 5, 10, 25, 50, 100, 250, 500]

/-- `metrics_record_latency`; rounding the quotient to a `double` does not carry it across
a bound, since the bounds are whole numbers of microseconds. -/
def metricsRecordLatency (m : Metrics) (latencyUs : UInt64) : Metrics :=
  let ms : ℚ := (latencyUs.toNat : ℚ) / 1000
  { m with
    latencyBucket := (List.range metricsLatencyBuckets).foldl
      (fun bucket i => if ms ≤ metricsLatencyBounds.getD i 0 then bump bucket i else bucket)
      m.latencyBucket
    latencyCount := m.latencyCount + 1
    latencySumMs := m.latencySumMs + ms }

/-! ## The page -/

def respMax : ℕ := 8192

/-- `sizeof(resp)`. -/
def respSize : ℕ := respMax + 256

/-- A line with one conversion. -/
def plainLine (metric : String) (value : List UInt8) : List UInt8 :=
  chars metric ++ value ++ chars "\n"

/-- A line with a path label. -/
def pathLine (metric : String) (name value : List UInt8) : List UInt8 :=
  chars metric ++ chars "\x7bpath=\"" ++ name ++ chars "\"\x7d " ++ value ++ chars "\n"

/-- A line of the histogram. -/
def bucketLine (bound : List UInt8) (count : ℕ) : List UInt8 :=
  chars "coding_gateway_block_latency_ms_bucket\x7ble=\"" ++ bound ++ chars "\"\x7d " ++
    decimal count ++ chars "\n"

/-- The loop over the buckets: `cum` accumulates what is stored. -/
def bucketLines (m : Metrics) (cum : UInt64) : List ℕ → List (List UInt8)
  | [] => []
  | i :: is =>
      let cum := cum + m.latencyBucket i
      bucketLine (decimal (metricsLatencyBounds.getD i 0)) cum.toNat :: bucketLines m cum is

/-- The texts that `metrics_handle` appends to the body, in order. -/
def metricsLines (m : Metrics) (pathNames : ℕ → List UInt8) (pathCount : ℤ)
    (lossRates rttMs : ℕ → FloatValue) (redundancyRatio : FloatValue) : List (List UInt8) :=
  let paths := List.range pathCount.toNat
  paths.map (fun i => pathLine "coding_gateway_shards_sent_total" (pathNames i)
    (decimal (m.shardsSent i).toNat)) ++
  paths.map (fun i => pathLine "coding_gateway_shards_received_total" (pathNames i)
    (decimal (m.shardsReceived i).toNat)) ++
  [plainLine "coding_gateway_decode_success_total " (decimal m.decodeSuccess.toNat),
    plainLine "coding_gateway_decode_failure_total " (decimal m.decodeFailure.toNat),
    plainLine "coding_gateway_blocks_encoded_total " (decimal m.blocksEncoded.toNat)] ++
  paths.flatMap (fun i =>
    [pathLine "coding_gateway_path_loss_rate" (pathNames i) (fixed 6 (lossRates i)),
      pathLine "coding_gateway_path_rtt_ms" (pathNames i) (fixed 3 (rttMs i))]) ++
  [plainLine "coding_gateway_redundancy_ratio_current " (fixed 4 redundancyRatio)] ++
  bucketLines m 0 (List.range metricsLatencyBuckets) ++
  [bucketLine (chars "+Inf") m.latencyCount.toNat,
    plainLine "coding_gateway_block_latency_ms_sum "
      (fixed 3 (.finite (decide (m.latencySumMs < 0)) |m.latencySumMs|)),
    plainLine "coding_gateway_block_latency_ms_count " (decimal m.latencyCount.toNat)]

/-- The response for a body of which `blen` is the running length. -/
def responseText (blen : ℕ) (body : List UInt8) : List UInt8 :=
  chars "HTTP/1.1 200 OK\r\nContent-Type: text/plain; version=0.0.4; charset=utf-8\r\n" ++
    chars "Content-Length: " ++ decimal blen ++ chars "\r\nConnection: close\r\n\r\n" ++ body

/-- `metrics_handle` on an accepted connection: the bytes given to `write`.  `body` and `resp`
are what the two arrays hold before they are written; there is no value when a call gets a
negative size, or a read or the `write` runs past an array. -/
def metricsHandle (m : Metrics) (pathNames : ℕ → List UInt8) (pathCount : ℤ)
    (lossRates rttMs : ℕ → FloatValue) (redundancyRatio : FloatValue) (body resp : Bytes) :
    Option (List UInt8) := do
  let page ← appendAll respMax ⟨body, 0⟩
    (metricsLines m pathNames pathCount lossRates rttMs redundancyRatio)
  let text ← stringOf respMax page.cells
  let response := responseText page.len text
  let resp := snprintf resp 0 respSize response
  if response.length ≤ respSize then some (prefixList resp response.length) else none

end CodingGateway.Model
