import CodingGateway.Library.Exposition
import CodingGateway.Model.Scrape
import CodingGateway.Proofs.MetricsPage
import CodingGateway.Proofs.PathGauges
import CodingGateway.Proofs.SendSafety
import CodingGateway.Proofs.TrafficCounters
set_option autoImplicit false

/-!
# What a scraper reads

A client that connects to the metrics port gets a message whose length field is right, and reads
from its lines the traffic of the run and the gauges of the strategy.

* `lines_of_samples` — the page is the lines of its samples;
* `readPage_responseText` — a client reads them back;
* `scrape_of_run` — so it reads the traffic, in every state of every run.
-/

namespace CodingGateway.Proofs.ScrapedPage

open CodingGateway.Model
open CodingGateway.Library.Exposition
open CodingGateway.Library.Printf
open CodingGateway.Proofs.Configuration
open CodingGateway.Proofs.EventLoop
open CodingGateway.Proofs.MetricsPage
open CodingGateway.Proofs.PathGauges
open CodingGateway.Proofs.ProcessRuns
open CodingGateway.Proofs.SendSafety (senderFile largestPacket)
open CodingGateway.Proofs.TrafficCounters

/-! ## The client -/

/-- A client takes the body if it has the announced length, and reads its samples. -/
def readPage (response : List UInt8) : Option (List Sample) :=
  let (header, body) := readMessage response
  match fieldValue (chars "Content-Length: ") header with
  | none => none
  | some len => if ofDecimal len = body.length then readSamples body else none

/-- The name of a series of path `name`. -/
def pathSeries (metric : String) (name : List UInt8) : List UInt8 :=
  chars metric ++ chars "\x7bpath=\"" ++ name ++ chars "\"\x7d"

def bucketSeries (bound : List UInt8) : List UInt8 :=
  chars "coding_gateway_block_latency_ms_bucket\x7ble=\"" ++ bound ++ chars "\"\x7d"

def count (n : ℕ) : List UInt8 := decimal (n % 2 ^ 64)

/-- What a client is to read: the traffic of the run, the gauges of the strategy, the ratio in
force, and a histogram that nothing is recorded in. -/
def samplesOf (cfg : GatewayConfig) (t : Traffic) (st : MainState) : List Sample :=
  let paths := List.range cfg.pathCount
  let name (i : ℕ) := (cfg.paths i).name
  paths.map (fun i => ⟨pathSeries "coding_gateway_shards_sent_total" (name i), count (t.sent i)⟩) ++
  paths.map (fun i =>
    ⟨pathSeries "coding_gateway_shards_received_total" (name i), count (t.received i)⟩) ++
  [⟨chars "coding_gateway_decode_success_total", count t.decoded⟩,
    ⟨chars "coding_gateway_decode_failure_total", count 0⟩,
    ⟨chars "coding_gateway_blocks_encoded_total", count t.flushed⟩] ++
  paths.flatMap (fun i =>
    [⟨pathSeries "coding_gateway_path_loss_rate" (name i),
        fixed 6 (floatValue (st.sctx.paths i).lossRate)⟩,
      ⟨pathSeries "coding_gateway_path_rtt_ms" (name i),
        fixed 3 (floatValue (st.sctx.paths i).rttMs)⟩]) ++
  [⟨chars "coding_gateway_redundancy_ratio_current",
    fixed 4 (floatValue st.cfg.redundancyRatio)⟩] ++
  metricsLatencyBounds.map (fun bound => ⟨bucketSeries (decimal bound), count 0⟩) ++
  [⟨bucketSeries (chars "+Inf"), count 0⟩,
    ⟨chars "coding_gateway_block_latency_ms_sum", fixed 3 (floatValue 0)⟩,
    ⟨chars "coding_gateway_block_latency_ms_count", count 0⟩]

/-! ## The texts of numbers -/

theorem lt_of_mem_decimal {n : ℕ} {c : UInt8} (h : c ∈ decimal n) : 32 < c := by
  have hdigits : ∀ d < 10, (32 : UInt8) < UInt8.ofNat (Nat.digitChar d).toNat := by decide
  obtain ⟨ch, hch, rfl⟩ := List.mem_map.mp h
  obtain ⟨d, hd, rfl⟩ := isDigit_of_mem_toDigits hch
  exact hdigits d hd

theorem lt_of_mem_signText {negative : Bool} {c : UInt8} (h : c ∈ signText negative) : 32 < c := by
  cases negative with
  | false => cases h
  | true =>
      rw [List.mem_singleton.mp h]
      decide

theorem lt_of_mem_fixed {precision : ℕ} {v : FloatValue} {c : UInt8} (h : c ∈ fixed precision v) :
    32 < c := by
  cases v with
  | nan negative =>
      rcases List.mem_append.mp h with hsign | hname
      · exact lt_of_mem_signText hsign
      · fin_cases hname <;> decide
  | infinite negative =>
      rcases List.mem_append.mp h with hsign | hname
      · exact lt_of_mem_signText hsign
      · fin_cases hname <;> decide
  | finite negative q =>
      simp only [fixed, List.mem_append, List.mem_singleton] at h
      rcases h with (((hsign | hwhole) | hpoint) | hzeros) | hfraction
      · exact lt_of_mem_signText hsign
      · exact lt_of_mem_decimal hwhole
      · rw [hpoint]
        decide
      · rw [List.eq_of_mem_replicate hzeros]
        decide
      · exact lt_of_mem_decimal hfraction

theorem newline_notMem_decimal (n : ℕ) : 10 ∉ decimal n := fun h =>
  absurd (lt_of_mem_decimal h) (by decide)

/-! ## The lines of the page -/

theorem line_pathSeries (metric : String) (name value : List UInt8) :
    Sample.line ⟨pathSeries metric name, value⟩ = pathLine metric name value := by
  have hclose : chars "\"\x7d " = chars "\"\x7d" ++ [32] := by decide
  have hend : chars "\n" = [10] := by decide
  simp [Sample.line, pathSeries, pathLine, hclose, hend]

theorem line_bucketSeries (bound : List UInt8) (n : ℕ) :
    Sample.line ⟨bucketSeries bound, decimal n⟩ = bucketLine bound n := by
  have hclose : chars "\"\x7d " = chars "\"\x7d" ++ [32] := by decide
  have hend : chars "\n" = [10] := by decide
  simp [Sample.line, bucketSeries, bucketLine, hclose, hend]

theorem line_plain (metric : String) (value : List UInt8) :
    Sample.line ⟨chars metric, value⟩ = plainLine (metric ++ " ") value := by
  have hend : chars "\n" = [10] := by decide
  have hblank : chars (metric ++ " ") = chars metric ++ [32] := by
    simp [chars]
  simp [Sample.line, plainLine, hblank, hend]

theorem counted_toNat (n : ℕ) : decimal (0 + UInt64.ofNat n).toNat = count n := by
  rw [UInt64.zero_add, UInt64.toNat_ofNat', count]

theorem map_range_congr {n : ℕ} {f : ℕ → List UInt8} {g : ℕ → Sample}
    (h : ∀ i < n, f i = (g i).line) :
    (List.range n).map f = ((List.range n).map g).map Sample.line := by
  rw [List.map_map]
  exact List.map_congr_left fun i hi => h i (List.mem_range.mp hi)

theorem flatMap_range_congr {n : ℕ} {f : ℕ → List (List UInt8)} {g : ℕ → List Sample}
    (h : ∀ i < n, f i = (g i).map Sample.line) :
    (List.range n).flatMap f = ((List.range n).flatMap g).map Sample.line := by
  rw [List.map_flatMap]
  exact List.flatMap_congr fun i hi => h i (List.mem_range.mp hi)

theorem pathGauges_of_lt {ctx : StrategyCtx} {i : ℕ} (hi : i < ctx.pathCount) :
    pathGauges ctx i = ⟨(ctx.paths i).cfg.name, (ctx.paths i).lossRate, (ctx.paths i).rttMs⟩ := by
  have hin : ¬ ((i : ℤ) < 0 ∨ (ctx.pathCount : ℤ) ≤ i) := by omega
  rw [pathGauges, strategyGetPathState, if_neg hin]
  rfl

theorem bucketLines_zero (t : Traffic) :
    bucketLines (counted zeroMetrics t) 0 (List.range metricsLatencyBuckets) =
      (metricsLatencyBounds.map fun bound =>
        (⟨bucketSeries (decimal bound), count 0⟩ : Sample)).map Sample.line := by
  rw [List.map_map]
  have hline : ∀ bound ∈ metricsLatencyBounds,
      (Sample.line ∘ fun bound => ⟨bucketSeries (decimal bound), count 0⟩) bound =
        bucketLine (decimal bound) 0 := fun bound _ => line_bucketSeries (decimal bound) 0
  rw [List.map_congr_left hline]
  rfl

theorem lines_of_samples {cfg : GatewayConfig} {t : Traffic} {st : MainState}
    (hgauged : Gauged cfg st.sctx) (hmetrics : st.metrics = counted zeroMetrics t) :
    metricsLines st.metrics (fun i => (pathGauges st.sctx i).name) (strategyPathCount st.sctx)
        (fun i => floatValue (pathGauges st.sctx i).loss)
        (fun i => floatValue (pathGauges st.sctx i).rtt) (floatValue st.cfg.redundancyRatio) =
      (samplesOf cfg t st).map Sample.line := by
  have hcount : (strategyPathCount st.sctx).toNat = cfg.pathCount := hgauged.pathCount
  have hgauges : ∀ i < cfg.pathCount, pathGauges st.sctx i =
      ⟨(cfg.paths i).name, (st.sctx.paths i).lossRate, (st.sctx.paths i).rttMs⟩ := by
    intro i hi
    rw [pathGauges_of_lt (hi.trans_eq hgauged.pathCount.symm), hgauged.name i hi]
  have hsent : ∀ i < cfg.pathCount, pathLine "coding_gateway_shards_sent_total"
      (pathGauges st.sctx i).name (decimal ((counted zeroMetrics t).shardsSent i).toNat) =
        Sample.line ⟨pathSeries "coding_gateway_shards_sent_total" (cfg.paths i).name,
          count (t.sent i)⟩ := by
    intro i hi
    rw [line_pathSeries, hgauges i hi, ← counted_toNat]
    rfl
  have hreceived : ∀ i < cfg.pathCount, pathLine "coding_gateway_shards_received_total"
      (pathGauges st.sctx i).name (decimal ((counted zeroMetrics t).shardsReceived i).toNat) =
        Sample.line ⟨pathSeries "coding_gateway_shards_received_total" (cfg.paths i).name,
          count (t.received i)⟩ := by
    intro i hi
    rw [line_pathSeries, hgauges i hi, ← counted_toNat]
    rfl
  have hpaths : ∀ i < cfg.pathCount,
      [pathLine "coding_gateway_path_loss_rate" (pathGauges st.sctx i).name
          (fixed 6 (floatValue (pathGauges st.sctx i).loss)),
        pathLine "coding_gateway_path_rtt_ms" (pathGauges st.sctx i).name
          (fixed 3 (floatValue (pathGauges st.sctx i).rtt))] =
      [(⟨pathSeries "coding_gateway_path_loss_rate" (cfg.paths i).name,
          fixed 6 (floatValue (st.sctx.paths i).lossRate)⟩ : Sample),
        ⟨pathSeries "coding_gateway_path_rtt_ms" (cfg.paths i).name,
          fixed 3 (floatValue (st.sctx.paths i).rttMs)⟩].map Sample.line := by
    intro i hi
    rw [hgauges i hi, List.map_cons, List.map_singleton, line_pathSeries, line_pathSeries]
  unfold metricsLines samplesOf
  rw [hcount, hmetrics]
  dsimp only
  rw [map_range_congr hsent, map_range_congr hreceived, flatMap_range_congr hpaths,
    bucketLines_zero]
  have hsuccess : decimal (counted zeroMetrics t).decodeSuccess.toNat = count t.decoded :=
    counted_toNat t.decoded
  have hencoded : decimal (counted zeroMetrics t).blocksEncoded.toNat = count t.flushed :=
    counted_toNat t.flushed
  have hinf : Sample.line ⟨bucketSeries (chars "+Inf"), count 0⟩ = bucketLine (chars "+Inf") 0 :=
    line_bucketSeries (chars "+Inf") 0
  simp only [List.map_append, List.map_cons, List.map_nil, line_plain, hsuccess, hencoded, hinf]
  rfl

/-! ## The response -/

def header (len : ℕ) : List (List UInt8) :=
  [chars "HTTP/1.1 200 OK", chars "Content-Type: text/plain; version=0.0.4; charset=utf-8",
    chars "Content-Length: " ++ decimal len, chars "Connection: close"]

theorem responseText_eq (len : ℕ) (body : List UInt8) :
    responseText len body = message (header len) body := by
  have hstatus : chars
      "HTTP/1.1 200 OK\r\nContent-Type: text/plain; version=0.0.4; charset=utf-8\r\n" =
        headerLine (chars "HTTP/1.1 200 OK") ++
          headerLine (chars "Content-Type: text/plain; version=0.0.4; charset=utf-8") := by
    decide
  have hclose : chars "\r\nConnection: close\r\n\r\n" =
      [13, 10] ++ headerLine (chars "Connection: close") ++ [13, 10] := by
    decide
  simp [responseText, message, header, hstatus, hclose, headerLine]

theorem header_lines (len : ℕ) : ∀ line ∈ header len, 10 ∉ line ∧ line ≠ [] := by
  have hname : 10 ∉ chars "Content-Length: " ∧ chars "Content-Length: " ≠ [] := by decide
  have hlength : 10 ∉ chars "Content-Length: " ++ decimal len := by
    rw [List.mem_append]
    exact fun hmem => hmem.elim hname.1 (newline_notMem_decimal len)
  intro line hline
  fin_cases hline
  · decide
  · decide
  · exact ⟨hlength, fun hnil => hname.2 (List.append_eq_nil_iff.mp hnil).1⟩
  · decide

theorem fieldValue_header (len : ℕ) :
    fieldValue (chars "Content-Length: ") (header len) = some (decimal len) := by
  have hstatus : (chars "Content-Length: ").isPrefixOf (chars "HTTP/1.1 200 OK") = false := by
    decide
  have htype : (chars "Content-Length: ").isPrefixOf
      (chars "Content-Type: text/plain; version=0.0.4; charset=utf-8") = false := by
    decide
  have hlength : (chars "Content-Length: ").isPrefixOf (chars "Content-Length: " ++ decimal len) =
      true := by
    rw [List.isPrefixOf_iff_prefix]
    exact List.prefix_append _ _
  simp only [fieldValue, header, List.findSome?_cons, hstatus, htype, hlength, Bool.false_eq_true,
    if_false, if_true, List.drop_left]

/-- **A client reads the samples back.** -/
theorem readPage_responseText {samples : List Sample} (h : ∀ s ∈ samples, s.Plain) :
    readPage (responseText (render samples).length (render samples)) = some samples := by
  rw [readPage, responseText_eq, readMessage_message (header_lines _)]
  dsimp only
  rw [fieldValue_header]
  dsimp only
  rw [ofDecimal_decimal, if_pos rfl, readSamples_render h]

/-! ## Every run -/

theorem plain_of_lt {series value : List UInt8} (hseries : 10 ∉ series)
    (hvalue : ∀ c ∈ value, 32 < c) : Sample.Plain ⟨series, value⟩ :=
  ⟨hseries, fun h => absurd (hvalue 10 h) (by decide), fun h => absurd (hvalue 32 h) (by decide)⟩

theorem plain_pathSeries {metric : String} {name value : List UInt8} (hmetric : 10 ∉ chars metric)
    (hname : Label name) (hvalue : ∀ c ∈ value, 32 < c) :
    Sample.Plain ⟨pathSeries metric name, value⟩ := by
  have hlabel : 10 ∉ chars "\x7bpath=\"" := by decide
  have hclose : 10 ∉ chars "\"\x7d" := by decide
  refine plain_of_lt ?_ hvalue
  simp [pathSeries, hmetric, hlabel, hclose, hname.newline]

theorem plain_bucketSeries {bound value : List UInt8} (hbound : 10 ∉ bound)
    (hvalue : ∀ c ∈ value, 32 < c) : Sample.Plain ⟨bucketSeries bound, value⟩ := by
  have hlabel : 10 ∉ chars "coding_gateway_block_latency_ms_bucket\x7ble=\"" := by decide
  have hclose : 10 ∉ chars "\"\x7d" := by decide
  refine plain_of_lt ?_ hvalue
  simp [bucketSeries, hlabel, hclose, hbound]

/-- The names stand on one line each, so every sample does. -/
theorem plain_samplesOf {cfg : GatewayConfig} (hnames : ∀ i, Label (cfg.paths i).name)
    (t : Traffic) (st : MainState) : ∀ s ∈ samplesOf cfg t st, s.Plain := by
  have hcount : ∀ n, ∀ c ∈ count n, 32 < c := fun _ _ h => lt_of_mem_decimal h
  have hfixed : ∀ precision v, ∀ c ∈ fixed precision v, 32 < c := fun _ _ _ h => lt_of_mem_fixed h
  simp only [samplesOf, List.forall_mem_append, List.forall_mem_map]
  refine ⟨⟨⟨⟨⟨⟨?sent, ?received⟩, ?counters⟩, ?gauges⟩, ?ratio⟩, ?buckets⟩, ?histogram⟩
  case sent => exact fun i _ => plain_pathSeries (by decide) (hnames i) (hcount _)
  case received => exact fun i _ => plain_pathSeries (by decide) (hnames i) (hcount _)
  case counters =>
    intro s hs
    fin_cases hs
    · exact plain_of_lt (by decide) (hcount _)
    · exact plain_of_lt (by decide) (hcount _)
    · exact plain_of_lt (by decide) (hcount _)
  case gauges =>
    intro s hs
    obtain ⟨i, _, hs⟩ := List.mem_flatMap.mp hs
    fin_cases hs
    · exact plain_pathSeries (by decide) (hnames i) (hfixed _ _)
    · exact plain_pathSeries (by decide) (hnames i) (hfixed _ _)
  case ratio =>
    intro s hs
    rw [List.mem_singleton.mp hs]
    exact plain_of_lt (by decide) (hfixed _ _)
  case buckets => exact fun bound _ => plain_bucketSeries (newline_notMem_decimal bound) (hcount _)
  case histogram =>
    intro s hs
    fin_cases hs
    · exact plain_bucketSeries (by decide) (hcount _)
    · exact plain_of_lt (by decide) (hfixed _ _)
    · exact plain_of_lt (by decide) (hcount _)

theorem below_floatValue {q b : ℚ} (h : |q| ≤ b) : Below b (floatValue q) := h

theorem abs_gauges_le {cfg : GatewayConfig} {ctx : StrategyCtx} (h : Gauged cfg ctx) (i : ℕ) :
    |(pathGauges ctx i).loss| ≤ 2 ^ 128 ∧ |(pathGauges ctx i).rtt| ≤ 2 ^ 128 := by
  by_cases hi : i < ctx.pathCount
  · obtain ⟨hnonneg, hone⟩ := h.loss i
    obtain ⟨hnonneg', hmax⟩ := h.rtt i
    rw [pathGauges_of_lt hi]
    dsimp only
    rw [abs_of_nonneg hnonneg, abs_of_nonneg hnonneg']
    constructor
    · exact hone.trans (by norm_num)
    · exact hmax.trans (by norm_num)
  · have hout : (i : ℤ) < 0 ∨ (ctx.pathCount : ℤ) ≤ i := by omega
    rw [pathGauges, strategyGetPathState, if_pos hout]
    norm_num

theorem widths_of_displays {cfg : GatewayConfig} {st : MainState} {t : Traffic}
    (hbound : cfg.pathCount ≤ maxPaths) (hshown : Shown cfg) (h : Displays cfg st)
    (hmetrics : st.metrics = counted zeroMetrics t) :
    Widths st.metrics (fun i => (pathGauges st.sctx i).name) (strategyPathCount st.sctx)
      (fun i => floatValue (pathGauges st.sctx i).loss)
      (fun i => floatValue (pathGauges st.sctx i).rtt) (floatValue st.cfg.redundancyRatio) := by
  have hgauged := h.gauged
  have hcount : strategyPathCount st.sctx = cfg.pathCount := congrArg Int.ofNat hgauged.pathCount
  apply widths_of_floats
  · rw [hcount]
    exact_mod_cast hbound
  · intro i hi
    rw [hcount] at hi
    rw [pathGauges_of_lt (by rw [hgauged.pathCount]; exact hi), hgauged.name i hi]
    exact ⟨(hshown.name i).length, (hshown.name i).nul⟩
  · exact fun i => below_floatValue (abs_gauges_le hgauged i).1
  · exact fun i => below_floatValue (abs_gauges_le hgauged i).2
  · exact below_floatValue h.ratio
  · rw [hmetrics]
    change |(0 : ℚ)| ≤ 2 ^ 1024
    rw [abs_zero]
    positivity

/-- **A scrape shows the traffic.** In every state of every run a client that connects is written
a page from which it reads, path by path, the shards that the run sent and received, the blocks
that it decoded and flushed, and the gauges of the strategy. -/
theorem scrape_of_run {num : NumberParser} {file : Option (List UInt8)} {cfg : GatewayConfig}
    {fuel : ℕ} {tctx : TransportCtx} {crypto : CryptoCtx} {now : Timeval}
    {inputs : List ProcessInput} {p : Process} {outs : List MainOutput}
    (hfloat : ∀ s, |num.atof s| ≤ 2 ^ 128) (hload : configLoad num file = some cfg)
    (hreload : ∀ inp ∈ turns inputs, ∀ new, inp.reload = some (some new) →
      ∃ file', configLoad num file' = some new)
    (hrun : processRun fuel (processInit cfg tctx crypto now) inputs = some (p, outs))
    (body resp : Bytes) :
    ∃ response, mainPage p.st body resp = some response ∧
      readPage response = some (samplesOf cfg
        (traffic (mainInit cfg tctx crypto now) (turns inputs) outs) p.st) := by
  have hbounds := bounds_of_configLoad hload
  have hshown := shown_of_configLoad hfloat hload
  have hdisplays : Displays cfg p.st := by
    refine displays_processRun hshown (fun inp hinp new hnew => ?_) hrun
    obtain ⟨file', hload'⟩ := hreload inp hinp new hnew
    exact shown_of_configLoad hfloat hload'
  have hk : 1 ≤ (mainInit cfg tctx crypto now).cfg.k.toNat := by
    have hpos : 1 ≤ (mainInit cfg tctx crypto now).cfg.k := hbounds.k.1
    omega
  have hmetrics : p.st.metrics = counted zeroMetrics
      (traffic (mainInit cfg tctx crypto now) (turns inputs) outs) := metrics_processRun hk hrun
  have hlines := lines_of_samples hdisplays.gauged hmetrics
  have hpage := metricsHandle_eq (widths_of_displays hbounds.pathCount hshown hdisplays hmetrics)
    body resp
  rw [hlines] at hpage
  exact ⟨_, hpage, readPage_responseText (plain_samplesOf hshown.name _ _)⟩

/-- A sender with one path that has flushed a block of one packet. -/
theorem scrape_of_run_onePacket :
    ∃ cfg tctx p outs,
      configLoad ⟨fun _ => 0, fun _ => 0⟩ (some senderFile) = some cfg ∧
      processRun 2 (processInit cfg tctx (cryptoInit none) ⟨0, 0⟩)
        [.turn { quietTurn with packet := some largestPacket }] = some (p, outs) ∧
      ∃ response, mainPage p.st (fun _ => 170) (fun _ => 170) = some response ∧
        readPage response = some (samplesOf cfg
          (traffic (mainInit cfg tctx (cryptoInit none) ⟨0, 0⟩)
            [{ quietTurn with packet := some largestPacket }] outs) p.st) := by
  have hload : ∃ cfg, configLoad ⟨fun _ => 0, fun _ => 0⟩ (some senderFile) = some cfg := ⟨_, rfl⟩
  obtain ⟨cfg, hload⟩ := hload
  have hopen : ∃ tctx, transportInit ⟨true, fun _ => 3, fun _ => some 1⟩ cfg = some tctx := ⟨_, rfl⟩
  obtain ⟨tctx, hopen⟩ := hopen
  have hrun : ∃ p outs, processRun 2 (processInit cfg tctx (cryptoInit none) ⟨0, 0⟩)
      [.turn { quietTurn with packet := some largestPacket }] = some (p, outs) := ⟨_, _, rfl⟩
  obtain ⟨p, outs, hrun⟩ := hrun
  refine ⟨cfg, tctx, p, outs, hload, hrun, scrape_of_run (fun _ => by norm_num) hload ?_ hrun _ _⟩
  intro inp hinp new hnew
  rw [List.mem_singleton.mp hinp] at hnew
  cases hnew

end CodingGateway.Proofs.ScrapedPage
