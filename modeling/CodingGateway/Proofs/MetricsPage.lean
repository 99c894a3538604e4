import CodingGateway.Model.MetricsPage
set_option autoImplicit false

/-!
# The metrics page fits

* `length_metricsLines_lt` — the widths of all lines together are below the size of the body.
* `metricsHandle_fits` — so nothing is cut off, and the response is the whole page.
-/

namespace CodingGateway.Proofs.MetricsPage

open CodingGateway.Model CodingGateway.Library.Printf

variable {m : Metrics} {pathNames : ℕ → List UInt8} {pathCount : ℤ}
  {lossRates rttMs : ℕ → FloatValue} {redundancyRatio : FloatValue}

/-- The widths of what is printed with `%s` and `%f`. -/
structure Widths (m : Metrics) (pathNames : ℕ → List UInt8) (pathCount : ℤ)
    (lossRates rttMs : ℕ → FloatValue) (redundancyRatio : FloatValue) : Prop where
  count : pathCount ≤ maxPaths
  names : ∀ i < pathCount.toNat, (pathNames i).length ≤ 31 ∧ 0 ∉ pathNames i
  loss : ∀ i < pathCount.toNat, (fixed 6 (lossRates i)).length ≤ 47
  rtt : ∀ i < pathCount.toNat, (fixed 3 (rttMs i)).length ≤ 47
  ratio : (fixed 4 redundancyRatio).length ≤ 47
  sum : (fixed 3 (.finite (decide (m.latencySumMs < 0)) |m.latencySumMs|)).length ≤ 320

/-- The values up to `bound`, and those that are not finite. -/
def Below (bound : ℚ) : FloatValue → Prop
  | .finite _ q => q ≤ bound
  | _ => True

theorem length_fixed_of_below {k : ℕ} (precision : ℕ) {v : FloatValue} {bound : ℚ}
    (h : Below bound v) (hk : 0 < k) (hprecision : 0 < precision)
    (hbound : bound ≤ (10 ^ k - 1 : ℕ)) :
    (fixed precision v).length ≤ k + precision + 2 := by
  cases v with
  | nan negative =>
      have hsign := length_signText_le negative
      simp only [fixed, List.length_append, List.length_cons, List.length_nil]
      omega
  | infinite negative =>
      have hsign := length_signText_le negative
      simp only [fixed, List.length_append, List.length_cons, List.length_nil]
      omega
  | finite negative q => exact length_fixed_le precision negative hk hprecision (le_trans h hbound)

/-- Whatever a `float` and a `double` may hold, it has the width assumed. -/
theorem widths_of_floats (hcount : pathCount ≤ maxPaths)
    (hnames : ∀ i < pathCount.toNat, (pathNames i).length ≤ 31 ∧ 0 ∉ pathNames i)
    (hloss : ∀ i, Below (2 ^ 128) (lossRates i)) (hrtt : ∀ i, Below (2 ^ 128) (rttMs i))
    (hratio : Below (2 ^ 128) redundancyRatio) (hsum : |m.latencySumMs| ≤ 2 ^ 1024) :
    Widths m pathNames pathCount lossRates rttMs redundancyRatio := by
  have hfloat : (2 ^ 128 : ℚ) ≤ (10 ^ 39 - 1 : ℕ) := by norm_num
  have hdouble : (2 ^ 1024 : ℚ) ≤ (10 ^ 309 - 1 : ℕ) := by
    have hnat : 2 ^ 1024 ≤ 10 ^ 309 - 1 := by decide +kernel
    exact_mod_cast hnat
  constructor
  · exact hcount
  · exact hnames
  · intro i _
    exact length_fixed_of_below 6 (hloss i) (by decide) (by decide) hfloat
  · intro i _
    have hlen := length_fixed_of_below 3 (hrtt i) (by decide) (by decide) hfloat
    omega
  · have hlen := length_fixed_of_below 4 hratio (by decide) (by decide) hfloat
    omega
  · have hlen := length_fixed_le 3 (decide (m.latencySumMs < 0)) (by decide) (by decide)
      (le_trans hsum hdouble)
    omega

/-- A line of at most 128 characters, none of them a NUL. -/
def Narrow (line : List UInt8) : Prop := line.length ≤ 128 ∧ 0 ∉ line

/-! ## Single lines -/

theorem narrow_plainLine (metric : String) {value : List UInt8} (hmetric : 0 ∉ chars metric)
    (hvalue : 0 ∉ value) (hlen : (chars metric).length + value.length ≤ 127) :
    Narrow (plainLine metric value) := by
  constructor
  · have hend : (chars "\n").length = 1 := rfl
    unfold plainLine
    rw [List.length_append, List.length_append, hend]
    omega
  · have hend : 0 ∉ chars "\n" := by decide
    simp [plainLine, hmetric, hvalue, hend]

theorem narrow_pathLine (metric : String) {name value : List UInt8} (hmetric : 0 ∉ chars metric)
    (hname : name.length ≤ 31 ∧ 0 ∉ name) (hvalue : 0 ∉ value)
    (hlen : (chars metric).length + value.length ≤ 86) : Narrow (pathLine metric name value) := by
  constructor
  · have hlabel : (chars "\x7bpath=\"").length = 7 := rfl
    have hclose : (chars "\"\x7d ").length = 3 := rfl
    have hend : (chars "\n").length = 1 := rfl
    have hshort := hname.1
    simp only [pathLine, List.length_append, hlabel, hclose, hend]
    omega
  · have hlabel : 0 ∉ chars "\x7bpath=\"" := by decide
    have hclose : 0 ∉ chars "\"\x7d " := by decide
    have hend : 0 ∉ chars "\n" := by decide
    simp [pathLine, hmetric, hname.2, hvalue, hlabel, hclose, hend]

theorem length_counter_le (n : UInt64) : (decimal n.toNat).length ≤ 20 :=
  length_decimal_le (by decide) (n.toNat_lt.trans (by decide))

theorem narrow_bucketLine (bound : List UInt8) (hbound : bound.length ≤ 20 ∧ 0 ∉ bound)
    (count : UInt64) : Narrow (bucketLine bound count.toNat) := by
  constructor
  · have hlabel : (chars "coding_gateway_block_latency_ms_bucket\x7ble=\"").length = 43 := rfl
    have hclose : (chars "\"\x7d ").length = 3 := rfl
    have hend : (chars "\n").length = 1 := rfl
    have hcount := length_counter_le count
    have hshort := hbound.1
    simp only [bucketLine, List.length_append, hlabel, hclose, hend]
    omega
  · have hlabel : 0 ∉ chars "coding_gateway_block_latency_ms_bucket\x7ble=\"" := by decide
    have hclose : 0 ∉ chars "\"\x7d " := by decide
    have hend : 0 ∉ chars "\n" := by decide
    simp [bucketLine, hbound.2, hlabel, hclose, hend, zero_notMem_decimal]

theorem narrow_counterLine (metric : String) (hmetric : 0 ∉ chars metric)
    (hlen : (chars metric).length ≤ 60) (n : UInt64) :
    Narrow (plainLine metric (decimal n.toNat)) := by
  have hcount := length_counter_le n
  exact narrow_plainLine metric hmetric (zero_notMem_decimal _) (by omega)

theorem narrow_pathCounterLine (metric : String) {name : List UInt8} (hmetric : 0 ∉ chars metric)
    (hlen : (chars metric).length ≤ 60) (hname : name.length ≤ 31 ∧ 0 ∉ name) (n : UInt64) :
    Narrow (pathLine metric name (decimal n.toNat)) := by
  have hcount := length_counter_le n
  exact narrow_pathLine metric hmetric hname (zero_notMem_decimal _) (by omega)

theorem narrow_pathGaugeLine (metric : String) {name : List UInt8} {precision : ℕ}
    {v : FloatValue} (hmetric : 0 ∉ chars metric) (hlen : (chars metric).length ≤ 30)
    (hname : name.length ≤ 31 ∧ 0 ∉ name) (hv : (fixed precision v).length ≤ 47) :
    Narrow (pathLine metric name (fixed precision v)) :=
  narrow_pathLine metric hmetric hname (zero_notMem_fixed precision v) (by omega)

theorem narrow_bucketLines (m : Metrics) (cum : UInt64) {is : List ℕ}
    (his : ∀ i ∈ is, i < metricsLatencyBuckets) : ∀ line ∈ bucketLines m cum is, Narrow line := by
  have hbounds : ∀ i < metricsLatencyBuckets, metricsLatencyBounds.getD i 0 < 10 ^ 20 := by decide
  induction is generalizing cum with
  | nil =>
      intro line hline
      cases hline
  | cons i is ih =>
      intro line hline
      rcases List.mem_cons.mp hline with rfl | hrest
      · have hlen := length_decimal_le (k := 20) (by decide)
          (hbounds i (his i List.mem_cons_self))
        exact narrow_bucketLine _ ⟨hlen, zero_notMem_decimal _⟩ _
      · exact ih _ (fun j hj => his j (List.mem_cons_of_mem i hj)) line hrest

theorem length_bucketLines (m : Metrics) (cum : UInt64) (is : List ℕ) :
    (bucketLines m cum is).length = is.length := by
  induction is generalizing cum with
  | nil => rfl
  | cons i is ih => exact congrArg Nat.succ (ih _)

/-! ## All lines -/

/-- Lines that together are as long as `n` narrow ones. -/
def Short (lines : List (List UInt8)) (n : ℕ) : Prop :=
  lines.flatten.length ≤ 128 * n ∧ 0 ∉ lines.flatten

theorem Short.append {lines more : List (List UInt8)} {n k : ℕ} (h : Short lines n)
    (hmore : Short more k) : Short (lines ++ more) (n + k) := by
  obtain ⟨hlen, hzero⟩ := h
  obtain ⟨hlen', hzero'⟩ := hmore
  unfold Short
  rw [List.flatten_append, List.length_append, List.mem_append]
  exact ⟨by omega, fun hmem => hmem.elim hzero hzero'⟩

theorem short_of_narrow {lines : List (List UInt8)} {n : ℕ} (hn : lines.length ≤ n)
    (h : ∀ line ∈ lines, Narrow line) : Short lines n := by
  constructor
  · have hlen : lines.flatten.length ≤ 128 * lines.length := by
      clear hn
      induction lines with
      | nil => exact Nat.le_refl 0
      | cons line lines ih =>
          have hline := (h line List.mem_cons_self).1
          have hrest := ih fun l hl => h l (List.mem_cons_of_mem line hl)
          rw [List.flatten_cons, List.length_append, List.length_cons]
          omega
    omega
  · intro hmem
    obtain ⟨line, hline, hzero⟩ := List.mem_flatten.mp hmem
    exact (h line hline).2 hzero

theorem short_singleton {line : List UInt8} (h : Narrow line) : Short [line] 1 :=
  short_of_narrow (Nat.le_refl 1) (List.forall_mem_singleton.mpr h)

theorem short_map {f : ℕ → List UInt8} {n : ℕ} (hn : n ≤ 8) (h : ∀ i < n, Narrow (f i)) :
    Short ((List.range n).map f) 8 := by
  apply short_of_narrow
  · rw [List.length_map, List.length_range]
    exact hn
  · exact List.forall_mem_map.mpr fun i hi => h i (List.mem_range.mp hi)

theorem short_flatMap {f g : ℕ → List UInt8} {n : ℕ} (hn : n ≤ 8) (hf : ∀ i < n, Narrow (f i))
    (hg : ∀ i < n, Narrow (g i)) :
    Short ((List.range n).flatMap fun i => [f i, g i]) 16 := by
  apply short_of_narrow
  · have hlen : ((List.range n).flatMap fun i => [f i, g i]).length = n * 2 := by
      simp
    omega
  · intro line hline
    obtain ⟨i, hi, hmem⟩ := List.mem_flatMap.mp hline
    rcases List.mem_pair.mp hmem with rfl | rfl
    · exact hf i (List.mem_range.mp hi)
    · exact hg i (List.mem_range.mp hi)

theorem short_sumLine (h : Widths m pathNames pathCount lossRates rttMs redundancyRatio) :
    Short [plainLine "coding_gateway_block_latency_ms_sum "
      (fixed 3 (.finite (decide (m.latencySumMs < 0)) |m.latencySumMs|))] 3 := by
  have hmetric : (chars "coding_gateway_block_latency_ms_sum ").length = 36 := rfl
  have hend : (chars "\n").length = 1 := rfl
  have hsum := h.sum
  constructor
  · rw [List.flatten_singleton, plainLine, List.length_append, List.length_append, hmetric, hend]
    omega
  · have hmetric' : 0 ∉ chars "coding_gateway_block_latency_ms_sum " := by decide
    have hend' : 0 ∉ chars "\n" := by decide
    simp [plainLine, hmetric', hend', zero_notMem_fixed]

/-- The page is as long as 49 narrow lines at most. -/
theorem short_metricsLines (h : Widths m pathNames pathCount lossRates rttMs redundancyRatio) :
    Short (metricsLines m pathNames pathCount lossRates rttMs redundancyRatio) 49 := by
  have hn : pathCount.toNat ≤ 8 := by
    have hcount : pathCount ≤ (8 : ℕ) := h.count
    omega
  have hsent := short_map hn fun i hi =>
    narrow_pathCounterLine "coding_gateway_shards_sent_total" (by decide) (by decide)
      (h.names i hi) (m.shardsSent i)
  have hreceived := short_map hn fun i hi =>
    narrow_pathCounterLine "coding_gateway_shards_received_total" (by decide)
      (by decide) (h.names i hi) (m.shardsReceived i)
  have hsuccess := short_singleton
    (narrow_counterLine "coding_gateway_decode_success_total " (by decide) (by decide)
      m.decodeSuccess)
  have hfailure := short_singleton
    (narrow_counterLine "coding_gateway_decode_failure_total " (by decide) (by decide)
      m.decodeFailure)
  have hencoded := short_singleton
    (narrow_counterLine "coding_gateway_blocks_encoded_total " (by decide) (by decide)
      m.blocksEncoded)
  have hgauges := short_flatMap hn
    (fun i hi => narrow_pathGaugeLine "coding_gateway_path_loss_rate" (by decide)
      (by decide) (h.names i hi) (h.loss i hi))
    (fun i hi => narrow_pathGaugeLine "coding_gateway_path_rtt_ms" (by decide)
      (by decide) (h.names i hi) (h.rtt i hi))
  have hratio := short_singleton
    (narrow_plainLine "coding_gateway_redundancy_ratio_current " (by decide)
      (zero_notMem_fixed 4 redundancyRatio)
      (by
        have hmetric : (chars "coding_gateway_redundancy_ratio_current ").length = 40 := rfl
        have hlen := h.ratio
        omega))
  have hbuckets := short_of_narrow (Nat.le_of_eq (length_bucketLines m 0 _))
    (narrow_bucketLines m 0 fun i hi => List.mem_range.mp hi)
  have hinf := short_singleton
    (narrow_bucketLine (chars "+Inf") (by decide) m.latencyCount)
  have hcount := short_singleton
    (narrow_counterLine "coding_gateway_block_latency_ms_count " (by decide)
      (by decide) m.latencyCount)
  have hcounters := (hsent.append hreceived).append (hsuccess.append (hfailure.append hencoded))
  have hhistogram := hinf.append ((short_sumLine h).append hcount)
  have hall := (((hcounters.append hgauges).append hratio).append hbuckets).append hhistogram
  exact hall

theorem flatten_metricsLines_ne_nil (m : Metrics) (pathNames : ℕ → List UInt8) (pathCount : ℤ)
    (lossRates rttMs : ℕ → FloatValue) (redundancyRatio : FloatValue) :
    (metricsLines m pathNames pathCount lossRates rttMs redundancyRatio).flatten ≠ [] := by
  intro hnil
  have hcount : plainLine "coding_gateway_block_latency_ms_count " (decimal m.latencyCount.toNat) ∈
      metricsLines m pathNames pathCount lossRates rttMs redundancyRatio :=
    List.mem_append_right _ (List.mem_of_getLast? rfl)
  have hempty := List.flatten_eq_nil_iff.mp hnil _ hcount
  exact absurd (List.append_eq_nil_iff.mp hempty).2 (by decide)

theorem length_responseText {blen : ℕ} (h : blen < respMax) (body : List UInt8) :
    (responseText blen body).length ≤ body.length + 150 := by
  have hstatus : (chars
      "HTTP/1.1 200 OK\r\nContent-Type: text/plain; version=0.0.4; charset=utf-8\r\n").length =
      73 := rfl
  have hname : (chars "Content-Length: ").length = 16 := rfl
  have hend : (chars "\r\nConnection: close\r\n\r\n").length = 23 := rfl
  have hlen : (decimal blen).length ≤ 4 := length_decimal_le (by decide) (h.trans (by decide))
  simp only [responseText, List.length_append, hstatus, hname, hend]
  omega

theorem length_metricsLines_lt
    (h : Widths m pathNames pathCount lossRates rttMs redundancyRatio) :
    (metricsLines m pathNames pathCount lossRates rttMs redundancyRatio).flatten.length <
      respMax :=
  Nat.lt_of_le_of_lt (short_metricsLines h).1 (by decide)

theorem appendAll_of_prefix (h : Widths m pathNames pathCount lossRates rttMs redundancyRatio)
    (body : Bytes) {done rest : List (List UInt8)}
    (hlines : metricsLines m pathNames pathCount lossRates rttMs redundancyRatio = done ++ rest) :
    ∃ page, appendAll respMax ⟨body, 0⟩ done = some page ∧ page.len < respMax ∧
      Holds page done.flatten := by
  have hlt : done.flatten.length < respMax := by
    have hall := length_metricsLines_lt h
    rw [hlines, List.flatten_append, List.length_append] at hall
    omega
  have hroom : ([] : List UInt8).length + done.flatten.length < respMax := by
    rw [List.length_nil, Nat.zero_add]
    exact hlt
  obtain ⟨page, hpage, hholds⟩ := appendAll_eq (holds_nil body) hroom
  rw [List.nil_append] at hholds
  exact ⟨page, hpage, hholds.len ▸ hlt, hholds⟩

theorem length_responseText_lt
    (h : Widths m pathNames pathCount lossRates rttMs redundancyRatio) :
    let content := (metricsLines m pathNames pathCount lossRates rttMs redundancyRatio).flatten
    (responseText content.length content).length < respSize := by
  intro content
  have hfit : content.length < respMax := length_metricsLines_lt h
  have hresponse := length_responseText hfit content
  have hmax : respSize = respMax + 256 := rfl
  omega

theorem metricsHandle_eq (h : Widths m pathNames pathCount lossRates rttMs redundancyRatio)
    (body resp : Bytes) :
    let content := (metricsLines m pathNames pathCount lossRates rttMs redundancyRatio).flatten
    metricsHandle m pathNames pathCount lossRates rttMs redundancyRatio body resp =
      some (responseText content.length content) := by
  intro content
  obtain ⟨page, hpage, -, hholds⟩ := appendAll_of_prefix h body (List.append_nil _).symm
  have hstring := stringOf_eq hholds (flatten_metricsLines_ne_nil _ _ _ _ _ _)
    (short_metricsLines h).2 (length_metricsLines_lt h)
  have hsize : (responseText content.length content).length < respSize :=
    length_responseText_lt h
  have hwritten : prefixList (snprintf resp 0 respSize (responseText content.length content))
      (responseText content.length content).length = responseText content.length content := by
    calc prefixList (snprintf resp 0 respSize (responseText content.length content)) _
        = prefixList (arrayOf (responseText content.length content)) _ :=
          prefixList_congr (snprintf_eq resp hsize)
      _ = responseText content.length content := prefixList_arrayOf _
  simp only [metricsHandle, hpage, hstring, hholds.len, Option.bind_eq_bind, Option.bind_some]
  exact (if_pos hsize.le).trans (congrArg some hwritten)

/-- Before every `snprintf`, and after the last one, the running length is below the size of the
body and the body holds all the lines so far; the response is the headers with the length of the
body and then the body, and it fits. -/
theorem metricsHandle_fits (h : Widths m pathNames pathCount lossRates rttMs redundancyRatio)
    (body resp : Bytes) :
    let lines := metricsLines m pathNames pathCount lossRates rttMs redundancyRatio
    let content := lines.flatten
    (∀ done rest, lines = done ++ rest → ∃ page, appendAll respMax ⟨body, 0⟩ done = some page ∧
      page.len < respMax ∧ Holds page done.flatten) ∧
    metricsHandle m pathNames pathCount lossRates rttMs redundancyRatio body resp =
        some (responseText content.length content) ∧
      (responseText content.length content).length < respSize := by
  exact ⟨fun _ _ hlines => appendAll_of_prefix h body hlines, metricsHandle_eq h body resp,
    length_responseText_lt h⟩

/-- Two paths, one counter with all its digits and a gauge that is no number. -/
theorem metricsHandle_fits_twoPaths :
    let m := { zeroMetrics with decodeSuccess := 18446744073709551615 }
    let names := fun i => if i = 0 then chars "lte" else chars "mmwave_direct"
    let page := (metricsLines m names 2 (fun _ => .finite false (1 / 4)) (fun _ => .nan true)
      (.finite false (3 / 2))).flatten
    metricsHandle m names 2 (fun _ => .finite false (1 / 4)) (fun _ => .nan true)
        (.finite false (3 / 2)) (fun _ => 170) (fun _ => 170) =
        some (responseText page.length page) ∧
      (responseText page.length page).length < respSize := by
  intro m names page
  have hnames : ∀ i < (2 : ℤ).toNat, (names i).length ≤ 31 ∧ 0 ∉ names i := by decide
  have hloss : ∀ _ : ℕ, Below (2 ^ 128) (.finite false (1 / 4)) := fun _ => by norm_num [Below]
  have hrtt : ∀ _ : ℕ, Below (2 ^ 128) (.nan true) := fun _ => by simp [Below]
  have hratio : Below (2 ^ 128) (.finite false (3 / 2)) := by norm_num [Below]
  have hsum : |m.latencySumMs| ≤ 2 ^ 1024 := by
    show |(0 : ℚ)| ≤ 2 ^ 1024
    rw [abs_zero]
    positivity
  have hwidths := widths_of_floats (m := m) (by decide) hnames hloss hrtt hratio hsum
  exact (metricsHandle_fits hwidths (fun _ => 170) (fun _ => 170)).2

end CodingGateway.Proofs.MetricsPage
