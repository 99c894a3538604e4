import CodingGateway.Library.FloatRounding
import CodingGateway.Model.Config
import Mathlib.Algebra.Order.Floor.Defs
import Mathlib.Data.Rat.Floor
set_option autoImplicit false

/-!
# The path strategy (`strategy.c`)

Credit-based round robin over the paths that are enabled and alive, redundancy
that grows when paths die, and the probe statistics that decide who is alive.

Floats are read as exact rationals, except by the functions whose names end in `Float`: there
each operation keeps what a `float` holds of its exact result.
-/

namespace CodingGateway.Model

def maxRedundancy : ℚ := 3

/-- `roundf`: to the nearest integer, halves away from zero. -/
def roundf (x : ℚ) : ℤ := if 0 ≤ x then ⌊x + 1 / 2⌋ else -⌊-x + 1 / 2⌋

/-- `(int)` of a float without fraction.  Outside the range of `int` C leaves the result open;
this is `INT_MIN`, as x86-64 has it. -/
def toInt (z : ℤ) : ℤ := if -2 ^ 31 ≤ z ∧ z < 2 ^ 31 then z else -2 ^ 31

/-- What a `float` holds of an exact result, the range taken as unbounded. -/
def toFloat (x : ℚ) : ℚ := Library.FloatRounding.round Library.FloatRounding.binary32 x

/-- The credit that a weight buys: rounded, at least one. -/
def creditOf (weight : ℚ) : ℤ :=
  let credit := toInt (roundf weight)
  if credit < 1 then 1 else credit

/-- `struct path_state`. -/
structure PathState where
  cfg : PathConfig
  lossRate : ℚ
  rttMs : ℚ
  weightCurrent : ℚ
  alive : Bool
  probesSent : UInt64
  probesRecv : UInt64
  shardsSent : UInt64

/-- `struct strategy_ctx`. -/
structure StrategyCtx where
  paths : ℕ → PathState
  pathCount : ℕ
  type : List UInt8
  baseRedundancy : ℚ
  lossThreshold : ℚ
  ewmaAlpha : ℚ
  pathCredit : ℕ → ℤ

/-- The smoothing factor in use: `0.2` when the configured one is outside `(0,1]`. -/
def effectiveAlpha (alpha : ℚ) : ℚ := if 0 < alpha ∧ alpha ≤ 1 then alpha else 1 / 5

/-- The path slots beyond `path_count`, as `calloc` leaves them. -/
def zeroPath : PathState where
  cfg := ⟨[], [], [], 0, 0, false⟩
  lossRate := 0
  rttMs := 0
  weightCurrent := 0
  alive := false
  probesSent := 0
  probesRecv := 0
  shardsSent := 0

/-- `strategy_init`, when `calloc` succeeds. -/
def strategyInit (cfg : GatewayConfig) : StrategyCtx where
  paths i :=
    if i < cfg.pathCount then
      { zeroPath with
        cfg := cfg.paths i
        weightCurrent := (cfg.paths i).weight
        alive := (cfg.paths i).enabled
        rttMs := 5
        lossRate := 0 }
    else zeroPath
  pathCount := cfg.pathCount
  type := cfg.strategyType.take 15
  baseRedundancy := cfg.redundancyRatio
  lossThreshold := cfg.probeLossThreshold
  ewmaAlpha := effectiveAlpha cfg.ewmaAlpha
  pathCredit i := if i < cfg.pathCount then creditOf (cfg.paths i).weight else 0

/-- A path that shards may be sent on. -/
def StrategyCtx.usable (ctx : StrategyCtx) (i : ℕ) : Bool :=
  (ctx.paths i).cfg.enabled && (ctx.paths i).alive

/-- The refill step of `strategy_next_path`. -/
def refillCredits (ctx : StrategyCtx) : StrategyCtx :=
  if (List.range ctx.pathCount).any (fun i => ctx.usable i && decide (0 < ctx.pathCredit i)) then
    ctx
  else
    { ctx with
      pathCredit := fun i =>
        if i < ctx.pathCount ∧ ctx.usable i then creditOf (ctx.paths i).weightCurrent
        else ctx.pathCredit i }

/-- One turn of the selection loop: the usable path of highest credit, lowest index first. -/
def pickBest (ctx : StrategyCtx) (best : Option ℕ) (i : ℕ) : Option ℕ :=
  if ctx.usable i then
    match best with
    | none => some i
    | some b => if ctx.pathCredit b < ctx.pathCredit i then some i else some b
  else best

/-- `strategy_next_path`: `none` is the return value `-1`. -/
def strategyNextPath (ctx : StrategyCtx) : StrategyCtx × Option ℕ :=
  if (List.range ctx.pathCount).any ctx.usable then
    let ctx := refillCredits ctx
    match (List.range ctx.pathCount).foldl (pickBest ctx) none with
    | none => (ctx, none)
    | some best =>
        ({ ctx with pathCredit := Function.update ctx.pathCredit best (ctx.pathCredit best - 1) },
          some best)
  else (ctx, none)

/-- `n_total` of `strategy_compute_n`. -/
def StrategyCtx.nTotal (ctx : StrategyCtx) : ℕ :=
  (List.range ctx.pathCount).countP fun i => (ctx.paths i).cfg.enabled

/-- `n_alive` of `strategy_compute_n`. -/
def StrategyCtx.nAlive (ctx : StrategyCtx) : ℕ := (List.range ctx.pathCount).countP ctx.usable

/-- The ratio `strategy_compute_n` works with. -/
def StrategyCtx.ratio (ctx : StrategyCtx) : ℚ :=
  if ctx.nAlive = 0 then maxRedundancy
  else if ctx.nAlive < ctx.nTotal then
    let ratio := ctx.baseRedundancy * ((ctx.nTotal : ℚ) / (ctx.nAlive : ℚ))
    if maxRedundancy < ratio then maxRedundancy else ratio
  else ctx.baseRedundancy

/-- `strategy_compute_n`. -/
def strategyComputeN (ctx : StrategyCtx) (k : ℤ) : ℤ :=
  if k < 1 then -1
  else
    let n := ⌈(k : ℚ) * ctx.ratio⌉
    let n := if n < k then k else n
    if (maxN : ℤ) < n then maxN else n

/-- The ratio of `strategy_compute_n`, in `float`s. -/
def StrategyCtx.ratioFloat (ctx : StrategyCtx) : ℚ :=
  let baseRedundancy := toFloat ctx.baseRedundancy
  if ctx.nAlive = 0 then maxRedundancy
  else if ctx.nAlive < ctx.nTotal then
    let ratio := toFloat (baseRedundancy * toFloat (toFloat ctx.nTotal / toFloat ctx.nAlive))
    if maxRedundancy < ratio then maxRedundancy else ratio
  else baseRedundancy

/-- `strategy_compute_n`, in `float`s. -/
def strategyComputeNFloat (ctx : StrategyCtx) (k : ℤ) : ℤ :=
  if k < 1 then -1
  else
    let n := toInt ⌈toFloat (toFloat k * ctx.ratioFloat)⌉
    let n := if n < k then k else n
    if (maxN : ℤ) < n then maxN else n

/-- `strategy_update_probe`, `fl` being what is kept of the result of an operation; a path index
is never negative here. -/
def strategyUpdateProbeIn (fl : ℚ → ℚ) (ctx : StrategyCtx) (pathIdx : ℕ) (rttUs : UInt64)
    (received : Bool) : StrategyCtx :=
  if ctx.pathCount ≤ pathIdx then ctx
  else
    let ewmaAlpha := fl ctx.ewmaAlpha
    let lossThreshold := fl ctx.lossThreshold
    let p := ctx.paths pathIdx
    let p := { p with probesSent := p.probesSent + 1 }
    let p :=
      if received then
        let rttMs := fl (fl (rttUs.toNat : ℚ) / 1000)
        { p with
          probesRecv := p.probesRecv + 1
          rttMs := fl (fl (ewmaAlpha * rttMs) + fl (fl (1 - ewmaAlpha) * p.rttMs)) }
      else p
    let observedLoss : ℚ := if received then 0 else 1
    let p := { p with
      lossRate := fl (fl (ewmaAlpha * observedLoss) + fl (fl (1 - ewmaAlpha) * p.lossRate)) }
    let p := if lossThreshold < p.lossRate then { p with alive := false } else p
    if p.lossRate < fl (lossThreshold * (1 / 2)) then
      { ctx with
        paths := Function.update ctx.paths pathIdx { p with alive := true }
        pathCredit := Function.update ctx.pathCredit pathIdx (creditOf p.weightCurrent) }
    else { ctx with paths := Function.update ctx.paths pathIdx p }

/-- `strategy_update_probe`. -/
def strategyUpdateProbe : StrategyCtx → ℕ → UInt64 → Bool → StrategyCtx :=
  strategyUpdateProbeIn id

/-- `strategy_update_probe`, in `float`s. -/
def strategyUpdateProbeFloat : StrategyCtx → ℕ → UInt64 → Bool → StrategyCtx :=
  strategyUpdateProbeIn toFloat

/-- `strategy_reload`. -/
def strategyReload (ctx : StrategyCtx) (cfg : GatewayConfig) : StrategyCtx where
  paths i :=
    if i < ctx.pathCount ∧ i < cfg.pathCount then
      { ctx.paths i with
        cfg := { (ctx.paths i).cfg with
          weight := (cfg.paths i).weight
          enabled := (cfg.paths i).enabled }
        weightCurrent := (cfg.paths i).weight
        alive := if (cfg.paths i).enabled then (ctx.paths i).alive else false }
    else ctx.paths i
  pathCount := ctx.pathCount
  type := cfg.strategyType.take 15
  baseRedundancy := cfg.redundancyRatio
  lossThreshold := cfg.probeLossThreshold
  ewmaAlpha := effectiveAlpha cfg.ewmaAlpha
  pathCredit i :=
    if i < ctx.pathCount ∧ i < cfg.pathCount ∧ (cfg.paths i).enabled then
      creditOf (cfg.paths i).weight
    else ctx.pathCredit i

end CodingGateway.Model
