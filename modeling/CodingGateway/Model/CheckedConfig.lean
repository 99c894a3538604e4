import CodingGateway.Library.CharArray
import CodingGateway.Model.ConfigLoad
set_option autoImplicit false

/-!
# Reading the configuration, with the arrays of the record

`config_load` once more, on the record as it is declared: its strings are character arrays
of fixed sizes, its paths and routes arrays of eight.  `none` is a write outside of one.
-/

namespace CodingGateway.Model

open CodingGateway.Library

/-- `struct path_config`. -/
structure PathArrays where
  name : Bytes
  interface : Bytes
  remoteIp : Bytes
  remotePort : UInt16
  weight : ℚ
  enabled : Bool

/-- `struct gateway_config`. -/
structure ConfigArrays where
  mode : Bytes
  tunName : Bytes
  tunAddr : Bytes
  k : ℤ
  redundancyRatio : ℚ
  blockTimeoutMs : ℤ
  maxPayload : ℤ
  windowSize : ℤ
  strategyType : Bytes
  probeIntervalMs : ℤ
  probeLossThreshold : ℚ
  ewmaAlpha : ℚ
  listenPort : ℤ
  paths : ℕ → PathArrays
  pathCount : ℕ
  metricsPort : ℤ
  logLevel : ℤ
  cryptoKey : Bytes
  ipForward : Bool
  forwardRoutes : ℕ → Bytes
  forwardRouteCount : ℕ

/-! ## The sizes that `config.h` declares -/

def modeSize : ℕ := 8
def tunNameSize : ℕ := 16
def tunAddrSize : ℕ := 20
def strategyTypeSize : ℕ := 16
def cryptoKeySize : ℕ := 65
def nameSize : ℕ := 32
def interfaceSize : ℕ := 16
def remoteIpSize : ℕ := 40
def maxRoutes : ℕ := 8
def routeSize : ℕ := 48

/-- A path after `memset`. -/
def zeroPathArrays : PathArrays := ⟨fun _ => 0, fun _ => 0, fun _ => 0, 0, 0, false⟩

/-- The record after `memset`. -/
def zeroConfigArrays : ConfigArrays where
  mode _ := 0
  tunName _ := 0
  tunAddr _ := 0
  k := 0
  redundancyRatio := 0
  blockTimeoutMs := 0
  maxPayload := 0
  windowSize := 0
  strategyType _ := 0
  probeIntervalMs := 0
  probeLossThreshold := 0
  ewmaAlpha := 0
  listenPort := 0
  paths _ := zeroPathArrays
  pathCount := 0
  metricsPort := 0
  logLevel := 0
  cryptoKey _ := 0
  ipForward := false
  forwardRoutes _ _ := 0
  forwardRouteCount := 0

/-- `strncpy(dst, src, sizeof(dst) - 1)`. -/
def copyString (size : ℕ) (dst : Bytes) (src : List UInt8) : Option Bytes :=
  CharArray.strncpy size dst src (size - 1)

/-- The defaults. -/
def checkedDefaults : Option ConfigArrays := do
  let mode ← copyString modeSize zeroConfigArrays.mode (chars "tx")
  let strategyType ← copyString strategyTypeSize zeroConfigArrays.strategyType (chars "fixed")
  some { zeroConfigArrays with
    mode := mode
    k := 4
    redundancyRatio := 3 / 2
    blockTimeoutMs := 5
    maxPayload := 1400
    windowSize := 8
    strategyType := strategyType
    probeIntervalMs := 100
    probeLossThreshold := 3 / 10
    ewmaAlpha := 1 / 5
    listenPort := 7000
    metricsPort := 0
    logLevel := 2 }

/-- The variables of `config_load`. -/
structure ArraysState where
  cfg : ConfigArrays
  sectionName : List UInt8
  curPath : Option ℕ

/-- `[general]`. -/
def checkedSetGeneral (num : NumberParser) (cfg : ConfigArrays) (key val : List UInt8) :
    Option ConfigArrays :=
  if key = chars "mode" then do
    let mode ← copyString modeSize cfg.mode val
    some { cfg with mode := mode }
  else if key = chars "tun_name" then do
    let tunName ← copyString tunNameSize cfg.tunName val
    some { cfg with tunName := tunName }
  else if key = chars "tun_addr" then do
    let tunAddr ← copyString tunAddrSize cfg.tunAddr val
    some { cfg with tunAddr := tunAddr }
  else if key = chars "listen_port" then some { cfg with listenPort := num.atoi val }
  else if key = chars "metrics_port" then some { cfg with metricsPort := num.atoi val }
  else if key = chars "log_level" then some { cfg with logLevel := num.atoi val }
  else if key = chars "crypto_key" then do
    let cryptoKey ← copyString cryptoKeySize cfg.cryptoKey val
    some { cfg with cryptoKey := cryptoKey }
  else some cfg

/-- `[coding]`. -/
def setCodingArrays (num : NumberParser) (cfg : ConfigArrays) (key val : List UInt8) :
    ConfigArrays :=
  if key = chars "k" then { cfg with k := num.atoi val }
  else if key = chars "redundancy_ratio" then { cfg with redundancyRatio := num.atof val }
  else if key = chars "block_timeout_ms" then { cfg with blockTimeoutMs := num.atoi val }
  else if key = chars "max_payload" then { cfg with maxPayload := num.atoi val }
  else if key = chars "window_size" then { cfg with windowSize := num.atoi val }
  else cfg

/-- `[strategy]`. -/
def checkedSetStrategy (num : NumberParser) (cfg : ConfigArrays) (key val : List UInt8) :
    Option ConfigArrays :=
  if key = chars "type" then do
    let strategyType ← copyString strategyTypeSize cfg.strategyType val
    some { cfg with strategyType := strategyType }
  else if key = chars "probe_interval_ms" then some { cfg with probeIntervalMs := num.atoi val }
  else if key = chars "probe_loss_threshold" then
    some { cfg with probeLossThreshold := num.atof val }
  else if key = chars "ewma_alpha" then some { cfg with ewmaAlpha := num.atof val }
  else some cfg

/-- `[forward]`. -/
def checkedSetForward (cfg : ConfigArrays) (key val : List UInt8) : Option ConfigArrays :=
  if key = chars "ip_forward" then some { cfg with ipForward := val = chars "true" }
  else if key = chars "route" ∧ cfg.forwardRouteCount < 8 then do
    let route ← BoundedArray.load maxRoutes cfg.forwardRoutes cfg.forwardRouteCount
    let rlen := if routeSize ≤ val.length then 47 else val.length
    let route ← CharArray.copyTerminated routeSize route val rlen
    let routes ← BoundedArray.store maxRoutes cfg.forwardRoutes cfg.forwardRouteCount route
    some { cfg with
      forwardRoutes := routes
      forwardRouteCount := cfg.forwardRouteCount + 1 }
  else some cfg

/-- The section of a path. -/
def checkedSetPath (num : NumberParser) (p : PathArrays) (key val : List UInt8) :
    Option PathArrays :=
  if key = chars "interface" then do
    let interface ← copyString interfaceSize p.interface val
    some { p with interface := interface }
  else if key = chars "remote_ip" then do
    let remoteIp ← copyString remoteIpSize p.remoteIp val
    some { p with remoteIp := remoteIp }
  else if key = chars "remote_port" then
    some { p with remotePort := UInt16.ofInt (num.atoi val) }
  else if key = chars "weight" then some { p with weight := num.atof val }
  else if key = chars "enabled" then some { p with enabled := val = chars "true" }
  else some p

/-- A section header: `p` is the line after the `[`. -/
def checkedOpenSection (st : ArraysState) (p : List UInt8) : Option ArraysState :=
  if 93 ∈ p then
    let name := (trim (p.takeWhile (· ≠ 93))).take 63
    if (chars "path.").isPrefixOf name then
      if maxPaths ≤ st.cfg.pathCount then
        some { st with sectionName := name, curPath := none }
      else do
        let label := name.drop 5
        let nlen := if nameSize ≤ label.length then nameSize - 1 else label.length
        let name' ← CharArray.copyTerminated nameSize zeroPathArrays.name label nlen
        let paths ← BoundedArray.store maxPaths st.cfg.paths st.cfg.pathCount
          { zeroPathArrays with weight := 1, enabled := true, name := name' }
        some
          { cfg := { st.cfg with paths := paths, pathCount := st.cfg.pathCount + 1 }
            sectionName := name
            curPath := some st.cfg.pathCount }
    else some { st with sectionName := name, curPath := none }
  else some st

/-- `key = value`. -/
def checkedAssign (num : NumberParser) (st : ArraysState) (key val : List UInt8) :
    Option ArraysState :=
  if st.sectionName = chars "general" then do
    let cfg ← checkedSetGeneral num st.cfg key val
    some { st with cfg := cfg }
  else if st.sectionName = chars "coding" then
    some { st with cfg := setCodingArrays num st.cfg key val }
  else if st.sectionName = chars "strategy" then do
    let cfg ← checkedSetStrategy num st.cfg key val
    some { st with cfg := cfg }
  else if st.sectionName = chars "forward" then do
    let cfg ← checkedSetForward st.cfg key val
    some { st with cfg := cfg }
  else
    match st.curPath with
    | none => some st
    | some i => do
        let path ← BoundedArray.load maxPaths st.cfg.paths i
        let path ← checkedSetPath num path key val
        let paths ← BoundedArray.store maxPaths st.cfg.paths i path
        some { st with cfg := { st.cfg with paths := paths } }

/-- One turn of the loop over lines. -/
def checkedConfigLine (num : NumberParser) (st : ArraysState) (line : List UInt8) :
    Option ArraysState :=
  match trim (cString line) with
  | [] => some st
  | c :: rest =>
      if c = 35 then some st
      else if c = 91 then checkedOpenSection st rest
      else if 61 ∈ c :: rest then
        checkedAssign num st (trim ((c :: rest).takeWhile (· ≠ 61)))
          (trim (((c :: rest).dropWhile (· ≠ 61)).drop 1))
      else some st

/-- `config_load` on a file that opens. -/
def checkedConfigLoad (num : NumberParser) (file : List UInt8) : Option ConfigArrays := do
  let cfg ← checkedDefaults
  let st ← (fgetsLines [] file).foldlM (checkedConfigLine num) ⟨cfg, [], none⟩
  some { st.cfg with
    k := clamp 1 maxK st.cfg.k
    windowSize := clamp 1 maxWindow st.cfg.windowSize
    maxPayload := clamp 1 maxPayload st.cfg.maxPayload }

end CodingGateway.Model
