import CodingGateway.Model.Config
import Mathlib.Data.List.DropRight
set_option autoImplicit false

/-!
# Reading the configuration (`config.c`)

`config_load` reads an INI file line by line and clamps what it read.  A C string is
the list of its bytes before the NUL.
-/

namespace CodingGateway.Model

/-- `atoi`, and `atof` cast to `float`. -/
structure NumberParser where
  atoi : List UInt8 → ℤ
  atof : List UInt8 → ℚ

/-- `isspace` in the C locale. -/
def isSpace (c : UInt8) : Bool := c == 32 || (9 ≤ c && c ≤ 13)

/-- `trim`. -/
def trim (s : List UInt8) : List UInt8 := (s.dropWhile isSpace).rdropWhile isSpace

/-- `strncpy` of at most `n` characters into a zeroed array. -/
def strncpy (s : List UInt8) (n : ℕ) : List UInt8 := s.take n

/-- The calls of `fgets` with a buffer of 256 bytes: a line ends after its newline or after
255 characters.  `line` holds the characters of the current line in reverse. -/
def fgetsLines (line : List UInt8) : List UInt8 → List (List UInt8)
  | [] => if line.isEmpty then [] else [line.reverse]
  | c :: file =>
      if c = 10 ∨ line.length = 254 then (c :: line).reverse :: fgetsLines [] file
      else fgetsLines (c :: line) file

/-- The characters that the string functions see of a line. -/
def cString (line : List UInt8) : List UInt8 := line.takeWhile (· ≠ 0)

/-- A `struct path_config` after `memset`. -/
def zeroPathConfig : PathConfig := ⟨[], [], [], 0, 0, false⟩

/-- The values set before the file is read. -/
def configDefaults : GatewayConfig where
  mode := chars "tx"
  tunName := []
  tunAddr := []
  k := 4
  redundancyRatio := 3 / 2
  blockTimeoutMs := 5
  maxPayload := 1400
  windowSize := 8
  strategyType := chars "fixed"
  probeIntervalMs := 100
  probeLossThreshold := 3 / 10
  ewmaAlpha := 1 / 5
  listenPort := 7000
  paths _ := zeroPathConfig
  pathCount := 0
  metricsPort := 0
  logLevel := 2
  cryptoKey := []
  ipForward := false
  forwardRoutes _ := []
  forwardRouteCount := 0

/-- The variables of `config_load`: the record, the section and `cur_path`. -/
structure ConfigState where
  cfg : GatewayConfig
  sectionName : List UInt8
  curPath : Option ℕ

/-- `[general]`. -/
def setGeneral (num : NumberParser) (cfg : GatewayConfig) (key val : List UInt8) :
    GatewayConfig :=
  if key = chars "mode" then { cfg with mode := strncpy val 7 }
  else if key = chars "tun_name" then { cfg with tunName := strncpy val 15 }
  else if key = chars "tun_addr" then { cfg with tunAddr := strncpy val 19 }
  else if key = chars "listen_port" then { cfg with listenPort := num.atoi val }
  else if key = chars "metrics_port" then { cfg with metricsPort := num.atoi val }
  else if key = chars "log_level" then { cfg with logLevel := num.atoi val }
  else if key = chars "crypto_key" then { cfg with cryptoKey := strncpy val 64 }
  else cfg

/-- `[coding]`. -/
def setCoding (num : NumberParser) (cfg : GatewayConfig) (key val : List UInt8) :
    GatewayConfig :=
  if key = chars "k" then { cfg with k := num.atoi val }
  else if key = chars "redundancy_ratio" then { cfg with redundancyRatio := num.atof val }
  else if key = chars "block_timeout_ms" then { cfg with blockTimeoutMs := num.atoi val }
  else if key = chars "max_payload" then { cfg with maxPayload := num.atoi val }
  else if key = chars "window_size" then { cfg with windowSize := num.atoi val }
  else cfg

/-- `[strategy]`. -/
def setStrategy (num : NumberParser) (cfg : GatewayConfig) (key val : List UInt8) :
    GatewayConfig :=
  if key = chars "type" then { cfg with strategyType := strncpy val 15 }
  else if key = chars "probe_interval_ms" then { cfg with probeIntervalMs := num.atoi val }
  else if key = chars "probe_loss_threshold" then { cfg with probeLossThreshold := num.atof val }
  else if key = chars "ewma_alpha" then { cfg with ewmaAlpha := num.atof val }
  else cfg

/-- `[forward]`. -/
def setForward (cfg : GatewayConfig) (key val : List UInt8) : GatewayConfig :=
  if key = chars "ip_forward" then { cfg with ipForward := val = chars "true" }
  else if key = chars "route" ∧ cfg.forwardRouteCount < 8 then
    { cfg with
      forwardRoutes := Function.update cfg.forwardRoutes cfg.forwardRouteCount (val.take 47)
      forwardRouteCount := cfg.forwardRouteCount + 1 }
  else cfg

/-- The section of a path. -/
def setPath (num : NumberParser) (p : PathConfig) (key val : List UInt8) : PathConfig :=
  if key = chars "interface" then { p with interface := strncpy val 15 }
  else if key = chars "remote_ip" then { p with remoteIp := strncpy val 39 }
  else if key = chars "remote_port" then { p with remotePort := UInt16.ofInt (num.atoi val) }
  else if key = chars "weight" then { p with weight := num.atof val }
  else if key = chars "enabled" then { p with enabled := val = chars "true" }
  else p

/-- A section header: `p` is the line after the `[`. -/
def openSection (st : ConfigState) (p : List UInt8) : ConfigState :=
  if 93 ∈ p then
    let name := (trim (p.takeWhile (· ≠ 93))).take 63
    if (chars "path.").isPrefixOf name then
      if maxPaths ≤ st.cfg.pathCount then { st with sectionName := name, curPath := none }
      else
        { cfg := { st.cfg with
            paths := Function.update st.cfg.paths st.cfg.pathCount
              { zeroPathConfig with weight := 1, enabled := true, name := (name.drop 5).take 31 }
            pathCount := st.cfg.pathCount + 1 }
          sectionName := name
          curPath := some st.cfg.pathCount }
    else { st with sectionName := name, curPath := none }
  else st

/-- `key = value`. -/
def assign (num : NumberParser) (st : ConfigState) (key val : List UInt8) : ConfigState :=
  if st.sectionName = chars "general" then { st with cfg := setGeneral num st.cfg key val }
  else if st.sectionName = chars "coding" then { st with cfg := setCoding num st.cfg key val }
  else if st.sectionName = chars "strategy" then { st with cfg := setStrategy num st.cfg key val }
  else if st.sectionName = chars "forward" then { st with cfg := setForward st.cfg key val }
  else
    match st.curPath with
    | none => st
    | some i =>
        { st with cfg := { st.cfg with
            paths := Function.update st.cfg.paths i (setPath num (st.cfg.paths i) key val) } }

/-- One turn of the loop over lines. -/
def configLine (num : NumberParser) (st : ConfigState) (line : List UInt8) : ConfigState :=
  match trim (cString line) with
  | [] => st
  | c :: rest =>
      if c = 35 then st
      else if c = 91 then openSection st rest
      else if 61 ∈ c :: rest then
        assign num st (trim ((c :: rest).takeWhile (· ≠ 61)))
          (trim (((c :: rest).dropWhile (· ≠ 61)).drop 1))
      else st

/-- A value moved into `[lo, hi]` by two comparisons. -/
def clamp (lo hi v : ℤ) : ℤ :=
  let v := if v < lo then lo else v
  if hi < v then hi else v

/-- Post-parse validation. -/
def clampConfig (cfg : GatewayConfig) : GatewayConfig :=
  { cfg with
    k := clamp 1 maxK cfg.k
    windowSize := clamp 1 maxWindow cfg.windowSize
    maxPayload := clamp 1 maxPayload cfg.maxPayload }

/-- `config_load`; `none` for the file means that it does not open. -/
def configLoad (num : NumberParser) : Option (List UInt8) → Option GatewayConfig
  | none => none
  | some file =>
      some (clampConfig
        ((fgetsLines [] file).foldl (configLine num) ⟨configDefaults, [], none⟩).cfg)

end CodingGateway.Model
