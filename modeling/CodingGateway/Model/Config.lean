import CodingGateway.Model.Common
import Mathlib.Data.Rat.Init
set_option autoImplicit false

/-!
# The configuration record (`config.h`)

A `char` array is the list of its bytes before the terminating NUL; a `float` is
read as an exact rational.
-/

namespace CodingGateway.Model

/-- The bytes of a string literal. -/
def chars (s : String) : List UInt8 := s.toList.map fun c => UInt8.ofNat c.toNat

/-- `struct path_config`. -/
structure PathConfig where
  name : List UInt8
  interface : List UInt8
  remoteIp : List UInt8
  remotePort : UInt16
  weight : ℚ
  enabled : Bool

/-- `struct gateway_config`. -/
structure GatewayConfig where
  mode : List UInt8
  tunName : List UInt8
  tunAddr : List UInt8
  k : ℤ
  redundancyRatio : ℚ
  blockTimeoutMs : ℤ
  maxPayload : ℤ
  windowSize : ℤ
  strategyType : List UInt8
  probeIntervalMs : ℤ
  probeLossThreshold : ℚ
  ewmaAlpha : ℚ
  listenPort : ℤ
  paths : ℕ → PathConfig
  pathCount : ℕ
  metricsPort : ℤ
  logLevel : ℤ
  cryptoKey : List UInt8
  ipForward : Bool
  forwardRoutes : ℕ → List UInt8
  forwardRouteCount : ℕ

end CodingGateway.Model
