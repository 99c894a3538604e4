import CodingGateway.Model.ConfigLoad
import CodingGateway.Model.System
set_option autoImplicit false

/-!
# The TUN device (`tun.c`)

Opening the device, giving it an address, and the commands that let forwarded traffic
through it.
-/

namespace CodingGateway.Model

/-- What `tun_open` meets outside the code. -/
structure TunOpenEnv where
  /-- `open` of `/dev/net/tun`. -/
  opens : Bool
  /-- `ioctl` with `TUNSETIFF`. -/
  tunSetIff : Bool

/-- `tun_open`; `none` is the return value `-1`. -/
def tunOpen (os : System) (env : TunOpenEnv) : Sys (Option ℕ) := do
  match ← openFd os env.opens with
  | none => pure none
  | some fd =>
      if env.tunSetIff then pure (some fd)
      else do
        closeFd fd
        pure none

/-! ## The address -/

/-- The address before the slash, cut to what `addr` holds. -/
def tunAddr (addrCidr : List UInt8) : List UInt8 := (addrCidr.takeWhile (· ≠ 47)).take 39

/-- The prefix length after the slash, 24 without one, moved into `[0, 32]`. -/
def tunPrefix (num : NumberParser) (addrCidr : List UInt8) : ℤ :=
  clamp 0 32 (if 47 ∈ addrCidr then num.atoi ((addrCidr.dropWhile (· ≠ 47)).drop 1) else 24)

/-- The netmask of a prefix length. -/
def tunMask (length : ℤ) : UInt32 :=
  if length = 0 then 0 else 0xFFFFFFFF <<< UInt32.ofNat (32 - length).toNat

/-- The requests of `tun_configure`. -/
inductive IfRequest
  | siocsifaddr (addr : UInt32)
  | siocsifnetmask (mask : UInt32)
  | siocgifflags
  | siocsifflags
  | siocsifmtu (mtu : ℕ)
deriving DecidableEq

/-- What `tun_configure` meets outside the code. -/
structure TunConfigureEnv where
  socket : Bool
  /-- The address that `inet_pton` stores, if it returns 1. -/
  inetPton : List UInt8 → Option UInt32
  /-- Whether `ioctl` takes a request for an interface. -/
  ioctl : List UInt8 → IfRequest → Bool

/-- The requests in the order in which they are made, and whether each must succeed. -/
def tunRequests (num : NumberParser) (addrCidr : List UInt8) (addr : UInt32) :
    List (IfRequest × Bool) :=
  [(.siocsifaddr addr, true), (.siocsifnetmask (tunMask (tunPrefix num addrCidr)), true),
    (.siocgifflags, true), (.siocsifflags, true), (.siocsifmtu maxPayload, false)]

/-- The requests made: up to the first one that must succeed and fails. -/
def sendRequests (ioctl : IfRequest → Bool) :
    List (IfRequest × Bool) → Bool × List IfRequest
  | [] => (true, [])
  | (req, needed) :: rest =>
      if needed && !ioctl req then (false, [req])
      else
        let (ok, made) := sendRequests ioctl rest
        (ok, req :: made)

/-- `tun_configure`: whether it returns 0, and the requests it made. -/
def tunConfigure (os : System) (num : NumberParser) (env : TunConfigureEnv)
    (name addrCidr : List UInt8) : Sys (Bool × List IfRequest) := do
  match ← openFd os env.socket with
  | none => pure (false, [])
  | some sock =>
      match env.inetPton (tunAddr addrCidr) with
      | none => do
          closeFd sock
          pure (false, [])
      | some addr => do
          let res := sendRequests (env.ioctl (strncpy name 15)) (tunRequests num addrCidr addr)
          closeFd sock
          pure res

/-! ## Forwarding -/

/-- What `tun_apply_forward` meets outside the code. -/
structure ForwardEnv where
  /-- `fopen` of `/proc/sys/net/ipv4/ip_forward`. -/
  opens : Bool
  /-- Whether `system` returns 0 for a command. -/
  system : List UInt8 → Bool

/-- `snprintf` into `cmd`. -/
def cmdText (text : List UInt8) : List UInt8 := text.take 127

/-- The texts formatted for the rule of one direction, `-i` or `-o`. -/
def iptablesText (direction : String) (tunName : List UInt8) : List UInt8 :=
  chars "iptables -C FORWARD " ++ chars direction ++ chars " " ++ tunName ++
    chars " -j ACCEPT 2>/dev/null || iptables -I FORWARD " ++ chars direction ++ chars " " ++
    tunName ++ chars " -j ACCEPT"

def routeText (route tunName : List UInt8) : List UInt8 :=
  chars "ip route replace " ++ route ++ chars " dev " ++ tunName

/-- The commands, in order. -/
def forwardCommands (tunName : List UInt8) (cfg : GatewayConfig) : List (List UInt8) :=
  [cmdText (iptablesText "-i" tunName), cmdText (iptablesText "-o" tunName)] ++
    (List.range cfg.forwardRouteCount).map fun i =>
      cmdText (routeText (cfg.forwardRoutes i) tunName)

/-- `tun_apply_forward`: whether it returns 0, and the commands given to `system`; only the
route commands count for the result. -/
def tunApplyForward (os : System) (env : ForwardEnv) (tunName : List UInt8)
    (cfg : GatewayConfig) : Sys (Bool × List (List UInt8)) := do
  if !cfg.ipForward then pure (true, [])
  else do
    let opened ←
      match ← fopen os env.opens with
      | none => pure false
      | some f => do
          fclose f
          pure true
    let routesSet := (List.range cfg.forwardRouteCount).all fun i =>
      env.system (cmdText (routeText (cfg.forwardRoutes i) tunName))
    pure (opened && routesSet, forwardCommands tunName cfg)

end CodingGateway.Model
