import CodingGateway.Model.Tun
import CodingGateway.Proofs.ConfigBounds
import CodingGateway.Proofs.OpenHandles
import Mathlib.Tactic.IntervalCases
set_option autoImplicit false

/-!
# What the TUN device is asked for

Names, addresses and commands go through arrays of fixed size on their way to the kernel and
to the shell.  A loaded configuration fits all of them, so nothing is cut off.

* `toNat_tunMask` — the netmask of a prefix length;
* `sendRequests_eq` — the requests that are made;
* `returns_tunConfigure`, `returns_tunApplyForward` — one call each;
* `tunSetup_whole` — both calls, for every configuration that loads.
-/

namespace CodingGateway.Proofs.TunDevice

open CodingGateway.Library.Ownership
open CodingGateway.Model
open CodingGateway.Proofs.ConfigBounds
open CodingGateway.Proofs.Configuration
open CodingGateway.Proofs.OpenHandles

/-! ## The netmask -/

/-- The mask has as many leading ones as the prefix length says; the shift by 32, which C
leaves undefined, is never made. -/
theorem toNat_tunMask {length : ℕ} (h : length ≤ 32) :
    (tunMask length).toNat = 2 ^ 32 - 2 ^ (32 - length) := by
  interval_cases length <;> decide

theorem exists_tunPrefix (num : NumberParser) (addrCidr : List UInt8) :
    ∃ length : ℕ, length ≤ 32 ∧ tunPrefix num addrCidr = length := by
  have hclamp : 0 ≤ tunPrefix num addrCidr ∧ tunPrefix num addrCidr ≤ 32 :=
    clamp_mem (by decide)
  exact ⟨(tunPrefix num addrCidr).toNat, by omega, by omega⟩

/-! ## The requests -/

/-- A request lets the call go on, unless it must succeed and fails. -/
def goesOn (ioctl : IfRequest → Bool) (req : IfRequest × Bool) : Bool := !req.2 || ioctl req.1

/-- The requests made: all up to the first that must succeed and fails, that one included. -/
def requestsMade (ioctl : IfRequest → Bool) (requests : List (IfRequest × Bool)) :
    List IfRequest :=
  (requests.takeWhile (goesOn ioctl) ++ (requests.dropWhile (goesOn ioctl)).take 1).map Prod.fst

theorem sendRequests_eq (ioctl : IfRequest → Bool) (requests : List (IfRequest × Bool)) :
    sendRequests ioctl requests =
      (requests.all (goesOn ioctl), requestsMade ioctl requests) := by
  induction requests with
  | nil => rfl
  | cons req requests ih =>
      obtain ⟨req, needed⟩ := req
      have hgoes : goesOn ioctl (req, needed) = !(needed && !ioctl req) := by
        rw [goesOn, Bool.not_and, Bool.not_not]
      unfold sendRequests requestsMade
      rw [List.all_cons, List.takeWhile_cons, List.dropWhile_cons, hgoes]
      cases hfails : needed && !ioctl req with
      | true => rfl
      | false =>
          rw [ih]
          rfl

/-- The requests of a whole configuration of the device, and whether each must succeed. -/
def deviceRequests (addr : UInt32) (length : ℕ) : List (IfRequest × Bool) :=
  [(.siocsifaddr addr, true), (.siocsifnetmask (tunMask length), true), (.siocgifflags, true),
    (.siocsifflags, true), (.siocsifmtu maxPayload, false)]

/-- Everything that must succeed does; the MTU may be refused. -/
def DeviceUp (env : TunConfigureEnv) (name address : List UInt8) (length : ℕ) : Prop :=
  env.socket = true ∧ ∃ addr, env.inetPton address = some addr ∧
    ∀ req ∈ deviceRequests addr length, req.2 = true → env.ioctl name req.1 = true

/-- What a call of `tun_configure` returns and the requests that it makes. -/
structure Configures (env : TunConfigureEnv) (name address : List UInt8) (length : ℕ)
    (res : Bool × List IfRequest) : Prop where
  returns : res.1 = true ↔ DeviceUp env name address length
  refused : env.socket = false ∨ env.inetPton address = none → res.2 = []
  asked : ∀ addr, env.socket = true → env.inetPton address = some addr →
    res.2 = requestsMade (env.ioctl name) (deviceRequests addr length)

theorem returns_tunConfigure {os : System} {num : NumberParser} (env : TunConfigureEnv)
    (name addrCidr : List UInt8) {length : ℕ} (hlength : tunPrefix num addrCidr = length) :
    Returns (tunConfigure os num env name addrCidr)
      (Configures env (strncpy name 15) (tunAddr addrCidr) length) := by
  unfold tunConfigure
  refine (returns_obtainIf .descriptor env.socket).bind ?_
  rintro (_ | sock) hsocket
  · have hnone : env.socket = false := hsocket.symm
    apply Returns.pure
    refine ⟨iff_of_false Bool.false_ne_true fun h => ?_, fun _ => rfl, fun addr h => ?_⟩
    · exact Bool.false_ne_true (hnone.symm.trans h.1)
    · rw [hnone] at h
      cases h
  have hsome : env.socket = true := hsocket.symm
  cases haddr : env.inetPton (tunAddr addrCidr) with
  | none =>
      refine (Returns.any _).bind ?_
      rintro _ -
      apply Returns.pure
      refine ⟨iff_of_false Bool.false_ne_true fun h => ?_, fun _ => rfl, fun addr _ h => ?_⟩
      · obtain ⟨-, addr, h, -⟩ := h
        rw [haddr] at h
        cases h
      · rw [haddr] at h
        cases h
  | some addr =>
      have hrequests : tunRequests num addrCidr addr = deviceRequests addr length := by
        rw [tunRequests, hlength, deviceRequests]
      refine (Returns.any _).bind ?_
      rintro _ -
      apply Returns.pure
      rw [sendRequests_eq, hrequests]
      refine ⟨?_, fun h => ?_, fun addr' _ h => ?_⟩
      · rw [List.all_eq_true]
        constructor
        · intro hall
          refine ⟨hsome, addr, haddr, fun req hreq hneeded => ?_⟩
          have hgoes := hall req hreq
          rwa [goesOn, hneeded] at hgoes
        · rintro ⟨-, addr', haddr', hall⟩ req hreq
          rw [haddr] at haddr'
          cases haddr'
          rw [goesOn, Bool.or_eq_true, Bool.not_eq_true', or_iff_not_imp_left,
            Bool.not_eq_false]
          exact hall req hreq
      · rw [hsome, haddr] at h
        rcases h with h | h <;> cases h
      · rw [haddr] at h
        cases h
        rfl

/-! ## Whole texts -/

theorem configIs_of_configLoad {num : NumberParser} {file : Option (List UInt8)}
    {cfg : GatewayConfig} (hload : configLoad num file = some cfg) :
    ∃ a, ConfigIs a
      { cfg with k := a.k, windowSize := a.windowSize, maxPayload := a.maxPayload } := by
  cases file with
  | none => cases hload
  | some file =>
      cases hload
      obtain ⟨start, -, hdefaults⟩ := checkedDefaults_is
      have hinit : StateIs ⟨start, [], none⟩ ⟨configDefaults, [], none⟩ :=
        ⟨hdefaults, rfl, rfl, fun i hi => by cases hi⟩
      obtain ⟨b, -, hb⟩ := checkedConfigLines_is num hinit (fgetsLines [] file)
      exact ⟨b.cfg, { hb.cfg with k := rfl, windowSize := rfl, maxPayload := rfl }⟩

theorem cmdText_iptables {tunName : List UInt8} (h : tunName.length ≤ 15) {direction : String}
    (hdirection : direction = "-i" ∨ direction = "-o") :
    cmdText (iptablesText direction tunName) = iptablesText direction tunName := by
  apply List.take_of_length_le
  have htexts : (chars "iptables -C FORWARD ").length = 20 ∧ (chars " ").length = 1 ∧
      (chars " -j ACCEPT 2>/dev/null || iptables -I FORWARD ").length = 46 ∧
      (chars " -j ACCEPT").length = 10 ∧ (chars direction).length = 2 := by
    rcases hdirection with rfl | rfl <;> decide
  simp only [iptablesText, List.length_append]
  omega

theorem cmdText_route {route tunName : List UInt8} (hroute : route.length ≤ 47)
    (hname : tunName.length ≤ 15) :
    cmdText (routeText route tunName) = routeText route tunName := by
  apply List.take_of_length_le
  have htexts : (chars "ip route replace ").length = 17 ∧ (chars " dev ").length = 5 := by decide
  simp only [routeText, List.length_append]
  omega

theorem forwardCommands_whole {tunName : List UInt8} {cfg : GatewayConfig}
    (hname : tunName.length ≤ 15) (hroutes : ∀ i < cfg.forwardRouteCount,
      (cfg.forwardRoutes i).length ≤ 47) :
    forwardCommands tunName cfg = [iptablesText "-i" tunName, iptablesText "-o" tunName] ++
      (List.range cfg.forwardRouteCount).map fun i => routeText (cfg.forwardRoutes i) tunName := by
  unfold forwardCommands
  rw [cmdText_iptables hname (Or.inl rfl), cmdText_iptables hname (Or.inr rfl)]
  congr 1
  apply List.map_congr_left
  intro i hi
  exact cmdText_route (hroutes i (List.mem_range.mp hi)) hname

/-- What a call of `tun_apply_forward` returns and the commands that it gives to the shell. -/
structure Forwards (env : ForwardEnv) (cfg : GatewayConfig) (res : Bool × List (List UInt8)) :
    Prop where
  returns : res.1 = true ↔ cfg.ipForward = true → env.opens = true ∧
    ∀ i < cfg.forwardRouteCount, env.system (routeText (cfg.forwardRoutes i) cfg.tunName) = true
  idle : cfg.ipForward = false → res.2 = []
  commands : cfg.ipForward = true → res.2 =
    [iptablesText "-i" cfg.tunName, iptablesText "-o" cfg.tunName] ++
      (List.range cfg.forwardRouteCount).map fun i => routeText (cfg.forwardRoutes i) cfg.tunName

theorem returns_tunApplyForward {os : System} (env : ForwardEnv) {cfg : GatewayConfig}
    (hname : cfg.tunName.length ≤ 15) (hroutes : ∀ i < cfg.forwardRouteCount,
      (cfg.forwardRoutes i).length ≤ 47) :
    Returns (tunApplyForward os env cfg.tunName cfg) (Forwards env cfg) := by
  unfold tunApplyForward
  refine Returns.ite (fun hoff => ?_) fun hon => ?_
  · rw [Bool.not_eq_true'] at hoff
    apply Returns.pure
    refine ⟨iff_of_true rfl fun h => ?_, fun _ => rfl, fun h => ?_⟩
    · rw [hoff] at h
      cases h
    · rw [hoff] at h
      cases h
  rw [Bool.not_eq_true', Bool.not_eq_false] at hon
  have hforwards : Forwards env cfg (env.opens && (List.range cfg.forwardRouteCount).all fun i =>
      env.system (cmdText (routeText (cfg.forwardRoutes i) cfg.tunName)),
      forwardCommands cfg.tunName cfg) := by
    refine ⟨?_, fun h => ?_, fun _ => forwardCommands_whole hname hroutes⟩
    · rw [Bool.and_eq_true, List.all_eq_true]
      simp only [hon, true_imp_iff, List.mem_range]
      refine and_congr_right fun _ => forall₂_congr fun i hi => ?_
      rw [cmdText_route (hroutes i hi) hname]
    · rw [hon] at h
      cases h
  refine (returns_obtainIf .stream env.opens).bind ?_
  rintro (_ | f) hstream
  · rw [← hstream] at hforwards
    exact Returns.pure hforwards
  · rw [← hstream] at hforwards
    exact (Returns.any _).bind fun _ _ => Returns.pure hforwards

/-- What the TUN setup of a configuration asks for, with nothing cut off. -/
structure WholeRequests (num : NumberParser) (cfg : GatewayConfig) (length : ℕ) : Prop where
  prefixLength : tunPrefix num cfg.tunAddr = length
  /-- The mask has `length` leading ones. -/
  mask : (tunMask length).toNat = 2 ^ 32 - 2 ^ (32 - length)
  /-- The requests are for the configured name and address. -/
  device : ∀ os env live, ∃ res,
    tunConfigure os num env cfg.tunName cfg.tunAddr live = some (res, live) ∧
      Configures env cfg.tunName (cfg.tunAddr.takeWhile (· ≠ 47)) length res
  forward : ∀ os env live, ∃ res, tunApplyForward os env cfg.tunName cfg live = some (res, live) ∧
    Forwards env cfg res

section Loaded

variable {num : NumberParser} {file : Option (List UInt8)} {cfg : GatewayConfig}
  (hload : configLoad num file = some cfg)
include hload

theorem tunName_length_le : cfg.tunName.length ≤ 15 := by
  obtain ⟨a, hcfg⟩ := configIs_of_configLoad hload
  exact Nat.le_of_lt_succ hcfg.tunName.fits

theorem forwardRoutes_length_le :
    ∀ i < cfg.forwardRouteCount, (cfg.forwardRoutes i).length ≤ 47 := by
  obtain ⟨a, hcfg⟩ := configIs_of_configLoad hload
  exact fun i hi =>
    Nat.le_of_lt_succ (hcfg.forwardRoutes i (hi.trans_le hcfg.forwardRouteCount_le)).fits

theorem returns_tunConfigure_of_configLoad {os : System} (env : TunConfigureEnv) {length : ℕ}
    (hlength : tunPrefix num cfg.tunAddr = length) :
    Returns (tunConfigure os num env cfg.tunName cfg.tunAddr)
      (Configures env cfg.tunName (cfg.tunAddr.takeWhile (· ≠ 47)) length) := by
  obtain ⟨a, hcfg⟩ := configIs_of_configLoad hload
  have haddr : cfg.tunAddr.length ≤ 19 := Nat.le_of_lt_succ hcfg.tunAddr.fits
  have hwhole : strncpy cfg.tunName 15 = cfg.tunName :=
    List.take_of_length_le (tunName_length_le hload)
  have haddress : tunAddr cfg.tunAddr = cfg.tunAddr.takeWhile (· ≠ 47) := by
    apply List.take_of_length_le
    have hle := (List.takeWhile_sublist (· ≠ 47) (l := cfg.tunAddr)).length_le
    omega
  have hreturns := @returns_tunConfigure os num env cfg.tunName cfg.tunAddr length hlength
  rw [haddress, hwhole] at hreturns
  exact hreturns

/-- **Setup of the device.** Whatever the configuration file holds, the kernel is asked for the
whole interface name and address and a contiguous mask, request by request until one fails that
must succeed, and the shell gets whole commands. -/
theorem tunSetup_whole : ∃ length ≤ 32, WholeRequests num cfg length := by
  obtain ⟨length, hle, hlength⟩ := exists_tunPrefix num cfg.tunAddr
  refine ⟨length, hle, hlength, toNat_tunMask hle, fun os env live => ?_, fun os env live => ?_⟩
  · obtain ⟨res, hrun⟩ :=
      (triple_tunConfigure env cfg.tunName cfg.tunAddr).exists_of_holdsNothing live
    exact ⟨res, hrun, returns_tunConfigure_of_configLoad hload env hlength live res live hrun⟩
  · obtain ⟨res, hrun⟩ := (triple_tunApplyForward env cfg.tunName cfg).exists_of_holdsNothing live
    exact ⟨res, hrun, returns_tunApplyForward env (tunName_length_le hload)
      (forwardRoutes_length_le hload) live res live hrun⟩

end Loaded

theorem tunSetup_whole_route :
    ∃ cfg, configLoad ⟨fun _ => 30, fun _ => 0⟩
        (some (chars "[general]\ntun_addr=10.0.0.1/30\n[forward]\nroute=10.20.0.0/24\n")) =
        some cfg ∧ ∃ length ≤ 32, WholeRequests ⟨fun _ => 30, fun _ => 0⟩ cfg length := by
  have hload : ∃ cfg, configLoad ⟨fun _ => 30, fun _ => 0⟩
      (some (chars "[general]\ntun_addr=10.0.0.1/30\n[forward]\nroute=10.20.0.0/24\n")) =
      some cfg := ⟨_, rfl⟩
  obtain ⟨cfg, hload⟩ := hload
  exact ⟨cfg, hload, tunSetup_whole hload⟩

end CodingGateway.Proofs.TunDevice
