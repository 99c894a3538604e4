import CodingGateway.Model.CryptoKey
import CodingGateway.Model.Process
import CodingGateway.Model.Tun
set_option autoImplicit false

/-!
# The program from start to exit (`main.c`)

What `main` opens before its loop, what a turn of the loop opens and closes, and what is
closed on each way out.
-/

namespace CodingGateway.Model

open CodingGateway.Library.Ownership

/-! ## Sockets of the transport -/

/-- What `transport_init` meets outside the code. -/
structure TransportEnv where
  calloc : Bool
  recvSocket : Bool
  bind : Bool
  /-- `socket` for a path. -/
  socket : ℕ → Bool
  /-- The address that `inet_pton` stores, if it returns 1. -/
  inetPton : List UInt8 → Option UInt32

/-- The block that `transport_init` returns and the sockets in it. -/
structure Transport where
  ctx : TransportCtx
  recvFd : ℕ
  block : ℕ

/-- One turn of the loop over the paths of the configuration. -/
def openPath (os : System) (env : TransportEnv) (cfg : GatewayConfig) (paths : ℕ → PathSock)
    (i : ℕ) : Sys (ℕ → PathSock) := do
  if !(cfg.paths i).enabled then pure (Function.update paths i ⟨-1, 0, false⟩)
  else do
    match ← openFd os (env.socket i) with
    | none => pure (Function.update paths i ⟨-1, 0, true⟩)
    | some fd =>
        match env.inetPton (cfg.paths i).remoteIp with
        | some addr => pure (Function.update paths i ⟨fd, addr, true⟩)
        | none => do
            closeFd fd
            pure (Function.update paths i ⟨-1, 0, true⟩)

/-- `transport_init`; `none` is `NULL`. -/
def transportOpen (os : System) (env : TransportEnv) (cfg : GatewayConfig) :
    Sys (Option Transport) := do
  match ← calloc os env.calloc with
  | none => pure none
  | some block =>
      match ← openFd os env.recvSocket with
      | none => do
          free block
          pure none
      | some recvFd =>
          if env.bind then do
            let paths ← (List.range cfg.pathCount).foldlM (openPath os env cfg)
              (fun _ => ⟨0, 0, false⟩)
            pure (some ⟨⟨paths, cfg.pathCount⟩, recvFd, block⟩)
          else do
            closeFd recvFd
            free block
            pure none

/-- The loop of `transport_free`. -/
def closePaths (paths : ℕ → PathSock) : List ℕ → Sys Unit
  | [] => pure ()
  | i :: is =>
      if 0 ≤ (paths i).fd then do
        closeFd (paths i).fd.toNat
        closePaths paths is
      else closePaths paths is

/-- `transport_free`. -/
def transportFree (t : Transport) : Sys Unit := do
  closeFd t.recvFd
  closePaths t.ctx.paths (List.range t.ctx.pathCount)
  free t.block

/-! ## The metrics listener -/

/-- What `metrics_listen` meets outside the code. -/
structure ListenEnv where
  socket : Bool
  bind : Bool
  listen : Bool

/-- `metrics_listen`; `none` is the return value `-1`. -/
def metricsListen (os : System) (env : ListenEnv) : Sys (Option ℕ) := do
  match ← openFd os env.socket with
  | none => pure none
  | some fd =>
      if env.bind && env.listen then pure (some fd)
      else do
        closeFd fd
        pure none

/-- The connection of `metrics_handle`; `accepted` is whether `accept` succeeds. -/
def metricsConnection (os : System) (accepted : Bool) : Sys Unit := do
  match ← openFd os accepted with
  | none => pure ()
  | some conn => closeFd conn

/-! ## Startup -/

/-- `config_load` with the stream it reads; a file that does not open is `none`. -/
def configRead (os : System) (num : NumberParser) (file : Option (List UInt8)) :
    Sys (Option GatewayConfig) := do
  match ← fopen os file.isSome with
  | none => pure none
  | some f => do
      fclose f
      pure (configLoad num file)

/-- Initialise crypto; `none` is a key that does not parse.  `keyBin` is the uninitialised
array the key is parsed into. -/
def mainCrypto (cfg : GatewayConfig) (keyBin : Bytes) : Option CryptoCtx :=
  if cfg.cryptoKey = [] then some (cryptoInit none)
  else
    match cryptoParseKey cfg.cryptoKey keyBin with
    | (true, key) => some (cryptoInit (some key))
    | (false, _) => none

/-- What `main` meets before its loop. -/
structure StartEnv where
  /-- The arguments after the name of the program. -/
  args : List (List UInt8)
  file : Option (List UInt8)
  keyBin : Bytes
  tun : TunOpenEnv
  address : TunConfigureEnv
  forward : ForwardEnv
  transport : TransportEnv
  /-- `calloc` in `strategy_init`. -/
  strategy : Bool
  metrics : ListenEnv
  /-- The first reading of the clock. -/
  now : Timeval

/-- The variables of `main` in its loop. -/
structure Running where
  st : MainState
  tunFd : ℕ
  transport : Transport
  /-- The block that `strategy_init` returned. -/
  sctx : ℕ
  metricsFd : Option ℕ

/-- The metrics listener, if a port is configured. -/
def mainMetrics (os : System) (env : ListenEnv) (cfg : GatewayConfig) : Sys (Option ℕ) :=
  if 0 < cfg.metricsPort then metricsListen os env else pure none

/-- The arguments that `main` accepts. -/
def validArgs (args : List (List UInt8)) : Bool :=
  decide (2 ≤ args.length) && (args.head? == some (chars "--config"))

/-- `main` up to the loop; `none` is `return 1`. -/
def mainStart (os : System) (num : NumberParser) (env : StartEnv) : Sys (Option Running) := do
  if !validArgs env.args then pure none
  else do
    match ← configRead os num env.file with
    | none => pure none
    | some cfg =>
        match mainCrypto cfg env.keyBin with
        | none => pure none
        | some crypto => do
            match ← tunOpen os env.tun with
            | none => pure none
            | some tunFd => do
                let (configured, _) ← tunConfigure os num env.address cfg.tunName cfg.tunAddr
                if !configured then do
                  closeFd tunFd
                  pure none
                else do
                  let _ ← tunApplyForward os env.forward cfg.tunName cfg
                  match ← transportOpen os env.transport cfg with
                  | none => do
                      closeFd tunFd
                      pure none
                  | some transport => do
                      match ← calloc os env.strategy with
                      | none => do
                          transportFree transport
                          closeFd tunFd
                          pure none
                      | some sctx => do
                          let metricsFd ← mainMetrics os env.metrics cfg
                          pure (some
                            { st := mainInit cfg transport.ctx crypto env.now
                              tunFd := tunFd
                              transport := transport
                              sctx := sctx
                              metricsFd := metricsFd })

/-! ## The loop and the exit -/

/-- A turn of the loop: the file that `config_load` finds if the reload flag is set, and
whether the metrics listener is ready and `accept` succeeds. -/
structure ProgramTurn where
  inp : MainInput
  reload : Option (Option (List UInt8))
  scrape : Option Bool

inductive ProgramInput
  | turn (turn : ProgramTurn)
  | shutdown (env : FlushEnv)

/-- The program is in its loop, or `main` has returned. -/
inductive Program
  | running (g : Running)
  | exited

/-- Metrics: the request of a turn, if there is a listener and it is ready. -/
def mainScrape (os : System) : Option ℕ → Option Bool → Sys Unit
  | some _, some accepted => metricsConnection os accepted
  | _, _ => pure ()

/-- One turn of the loop; `none` if `rx_window_advance` does not end. -/
def programTurn (os : System) (num : NumberParser) (fuel : ℕ) (g : Running) (turn : ProgramTurn) :
    Sys (Option (Running × MainOutput)) :=
  match turn.reload with
  | some file => do
      let newCfg ← configRead os num file
      pure ((mainStep fuel g.st { turn.inp with reload := some newCfg }).map fun r =>
        ({ g with st := r.1 }, r.2))
  | none =>
      match mainStep fuel g.st { turn.inp with reload := none } with
      | none => pure none
      | some (st, out) =>
          if turn.inp.selectFailed then pure (some ({ g with st := st }, out))
          else do
            mainScrape os g.metricsFd turn.scrape
            pure (some ({ g with st := st }, out))

/-- What `main` closes after the loop. -/
def mainClose (g : Running) : Sys Unit := do
  match g.metricsFd with
  | none => pure ()
  | some fd => closeFd fd
  free g.sctx
  transportFree g.transport
  closeFd g.tunFd

/-- A turn of the loop, or the end of the loop with the drain and the exit. -/
def programStep (os : System) (num : NumberParser) (fuel : ℕ) (g : Running) :
    ProgramInput → Sys (Option (Program × MainOutput))
  | .turn turn => do
      let res ← programTurn os num fuel g turn
      pure (res.map fun r => (.running r.1, r.2))
  | .shutdown env => do
      let (_, flushed, sent) := mainDrain g.st env
      mainClose g
      pure (some (.exited, ⟨flushed, sent, [], none⟩))

/-- The loop over the inputs, as long as `main` has not returned; `none` if a turn does not
end. -/
def programLoop (os : System) (num : NumberParser) (fuel : ℕ) :
    List ProgramInput → Program → Sys (Option (Program × List MainOutput))
  | inp :: inputs, .running g => do
      match ← programStep os num fuel g inp with
      | none => pure none
      | some (p, out) => do
          let res ← programLoop os num fuel inputs p
          pure (res.map fun r => (r.1, out :: r.2))
  | _, p => pure (some (p, []))

/-- `main`. -/
def programMain (os : System) (num : NumberParser) (fuel : ℕ) (env : StartEnv)
    (inputs : List ProgramInput) : Sys (Option (Program × List MainOutput)) := do
  match ← mainStart os num env with
  | none => pure (some (.exited, []))
  | some g => programLoop os num fuel inputs (.running g)

end CodingGateway.Model
