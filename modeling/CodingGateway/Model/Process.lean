import CodingGateway.Model.Main
set_option autoImplicit false

/-!
# The process (`main.c`)

The event loop runs until a signal clears `running`; then the pending block is drained, and
the process ends.
-/

namespace CodingGateway.Model

/-- The variables of `main` and the flag that the handler of `SIGINT` and `SIGTERM` clears. -/
structure Process where
  st : MainState
  running : Bool

/-- A turn of the loop, or the end of the loop after a signal, with what the drain meets. -/
inductive ProcessInput
  | turn (inp : MainInput)
  | shutdown (env : FlushEnv)

/-- The process when the loop starts. -/
def processInit (cfg : GatewayConfig) (tctx : TransportCtx) (crypto : CryptoCtx) (now : Timeval) :
    Process :=
  ⟨mainInit cfg tctx crypto now, true⟩

/-- A process that has ended takes no step. -/
def processStep (fuel : ℕ) (p : Process) (inp : ProcessInput) : Option (Process × MainOutput) :=
  if p.running then
    match inp with
    | .turn inp => (mainStep fuel p.st inp).map fun r => (⟨r.1, true⟩, r.2)
    | .shutdown env =>
        let (st, flushed, sent) := mainDrain p.st env
        some (⟨st, false⟩, ⟨flushed, sent, [], none⟩)
  else none

end CodingGateway.Model
