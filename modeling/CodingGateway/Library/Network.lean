import CodingGateway.Library.Machine
import Mathlib.Logic.Function.Basic
set_option autoImplicit false

/-!
# Machines that talk over a network

Every node runs a machine of its own.  In any interleaving of their steps, an input may
carry a message that a neighbour has sent: at any later time, any number of times, in any
order, or never.

* `run_of_reachable` — each node has run its machine on its inputs;
* `sent_of_read` — every message that was read had been sent.
-/

namespace CodingGateway.Library.Network

open CodingGateway.Library

/-- The machines of the nodes, the messages that inputs carry and outputs send, and who
hears whom. -/
structure Protocol (ν σ ι ο μ : Type*) where
  step : ν → σ → ι → Option (σ × ο)
  reads : ι → Option μ
  sends : ο → List μ
  hears : ν → ν → Prop

/-- A node with its history. -/
structure Local (σ ι ο : Type*) where
  state : σ
  inputs : List ι
  outputs : List ο

variable {ν σ ι ο μ : Type*} {P : Protocol ν σ ι ο μ}

/-- All messages that a node has sent. -/
def Protocol.sent (P : Protocol ν σ ι ο μ) (l : Local σ ι ο) : List μ := l.outputs.flatMap P.sends

/-- The message that the input carries, if any, was sent to the node. -/
def Protocol.Available (P : Protocol ν σ ι ο μ) (sys : ν → Local σ ι ο) (n : ν) (i : ι) : Prop :=
  ∀ msg, P.reads i = some msg → ∃ m, P.hears n m ∧ msg ∈ P.sent (sys m)

/-- A node that has done nothing yet. -/
def Local.fresh (s : σ) : Local σ ι ο := ⟨s, [], []⟩

/-- A node after one step more. -/
def Local.after (l : Local σ ι ο) (i : ι) (s : σ) (o : ο) : Local σ ι ο :=
  ⟨s, l.inputs ++ [i], l.outputs ++ [o]⟩

theorem mem_sent_after {l : Local σ ι ο} {msg : μ} (h : msg ∈ P.sent l) (i : ι) (s : σ) (o : ο) :
    msg ∈ P.sent (l.after i s o) := by
  change msg ∈ (l.outputs ++ [o]).flatMap P.sends
  rw [List.flatMap_append]
  exact List.mem_append_left _ h

variable [DecidableEq ν]

/-- The systems that some interleaving leads to. -/
inductive Reachable (P : Protocol ν σ ι ο μ) (start : ν → σ) : (ν → Local σ ι ο) → Prop
  | start : Reachable P start fun n => Local.fresh (start n)
  | step {sys : ν → Local σ ι ο} (n : ν) (i : ι) {s : σ} {o : ο} (h : Reachable P start sys)
      (hread : P.Available sys n i) (hstep : P.step n (sys n).state i = some (s, o)) :
      Reachable P start (Function.update sys n ((sys n).after i s o))

variable {start : ν → σ} {sys : ν → Local σ ι ο}

theorem run_of_reachable (h : Reachable P start sys) (n : ν) :
    Machine.run (P.step n) (start n) (sys n).inputs = some ((sys n).state, (sys n).outputs) := by
  induction h with
  | start => rfl
  | @step sys m i s o _ _ hstep ih =>
      by_cases hn : n = m
      · subst hn
        rw [Function.update_self]
        exact Machine.run_concat_eq_some.mpr ⟨_, _, o, ih, hstep, rfl⟩
      · rw [Function.update_of_ne hn]
        exact ih

/-- What is available stays so. -/
theorem Protocol.Available.mono {n m : ν} {i : ι} (h : P.Available sys n i) (j : ι) (s : σ)
    (o : ο) : P.Available (Function.update sys m ((sys m).after j s o)) n i := by
  intro msg hmsg
  obtain ⟨source, hhears, hsent⟩ := h msg hmsg
  refine ⟨source, hhears, ?_⟩
  by_cases hsource : source = m
  · subst hsource
    rw [Function.update_self]
    exact mem_sent_after hsent j s o
  · rw [Function.update_of_ne hsource]
    exact hsent

theorem sent_of_read (h : Reachable P start sys) (n : ν) :
    ∀ i ∈ (sys n).inputs, P.Available sys n i := by
  induction h with
  | start =>
      intro i hi
      cases hi
  | @step sys m i s o _ hread _ ih =>
      intro j hj
      by_cases hn : n = m
      · subst hn
        rw [Function.update_self] at hj
        rcases List.mem_append.mp hj with hj | hj
        · exact (ih j hj).mono i s o
        · rw [List.mem_singleton.mp hj]
          exact hread.mono i s o
      · rw [Function.update_of_ne hn] at hj
        exact (ih j hj).mono i s o

theorem reachable_run (h : Reachable P start sys) (n : ν) {inputs : List ι} {s : σ}
    {outputs : List ο} (hread : ∀ i ∈ inputs, P.Available sys n i)
    (hrun : Machine.run (P.step n) (sys n).state inputs = some (s, outputs)) :
    Reachable P start
      (Function.update sys n ⟨s, (sys n).inputs ++ inputs, (sys n).outputs ++ outputs⟩) := by
  induction inputs generalizing sys outputs with
  | nil =>
      cases hrun
      rw [List.append_nil, List.append_nil, Function.update_eq_self]
      exact h
  | cons i inputs ih =>
      obtain ⟨t, o, rest, hstep, hrest, rfl⟩ := Machine.run_cons_eq_some.mp hrun
      have hnext := Reachable.step n i h (hread i List.mem_cons_self) hstep
      have hlast := ih hnext (fun j hj => (hread j (List.mem_cons_of_mem i hj)).mono i t o) (by
        rw [Function.update_self]
        exact hrest)
      rw [Function.update_idem, Function.update_self] at hlast
      simpa only [Local.after, List.append_assoc, List.singleton_append] using hlast

end CodingGateway.Library.Network
