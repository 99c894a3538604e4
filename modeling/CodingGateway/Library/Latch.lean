import CodingGateway.Library.Machine
set_option autoImplicit false

/-!
# Latches

A latch is a flag that some events set, other events clear, and the rest leave alone.
After a list of events it is on exactly if some event set it and no later one cleared
it, or it was on before and no event cleared it.

* `since_concat`, `latched_concat` — one more event;
* `latched_iff_since` — the flag at the start is forgotten once an event has cleared it;
* `latched_of_run` — the flag of a machine whose steps set and clear it as the events say.
-/

namespace CodingGateway.Library.Latch

open CodingGateway.Library

variable {α : Type*} {Sets Keeps : α → Prop}

/-- Some event of the list sets the flag, and all later ones keep it. -/
def Since (Sets Keeps : α → Prop) (events : List α) : Prop :=
  ∃ before e after, events = before ++ e :: after ∧ Sets e ∧ ∀ later ∈ after, Keeps later

/-- The flag after the events, when it is `on` at the start. -/
def Latched (Sets Keeps : α → Prop) (on : Prop) (events : List α) : Prop :=
  Since Sets Keeps events ∨ on ∧ ∀ e ∈ events, Keeps e

theorem not_since_nil : ¬ Since Sets Keeps [] := by
  rintro ⟨before, e, after, heq, _⟩
  exact absurd heq (by simp)

theorem since_concat {events : List α} {e : α} :
    Since Sets Keeps (events ++ [e]) ↔ Sets e ∨ Since Sets Keeps events ∧ Keeps e := by
  constructor
  · rintro ⟨before, x, after, heq, hsets, hlater⟩
    rcases List.eq_nil_or_concat after with rfl | ⟨rest, y, rfl⟩
    · obtain ⟨_, hx⟩ := List.append_inj' heq rfl
      cases hx
      exact Or.inl hsets
    · rw [List.concat_eq_append, ← List.cons_append, ← List.append_assoc] at heq
      obtain ⟨rfl, hy⟩ := List.append_inj' heq rfl
      cases hy
      rw [List.concat_eq_append] at hlater
      refine Or.inr ⟨⟨before, x, rest, rfl, hsets, fun z hz => ?_⟩, ?_⟩
      · exact hlater z (List.mem_append_left _ hz)
      · exact hlater _ (List.mem_append_right _ (List.mem_singleton_self _))
  · rintro (hsets | ⟨⟨before, x, after, rfl, hsets, hlater⟩, hkeeps⟩)
    · exact ⟨events, e, [], rfl, hsets, fun _ h => by cases h⟩
    · refine ⟨before, x, after ++ [e], by simp, hsets, fun z hz => ?_⟩
      rcases List.mem_append.mp hz with hz | hz
      · exact hlater z hz
      · rw [List.mem_singleton.mp hz]
        exact hkeeps

@[simp] theorem latched_nil {on : Prop} : Latched Sets Keeps on [] ↔ on := by
  simp [Latched, not_since_nil]

theorem latched_concat {on : Prop} {events : List α} {e : α} :
    Latched Sets Keeps on (events ++ [e]) ↔
      Sets e ∨ Latched Sets Keeps on events ∧ Keeps e := by
  rw [Latched, Latched, since_concat, List.forall_mem_append]
  simp only [List.forall_mem_singleton]
  tauto

theorem latched_iff_since {on : Prop} {events : List α} {e : α} (he : e ∈ events)
    (hclears : ¬ Keeps e) : Latched Sets Keeps on events ↔ Since Sets Keeps events :=
  or_iff_left fun h => hclears (h.2 e he)

/-- The flag `F` of a machine is a latch over the events `E`, one for each input, when every
step from a state of the invariant `I` sets and clears it as its event says. -/
theorem latched_of_run {σ ι ο : Type*} {step : σ → ι → Option (σ × ο)}
    {I : List ι → σ → Prop} {F : σ → Prop} {E : List ι → List α} {s₀ : σ}
    (hnil : E [] = []) (hinv₀ : I [] s₀)
    (hstep : ∀ is s i s' o, I is s → step s i = some (s', o) → I (is ++ [i]) s' ∧
      ∃ e, E (is ++ [i]) = E is ++ [e] ∧ (F s' ↔ Sets e ∨ F s ∧ Keeps e))
    {is : List ι} {s : σ} {os : List ο} (hrun : Machine.run step s₀ is = some (s, os)) :
    I is s ∧ (F s ↔ Latched Sets Keeps (F s₀) (E is)) := by
  refine Machine.run_induction
    (P := fun is s _ => I is s ∧ (F s ↔ Latched Sets Keeps (F s₀) (E is))) ?_ ?_ hrun
  · rw [hnil, latched_nil]
    exact ⟨hinv₀, Iff.rfl⟩
  · intro is s os i s' o _ ih hi
    obtain ⟨hinv, e, hevent, hflag⟩ := hstep is s i s' o ih.1 hi
    refine ⟨hinv, ?_⟩
    rw [hevent, latched_concat, hflag, ih.2]

end CodingGateway.Library.Latch
