import Mathlib.Data.List.Basic
import Mathlib.Data.List.Forall2
import Mathlib.Data.List.Infix
import Mathlib.Data.Option.NAry
set_option autoImplicit false

/-!
# Partial machines and their runs

A machine reads one input at a time; a step yields the next state and an output,
or nothing when it does not terminate.

* `run_append_eq_some` — a run splits where its inputs split;
* `run_induction` — an invariant of the inputs read, the state and the outputs
  holds after every run if every step keeps it;
* `exists_run` — a run exists if every step from a state of the invariant does;
* `run_rel` — two machines whose steps keep a relation run in lockstep;
* `run_project` — a component that follows its own machine on some of the inputs;
* `run_map` — a machine that refines another one;
* `run_join` — a machine that is two others side by side.
-/

namespace CodingGateway.Library.Machine

variable {σ ι ο : Type*} {step : σ → ι → Option (σ × ο)}

/-- The state after the inputs, and the outputs, one for each input. -/
def run (step : σ → ι → Option (σ × ο)) : σ → List ι → Option (σ × List ο)
  | s, [] => some (s, [])
  | s, i :: is =>
      match step s i with
      | none => none
      | some (s', o) =>
          match run step s' is with
          | none => none
          | some (s'', os) => some (s'', o :: os)

@[simp] theorem run_nil (s : σ) : run step s [] = some (s, []) := rfl

theorem run_cons_eq_some {s s'' : σ} {i : ι} {is : List ι} {os : List ο} :
    run step s (i :: is) = some (s'', os) ↔
      ∃ s' o os', step s i = some (s', o) ∧ run step s' is = some (s'', os') ∧ os = o :: os' := by
  constructor
  · intro h
    simp only [run] at h
    cases hstep : step s i with
    | none => simp [hstep] at h
    | some r =>
        cases hrest : run step r.1 is with
        | none => simp [hstep, hrest] at h
        | some q =>
            simp only [hstep, hrest, Option.some.injEq, Prod.mk.injEq] at h
            exact ⟨r.1, r.2, q.2, rfl, by rw [hrest, ← h.1], h.2.symm⟩
  · rintro ⟨s', o, os', hstep, hrest, rfl⟩
    simp [run, hstep, hrest]

theorem run_append_eq_some {s s'' : σ} {is js : List ι} {os : List ο} :
    run step s (is ++ js) = some (s'', os) ↔
      ∃ s' os₁ os₂, run step s is = some (s', os₁) ∧ run step s' js = some (s'', os₂) ∧
        os = os₁ ++ os₂ := by
  induction is generalizing s os with
  | nil =>
      constructor
      · intro h
        exact ⟨s, [], os, rfl, h, rfl⟩
      · rintro ⟨s', os₁, os₂, h₁, h₂, rfl⟩
        cases h₁
        exact h₂
  | cons i is ih =>
      rw [List.cons_append, run_cons_eq_some]
      constructor
      · rintro ⟨s₁, o, os', hstep, hrest, rfl⟩
        obtain ⟨s', os₁, os₂, h₁, h₂, rfl⟩ := ih.mp hrest
        exact ⟨s', o :: os₁, os₂, run_cons_eq_some.mpr ⟨s₁, o, os₁, hstep, h₁, rfl⟩, h₂, rfl⟩
      · rintro ⟨s', os₁, os₂, h₁, h₂, rfl⟩
        obtain ⟨s₁, o, os', hstep, hrest, rfl⟩ := run_cons_eq_some.mp h₁
        exact ⟨s₁, o, os' ++ os₂, hstep, ih.mpr ⟨s', os', os₂, hrest, h₂, rfl⟩, rfl⟩

theorem run_concat_eq_some {s s'' : σ} {is : List ι} {i : ι} {os : List ο} :
    run step s (is ++ [i]) = some (s'', os) ↔
      ∃ s' os' o, run step s is = some (s', os') ∧ step s' i = some (s'', o) ∧
        os = os' ++ [o] := by
  rw [run_append_eq_some]
  constructor
  · rintro ⟨s', os₁, os₂, h₁, h₂, rfl⟩
    obtain ⟨s₂, o, os', hstep, hnil, rfl⟩ := run_cons_eq_some.mp h₂
    cases hnil
    exact ⟨s', os₁, o, h₁, hstep, rfl⟩
  · rintro ⟨s', os', o, h₁, hstep, rfl⟩
    exact ⟨s', os', [o], h₁, run_cons_eq_some.mpr ⟨s'', o, [], hstep, rfl, rfl⟩, rfl⟩

/-- The invariant rule: `P` may speak of the inputs read so far and of the outputs made. -/
theorem run_induction {s₀ : σ} {P : List ι → σ → List ο → Prop} (hnil : P [] s₀ [])
    (hstep : ∀ is s os i s' o, run step s₀ is = some (s, os) → P is s os →
      step s i = some (s', o) → P (is ++ [i]) s' (os ++ [o]))
    {is : List ι} {s : σ} {os : List ο} (h : run step s₀ is = some (s, os)) : P is s os := by
  induction is using List.reverseRecOn generalizing s os with
  | nil =>
      cases h
      exact hnil
  | append_singleton is i ih =>
      obtain ⟨s', os', o, hrun, hi, rfl⟩ := run_concat_eq_some.mp h
      exact hstep is s' os' i s o hrun (ih hrun) hi

theorem exists_run {s₀ : σ} {is : List ι} {P : List ι → σ → List ο → Prop} (hnil : P [] s₀ [])
    (hstep : ∀ js s os i, js ++ [i] <+: is → run step s₀ js = some (s, os) → P js s os →
      ∃ s' o, step s i = some (s', o) ∧ P (js ++ [i]) s' (os ++ [o])) :
    ∃ s os, run step s₀ is = some (s, os) ∧ P is s os := by
  induction is using List.reverseRecOn with
  | nil => exact ⟨s₀, [], rfl, hnil⟩
  | append_singleton is i ih =>
      obtain ⟨s, os, hrun, hP⟩ := ih fun js s os j hpre =>
        hstep js s os j (hpre.trans (List.prefix_append is [i]))
      obtain ⟨s', o, hi, hP'⟩ := hstep is s os i List.prefix_rfl hrun hP
      exact ⟨s', os ++ [o], run_concat_eq_some.mpr ⟨s, os, o, hrun, hi, rfl⟩, hP'⟩

theorem exists_step_of_mem {s₀ s : σ} {is : List ι} {os : List ο}
    (h : run step s₀ is = some (s, os)) {o : ο} (ho : o ∈ os) :
    ∃ js i s₁ os₁ s₂, js ++ [i] <+: is ∧ run step s₀ js = some (s₁, os₁) ∧
      step s₁ i = some (s₂, o) := by
  induction is using List.reverseRecOn generalizing s os with
  | nil =>
      cases h
      cases ho
  | append_singleton is i ih =>
      obtain ⟨s', os', o', hrun, hi, rfl⟩ := run_concat_eq_some.mp h
      rcases List.mem_append.mp ho with hold | hnew
      · obtain ⟨js, j, s₁, os₁, s₂, hpre, hj, hstep⟩ := ih hrun hold
        exact ⟨js, j, s₁, os₁, s₂, hpre.trans (List.prefix_append is [i]), hj, hstep⟩
      · cases List.mem_singleton.mp hnew
        exact ⟨is, i, s', os', s, List.prefix_rfl, hrun, hi⟩

theorem run_filterMap {κ : Type*} {f : κ → Option ι} {s : σ} {ks : List κ}
    (hf : ∀ k ∈ ks, ∃ i, f k = some i) :
    run step s (ks.filterMap f) = run (fun s k => (f k).bind (step s)) s ks := by
  induction ks generalizing s with
  | nil => rfl
  | cons k ks ih =>
      obtain ⟨i, hi⟩ := hf k List.mem_cons_self
      rw [List.filterMap_cons_some hi, run, run, hi, Option.bind_some]
      cases step s i with
      | none => rfl
      | some r => simp only [ih fun k' hk' => hf k' (List.mem_cons_of_mem k hk')]

/-! ## Two machines -/

section TwoMachines

variable {σ' ι' ο' : Type*} {step' : σ' → ι' → Option (σ' × ο')}

/-- Lockstep: if steps on related inputs keep the states related and make related outputs,
so do runs, and one run ends if and only if the other does.  The relation of the states may
speak of the inputs that the first machine still has to read. -/
theorem run_rel {R : List ι → σ → σ' → Prop} {I : ι → ι' → Prop} {O : ο → ο' → Prop}
    (hstep : ∀ i i' is s s', R (i :: is) s s' → I i i' →
      Option.Rel (fun r r' => R is r.1 r'.1 ∧ O r.2 r'.2) (step s i) (step' s' i'))
    {s : σ} {s' : σ'} {is : List ι} {is' : List ι'} (hs : R is s s')
    (his : List.Forall₂ I is is') :
    Option.Rel (fun r r' => R [] r.1 r'.1 ∧ List.Forall₂ O r.2 r'.2)
      (run step s is) (run step' s' is') := by
  induction his generalizing s s' with
  | nil => exact .some ⟨hs, .nil⟩
  | @cons i i' is is' hi _ ih =>
      have hfirst := hstep i i' is s s' hs hi
      simp only [run]
      generalize step s i = x, step' s' i' = x' at hfirst ⊢
      cases hfirst with
      | none => exact .none
      | @some r r' hr =>
          have hrest := ih hr.1
          simp only
          generalize run step r.1 is = y, run step' r'.1 is' = y' at hrest ⊢
          cases hrest with
          | none => exact .none
          | some hq => exact .some ⟨hq.1, .cons hr.2 hq.2⟩

/-- The component `view s` of a machine moves on the inputs that `feed` passes on to it,
and `report` finds its outputs among those of the whole machine. -/
theorem run_project (Inv : σ → Prop) (view : σ → σ') (feed : ι → Option ι')
    (report : ο → Option ο')
    (hkeep : ∀ s i s' o, Inv s → step s i = some (s', o) → Inv s')
    (hidle : ∀ s i s' o, Inv s → feed i = none → step s i = some (s', o) →
      view s' = view s ∧ report o = none)
    (hmove : ∀ s i j s' o, Inv s → feed i = some j → step s i = some (s', o) →
      ∃ o', step' (view s) j = some (view s', o') ∧ report o = some o')
    {s s' : σ} {is : List ι} {os : List ο} (hinv : Inv s)
    (h : run step s is = some (s', os)) :
    run step' (view s) (is.filterMap feed) = some (view s', os.filterMap report) := by
  induction is generalizing s os with
  | nil =>
      cases h
      rfl
  | cons i is ih =>
      obtain ⟨s₁, o, os', hi, hrest, rfl⟩ := run_cons_eq_some.mp h
      have hrun := ih (hkeep s i s₁ o hinv hi) hrest
      cases hfeed : feed i with
      | none =>
          obtain ⟨hview, hreport⟩ := hidle s i s₁ o hinv hfeed hi
          rw [List.filterMap_cons_none hfeed, List.filterMap_cons_none hreport, ← hview]
          exact hrun
      | some j =>
          obtain ⟨o', hj, hreport⟩ := hmove s i j s₁ o hinv hfeed hi
          rw [List.filterMap_cons_some hfeed, List.filterMap_cons_some hreport]
          exact run_cons_eq_some.mpr ⟨view s₁, o', _, hj, hrun, rfl⟩

theorem run_map {step' : σ' → ι → Option (σ' × ο)} (view : σ → σ') (Inv : σ → Prop)
    (hkeep : ∀ s i s' o, Inv s → step s i = some (s', o) → Inv s')
    (hstep : ∀ s i, Inv s → (step s i).map (fun r => (view r.1, r.2)) = step' (view s) i) {s : σ}
    (hinv : Inv s) (is : List ι) :
    (run step s is).map (fun r => (view r.1, r.2)) = run step' (view s) is := by
  induction is generalizing s with
  | nil => rfl
  | cons i is ih =>
      rw [run, run, ← hstep s i hinv]
      cases hi : step s i with
      | none => rfl
      | some r =>
          rw [Option.map_some]
          dsimp only
          rw [← ih (hkeep s i r.1 r.2 hinv hi)]
          cases run step r.1 is with
          | none => rfl
          | some q => rfl

theorem run_join {σ'' ο'' : Type*} {step'' : σ'' → ι → Option (σ'' × ο'')}
    {step' : σ' → ι → Option (σ' × ο')} (join : σ' → σ'' → σ) (joinOut : ο' → ο'' → ο)
    (Inv : σ' → σ'' → Prop)
    (hkeep : ∀ s r i s' o r' o', Inv s r → step' s i = some (s', o) → step'' r i = some (r', o') →
      Inv s' r')
    (hstep : ∀ s r i, Inv s r → step (join s r) i =
      Option.map₂ (fun a b => (join a.1 b.1, joinOut a.2 b.2)) (step' s i) (step'' r i))
    {s : σ'} {r : σ''} (hinv : Inv s r) (is : List ι) :
    run step (join s r) is =
      Option.map₂ (fun a b => (join a.1 b.1, List.zipWith joinOut a.2 b.2))
        (run step' s is) (run step'' r is) := by
  induction is generalizing s r with
  | nil => rfl
  | cons i is ih =>
      rw [run, run, run, hstep s r i hinv]
      cases hs : step' s i with
      | none => rfl
      | some a =>
          cases hr : step'' r i with
          | none =>
              rw [Option.map₂_none_right, Option.map₂_none_right]
          | some b =>
              rw [Option.map₂_some_some]
              dsimp only
              rw [ih (hkeep s r i a.1 a.2 b.1 b.2 hinv hs hr)]
              cases run step' a.1 is with
              | none => rfl
              | some c =>
                  cases run step'' b.1 is with
                  | none => rfl
                  | some d => rfl

end TwoMachines

end CodingGateway.Library.Machine
