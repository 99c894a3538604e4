import CodingGateway.Library.CreditTurns
import CodingGateway.Proofs.FloatRedundancy
import CodingGateway.Proofs.PathNames
import CodingGateway.Proofs.Rounds
set_option autoImplicit false

/-!
# The fixed strategy

No function asks for the strategy type that is stored: paths are scheduled by their credits,
and the redundancy is scaled, whatever it says.

* `turned_apply`, `turned_calls` — while the usable paths have equal shares and no probe result
  refills a path out of turn, the paths take turns;
* `fixed_strategy_when` — then two configurations that differ in weights return the same paths,
  and it is known when the number of shards does not depend on who is alive.
-/

namespace CodingGateway.Proofs.FixedStrategy

open CodingGateway.Model
open CodingGateway.Library.CreditScheduler
open CodingGateway.Proofs.Scheduler
open CodingGateway.Proofs.Credits
open CodingGateway.Proofs.Rounds
open CodingGateway.Proofs.FloatRedundancy

/-- The second configuration is the first one with other weights. -/
def DifferInWeights (cfg cfg' : GatewayConfig) : Prop :=
  ∃ weight : ℕ → ℚ,
    cfg' = { cfg with paths := fun i => { cfg.paths i with weight := weight i } }

def applyFloat (ctx : StrategyCtx) : StrategyCall → StrategyCtx
  | .nextPath => (strategyNextPath ctx).1
  | .updateProbe pathIdx rttUs received => strategyUpdateProbeFloat ctx pathIdx rttUs received
  | .reload cfg => strategyReload ctx cfg

/-- What the calls of `strategy_next_path` return, in order. -/
def picks (ctx : StrategyCtx) : List StrategyCall → List (Option ℕ)
  | [] => []
  | .nextPath :: calls => (strategyNextPath ctx).2 :: picks (strategyNextPath ctx).1 calls
  | call :: calls => picks (applyFloat ctx call) calls

/-! ## Whose turn it is -/

/-- The probe result makes the enabled path `p` alive with its whole share. -/
def GivesShare (ctx : StrategyCtx) (p : ℕ) (received : Bool) : Prop :=
  p < ctx.pathCount ∧ (ctx.paths p).cfg.enabled = true ∧ Refills toFloat ctx p received

/-- No path but `p` is usable. -/
def Alone (ctx : StrategyCtx) (p : ℕ) : Prop := ∀ i ∈ usableList ctx, i = p

instance (ctx : StrategyCtx) (p : ℕ) (received : Bool) : Decidable (GivesShare ctx p received) :=
  inferInstanceAs (Decidable (_ ∧ _ ∧ _))

instance (ctx : StrategyCtx) (p : ℕ) : Decidable (Alone ctx p) :=
  inferInstanceAs (Decidable (∀ i ∈ usableList ctx, i = p))

/-- The context, and the rota of the turns taken. -/
abbrev Tracked := StrategyCtx × Rota ℕ

/-- The rota after a call.  It does not look at credits: a turn is had by the usable path next in
turn, and the turns are counted anew when a path that is alone gets its share. -/
def rotaAfter (st : Tracked) : StrategyCall → Rota ℕ
  | .nextPath => st.2.advance (usableList st.1) (shareOf st.1)
  | .updateProbe p _ received =>
      if GivesShare st.1 p received ∧ Alone st.1 p then st.2.restart p else st.2
  | .reload _ => st.2

def track (st : Tracked) (call : StrategyCall) : Tracked :=
  (applyFloat st.1 call, rotaAfter st call)

def tracked (cfg : GatewayConfig) (calls : List StrategyCall) : Tracked :=
  calls.foldl track (strategyInit cfg, ⟨⊥, 0⟩)

/-- The next call returns the usable path next in turn. -/
def TakesTurns (st : Tracked) : Prop := (strategyNextPath st.1).2 = st.2.next (usableList st.1)

/-- A path is asked for while the usable paths have equal shares, and a path is given its share
while no other path is usable or before it has had a turn of that share. -/
def Orderly (st : Tracked) : StrategyCall → Prop
  | .nextPath =>
      ∀ i ∈ usableList st.1, ∀ j ∈ usableList st.1, shareOf st.1 i = shareOf st.1 j
  | .updateProbe p _ received =>
      GivesShare st.1 p received → Alone st.1 p ∨ st.2.turns p = 0
  | .reload _ => True

/-- All calls are, each where it is made. -/
def AllOrderly (st : Tracked) : List StrategyCall → Prop
  | [] => True
  | call :: calls => Orderly st call ∧ AllOrderly (track st call) calls

instance (st : Tracked) : (call : StrategyCall) → Decidable (Orderly st call)
  | .nextPath => inferInstanceAs (Decidable (∀ i ∈ _, ∀ j ∈ _, _))
  | .updateProbe _ _ _ => inferInstanceAs (Decidable (_ → _ ∨ _))
  | .reload _ => inferInstanceAs (Decidable True)

instance decidableAllOrderly (st : Tracked) :
    (calls : List StrategyCall) → Decidable (AllOrderly st calls)
  | [] => inferInstanceAs (Decidable True)
  | call :: calls =>
      haveI := decidableAllOrderly (track st call) calls
      inferInstanceAs (Decidable (Orderly st call ∧ AllOrderly (track st call) calls))

variable {cfg cfg' : GatewayConfig} {st st' : Tracked} {ctx ctx' : StrategyCtx}

/-! ## Taking turns -/

structure Turned (cfg : GatewayConfig) (st : Tracked) : Prop where
  range : InRange cfg st.1
  ratio : st.1.baseRedundancy = cfg.redundancyRatio
  turns : InTurns (usablePaths st.1) st.2 (shareOf st.1) st.1.pathCredit

theorem turned_strategyInit (cfg : GatewayConfig) : Turned cfg (strategyInit cfg, ⟨⊥, 0⟩) := by
  refine ⟨inRange_strategyInit cfg, rfl, inTurns_bot fun i hi => ?_⟩
  have hlt : i < cfg.pathCount := (mem_usablePaths.mp hi).1
  simp [strategyInit, shareOf, hlt]

theorem bounded_of_inRange (h : InRange cfg ctx) :
    Bounded (usablePaths ctx) (shareOf ctx) ctx.pathCredit := by
  intro i hi
  obtain ⟨hlt, henabled, -⟩ := (mem_usablePaths_of_inRange h).mp hi
  exact h.credit i hlt (by rw [h.enabled i hlt]; exact henabled)

theorem turned_nextPath (h : Turned cfg st) (horderly : Orderly st .nextPath) :
    TakesTurns st ∧ Turned cfg (track st .nextPath) := by
  obtain ⟨ctx, rota⟩ := st
  have hrange : InRange cfg ctx := h.range
  by_cases hsome : (usablePaths ctx).Nonempty
  · obtain ⟨b, hpick, hstep⟩ := strategyNextPath_step hsome
    have hshare : ∀ i ∈ usablePaths ctx, shareOf ctx i = shareOf ctx b := fun i hi =>
      horderly i (mem_usableList.mpr hi) b (mem_usableList.mpr hstep.best.mem)
    obtain ⟨hnext, hturns⟩ := inTurns_step (fun _ => mem_usableList) (pairwise_usableList ctx)
      hshare h.turns hstep (bounded_of_inRange hrange)
    have hrange' := inRange_strategyNextPath hrange
    have hratio : ctx.baseRedundancy = cfg.redundancyRatio := h.ratio
    refine ⟨hpick.trans hnext.symm, ?_⟩
    obtain ⟨credit, hctx⟩ := creditsOnly_strategyNextPath ctx
    simp only [track, applyFloat, rotaAfter]
    rw [hctx] at hrange' hturns ⊢
    exact ⟨hrange', hratio, hturns⟩
  · have hkeep := strategyNextPath_of_none hsome
    have hempty : usableList ctx = [] :=
      List.eq_nil_iff_forall_not_mem.mpr fun i hi => hsome ⟨i, mem_usableList.mp hi⟩
    have hnext : rota.next (usableList ctx) = none := by
      rw [hempty]
      rfl
    refine ⟨?_, ?_⟩
    · rw [TakesTurns, hkeep, hnext]
    · simp only [track, applyFloat, rotaAfter, hkeep, Rota.advance, hnext]
      exact h

theorem usable_updateProbe {p : ℕ} (hp : p < ctx.pathCount) (rttUs : UInt64) (received : Bool)
    {i : ℕ} (hi : i ≠ p) :
    (strategyUpdateProbeFloat ctx p rttUs received).usable i = ctx.usable i := by
  rw [strategyUpdateProbeFloat, strategyUpdateProbeIn_eq toFloat ctx hp, StrategyCtx.usable,
    StrategyCtx.usable]
  dsimp only
  rw [Function.update_of_ne hi]

theorem usablePaths_updateProbe_subset {p : ℕ} (hp : p < ctx.pathCount) (rttUs : UInt64)
    (received : Bool) :
    usablePaths (strategyUpdateProbeFloat ctx p rttUs received) ⊆ insert p (usablePaths ctx) := by
  intro i hi
  obtain ⟨hlt, husable⟩ := mem_usablePaths.mp hi
  rw [Finset.mem_insert]
  by_cases hip : i = p
  · exact Or.inl hip
  · rw [usable_updateProbe hp rttUs received hip] at husable
    rw [strategyUpdateProbeFloat, strategyUpdateProbeIn_eq toFloat ctx hp] at hlt
    exact Or.inr (mem_usablePaths.mpr ⟨hlt, husable⟩)

theorem usablePaths_updateProbe_of_kept {p : ℕ} (hp : p < ctx.pathCount) (rttUs : UInt64)
    {received : Bool} (hkept : ¬ GivesShare ctx p received) :
    usablePaths (strategyUpdateProbeFloat ctx p rttUs received) ⊆ usablePaths ctx := by
  intro i hi
  rcases Finset.mem_insert.mp (usablePaths_updateProbe_subset hp rttUs received hi) with rfl | hin
  · have husable := (mem_usablePaths.mp hi).2
    rw [strategyUpdateProbeFloat, strategyUpdateProbeIn_eq toFloat ctx hp, StrategyCtx.usable]
      at husable
    simp only [Function.update_self, Bool.and_eq_true_iff] at husable
    obtain ⟨henabled, halive⟩ := husable
    have hhigh : ¬ Refills toFloat ctx i received := fun hlow => hkept ⟨hp, henabled, hlow⟩
    simp only [probedPathIn, if_neg hhigh] at henabled halive
    refine mem_usablePaths.mpr ⟨hp, ?_⟩
    rw [StrategyCtx.usable, henabled, Bool.true_and]
    split_ifs at halive
    exact halive
  · exact hin

theorem shareOf_updateProbe {p : ℕ} (hp : p < ctx.pathCount) (rttUs : UInt64) (received : Bool) :
    shareOf (strategyUpdateProbeFloat ctx p rttUs received) = shareOf ctx := by
  funext i
  rw [strategyUpdateProbeFloat, strategyUpdateProbeIn_eq toFloat ctx hp, shareOf, shareOf]
  dsimp only
  by_cases hip : i = p
  · rw [hip, Function.update_self, probedPathIn]
  · rw [Function.update_of_ne hip]

theorem pathCredit_updateProbe {p : ℕ} (hp : p < ctx.pathCount) (rttUs : UInt64)
    (received : Bool) :
    (strategyUpdateProbeFloat ctx p rttUs received).pathCredit =
      if Refills toFloat ctx p received then Function.update ctx.pathCredit p (shareOf ctx p)
      else ctx.pathCredit := by
  rw [strategyUpdateProbeFloat, strategyUpdateProbeIn_eq toFloat ctx hp]
  rfl

theorem turned_updateProbe (h : Turned cfg st) {p : ℕ} {rttUs : UInt64} {received : Bool}
    (horderly : Orderly st (.updateProbe p rttUs received)) :
    Turned cfg (track st (.updateProbe p rttUs received)) := by
  obtain ⟨ctx, rota⟩ := st
  by_cases hp : p < ctx.pathCount
  · have hratio : (strategyUpdateProbeFloat ctx p rttUs received).baseRedundancy =
        cfg.redundancyRatio := by
      rw [strategyUpdateProbeFloat, strategyUpdateProbeIn_eq toFloat ctx hp]
      exact h.ratio
    refine ⟨inRange_strategyUpdateProbeIn h.range toFloat p rttUs received, hratio, ?_⟩
    have hturns : InTurns (usablePaths ctx) rota (shareOf ctx) ctx.pathCredit := h.turns
    simp only [track, applyFloat, rotaAfter]
    rw [shareOf_updateProbe hp, pathCredit_updateProbe hp]
    have hsubset := usablePaths_updateProbe_subset hp rttUs received
    by_cases hgives : GivesShare ctx p received
    · rw [if_pos hgives.2.2]
      by_cases halone : Alone ctx p
      · -- The one usable path has had no turn of the share that it gets.
        rw [if_pos ⟨hgives, halone⟩]
        intro i hi
        have hip : i = p := by
          rcases Finset.mem_insert.mp (hsubset hi) with hip | hin
          · exact hip
          · exact halone i (mem_usableList.mpr hin)
        rw [hip, Function.update_self, turns_restart, sub_zero]
      · rw [if_neg fun hboth => halone hboth.2]
        exact (hturns.insert ((horderly hgives).resolve_left halone)).mono hsubset
    · rw [if_neg fun hboth => hgives hboth.1]
      have husable := usablePaths_updateProbe_of_kept hp rttUs hgives
      by_cases hlow : Refills toFloat ctx p received
      · -- A disabled path is not usable, whatever credit it has.
        rw [if_pos hlow]
        intro i hi
        have hip : i ≠ p := by
          rintro rfl
          obtain ⟨-, henabled⟩ := mem_usablePaths.mp (husable hi)
          exact hgives ⟨hp, (Bool.and_eq_true_iff.mp henabled).1, hlow⟩
        rw [Function.update_of_ne hip]
        exact hturns i (husable hi)
      · rw [if_neg hlow]
        exact hturns.mono husable
  · have hkeep : strategyUpdateProbeFloat ctx p rttUs received = ctx := if_pos (not_lt.mp hp)
    have hgives : ¬ (GivesShare ctx p received ∧ Alone ctx p) := fun hboth => hp hboth.1.1
    simp only [track, applyFloat, rotaAfter, hkeep, if_neg hgives]
    exact h

/-- **Step.** -/
theorem turned_apply (h : Turned cfg st) {call : StrategyCall} (hcall : ∀ new, call ≠ .reload new)
    (horderly : Orderly st call) : Turned cfg (track st call) := by
  cases call with
  | nextPath => exact (turned_nextPath h horderly).2
  | updateProbe p rttUs received => exact turned_updateProbe h horderly
  | reload new => exact absurd rfl (hcall new)

/-- **Run.** Before every call the credits are in turn. -/
theorem turned_calls (h : Turned cfg st) {calls : List StrategyCall}
    (hno : PathNames.NoReload calls) (horderly : AllOrderly st calls) :
    Turned cfg (calls.foldl track st) ∧
      ∀ done call, done ++ [call] <+: calls →
        Turned cfg (done.foldl track st) ∧ Orderly (done.foldl track st) call := by
  induction calls generalizing st with
  | nil =>
      refine ⟨h, fun done call hdone => ?_⟩
      simp at hdone
  | cons first calls ih =>
      have hfirst : ∀ new, first ≠ .reload new := by
        rintro new rfl
        exact hno new List.mem_cons_self
      obtain ⟨hend, hrun⟩ := ih (turned_apply h hfirst horderly.1)
        (fun new hnew => hno new (List.mem_cons_of_mem first hnew)) horderly.2
      refine ⟨hend, fun done call hdone => ?_⟩
      cases done with
      | nil =>
          obtain ⟨rfl, -⟩ := List.cons_prefix_cons.mp hdone
          exact ⟨h, horderly.1⟩
      | cons earlier done =>
          obtain ⟨rfl, hrest⟩ := List.cons_prefix_cons.mp hdone
          exact hrun done call hrest

/-! ## Two configurations -/

/-- Two strategies that agree on the health of the paths and on who had the last turn. -/
structure Alike (st st' : Tracked) : Prop where
  health : SameHealth st.1 st'.1
  alpha : st'.1.ewmaAlpha = st.1.ewmaAlpha
  last : st'.2.last = st.2.last

theorem Alike.usableList (h : Alike st st') : usableList st'.1 = usableList st.1 := by
  have husable : st'.1.usable = st.1.usable := funext h.health.usable
  rw [Rounds.usableList, Rounds.usableList, h.health.pathCount, husable]

theorem Alike.next (h : Alike st st') :
    st'.2.next (Rounds.usableList st'.1) = st.2.next (Rounds.usableList st.1) := by
  have hpending : st'.2.pending = st.2.pending := by
    funext i
    rw [Rota.pending, Rota.pending, h.last]
  rw [Rota.next, Rota.next, hpending, h.usableList]

theorem alike_strategyInit (h : DifferInWeights cfg cfg') :
    Alike (strategyInit cfg, ⟨⊥, 0⟩) (strategyInit cfg', ⟨⊥, 0⟩) := by
  obtain ⟨weight, rfl⟩ := h
  refine ⟨⟨rfl, rfl, fun i => ?_, fun i => ?_, fun i => ?_⟩, rfl, rfl⟩
  all_goals
    unfold strategyInit
    dsimp only
    split_ifs <;> rfl

theorem last_advance (r : Rota ℕ) (members : List ℕ) (share : ℕ → ℤ) :
    (r.advance members share).last = ((r.next members).elim r.last fun i => (i : WithBot ℕ)) := by
  rw [Rota.advance]
  cases r.next members <;> rfl

theorem Alike.nextPath (h : Alike st st') : Alike (track st .nextPath) (track st' .nextPath) := by
  obtain ⟨credit, hctx⟩ := creditsOnly_strategyNextPath st.1
  obtain ⟨credit', hctx'⟩ := creditsOnly_strategyNextPath st'.1
  have hhealth : SameHealth (strategyNextPath st.1).1 (strategyNextPath st'.1).1 := by
    rw [hctx, hctx']
    exact ⟨h.health.pathCount, h.health.threshold, h.health.enabled, h.health.alive,
      h.health.lossRate⟩
  have halpha : (strategyNextPath st'.1).1.ewmaAlpha = (strategyNextPath st.1).1.ewmaAlpha := by
    rw [hctx, hctx']
    exact h.alpha
  refine ⟨hhealth, halpha, ?_⟩
  simp only [track, rotaAfter]
  rw [last_advance, last_advance, h.next, h.last]

theorem last_rotaAfter_updateProbe (st : Tracked) (p : ℕ) (rttUs : UInt64) (received : Bool) :
    (rotaAfter st (.updateProbe p rttUs received)).last = st.2.last := by
  rw [rotaAfter]
  split_ifs <;> rfl

theorem Alike.updateProbe (h : Alike st st') (p : ℕ) (rttUs : UInt64) (received : Bool) :
    Alike (track st (.updateProbe p rttUs received))
      (track st' (.updateProbe p rttUs received)) := by
  have hlast : (track st' (.updateProbe p rttUs received)).2.last =
      (track st (.updateProbe p rttUs received)).2.last := by
    simp only [track, last_rotaAfter_updateProbe]
    exact h.last
  obtain ⟨⟨hcount, hthreshold, henabled, halive, hloss⟩, halpha, -⟩ := h
  by_cases hp : p < st.1.pathCount
  · have hp' : p < st'.1.pathCount := by rw [hcount]; exact hp
    have hctx := strategyUpdateProbeIn_eq toFloat st.1 hp rttUs received
    have hctx' := strategyUpdateProbeIn_eq toFloat st'.1 hp' rttUs received
    have hprobed :
        probedLossIn toFloat st'.1 p received = probedLossIn toFloat st.1 p received := by
      rw [probedLossIn, probedLossIn, halpha, hloss]
    have hrefills : Refills toFloat st'.1 p received = Refills toFloat st.1 p received := by
      rw [Refills, Refills, hprobed, hthreshold]
    have hhealth : SameHealth (strategyUpdateProbeFloat st.1 p rttUs received)
        (strategyUpdateProbeFloat st'.1 p rttUs received) := by
      rw [strategyUpdateProbeFloat, hctx, hctx']
      refine ⟨hcount, hthreshold, fun i => ?_, fun i => ?_, fun i => ?_⟩
      all_goals
        dsimp only
        by_cases hip : i = p
        · rw [hip, Function.update_self, Function.update_self]
          simp only [probedPathIn, hrefills, hprobed, hthreshold, henabled, halive]
        · rw [Function.update_of_ne hip, Function.update_of_ne hip]
          first
            | exact henabled i
            | exact halive i
            | exact hloss i
    refine ⟨hhealth, ?_, hlast⟩
    show (strategyUpdateProbeFloat st'.1 p rttUs received).ewmaAlpha =
      (strategyUpdateProbeFloat st.1 p rttUs received).ewmaAlpha
    rw [strategyUpdateProbeFloat, hctx, hctx']
    exact halpha
  · have hkeep : strategyUpdateProbeFloat st.1 p rttUs received = st.1 := if_pos (not_lt.mp hp)
    have hkeep' : strategyUpdateProbeFloat st'.1 p rttUs received = st'.1 :=
      if_pos (by rw [hcount]; exact not_lt.mp hp)
    refine ⟨?_, ?_, hlast⟩ <;> simp only [track, applyFloat, hkeep, hkeep']
    · exact ⟨hcount, hthreshold, henabled, halive, hloss⟩
    · exact halpha

theorem picks_eq (halike : Alike st st') (h : Turned cfg st) (h' : Turned cfg' st')
    {calls : List StrategyCall} (hno : PathNames.NoReload calls) (horderly : AllOrderly st calls)
    (horderly' : AllOrderly st' calls) : picks st'.1 calls = picks st.1 calls := by
  induction calls generalizing st st' with
  | nil => rfl
  | cons call calls ih =>
      have hno' : PathNames.NoReload calls := fun new hnew =>
        hno new (List.mem_cons_of_mem call hnew)
      cases call with
      | nextPath =>
          obtain ⟨hturns, hnext⟩ := turned_nextPath h horderly.1
          obtain ⟨hturns', hnext'⟩ := turned_nextPath h' horderly'.1
          have hrest := ih halike.nextPath hnext hnext' hno' horderly.2 horderly'.2
          have hpick : (strategyNextPath st'.1).2 = (strategyNextPath st.1).2 := by
            rw [hturns, hturns', halike.next]
          rw [picks, picks, hpick]
          exact congrArg (List.cons _) hrest
      | updateProbe p rttUs received =>
          exact ih (halike.updateProbe p rttUs received) (turned_updateProbe h horderly.1)
            (turned_updateProbe h' horderly'.1) hno' horderly.2 horderly'.2
      | reload new => exact absurd List.mem_cons_self (hno new)

/-! ## Both together -/

theorem Turned.fullAnyway (h : Turned cfg st) {k : ℤ} :
    FullAnyway st.1 k ↔ FullAnyway (strategyInit cfg) k := by
  have henabled : (∀ i < st.1.pathCount, (st.1.paths i).cfg.enabled = false) ↔
      ∀ i < cfg.pathCount, ((strategyInit cfg).paths i).cfg.enabled = false := by
    rw [h.range.pathCount]
    refine forall₂_congr fun i hi => ?_
    rw [h.range.enabled i hi, (inRange_strategyInit cfg).enabled i hi]
  rw [FullAnyway, FullAnyway, henabled, h.ratio]
  exact Iff.rfl

/-- **The fixed strategy.** When the calls are orderly with each of two configurations that differ
in weights, both return the same paths, and every call returns the usable path next in turn; the
number of shards is free of liveness exactly when the base ratio is full. -/
theorem fixed_strategy_when {cfg cfg' : GatewayConfig} {calls : List StrategyCall}
    (hdiffer : DifferInWeights cfg cfg') (hno : PathNames.NoReload calls)
    (horderly : AllOrderly (strategyInit cfg, ⟨⊥, 0⟩) calls)
    (horderly' : AllOrderly (strategyInit cfg', ⟨⊥, 0⟩) calls) :
    picks (strategyInit cfg') calls = picks (strategyInit cfg) calls ∧
      (∀ done, done ++ [.nextPath] <+: calls → TakesTurns (tracked cfg done)) ∧
      ∀ k, FreeOfLiveness (tracked cfg calls).1 k ↔ FullAnyway (strategyInit cfg) k := by
  have hinit := turned_strategyInit cfg
  obtain ⟨hend, hrun⟩ := turned_calls hinit hno horderly
  refine ⟨?_, fun done hdone => ?_, fun k => ?_⟩
  · exact picks_eq (alike_strategyInit hdiffer) hinit (turned_strategyInit cfg') hno horderly
      horderly'
  · obtain ⟨hturned, hnext⟩ := hrun done .nextPath hdone
    exact (turned_nextPath hturned hnext).1
  · rw [freeOfLiveness_iff]
    exact hend.fullAnyway

def fixedCfg (weight : ℕ → ℚ) : GatewayConfig :=
  { makeCfg 2 (3 / 2) with
    strategyType := chars "fixed"
    paths := fun i => { (makeCfg 2 (3 / 2)).paths i with weight := weight i } }

/-- An answered probe before the first turn, two turns, two lost probes of which path 0 dies, two
turns of the other path with an answered probe between them. -/
def someCalls : List StrategyCall :=
  [.updateProbe 0 1000 true, .nextPath, .nextPath, .updateProbe 0 0 false, .updateProbe 0 0 false,
    .nextPath, .updateProbe 1 1000 true, .nextPath]

theorem fixed_strategy_when_twoWeights :
    picks (strategyInit (fixedCfg fun _ => 2)) someCalls =
        picks (strategyInit (fixedCfg fun _ => 1)) someCalls ∧
      (∀ done, done ++ [.nextPath] <+: someCalls →
        TakesTurns (tracked (fixedCfg fun _ => 1) done)) ∧
      ∀ k, FreeOfLiveness (tracked (fixedCfg fun _ => 1) someCalls).1 k ↔
        FullAnyway (strategyInit (fixedCfg fun _ => 1)) k := by
  have hno : PathNames.NoReload someCalls := by
    intro new hnew
    simp [someCalls] at hnew
  exact fixed_strategy_when ⟨fun _ => 2, rfl⟩ hno (by decide +kernel) (by decide +kernel)

/-- The fixed strategy gives more shards to the heavier path, and more shards to a block when a
path is dead. -/
theorem fixed_strategy_fails :
    let even := fixedCfg fun _ => 1
    let uneven := fixedCfg fun i => if i = 0 then 2 else 1
    even.strategyType = chars "fixed" ∧ DifferInWeights even uneven ∧
      picks (strategyInit even) [.nextPath, .nextPath] ≠
        picks (strategyInit uneven) [.nextPath, .nextPath] ∧
      strategyComputeNFloat (withAlive (strategyInit even) fun _ => true) 4 = 6 ∧
      strategyComputeNFloat (withAlive (strategyInit even) fun i => i == 0) 4 = 12 := by
  intro even uneven
  refine ⟨rfl, ⟨fun i => if i = 0 then 2 else 1, rfl⟩, ?_, ?_, ?_⟩
  · have heven : picks (strategyInit even) [.nextPath, .nextPath] = [some 0, some 1] := by
      decide +kernel
    have huneven : picks (strategyInit uneven) [.nextPath, .nextPath] = [some 0, some 0] := by
      decide +kernel
    rw [heven, huneven]
    decide
  · decide +kernel
  · decide +kernel

end CodingGateway.Proofs.FixedStrategy
