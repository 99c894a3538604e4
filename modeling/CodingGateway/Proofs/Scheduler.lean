import CodingGateway.Model.Main
set_option autoImplicit false

/-!
# The scheduler

`strategy_next_path` changes credits only, so flushing a block leaves every path as alive
as it was.  It picks a usable path whenever there is one.  `strategy_update_probe` changes
one path, and its credit when the loss is low (`strategyUpdateProbe_eq`).
-/

namespace CodingGateway.Proofs.Scheduler

open CodingGateway.Model

/-! ## Scheduling leaves the path states alone -/

/-- Two strategy contexts that may differ in credits and in counters only. -/
structure SameHealth (ctx ctx' : StrategyCtx) : Prop where
  pathCount : ctx'.pathCount = ctx.pathCount
  threshold : ctx'.lossThreshold = ctx.lossThreshold
  enabled : ∀ i, (ctx'.paths i).cfg.enabled = (ctx.paths i).cfg.enabled
  alive : ∀ i, (ctx'.paths i).alive = (ctx.paths i).alive
  lossRate : ∀ i, (ctx'.paths i).lossRate = (ctx.paths i).lossRate

theorem SameHealth.refl (ctx : StrategyCtx) : SameHealth ctx ctx :=
  ⟨rfl, rfl, fun _ => rfl, fun _ => rfl, fun _ => rfl⟩

theorem SameHealth.trans {a b c : StrategyCtx} (h₁ : SameHealth a b) (h₂ : SameHealth b c) :
    SameHealth a c :=
  ⟨h₂.pathCount.trans h₁.pathCount, h₂.threshold.trans h₁.threshold,
    fun i => (h₂.enabled i).trans (h₁.enabled i), fun i => (h₂.alive i).trans (h₁.alive i),
    fun i => (h₂.lossRate i).trans (h₁.lossRate i)⟩

theorem SameHealth.usable {ctx ctx' : StrategyCtx} (h : SameHealth ctx ctx') (i : ℕ) :
    ctx'.usable i = ctx.usable i := by
  rw [StrategyCtx.usable, StrategyCtx.usable, h.enabled, h.alive]

def CreditsOnly (ctx ctx' : StrategyCtx) : Prop :=
  ∃ credit, ctx' = { ctx with pathCredit := credit }

theorem CreditsOnly.refl (ctx : StrategyCtx) : CreditsOnly ctx ctx := ⟨ctx.pathCredit, rfl⟩

theorem CreditsOnly.trans {a b c : StrategyCtx} (h₁ : CreditsOnly a b) (h₂ : CreditsOnly b c) :
    CreditsOnly a c := by
  obtain ⟨_, rfl⟩ := h₁
  obtain ⟨credit, rfl⟩ := h₂
  exact ⟨credit, rfl⟩

theorem CreditsOnly.sameHealth {ctx ctx' : StrategyCtx} (h : CreditsOnly ctx ctx') :
    SameHealth ctx ctx' := by
  obtain ⟨_, rfl⟩ := h
  exact ⟨rfl, rfl, fun _ => rfl, fun _ => rfl, fun _ => rfl⟩

theorem creditsOnly_strategyNextPath (ctx : StrategyCtx) :
    CreditsOnly ctx (strategyNextPath ctx).1 := by
  have hrefill : CreditsOnly ctx (refillCredits ctx) := by
    unfold refillCredits
    split_ifs
    · exact CreditsOnly.refl ctx
    · exact ⟨_, rfl⟩
  unfold strategyNextPath
  split_ifs
  · dsimp only
    cases (List.range (refillCredits ctx).pathCount).foldl (pickBest (refillCredits ctx)) none with
    | none => exact hrefill
    | some best => exact hrefill.trans ⟨_, rfl⟩
  · exact CreditsOnly.refl ctx

theorem creditsOnly_sendStep (tctx : TransportCtx) (env : FlushEnv) (k n : ℕ)
    (shards : ℕ → Shard) (res : FlushResult) (i : ℕ) :
    CreditsOnly res.sctx (sendStep tctx env k n shards res i).sctx := by
  have hnext := creditsOnly_strategyNextPath res.sctx
  unfold sendStep
  rcases hpick : strategyNextPath res.sctx with ⟨sctx, pick⟩
  rw [hpick] at hnext
  cases pick with
  | none => exact hnext
  | some path =>
      dsimp only
      split_ifs
      · exact hnext
      · exact hnext

theorem creditsOnly_foldl_sendStep (tctx : TransportCtx) (env : FlushEnv) (k n : ℕ)
    (shards : ℕ → Shard) (l : List ℕ) (res : FlushResult) :
    CreditsOnly res.sctx (l.foldl (sendStep tctx env k n shards) res).sctx := by
  induction l generalizing res with
  | nil => exact CreditsOnly.refl res.sctx
  | cons i l ih => exact (creditsOnly_sendStep tctx env k n shards res i).trans (ih _)

theorem creditsOnly_txBlockFlush (blk : TxBlock) (tctx : TransportCtx) (sctx : StrategyCtx)
    (k : ℕ) (crypto : CryptoCtx) (metrics : Metrics) (env : FlushEnv) :
    CreditsOnly sctx (txBlockFlush blk tctx sctx k crypto metrics env).sctx := by
  unfold txBlockFlush
  split_ifs with hempty
  · exact CreditsOnly.refl sctx
  · exact creditsOnly_foldl_sendStep tctx env k _ _ _ ⟨_, sctx, metrics, []⟩

theorem creditsOnly_mainRead (st : MainState) (inp : MainInput) :
    CreditsOnly st.sctx (mainRead st inp).1.sctx := by
  unfold mainRead
  split_ifs with htx
  · cases inp.packet with
    | none => exact CreditsOnly.refl _
    | some pkt =>
        dsimp only
        split_ifs with hfull
        · exact creditsOnly_txBlockFlush ..
        · exact CreditsOnly.refl _
  · exact CreditsOnly.refl _

theorem creditsOnly_mainTimeout (st : MainState) (inp : MainInput) :
    CreditsOnly st.sctx (mainTimeout st inp).1.sctx := by
  unfold mainTimeout
  split_ifs with hflush
  · exact creditsOnly_txBlockFlush ..
  · exact CreditsOnly.refl _

theorem sameHealth_strategyNextPath (ctx : StrategyCtx) :
    SameHealth ctx (strategyNextPath ctx).1 := (creditsOnly_strategyNextPath ctx).sameHealth

theorem sameHealth_mainRead (st : MainState) (inp : MainInput) :
    SameHealth st.sctx (mainRead st inp).1.sctx := (creditsOnly_mainRead st inp).sameHealth

/-! ## The path picked -/

theorem refillCredits_usable (ctx : StrategyCtx) (i : ℕ) :
    (refillCredits ctx).usable i = ctx.usable i := by
  unfold refillCredits
  split_ifs
  · rfl
  · rfl

theorem foldl_pickBest_usable (ctx : StrategyCtx) (l : List ℕ) (best : Option ℕ)
    (hbest : ∀ b, best = some b → ctx.usable b = true) {i : ℕ}
    (h : l.foldl (pickBest ctx) best = some i) : ctx.usable i = true := by
  induction l generalizing best with
  | nil => exact hbest i h
  | cons j l ih =>
      refine ih (pickBest ctx best j) (fun b hb => ?_) h
      unfold pickBest at hb
      split_ifs at hb with husable
      · cases best with
        | none =>
            cases hb
            exact husable
        | some c =>
            dsimp only at hb
            split_ifs at hb
            · cases hb
              exact husable
            · cases hb
              exact hbest _ rfl
      · exact hbest b hb

theorem usable_of_strategyNextPath {ctx : StrategyCtx} {i : ℕ}
    (h : (strategyNextPath ctx).2 = some i) : ctx.usable i = true := by
  unfold strategyNextPath at h
  split_ifs at h with hany
  dsimp only at h
  cases hfold : (List.range (refillCredits ctx).pathCount).foldl
      (pickBest (refillCredits ctx)) none with
  | none =>
      rw [hfold] at h
      cases h
  | some best =>
      rw [hfold] at h
      cases h
      rw [← refillCredits_usable]
      exact foldl_pickBest_usable _ _ none (fun b hb => by cases hb) hfold

theorem foldl_pickBest_ne_none (ctx : StrategyCtx) (l : List ℕ) (best : Option ℕ)
    (h : best ≠ none ∨ ∃ i ∈ l, ctx.usable i = true) : l.foldl (pickBest ctx) best ≠ none := by
  induction l generalizing best with
  | nil =>
      rcases h with hbest | ⟨i, hi, _⟩
      · exact hbest
      · cases hi
  | cons j l ih =>
      apply ih
      by_cases husable : ctx.usable j = true
      · left
        unfold pickBest
        rw [if_pos husable]
        cases best with
        | none => exact Option.some_ne_none j
        | some b =>
            dsimp only
            split_ifs
            · exact Option.some_ne_none j
            · exact Option.some_ne_none b
      · have hkeep : pickBest ctx best j = best := if_neg husable
        rw [hkeep]
        rcases h with hbest | ⟨i, hi, hpath⟩
        · exact Or.inl hbest
        · rcases List.mem_cons.mp hi with rfl | hi
          · exact absurd hpath husable
          · exact Or.inr ⟨i, hi, hpath⟩

theorem exists_of_strategyNextPath {ctx : StrategyCtx} {i : ℕ} (hi : i < ctx.pathCount)
    (husable : ctx.usable i = true) :
    ∃ path, (strategyNextPath ctx).2 = some path ∧ ctx.usable path = true := by
  have hany : (List.range ctx.pathCount).any ctx.usable = true :=
    List.any_eq_true.mpr ⟨i, List.mem_range.mpr hi, husable⟩
  have hrefill : (refillCredits ctx).pathCount = ctx.pathCount := by
    unfold refillCredits
    split_ifs <;> rfl
  have hne : (List.range (refillCredits ctx).pathCount).foldl (pickBest (refillCredits ctx)) none ≠
      none := by
    refine foldl_pickBest_ne_none _ _ _ (Or.inr ⟨i, ?_, ?_⟩)
    · rw [hrefill]
      exact List.mem_range.mpr hi
    · rw [refillCredits_usable]
      exact husable
  obtain ⟨path, hpath⟩ := Option.ne_none_iff_exists'.mp hne
  have hpick : (strategyNextPath ctx).2 = some path := by
    unfold strategyNextPath
    rw [if_pos hany]
    dsimp only
    rw [hpath]
  exact ⟨path, hpick, usable_of_strategyNextPath hpick⟩

/-- Some path is usable, and the sockets of the usable paths are open. -/
structure LinkUp (tctx : TransportCtx) (ctx : StrategyCtx) : Prop where
  usable : ∃ i < ctx.pathCount, ctx.usable i = true
  sockets : ∀ i, ctx.usable i = true → (tctx.paths i).enabled = true ∧ 0 ≤ (tctx.paths i).fd

theorem LinkUp.congr {tctx : TransportCtx} {ctx ctx' : StrategyCtx} (h : LinkUp tctx ctx)
    (hsame : SameHealth ctx ctx') : LinkUp tctx ctx' := by
  obtain ⟨i, hi, husable⟩ := h.usable
  refine ⟨⟨i, by rw [hsame.pathCount]; exact hi, by rw [hsame.usable]; exact husable⟩,
    fun j hj => ?_⟩
  rw [hsame.usable] at hj
  exact h.sockets j hj

/-! ## Probes -/

section

variable (fl : ℚ → ℚ)

/-- The loss rate of path `p` after one more probe. -/
def probedLossIn (ctx : StrategyCtx) (p : ℕ) (received : Bool) : ℚ :=
  fl (fl (fl ctx.ewmaAlpha * (if received then 0 else 1)) +
    fl (fl (1 - fl ctx.ewmaAlpha) * (ctx.paths p).lossRate))

/-- One more probe makes path `p` alive and refills its credit. -/
def Refills (ctx : StrategyCtx) (p : ℕ) (received : Bool) : Prop :=
  probedLossIn fl ctx p received < fl (fl ctx.lossThreshold * (1 / 2))

instance (ctx : StrategyCtx) (p : ℕ) (received : Bool) : Decidable (Refills fl ctx p received) :=
  inferInstanceAs (Decidable (_ < _))

/-- What `strategy_update_probe` makes of path `p`. -/
def probedPathIn (ctx : StrategyCtx) (p : ℕ) (rttUs : UInt64) (received : Bool) : PathState :=
  { ctx.paths p with
    probesSent := (ctx.paths p).probesSent + 1
    probesRecv := if received then (ctx.paths p).probesRecv + 1 else (ctx.paths p).probesRecv
    rttMs :=
      if received then
        fl (fl (fl ctx.ewmaAlpha * fl (fl (rttUs.toNat : ℚ) / 1000)) +
          fl (fl (1 - fl ctx.ewmaAlpha) * (ctx.paths p).rttMs))
      else (ctx.paths p).rttMs
    lossRate := probedLossIn fl ctx p received
    alive :=
      if Refills fl ctx p received then true
      else if fl ctx.lossThreshold < probedLossIn fl ctx p received then false
      else (ctx.paths p).alive }

theorem strategyUpdateProbeIn_eq (ctx : StrategyCtx) {p : ℕ} (hp : p < ctx.pathCount)
    (rttUs : UInt64) (received : Bool) :
    strategyUpdateProbeIn fl ctx p rttUs received =
      { ctx with
        paths := Function.update ctx.paths p (probedPathIn fl ctx p rttUs received)
        pathCredit :=
          if Refills fl ctx p received then
            Function.update ctx.pathCredit p (creditOf (ctx.paths p).weightCurrent)
          else ctx.pathCredit } := by
  unfold strategyUpdateProbeIn probedPathIn Refills probedLossIn
  rw [if_neg (not_le.mpr hp)]
  cases received with
  | false =>
      simp only [Bool.false_eq_true, if_false]
      by_cases hhigh : fl ctx.lossThreshold < fl (fl (fl ctx.ewmaAlpha * 1) +
          fl (fl (1 - fl ctx.ewmaAlpha) * (ctx.paths p).lossRate))
      · simp only [if_pos hhigh]
        split_ifs <;> rfl
      · simp only [if_neg hhigh]
        split_ifs <;> rfl
  | true =>
      simp only [if_true]
      by_cases hhigh : fl ctx.lossThreshold < fl (fl (fl ctx.ewmaAlpha * 0) +
          fl (fl (1 - fl ctx.ewmaAlpha) * (ctx.paths p).lossRate))
      · simp only [if_pos hhigh]
        split_ifs <;> rfl
      · simp only [if_neg hhigh]
        split_ifs <;> rfl

end

/-- The loss rate of path `p` after one more probe, exactly. -/
def probedLoss (ctx : StrategyCtx) (p : ℕ) (received : Bool) : ℚ :=
  ctx.ewmaAlpha * (if received then 0 else 1) + (1 - ctx.ewmaAlpha) * (ctx.paths p).lossRate

def probedPath (ctx : StrategyCtx) (p : ℕ) (rttUs : UInt64) (received : Bool) : PathState :=
  probedPathIn id ctx p rttUs received

theorem strategyUpdateProbe_eq (ctx : StrategyCtx) {p : ℕ} (hp : p < ctx.pathCount)
    (rttUs : UInt64) (received : Bool) :
    strategyUpdateProbe ctx p rttUs received =
      { ctx with
        paths := Function.update ctx.paths p (probedPath ctx p rttUs received)
        pathCredit :=
          if probedLoss ctx p received < ctx.lossThreshold * (1 / 2) then
            Function.update ctx.pathCredit p (creditOf (ctx.paths p).weightCurrent)
          else ctx.pathCredit } :=
  strategyUpdateProbeIn_eq id ctx hp rttUs received

end CodingGateway.Proofs.Scheduler
