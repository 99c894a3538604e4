import CodingGateway.Proofs.Scheduler
import Mathlib.Algebra.BigOperators.Group.Finset.Basic
import Mathlib.Algebra.Order.BigOperators.Group.Finset
set_option autoImplicit false

/-!
# Every usable path has its turn

`strategy_next_path` picks a path of highest credit and takes one credit from it.  So the
credits of the other paths run out, all credits are refilled, and after finitely many
calls any given usable path is the one picked (`selectable_iff_usable`).
-/

namespace CodingGateway.Proofs.RoundRobin

open CodingGateway.Model
open CodingGateway.Proofs.Scheduler

/-! ## One call -/

theorem creditOf_eq (weight : ℚ) :
    creditOf weight = if roundf weight < 2 ^ 31 then max 1 (roundf weight) else 1 := by
  simp only [creditOf, toInt]
  split_ifs <;> omega

theorem creditOf_pos (weight : ℚ) : 0 < creditOf weight := by
  rw [creditOf_eq]
  split_ifs <;> omega

theorem creditOf_le (weight : ℚ) : creditOf weight ≤ max 1 (roundf weight) := by
  rw [creditOf_eq]
  split_ifs <;> omega

theorem foldl_pickBest_max (ctx : StrategyCtx) (l : List ℕ) (best : Option ℕ) {b : ℕ}
    (h : l.foldl (pickBest ctx) best = some b) :
    (∀ c, best = some c → ctx.pathCredit c ≤ ctx.pathCredit b) ∧
      ∀ i ∈ l, ctx.usable i = true → ctx.pathCredit i ≤ ctx.pathCredit b := by
  induction l generalizing best with
  | nil =>
      refine ⟨fun c hc => ?_, fun i hi => by cases hi⟩
      rw [List.foldl_nil, hc] at h
      cases h
      exact le_rfl
  | cons j l ih =>
      obtain ⟨hbest, hrest⟩ := ih (pickBest ctx best j) h
      have hstep : (∀ c, best = some c → ctx.pathCredit c ≤ ctx.pathCredit b) ∧
          (ctx.usable j = true → ctx.pathCredit j ≤ ctx.pathCredit b) := by
        unfold pickBest at hbest
        by_cases husable : ctx.usable j = true
        · rw [if_pos husable] at hbest
          cases best with
          | none => exact ⟨fun c hc => (by cases hc), fun _ => hbest j rfl⟩
          | some c =>
              dsimp only at hbest
              split_ifs at hbest with hless
              · have hj := hbest j rfl
                exact ⟨fun d hd => by cases hd; omega, fun _ => hj⟩
              · have hc := hbest c rfl
                exact ⟨fun d hd => by cases hd; exact hc, fun _ => by omega⟩
        · rw [if_neg husable] at hbest
          exact ⟨hbest, fun h => absurd h husable⟩
      refine ⟨hstep.1, fun i hi => ?_⟩
      rcases List.mem_cons.mp hi with rfl | hi
      · exact hstep.2
      · exact hrest i hi

theorem foldl_pickBest_mem (ctx : StrategyCtx) (l : List ℕ) (best : Option ℕ) {b : ℕ}
    (h : l.foldl (pickBest ctx) best = some b) : best = some b ∨ b ∈ l := by
  induction l generalizing best with
  | nil => exact Or.inl h
  | cons j l ih =>
      rcases ih (pickBest ctx best j) h with hpick | hmem
      · unfold pickBest at hpick
        split_ifs at hpick with husable
        · cases best with
          | none =>
              cases hpick
              exact Or.inr List.mem_cons_self
          | some c =>
              dsimp only at hpick
              split_ifs at hpick
              · cases hpick
                exact Or.inr List.mem_cons_self
              · exact Or.inl hpick
        · exact Or.inl hpick
      · exact Or.inr (List.mem_cons_of_mem j hmem)

theorem refillCredits_credit (ctx : StrategyCtx) {i : ℕ} (hi : i < ctx.pathCount)
    (husable : ctx.usable i = true) :
    (refillCredits ctx = ctx ∧
        ∃ j < ctx.pathCount, ctx.usable j = true ∧ 0 < ctx.pathCredit j) ∨
      ((∀ j < ctx.pathCount, ctx.usable j = true → ctx.pathCredit j ≤ 0) ∧
        0 < (refillCredits ctx).pathCredit i) := by
  unfold refillCredits
  split_ifs with hany
  · obtain ⟨j, hj, hcredit⟩ := List.any_eq_true.mp hany
    rw [Bool.and_eq_true, decide_eq_true_iff] at hcredit
    exact Or.inl ⟨rfl, j, List.mem_range.mp hj, hcredit⟩
  · refine Or.inr ⟨fun j hj hjusable => ?_, ?_⟩
    · by_contra hpos
      refine hany (List.any_eq_true.mpr ⟨j, List.mem_range.mpr hj, ?_⟩)
      rw [hjusable, Bool.true_and, decide_eq_true_iff]
      omega
    · dsimp only
      rw [if_pos ⟨hi, husable⟩]
      exact creditOf_pos _

theorem strategyNextPath_credit {ctx : StrategyCtx} {i : ℕ} (hi : i < ctx.pathCount)
    (husable : ctx.usable i = true) :
    ∃ b < ctx.pathCount, (strategyNextPath ctx).2 = some b ∧ ctx.usable b = true ∧
      (strategyNextPath ctx).1.pathCredit = Function.update (refillCredits ctx).pathCredit b
        ((refillCredits ctx).pathCredit b - 1) ∧
      ∀ j < ctx.pathCount, ctx.usable j = true →
        (refillCredits ctx).pathCredit j ≤ (refillCredits ctx).pathCredit b := by
  obtain ⟨b, hpick, hbusable⟩ := exists_of_strategyNextPath hi husable
  have hcount : (refillCredits ctx).pathCount = ctx.pathCount := by
    unfold refillCredits
    split_ifs <;> rfl
  suffices hspec : b < ctx.pathCount ∧
      (strategyNextPath ctx).1.pathCredit = Function.update (refillCredits ctx).pathCredit b
        ((refillCredits ctx).pathCredit b - 1) ∧
      ∀ j < ctx.pathCount, ctx.usable j = true →
        (refillCredits ctx).pathCredit j ≤ (refillCredits ctx).pathCredit b from
    ⟨b, hspec.1, hpick, hbusable, hspec.2⟩
  unfold strategyNextPath at hpick ⊢
  split_ifs at hpick ⊢
  dsimp only at hpick ⊢
  cases hfold : (List.range (refillCredits ctx).pathCount).foldl
      (pickBest (refillCredits ctx)) none with
  | none =>
      rw [hfold] at hpick
      cases hpick
  | some best =>
      rw [hfold] at hpick
      cases hpick
      rw [hcount] at hfold
      refine ⟨?_, rfl, fun j hj hjusable => ?_⟩
      · rcases foldl_pickBest_mem _ _ _ hfold with hnone | hmem
        · cases hnone
        · exact List.mem_range.mp hmem
      · refine (foldl_pickBest_max _ _ _ hfold).2 j (List.mem_range.mpr hj) ?_
        rw [refillCredits_usable]
        exact hjusable

/-! ## Many calls -/

def afterCalls (ctx : StrategyCtx) (n : ℕ) : StrategyCtx :=
  (fun ctx => (strategyNextPath ctx).1)^[n] ctx

theorem afterCalls_succ (ctx : StrategyCtx) (n : ℕ) :
    afterCalls ctx (n + 1) = (strategyNextPath (afterCalls ctx n)).1 :=
  Function.iterate_succ_apply' ..

theorem sameHealth_afterCalls (ctx : StrategyCtx) (n : ℕ) : SameHealth ctx (afterCalls ctx n) := by
  induction n with
  | zero => exact SameHealth.refl ctx
  | succ n ih =>
      rw [afterCalls_succ]
      exact ih.trans (sameHealth_strategyNextPath _)

/-- `strategy_next_path` returns path `i` after finitely many calls. -/
def Selectable (ctx : StrategyCtx) (i : ℕ) : Prop :=
  ∃ n, (strategyNextPath (afterCalls ctx n)).2 = some i

theorem selectable_of_next {ctx : StrategyCtx} {i : ℕ}
    (h : Selectable (strategyNextPath ctx).1 i) : Selectable ctx i := by
  obtain ⟨n, hn⟩ := h
  refine ⟨n + 1, ?_⟩
  rw [afterCalls, Function.iterate_succ_apply]
  exact hn

/-- The credit left on the usable paths, debts not counted. -/
def creditLeft (ctx : StrategyCtx) : ℕ :=
  ∑ j ∈ Finset.range ctx.pathCount, if ctx.usable j then (ctx.pathCredit j).toNat else 0

theorem creditLeft_next {ctx : StrategyCtx} {b : ℕ} (hb : b < ctx.pathCount)
    (husable : ctx.usable b = true) (hpos : 0 < ctx.pathCredit b)
    (hcredit : (strategyNextPath ctx).1.pathCredit =
      Function.update ctx.pathCredit b (ctx.pathCredit b - 1)) :
    creditLeft (strategyNextPath ctx).1 < creditLeft ctx := by
  have hsame := sameHealth_strategyNextPath ctx
  unfold creditLeft
  rw [hsame.pathCount]
  apply Finset.sum_lt_sum
  · intro j _
    rw [hsame.usable, hcredit]
    split_ifs
    · by_cases hj : j = b
      · rw [hj, Function.update_self]
        omega
      · rw [Function.update_of_ne hj]
    · exact le_rfl
  · refine ⟨b, Finset.mem_range.mpr hb, ?_⟩
    rw [hsame.usable, hcredit, if_pos husable, if_pos husable, Function.update_self]
    omega

theorem selectable_of_credit {ctx : StrategyCtx} {i : ℕ} (hi : i < ctx.pathCount)
    (husable : ctx.usable i = true) (hpos : 0 < ctx.pathCredit i) : Selectable ctx i := by
  induction hleft : creditLeft ctx using Nat.strong_induction_on generalizing ctx with
  | _ left ih =>
      have hsame := sameHealth_strategyNextPath ctx
      obtain ⟨b, hb, hpick, hbusable, hcredit, hmax⟩ := strategyNextPath_credit hi husable
      have hkeep : refillCredits ctx = ctx := by
        rcases refillCredits_credit ctx hi husable with ⟨hkeep, _⟩ | ⟨hempty, _⟩
        · exact hkeep
        · exact absurd (hempty i hi husable) (by omega)
      rw [hkeep] at hcredit hmax
      by_cases hbi : i = b
      · exact ⟨0, by rw [hbi]; exact hpick⟩
      · have hbpos : 0 < ctx.pathCredit b := hpos.trans_le (hmax i hi husable)
        have hless := creditLeft_next hb hbusable hbpos hcredit
        apply selectable_of_next
        refine ih _ (hleft ▸ hless) ?_ ?_ ?_ rfl
        · rw [hsame.pathCount]
          exact hi
        · rw [hsame.usable]
          exact husable
        · rw [hcredit, Function.update_of_ne hbi]
          exact hpos

theorem selectable_of_usable {ctx : StrategyCtx} {i : ℕ} (hi : i < ctx.pathCount)
    (husable : ctx.usable i = true) : Selectable ctx i := by
  induction hleft : creditLeft ctx using Nat.strong_induction_on generalizing ctx with
  | _ left ih =>
      have hsame := sameHealth_strategyNextPath ctx
      obtain ⟨b, hb, hpick, hbusable, hcredit, hmax⟩ := strategyNextPath_credit hi husable
      by_cases hbi : i = b
      · exact ⟨0, by rw [hbi]; exact hpick⟩
      · have hi' : i < (strategyNextPath ctx).1.pathCount := by
          rw [hsame.pathCount]
          exact hi
        have husable' : (strategyNextPath ctx).1.usable i = true := by
          rw [hsame.usable]
          exact husable
        apply selectable_of_next
        rcases refillCredits_credit ctx hi husable with ⟨hkeep, j, hj, hjusable, hjpos⟩ | ⟨_, hfull⟩
        · rw [hkeep] at hcredit hmax
          have hbpos : 0 < ctx.pathCredit b := hjpos.trans_le (hmax j hj hjusable)
          have hless := creditLeft_next hb hbusable hbpos hcredit
          exact ih _ (hleft ▸ hless) hi' husable' rfl
        · refine selectable_of_credit hi' husable' ?_
          rw [hcredit, Function.update_of_ne hbi]
          exact hfull

theorem selectable_iff_usable {ctx : StrategyCtx} {i : ℕ} (hi : i < ctx.pathCount) :
    Selectable ctx i ↔ ctx.usable i = true := by
  constructor
  · rintro ⟨n, hn⟩
    rw [← (sameHealth_afterCalls ctx n).usable]
    exact usable_of_strategyNextPath hn
  · exact selectable_of_usable hi

end CodingGateway.Proofs.RoundRobin
