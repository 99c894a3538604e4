import Mathlib.Algebra.BigOperators.Group.Finset.Piecewise
import Mathlib.Algebra.Order.BigOperators.Group.Finset
import Mathlib.Data.Nat.Periodic
import Mathlib.Tactic.Ring
set_option autoImplicit false

/-!
# Round robin by credits

The members of a finite set have credits.  A step picks the member of highest credit, the
least one among equals, and takes a credit from it; when nobody has credit left, every member
first gets its share again.

* `Bounded.step` — credits stay between zero and the share;
* `picks_round` and `pick_periodic` — from full credits every member is picked as often as
  its share says in each round, and the rounds repeat;
* `queue_step` — with shares of one the members with credit are picked in order, then all.
-/

namespace CodingGateway.Library.CreditScheduler

variable {ι : Type*} [LinearOrder ι] {S : Finset ι} {share : ι → ℤ}

/-! ## One step -/

/-- No member has credit left. -/
def Spent (S : Finset ι) (credit : ι → ℤ) : Prop := ∀ i ∈ S, credit i ≤ 0

instance (S : Finset ι) (credit : ι → ℤ) : Decidable (Spent S credit) :=
  inferInstanceAs (Decidable (∀ i ∈ S, credit i ≤ 0))

/-- The credits that the next pick is made from. -/
def refill (S : Finset ι) (share credit : ι → ℤ) : ι → ℤ :=
  if Spent S credit then fun i => if i ∈ S then share i else credit i else credit

/-- Member `i` has the highest credit, and every smaller member has less. -/
structure Best (S : Finset ι) (credit : ι → ℤ) (i : ι) : Prop where
  mem : i ∈ S
  le : ∀ j ∈ S, credit j ≤ credit i
  lt : ∀ j ∈ S, j < i → credit j < credit i

/-- A step picks `i` and leaves `credit'`. -/
structure Step (S : Finset ι) (share credit : ι → ℤ) (i : ι) (credit' : ι → ℤ) : Prop where
  best : Best S (refill S share credit) i
  credit : credit' = Function.update (refill S share credit) i (refill S share credit i - 1)

/-- Every member's credit is between zero and its share. -/
def Bounded (S : Finset ι) (share credit : ι → ℤ) : Prop :=
  ∀ i ∈ S, 0 ≤ credit i ∧ credit i ≤ share i

variable {credit credit' : ι → ℤ} {i j : ι}

theorem Best.unique (hi : Best S credit i) (hj : Best S credit j) : i = j := by
  apply le_antisymm
  · by_contra hlt
    exact absurd (hi.lt j hj.mem (not_le.mp hlt)) (not_lt.mpr (hj.le i hi.mem))
  · by_contra hlt
    exact absurd (hj.lt i hi.mem (not_le.mp hlt)) (not_lt.mpr (hi.le j hj.mem))

theorem refill_of_spent (h : Spent S credit) (hi : i ∈ S) : refill S share credit i = share i := by
  rw [refill, if_pos h, if_pos hi]

theorem refill_of_not_mem (hi : i ∉ S) : refill S share credit i = credit i := by
  unfold refill
  split_ifs
  · exact if_neg hi
  · rfl

theorem refill_of_pos (hi : i ∈ S) (hpos : 0 < credit i) : refill S share credit = credit :=
  if_neg fun h => absurd (h i hi) (not_le.mpr hpos)

theorem Step.pos (hshare : ∀ i ∈ S, 0 < share i) (h : Step S share credit i credit') :
    0 < refill S share credit i := by
  by_cases hspent : Spent S credit
  · rw [refill_of_spent hspent h.best.mem]
    exact hshare i h.best.mem
  · obtain ⟨j, hj, hpos⟩ : ∃ j ∈ S, 0 < credit j := by
      by_contra hnone
      exact hspent fun j hj => not_lt.mp fun hpos => hnone ⟨j, hj, hpos⟩
    have hle := h.best.le j hj
    rw [refill_of_pos hj hpos] at hle ⊢
    exact hpos.trans_le hle

theorem Bounded.refill (hshare : ∀ i ∈ S, 0 < share i) (h : Bounded S share credit) :
    Bounded S share (refill S share credit) := by
  intro i hi
  by_cases hspent : Spent S credit
  · rw [refill_of_spent hspent hi]
    exact ⟨(hshare i hi).le, le_rfl⟩
  · rw [CreditScheduler.refill, if_neg hspent]
    exact h i hi

theorem Bounded.step (hshare : ∀ i ∈ S, 0 < share i) (h : Bounded S share credit)
    (hstep : Step S share credit i credit') : Bounded S share credit' := by
  have hfull := h.refill hshare
  have hpos := hstep.pos hshare
  intro j hj
  rw [hstep.credit]
  obtain ⟨hnonneg, hle⟩ := hfull j hj
  by_cases hji : j = i
  · rw [hji, Function.update_self]
    rw [hji] at hle
    omega
  · rw [Function.update_of_ne hji]
    exact ⟨hnonneg, hle⟩

/-! ## Runs -/

/-- The credits before each step and the member that the step picks. -/
def Run (S : Finset ι) (share : ι → ℤ) (credit : ℕ → ι → ℤ) (pick : ℕ → ι) : Prop :=
  ∀ t, Step S share (credit t) (pick t) (credit (t + 1))

section Rounds

variable {credits : ℕ → ι → ℤ} {pick : ℕ → ι} {R : ℕ}

theorem bounded_run (hshare : ∀ i ∈ S, 0 < share i) (hrun : Run S share credits pick)
    (h : Bounded S share (credits 0)) (t : ℕ) : Bounded S share (credits t) := by
  induction t with
  | zero => exact h
  | succ t ih => exact ih.step hshare (hrun t)

variable (hrun : Run S share credits pick) (hfull : ∀ i ∈ S, credits 0 i = share i)
  (hround : (R : ℤ) = ∑ i ∈ S, share i)
include hrun hfull hround

/-- Within the first round nothing is refilled: a member's credit is what it started with
less its picks. -/
theorem credit_of_le {t : ℕ} (ht : t ≤ R) :
    (∀ i, credits t i = credits 0 i - Nat.count (fun s => pick s = i) t) ∧
      ∑ i ∈ S, credits t i = R - t := by
  induction t with
  | zero =>
      refine ⟨fun i => by simp, ?_⟩
      rw [hround, Nat.cast_zero, sub_zero]
      exact Finset.sum_congr rfl hfull
  | succ t ih =>
      obtain ⟨hcredit, hsum⟩ := ih (Nat.le_of_succ_le ht)
      have hnot : ¬ Spent S (credits t) := by
        intro hspent
        have hle : ∑ i ∈ S, credits t i ≤ 0 := Finset.sum_nonpos hspent
        omega
      have hkeep : refill S share (credits t) = credits t := if_neg hnot
      obtain ⟨hbest, hnext⟩ := hrun t
      rw [hkeep] at hbest hnext
      constructor
      · intro i
        rw [hnext, Nat.count_succ]
        by_cases hi : pick t = i
        · subst hi
          rw [Function.update_self, if_pos rfl, hcredit]
          push_cast
          ring
        · rw [Function.update_of_ne (Ne.symm hi), if_neg hi, hcredit, Nat.add_zero]
      · rw [hnext, Finset.sum_update_of_mem hbest.mem]
        have hsplit := Finset.add_sum_erase S (credits t) hbest.mem
        rw [Finset.sdiff_singleton_eq_erase]
        push_cast
        omega

variable (hshare : ∀ i ∈ S, 0 < share i)
include hshare

theorem credit_round (hi : i ∈ S) : credits R i = 0 := by
  have hsum := (credit_of_le hrun hfull hround le_rfl).2
  rw [sub_self] at hsum
  have hbounded := bounded_run hshare hrun
    (fun j hj => ⟨by rw [hfull j hj]; exact (hshare j hj).le, (hfull j hj).le⟩) R
  exact (Finset.sum_eq_zero_iff_of_nonneg fun j hj => (hbounded j hj).1).mp hsum i hi

theorem picks_round (hi : i ∈ S) : (Nat.count (fun s => pick s = i) R : ℤ) = share i := by
  have hcredit := (credit_of_le hrun hfull hround le_rfl).1 i
  rw [credit_round hrun hfull hround hshare hi, hfull i hi] at hcredit
  omega

theorem refill_round (t : ℕ) :
    refill S share (credits (t + R)) = refill S share (credits t) ∧ pick (t + R) = pick t := by
  have hsame : ∀ t, refill S share (credits (t + R)) = refill S share (credits t) →
      pick (t + R) = pick t := by
    intro t hrefill
    have hbest := (hrun (t + R)).best
    rw [hrefill] at hbest
    exact hbest.unique (hrun t).best
  induction t with
  | zero =>
      have hstart : refill S share (credits (0 + R)) = refill S share (credits 0) := by
        have hmem := (hrun 0).best.mem
        have hpos : 0 < credits 0 (pick 0) := by
          rw [hfull _ hmem]
          exact hshare _ hmem
        rw [Nat.zero_add, refill_of_pos hmem hpos]
        funext i
        by_cases hi : i ∈ S
        · rw [refill_of_spent (fun j hj => (credit_round hrun hfull hround hshare hj).le) hi,
            hfull i hi]
        · rw [refill_of_not_mem hi, (credit_of_le hrun hfull hround le_rfl).1 i]
          have hnever : Nat.count (fun s => pick s = i) R = 0 := by
            rw [Nat.count_eq_card_filter_range, Finset.card_eq_zero, Finset.filter_eq_empty_iff]
            intro s _ hs
            exact hi (hs ▸ (hrun s).best.mem)
          rw [hnever, Nat.cast_zero, sub_zero]
      exact ⟨hstart, hsame 0 hstart⟩
  | succ t ih =>
      obtain ⟨hrefill, hpick⟩ := ih
      have hnext : credits (t + 1 + R) = credits (t + 1) := by
        rw [Nat.add_right_comm, (hrun (t + R)).credit, (hrun t).credit, hrefill, hpick]
      have hrefill' : refill S share (credits (t + 1 + R)) = refill S share (credits (t + 1)) := by
        rw [hnext]
      exact ⟨hrefill', hsame (t + 1) hrefill'⟩

theorem pick_periodic : Function.Periodic pick R := fun t =>
  (refill_round hrun hfull hround hshare t).2

theorem picks_stretch (hi : i ∈ S) (s : ℕ) :
    (((Finset.Ico s (s + R)).filter fun t => pick t = i).card : ℤ) = share i := by
  have hperiodic : Function.Periodic (fun t => pick t = i) R := fun t =>
    congrArg (· = i) (pick_periodic hrun hfull hround hshare t)
  rw [Nat.filter_Ico_card_eq_of_periodic s R (fun t => pick t = i) hperiodic]
  exact picks_round hrun hfull hround hshare hi

theorem picks_rounds (hi : i ∈ S) (s m : ℕ) :
    (((Finset.Ico s (s + m * R)).filter fun t => pick t = i).card : ℤ) = m * share i := by
  induction m with
  | zero => simp
  | succ m ih =>
      have hsplit : Finset.Ico s (s + (m + 1) * R) =
          Finset.Ico s (s + m * R) ∪ Finset.Ico (s + m * R) (s + m * R + R) := by
        rw [Nat.succ_mul, ← Nat.add_assoc,
          Finset.Ico_union_Ico_eq_Ico (Nat.le_add_right _ _) (Nat.le_add_right _ _)]
      have hdisjoint : Disjoint ((Finset.Ico s (s + m * R)).filter fun t => pick t = i)
          ((Finset.Ico (s + m * R) (s + m * R + R)).filter fun t => pick t = i) :=
        Finset.disjoint_filter_filter (Finset.Ico_disjoint_Ico_consecutive _ _ _)
      rw [hsplit, Finset.filter_union, Finset.card_union_of_disjoint hdisjoint, Nat.cast_add, ih,
        picks_stretch hrun hfull hround hshare hi]
      push_cast
      ring

end Rounds

/-! ## Shares of one -/

/-- The members with credit, in order, when `members` lists all of them. -/
def queue (members : List ι) (credit : ι → ℤ) : List ι := members.filter fun i => 0 < credit i

section Queue

variable {members : List ι}
variable (hmem : ∀ i, i ∈ members ↔ i ∈ S) (hsorted : members.Pairwise (· < ·))
  (hunit : ∀ i ∈ S, share i = 1)
include hmem hsorted hunit

theorem queue_step (hbounded : Bounded S share credit) (hstep : Step S share credit i credit') :
    queue members (refill S share credit) = i :: queue members credit' := by
  have hshare : ∀ j ∈ S, 0 < share j := fun j hj => by
    rw [hunit j hj]
    exact Int.one_pos
  have hpos := hstep.pos hshare
  have hfull := hbounded.refill hshare
  obtain ⟨hbest, hcredit⟩ := hstep
  have hin : i ∈ queue members (refill S share credit) :=
    List.mem_filter.mpr ⟨(hmem i).mpr hbest.mem, decide_eq_true hpos⟩
  have hsub : (queue members (refill S share credit)).Pairwise (· < ·) := hsorted.filter _
  have hrest : queue members credit' =
      (queue members (refill S share credit)).filter (· ≠ i) := by
    unfold queue
    rw [List.filter_filter]
    apply List.filter_congr
    intro j hj
    rw [hcredit]
    by_cases hji : j = i
    · have hone := (hfull i hbest.mem).2
      rw [hunit i hbest.mem] at hone
      rw [hji, Function.update_self]
      simp only [ne_eq, not_true_eq_false, decide_false, Bool.false_and, decide_eq_false_iff_not]
      omega
    · rw [Function.update_of_ne hji]
      simp [hji]
  cases hqueue : queue members (refill S share credit) with
  | nil =>
      rw [hqueue] at hin
      cases hin
  | cons j q =>
      rw [hqueue] at hin hsub hrest
      obtain ⟨hhead, _⟩ := List.pairwise_cons.mp hsub
      have hj : j ∈ queue members (refill S share credit) := by
        rw [hqueue]
        exact List.mem_cons_self
      have hji : j = i := by
        obtain ⟨hjS, hjpos⟩ := List.mem_filter.mp hj
        have hjS' := (hmem j).mp hjS
        have hjpos' := of_decide_eq_true hjpos
        rcases List.mem_cons.mp hin with heq | hlater
        · exact heq.symm
        · have hless := hbest.lt j hjS' (hhead i hlater)
          have hone := (hfull i hbest.mem).2
          rw [hunit i hbest.mem] at hone
          omega
      subst hji
      rw [hrest, List.filter_cons_of_neg (by simp)]
      congr 1
      refine (List.filter_eq_self.mpr fun k hk => ?_).symm
      exact decide_eq_true (hhead k hk).ne'

variable {credits : ℕ → ι → ℤ} {pick : ℕ → ι}
variable (hrun : Run S share credits pick) (hbounded : Bounded S share (credits 0))
include hrun hbounded

theorem queue_run (t : ℕ) : queue members (refill S share (credits t)) =
    pick t :: queue members (credits (t + 1)) := by
  have hshare : ∀ j ∈ S, 0 < share j := fun j hj => by
    rw [hunit j hj]
    exact Int.one_pos
  exact queue_step hmem hsorted hunit (bounded_run hshare hrun hbounded t) (hrun t)

omit hsorted hrun hbounded in
theorem queue_refill (credit : ι → ℤ) : queue members (refill S share credit) =
    if queue members credit = [] then members else queue members credit := by
  split_ifs with hnil
  · have hspent : Spent S credit := by
      intro j hj
      apply not_lt.mp
      intro hpos
      have hin : j ∈ queue members credit :=
        List.mem_filter.mpr ⟨(hmem j).mpr hj, decide_eq_true hpos⟩
      rw [hnil] at hin
      cases hin
    apply List.filter_eq_self.mpr
    intro j hj
    have hjS := (hmem j).mp hj
    rw [refill_of_spent hspent hjS, hunit j hjS]
    rfl
  · obtain ⟨j, hj⟩ := List.exists_mem_of_ne_nil _ hnil
    obtain ⟨hjmem, hpos⟩ := List.mem_filter.mp hj
    rw [refill_of_pos ((hmem j).mp hjmem) (of_decide_eq_true hpos)]

theorem queue_drop {t : ℕ} (ht : t < (queue members (refill S share (credits 0))).length) :
    queue members (refill S share (credits t)) =
      (queue members (refill S share (credits 0))).drop t := by
  induction t with
  | zero => rfl
  | succ t ih =>
      have hprev := ih (Nat.lt_of_succ_lt ht)
      rw [queue_run hmem hsorted hunit hrun hbounded t] at hprev
      have hnext : queue members (credits (t + 1)) =
          (queue members (refill S share (credits 0))).drop (t + 1) := by
        rw [← List.tail_drop, ← hprev, List.tail_cons]
      rw [queue_refill hmem hunit, hnext, if_neg]
      intro hnil
      have hlen := List.length_eq_zero_iff.mpr hnil
      rw [List.length_drop] at hlen
      omega

theorem pick_of_lt {t : ℕ} (ht : t < (queue members (refill S share (credits 0))).length) :
    (queue members (refill S share (credits 0)))[t]? = some (pick t) := by
  have hdrop := queue_drop hmem hsorted hunit hrun hbounded ht
  rw [queue_run hmem hsorted hunit hrun hbounded t] at hdrop
  rw [← List.head?_drop, ← hdrop, List.head?_cons]

theorem queue_cycle (s : ℕ) :
    queue members (refill S share
      (credits ((queue members (refill S share (credits 0))).length + s))) =
        members.drop (s % members.length) := by
  have hN : 0 < members.length :=
    List.length_pos_of_mem ((hmem (pick 0)).mpr (hrun 0).best.mem)
  induction s with
  | zero =>
      have hfirst := queue_run hmem hsorted hunit hrun hbounded 0
      have hQ : 0 < (queue members (refill S share (credits 0))).length := by
        rw [hfirst]
        exact Nat.succ_pos _
      have hlast := queue_drop hmem hsorted hunit hrun hbounded (Nat.sub_lt hQ Nat.one_pos)
      rw [queue_run hmem hsorted hunit hrun hbounded _, Nat.sub_add_cancel hQ] at hlast
      have hempty : queue members
          (credits (queue members (refill S share (credits 0))).length) = [] := by
        have htail := congrArg List.tail hlast
        rw [List.tail_cons, List.tail_drop, Nat.sub_add_cancel hQ, List.drop_length] at htail
        exact htail
      rw [Nat.add_zero, queue_refill hmem hunit, if_pos hempty, Nat.zero_mod, List.drop_zero]
  | succ s ih =>
      rw [queue_run hmem hsorted hunit hrun hbounded] at ih
      have hnext := congrArg List.tail ih
      rw [List.tail_cons, List.tail_drop] at hnext
      rw [← Nat.add_assoc, queue_refill hmem hunit, hnext]
      have hlt := Nat.mod_lt s hN
      by_cases hwrap : s % members.length + 1 = members.length
      · have hzero : (s + 1) % members.length = 0 := by
          rw [← Nat.mod_add_mod, hwrap, Nat.mod_self]
        rw [hwrap, List.drop_length, if_pos rfl, hzero, List.drop_zero]
      · have hstay : (s + 1) % members.length = s % members.length + 1 := by
          rw [← Nat.mod_add_mod, Nat.mod_eq_of_lt (by omega)]
        rw [hstay, if_neg]
        intro hnil
        have hlen := List.length_eq_zero_iff.mpr hnil
        rw [List.length_drop] at hlen
        omega

theorem pick_of_ge (s : ℕ) : members[s % members.length]? =
    some (pick ((queue members (refill S share (credits 0))).length + s)) := by
  have hcycle := queue_cycle hmem hsorted hunit hrun hbounded s
  rw [queue_run hmem hsorted hunit hrun hbounded] at hcycle
  rw [← List.head?_drop, ← hcycle, List.head?_cons]

theorem pick_of_full (hfull : ∀ i ∈ S, credits 0 i = share i) (t : ℕ) :
    members[t % members.length]? = some (pick t) := by
  have hqueue : queue members (refill S share (credits 0)) = members := by
    apply List.filter_eq_self.mpr
    intro j hj
    have hjS := (hmem j).mp hj
    have hpos : 0 < credits 0 j := by
      rw [hfull j hjS, hunit j hjS]
      exact Int.one_pos
    rw [refill_of_pos hjS hpos]
    exact decide_eq_true hpos
  rcases Nat.lt_or_ge t members.length with hlt | hge
  · have hfirst := pick_of_lt hmem hsorted hunit hrun hbounded (t := t) (by rw [hqueue]; exact hlt)
    rw [hqueue] at hfirst
    rw [Nat.mod_eq_of_lt hlt, hfirst]
  · obtain ⟨s, rfl⟩ := Nat.exists_eq_add_of_le hge
    have hlater := pick_of_ge hmem hsorted hunit hrun hbounded s
    rw [hqueue] at hlater
    rw [Nat.add_mod_left, hlater]

/-- In at least as many steps as there are members all of them are picked, unless one without
credit comes so late in the order that those with credit take its turn. -/
theorem all_picked_iff {n : ℕ} (hn : members.length ≤ n) :
    (∀ i ∈ S, ∃ t < n, pick t = i) ↔
      ∀ i ∈ S, credits 0 i ≤ 0 →
        members.idxOf i + (queue members (credits 0)).length < n := by
  have hrefill := queue_refill hmem hunit (credits 0)
  have hlater := pick_of_ge hmem hsorted hunit hrun hbounded
  have hsooner {t : ℕ} := pick_of_lt hmem hsorted hunit hrun hbounded (t := t)
  have hnodup : members.Nodup := hsorted.imp fun h => h.ne
  constructor
  · intro hall i hi hempty
    have hidx := List.idxOf_lt_length_of_mem ((hmem i).mpr hi)
    by_cases hnil : queue members (credits 0) = []
    · rw [hnil, List.length_nil, Nat.add_zero]
      exact hidx.trans_le hn
    · rw [if_neg hnil] at hrefill
      rw [hrefill] at hlater hsooner
      obtain ⟨t, ht, hpick⟩ := hall i hi
      rcases Nat.lt_or_ge t (queue members (credits 0)).length with hlt | hge
      · have hin := List.mem_of_getElem? (hsooner hlt)
        rw [hpick] at hin
        have hpos := of_decide_eq_true (List.mem_filter.mp hin).2
        omega
      · obtain ⟨s, rfl⟩ := Nat.exists_eq_add_of_le hge
        have hget := hlater s
        obtain ⟨hlt, hat⟩ := List.getElem?_eq_some_iff.mp hget
        have hidx' : members.idxOf i = s % members.length := by
          rw [← hpick, ← hat, hnodup.idxOf_getElem]
        have hmod := Nat.mod_le s members.length
        omega
  · intro hcond i hi
    have hidx := List.idxOf_lt_length_of_mem ((hmem i).mpr hi)
    have hget : members[members.idxOf i]? = some i := List.getElem?_idxOf ((hmem i).mpr hi)
    by_cases hnil : queue members (credits 0) = []
    · rw [if_pos hnil] at hrefill
      rw [hrefill] at hsooner
      refine ⟨members.idxOf i, hidx.trans_le hn, ?_⟩
      have hpick := hsooner hidx
      rw [hget, Option.some.injEq] at hpick
      exact hpick.symm
    · rw [if_neg hnil] at hrefill
      rw [hrefill] at hlater hsooner
      by_cases hpos : 0 < credits 0 i
      · have hin : i ∈ queue members (credits 0) :=
          List.mem_filter.mpr ⟨(hmem i).mpr hi, decide_eq_true hpos⟩
        have hlt := List.idxOf_lt_length_of_mem hin
        have hle : (queue members (credits 0)).length ≤ members.length := List.length_filter_le _ _
        refine ⟨(queue members (credits 0)).idxOf i, by omega, ?_⟩
        have hpick := hsooner hlt
        rw [List.getElem?_idxOf hin, Option.some.injEq] at hpick
        exact hpick.symm
      · have hlt := hcond i hi (not_lt.mp hpos)
        refine ⟨(queue members (credits 0)).length + members.idxOf i, by omega, ?_⟩
        have hpick := hlater (members.idxOf i)
        rw [Nat.mod_eq_of_lt hidx, hget, Option.some.injEq] at hpick
        exact hpick.symm

end Queue

end CodingGateway.Library.CreditScheduler
