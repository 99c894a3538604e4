import CodingGateway.Library.CreditScheduler
import Mathlib.Order.WithBot
set_option autoImplicit false

/-!
# Credits that make members take turns

With equal shares, round robin by credits is plain round robin as long as the credits are in
turn: each member has its share less the turns that it has had.  The turns are those of a rota,
which knows no credits: it passes through the members in order, again and again.

* `inTurns_step` — a step picks the member next in turn and keeps the credits in turn;
* `InTurns.mono` — members may leave at any time;
* `InTurns.insert` — a member may come, or get its share back, if it has had no turn.
-/

namespace CodingGateway.Library.CreditScheduler

variable {ι : Type*} [LinearOrder ι]

/-- The member whose turn was last, and how often the members after it have had theirs since
the credits were whole. -/
structure Rota (ι : Type*) where
  last : WithBot ι
  passes : ℤ

/-- How many turns a member has had since the credits were whole. -/
def Rota.turns (r : Rota ι) (i : ι) : ℤ := r.passes + if (i : WithBot ι) ≤ r.last then 1 else 0

/-- The turn of the member in this pass is to come. -/
def Rota.pending (r : Rota ι) (i : ι) : Bool := decide (r.last < (i : WithBot ι))

/-- The member next in turn: the first one after the last, or the first of all. -/
def Rota.next (r : Rota ι) (members : List ι) : Option ι :=
  match members.find? r.pending with
  | some i => some i
  | none => members.head?

/-- The rota once the next member had its turn.  A new pass begins when nobody was left after
the last, and the passes are counted anew when they have used up the shares. -/
def Rota.advance (r : Rota ι) (members : List ι) (share : ι → ℤ) : Rota ι :=
  match r.next members with
  | none => r
  | some i =>
      let passes := if members.any r.pending then r.passes else r.passes + 1
      ⟨i, if share i ≤ passes then 0 else passes⟩

/-- The rota when the credits of a lone member are made whole. -/
def Rota.restart (r : Rota ι) (i : ι) : Rota ι :=
  ⟨r.last, if (i : WithBot ι) ≤ r.last then -1 else 0⟩

/-- Each member has its share less its turns. -/
def InTurns (S : Finset ι) (r : Rota ι) (share credit : ι → ℤ) : Prop :=
  ∀ i ∈ S, credit i = share i - r.turns i

variable {S T : Finset ι} {share credit credit' : ι → ℤ} {r : Rota ι} {members : List ι} {i j : ι}

@[simp] theorem turns_restart : (r.restart i).turns i = 0 := by
  unfold Rota.turns Rota.restart
  split_ifs <;> rfl

theorem InTurns.mono (h : InTurns S r share credit) (hsub : T ⊆ S) : InTurns T r share credit :=
  fun i hi => h i (hsub hi)

theorem InTurns.insert (h : InTurns S r share credit) (hi : r.turns i = 0) :
    InTurns (insert i S) r share (Function.update credit i (share i)) := by
  intro j hj
  by_cases hji : j = i
  · rw [hji, Function.update_self, hi, sub_zero]
  · rw [Function.update_of_ne hji]
    exact h j (Finset.mem_of_mem_insert_of_ne hj hji)

theorem inTurns_bot (h : ∀ i ∈ S, credit i = share i) : InTurns S ⟨⊥, 0⟩ share credit := by
  intro i hi
  rw [h i hi, Rota.turns, if_neg (not_le.mpr (WithBot.bot_lt_coe i)), add_zero, sub_zero]

/-! ## A step -/

theorem step_of_equal {v : ℤ} (hequal : ∀ j ∈ S, refill S share credit j = v)
    (hstep : Step S share credit i credit') :
    (∀ j ∈ S, i ≤ j) ∧ ∀ j ∈ S, credit' j = if j ≤ i then v - 1 else v := by
  have hleast : ∀ j ∈ S, i ≤ j := by
    intro j hj
    by_contra hlt
    have hless := hstep.best.lt j hj (not_le.mp hlt)
    rw [hequal j hj, hequal i hstep.best.mem] at hless
    exact lt_irrefl v hless
  refine ⟨hleast, fun j hj => ?_⟩
  rw [hstep.credit]
  by_cases hji : j = i
  · rw [hji, Function.update_self, hequal i hstep.best.mem, if_pos le_rfl]
  · have hlt : i < j := lt_of_le_of_ne (hleast j hj) (Ne.symm hji)
    rw [Function.update_of_ne hji, hequal j hj, if_neg (not_le.mpr hlt)]

theorem step_of_pending {last : WithBot ι} {c : ℤ}
    (hc : ∀ j ∈ S, credit j = if j ≤ last then c - 1 else c) (hpos : 0 < c) (hj : j ∈ S)
    (hpending : last < j) (hstep : Step S share credit i credit') :
    last < i ∧ (∀ j ∈ S, last < j → i ≤ j) ∧ ∀ j ∈ S, credit' j = if j ≤ i then c - 1 else c := by
  have hcredit : ∀ j ∈ S, last < j → credit j = c := fun j hj hlt => by
    rw [hc j hj, if_neg (not_le.mpr hlt)]
  have hkeep : refill S share credit = credit :=
    refill_of_pos hj (by rw [hcredit j hj hpending]; exact hpos)
  obtain ⟨hbest, hupdate⟩ := hstep
  rw [hkeep] at hbest hupdate
  have hi : last < i := by
    by_contra hle
    have hmax := hbest.le j hj
    rw [hcredit j hj hpending, hc i hbest.mem, if_pos (not_lt.mp hle)] at hmax
    omega
  have hleast : ∀ j ∈ S, last < j → i ≤ j := by
    intro j hj hlt
    by_contra hless
    have hmore := hbest.lt j hj (not_le.mp hless)
    rw [hcredit j hj hlt, hcredit i hbest.mem hi] at hmore
    exact lt_irrefl c hmore
  refine ⟨hi, hleast, fun j hj => ?_⟩
  rw [hupdate]
  by_cases hji : j = i
  · rw [hji, Function.update_self, hcredit i hbest.mem hi, if_pos le_rfl]
  · rw [Function.update_of_ne hji, hc j hj]
    by_cases hle : (j : WithBot ι) ≤ last
    · rw [if_pos hle, if_pos (WithBot.coe_le_coe.mp (hle.trans hi.le))]
    · have hlt : i < j := lt_of_le_of_ne (hleast j hj (not_le.mp hle)) (Ne.symm hji)
      rw [if_neg hle, if_neg (not_le.mpr hlt)]

theorem find?_eq_some_of_least {p : ι → Bool} (hsorted : members.Pairwise (· < ·))
    (hi : i ∈ members) (hp : p i = true) (hleast : ∀ j ∈ members, p j = true → i ≤ j) :
    members.find? p = some i := by
  cases hfind : members.find? p with
  | none => exact absurd hp (List.find?_eq_none.mp hfind i hi)
  | some j =>
      have hj := List.mem_of_find?_eq_some hfind
      have hle := hleast j hj (List.find?_some hfind)
      by_contra hne
      have hlt : i < j := lt_of_le_of_ne hle fun heq => hne (by rw [heq])
      obtain ⟨-, before, after, hsplit, hbefore⟩ := List.find?_eq_some_iff_append.mp hfind
      rw [hsplit, List.pairwise_append] at hsorted
      rw [hsplit, List.mem_append, List.mem_cons] at hi
      rcases hi with hi | rfl | hi
      · have hnot := hbefore i hi
        rw [hp] at hnot
        cases hnot
      · exact lt_irrefl _ hlt
      · exact lt_asymm hlt ((List.pairwise_cons.mp hsorted.2.1).1 i hi)

theorem head?_eq_some_of_least (hsorted : members.Pairwise (· < ·)) (hi : i ∈ members)
    (hleast : ∀ j ∈ members, i ≤ j) : members.head? = some i := by
  cases members with
  | nil => cases hi
  | cons first rest =>
      rcases List.mem_cons.mp hi with rfl | hin
      · rfl
      · exact absurd ((List.pairwise_cons.mp hsorted).1 i hin)
          (not_lt.mpr (hleast first List.mem_cons_self))

theorem credit_of_inTurns {s : ℤ} (hshare : ∀ j ∈ S, share j = s)
    (hturns : InTurns S r share credit) (hj : j ∈ S) :
    credit j = if (j : WithBot ι) ≤ r.last then s - r.passes - 1 else s - r.passes := by
  rw [hturns j hj, hshare j hj, Rota.turns]
  split_ifs <;> ring

theorem passes_advance (hnext : r.next members = some i) :
    (r.advance members share).passes =
      if share i ≤ (if members.any r.pending then r.passes else r.passes + 1) then 0
      else if members.any r.pending then r.passes else r.passes + 1 := by
  rw [Rota.advance, hnext]

/-- The credits after a step are in turn when they are on the level of the passes. -/
theorem inTurns_advance {s c : ℤ} (hshare : ∀ j ∈ S, share j = s)
    (hnext : r.next members = some i) (hpasses : (r.advance members share).passes = s - c)
    (hcredit : ∀ j ∈ S, credit' j = if j ≤ i then c - 1 else c) :
    InTurns S (r.advance members share) share credit' := by
  have hlast : (r.advance members share).last = i := by
    rw [Rota.advance, hnext]
  intro j hj
  rw [hcredit j hj, hshare j hj, Rota.turns, hpasses, hlast]
  simp only [WithBot.coe_le_coe]
  split_ifs <;> ring

section Members

variable (hmembers : ∀ j, j ∈ members ↔ j ∈ S) (hsorted : members.Pairwise (· < ·))
include hmembers hsorted

theorem next_of_pending (hi : i ∈ S) (hpending : r.last < (i : WithBot ι))
    (hleast : ∀ j ∈ S, r.last < (j : WithBot ι) → i ≤ j) : r.next members = some i := by
  rw [Rota.next, find?_eq_some_of_least (p := r.pending) hsorted ((hmembers i).mpr hi)
    (decide_eq_true hpending) fun j hj hlt =>
      hleast j ((hmembers j).mp hj) (of_decide_eq_true hlt)]

theorem next_of_none_pending (hi : i ∈ S) (hnone : ∀ j ∈ S, (j : WithBot ι) ≤ r.last)
    (hleast : ∀ j ∈ S, i ≤ j) : r.next members = some i := by
  have hfind : members.find? r.pending = none := List.find?_eq_none.mpr fun j hj hlt =>
    absurd (of_decide_eq_true hlt) (not_lt.mpr (hnone j ((hmembers j).mp hj)))
  rw [Rota.next, hfind]
  exact head?_eq_some_of_least hsorted ((hmembers i).mpr hi) fun j hj =>
    hleast j ((hmembers j).mp hj)

variable {s : ℤ} (hshare : ∀ j ∈ S, share j = s) (hturns : InTurns S r share credit)
  (hstep : Step S share credit i credit')
include hshare hturns hstep

/-- A step while the turn of some member is still to come in this pass. -/
theorem inTurns_step_of_pending (hbounded : Bounded S share credit) (hj : j ∈ S)
    (hpending : r.last < (j : WithBot ι)) :
    r.next members = some i ∧ InTurns S (r.advance members share) share credit' := by
  have hany : members.any r.pending = true :=
    List.any_eq_true.mpr ⟨j, (hmembers j).mpr hj, decide_eq_true hpending⟩
  have hlevel := fun j hj => credit_of_inTurns (j := j) hshare hturns hj
  have hsharei := hshare i hstep.best.mem
  by_cases hpos : 0 < s - r.passes
  · obtain ⟨hi, hleast, hcredit⟩ := step_of_pending hlevel hpos hj hpending hstep
    have hnext := next_of_pending hmembers hsorted hstep.best.mem hi hleast
    refine ⟨hnext, inTurns_advance hshare hnext ?_ hcredit⟩
    rw [passes_advance hnext, hany, if_pos rfl, hsharei, if_neg (by omega)]
    ring
  · -- Nobody has credit, so nobody has had a turn in this round.
    have hafter : ∀ j ∈ S, r.last < (j : WithBot ι) := by
      intro j hj
      by_contra hle
      have hnonneg := (hbounded j hj).1
      rw [hlevel j hj, if_pos (not_lt.mp hle)] at hnonneg
      omega
    have hspent : Spent S credit := by
      intro j hj
      rw [hlevel j hj, if_neg (not_le.mpr (hafter j hj))]
      exact not_lt.mp hpos
    obtain ⟨hleast, hcredit⟩ := step_of_equal
      (fun j hj => by rw [refill_of_spent hspent hj, hshare j hj]) hstep
    have hnext := next_of_pending hmembers hsorted hstep.best.mem (hafter i hstep.best.mem)
      fun j hj _ => hleast j hj
    refine ⟨hnext, inTurns_advance hshare hnext ?_ hcredit⟩
    rw [passes_advance hnext, hany, if_pos rfl, hsharei, if_pos (by omega), sub_self]

/-- A step that begins a new pass. -/
theorem inTurns_step_of_none_pending (hnone : ∀ j ∈ S, (j : WithBot ι) ≤ r.last) :
    r.next members = some i ∧ InTurns S (r.advance members share) share credit' := by
  have hany : members.any r.pending = false := List.any_eq_false.mpr fun j hj hlt =>
    absurd (of_decide_eq_true hlt) (not_lt.mpr (hnone j ((hmembers j).mp hj)))
  have hlevel : ∀ j ∈ S, credit j = s - r.passes - 1 := fun j hj => by
    rw [credit_of_inTurns hshare hturns hj, if_pos (hnone j hj)]
  have hsharei := hshare i hstep.best.mem
  by_cases hspent : Spent S credit
  · have hzero := hspent i hstep.best.mem
    rw [hlevel i hstep.best.mem] at hzero
    obtain ⟨hleast, hcredit⟩ := step_of_equal
      (fun j hj => by rw [refill_of_spent hspent hj, hshare j hj]) hstep
    have hnext := next_of_none_pending hmembers hsorted hstep.best.mem hnone hleast
    refine ⟨hnext, inTurns_advance hshare hnext ?_ hcredit⟩
    rw [passes_advance hnext, hany, if_neg Bool.false_ne_true, hsharei, if_pos (by omega), sub_self]
  · have hpos : 0 < s - r.passes - 1 := by
      by_contra hle
      exact hspent fun j hj => by rw [hlevel j hj]; exact not_lt.mp hle
    obtain ⟨hleast, hcredit⟩ := step_of_equal
      (fun j hj => by rw [refill, if_neg hspent, hlevel j hj]) hstep
    have hnext := next_of_none_pending hmembers hsorted hstep.best.mem hnone hleast
    refine ⟨hnext, inTurns_advance hshare hnext ?_ hcredit⟩
    rw [passes_advance hnext, hany, if_neg Bool.false_ne_true, hsharei, if_neg (by omega)]
    ring

/-- A step from credits in turn picks the member next in turn. -/
theorem inTurns_step (hbounded : Bounded S share credit) :
    r.next members = some i ∧ InTurns S (r.advance members share) share credit' := by
  by_cases hpending : ∃ j ∈ S, r.last < (j : WithBot ι)
  · obtain ⟨j, hj, hlt⟩ := hpending
    exact inTurns_step_of_pending hmembers hsorted hshare hturns hstep hbounded hj hlt
  · exact inTurns_step_of_none_pending hmembers hsorted hshare hturns hstep fun j hj =>
      not_lt.mp fun hlt => hpending ⟨j, hj, hlt⟩

end Members

end CodingGateway.Library.CreditScheduler
