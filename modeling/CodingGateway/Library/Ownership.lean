import Mathlib.Data.Finset.Basic
import Mathlib.Data.Finset.Lattice.Lemmas
import Mathlib.Data.Finset.Dedup
set_option autoImplicit false

/-!
# Programs that hold resources

A program acquires resources that nobody holds and releases resources that are held; the
release of anything else is an error.  A triple says what a program holds before and after,
whatever else is held beside it, so that triples of parts compose.

* `Triple.pure`, `Triple.bind`, `Triple.mono`, `Triple.frame` — the rules of the language;
* `Triple.callFresh` — a part that starts with nothing of what is held;
* `Triple.obtainNew`, `Triple.release`, `Triple.releaseThen`, `Triple.releaseAllThen` — the
  operations;
* `Triple.foldlM` — a loop with an invariant;
* `Triple.run` — what the triple of a whole program says of its runs;
* `Returns.pure`, `Returns.bind`, `Returns.foldlM` — the same for what a program returns.
-/

namespace CodingGateway.Library.Ownership

variable {ρ κ α β σ : Type} [DecidableEq ρ] [DecidableEq κ]

/-- A program over the set of resources in use; `none` is the release of a resource that is
not in use. -/
abbrev Tracked (ρ α : Type) := StateT (Finset ρ) Option α

/-- A source of numbered resources of several kinds, none of which is in use. -/
structure Supply (κ : Type) [DecidableEq κ] where
  next : κ → Finset (κ × ℕ) → ℕ
  fresh : ∀ kind live, (kind, next kind live) ∉ live

/-- Take a resource of a kind; the result is its number. -/
def obtainNew (supply : Supply κ) (kind : κ) : Tracked (κ × ℕ) ℕ := fun live =>
  some (supply.next kind live, insert (kind, supply.next kind live) live)

def release (r : ρ) : Tracked ρ Unit := fun live =>
  if r ∈ live then some ((), live.erase r) else none

def releaseAll : List ρ → Tracked ρ Unit
  | [] => pure ()
  | r :: rs => do
      release r
      releaseAll rs

/-- From holding `s` the program ends, with a result and resources of which `Q` holds, and
leaves all else that is in use alone. -/
def Triple (s : Finset ρ) (prog : Tracked ρ α) (Q : α → Finset ρ → Prop) : Prop :=
  ∀ frame, Disjoint frame s →
    ∃ a t, prog (frame ∪ s) = some (a, frame ∪ t) ∧ Disjoint frame t ∧ Q a t

/-- The resources of a list are held, each once. -/
def Owns (rs : List ρ) (s : Finset ρ) : Prop := rs.Nodup ∧ s = rs.toFinset

section Rules

variable {s : Finset ρ} {prog : Tracked ρ α} {Q : α → Finset ρ → Prop}

theorem Triple.pure {a : α} (h : Q a s) : Triple s (pure a) Q :=
  fun _ hframe => ⟨a, s, rfl, hframe, h⟩

theorem Triple.bind {next : α → Tracked ρ β} {R : β → Finset ρ → Prop} (h : Triple s prog Q)
    (hnext : ∀ a t, Q a t → Triple t (next a) R) : Triple s (prog >>= next) R := by
  intro frame hframe
  obtain ⟨a, t, hrun, ht, hq⟩ := h frame hframe
  obtain ⟨b, u, hrun', hu, hr⟩ := hnext a t hq frame ht
  refine ⟨b, u, ?_, hu, hr⟩
  change (prog (frame ∪ s)).bind (fun r => next r.1 r.2) = some (b, frame ∪ u)
  rw [hrun]
  exact hrun'

theorem Triple.mono {Q' : α → Finset ρ → Prop} (h : Triple s prog Q)
    (hq : ∀ a t, Q a t → Q' a t) : Triple s prog Q' := by
  intro frame hframe
  obtain ⟨a, t, hrun, ht, hqt⟩ := h frame hframe
  exact ⟨a, t, hrun, ht, hq a t hqt⟩

theorem Triple.frame {r : Finset ρ} (h : Triple s prog Q) (hr : Disjoint s r) :
    Triple (s ∪ r) prog (fun a t => ∃ t', t = t' ∪ r ∧ Disjoint t' r ∧ Q a t') := by
  intro frame hframe
  rw [Finset.disjoint_union_right] at hframe
  have hbig : Disjoint (frame ∪ r) s := Finset.disjoint_union_left.mpr ⟨hframe.1, hr.symm⟩
  obtain ⟨a, t, hrun, ht, hq⟩ := h (frame ∪ r) hbig
  rw [Finset.disjoint_union_left] at ht
  refine ⟨a, t ∪ r, ?_, Finset.disjoint_union_right.mpr ⟨ht.1, hframe.2⟩, t, rfl, ht.2.symm, hq⟩
  have hbefore : frame ∪ (s ∪ r) = frame ∪ r ∪ s := by
    rw [Finset.union_comm s r, Finset.union_assoc]
  have hafter : frame ∪ (t ∪ r) = frame ∪ r ∪ t := by
    rw [Finset.union_comm t r, Finset.union_assoc]
  rw [hbefore, hafter]
  exact hrun

theorem Triple.callFresh {next : α → Tracked ρ β} {R : β → Finset ρ → Prop}
    (h : Triple ∅ prog Q)
    (hnext : ∀ a t, Q a t → Disjoint t s → Triple (t ∪ s) (next a) R) :
    Triple s (prog >>= next) R := by
  have hframed := h.frame (Finset.disjoint_empty_left s)
  rw [Finset.empty_union] at hframed
  apply hframed.bind
  rintro a _ ⟨t, rfl, hdisj, hq⟩
  exact hnext a t hq hdisj

theorem Triple.ite {c : Prop} [Decidable c] {other : Tracked ρ α} (h : c → Triple s prog Q)
    (h' : ¬ c → Triple s other Q) : Triple s (if c then prog else other) Q := by
  split_ifs with hc
  · exact h hc
  · exact h' hc

/-- A loop over a list whose turns keep an invariant of the state and the resources. -/
theorem Triple.foldlM {ι : Type} {body : σ → ι → Tracked ρ σ} {is : List ι} {a : σ}
    (Inv : List ι → σ → Finset ρ → Prop) (hstart : Inv [] a s)
    (hbody : ∀ (pre : List ι) (i : ι), (pre ++ [i]).IsPrefix is → ∀ a t, Inv pre a t →
      Triple t (body a i) (Inv (pre ++ [i]))) :
    Triple s (is.foldlM body a) (Inv is) := by
  suffices hsuffix : ∀ (rest pre : List ι) (a : σ) (t : Finset ρ), pre ++ rest = is →
      Inv pre a t → Triple t (rest.foldlM body a) (Inv is) from hsuffix is [] a s rfl hstart
  intro rest
  induction rest with
  | nil =>
      intro pre a t hpre hinv
      rw [List.append_nil] at hpre
      rw [← hpre]
      exact Triple.pure hinv
  | cons i rest ih =>
      intro pre a t hpre hinv
      have hsplit : pre ++ [i] ++ rest = is := by
        rw [List.append_assoc]
        exact hpre
      rw [List.foldlM_cons]
      apply (hbody pre i ⟨rest, hsplit⟩ a t hinv).bind
      intro a' t' hinv'
      exact ih (pre ++ [i]) a' t' hsplit hinv'

/-- What a whole program does, whatever is in use when it starts. -/
theorem Triple.run (h : Triple ∅ prog Q) (live : Finset ρ) :
    ∃ a t, prog live = some (a, live ∪ t) ∧ Disjoint live t ∧ Q a t := by
  have hrun := h live (Finset.disjoint_empty_right live)
  rwa [Finset.union_empty] at hrun

theorem Triple.exists_of_holdsNothing (h : Triple ∅ prog fun _ t => t = ∅) (live : Finset ρ) :
    ∃ a, prog live = some (a, live) := by
  obtain ⟨a, _, hrun, -, rfl⟩ := h.run live
  rw [Finset.union_empty] at hrun
  exact ⟨a, hrun⟩

end Rules

/-! ## What a program returns -/

/-- Whatever is in use, a result of the program satisfies `P`. -/
def Returns (prog : Tracked ρ α) (P : α → Prop) : Prop := ∀ s a s', prog s = some (a, s') → P a

section Returns

variable {prog : Tracked ρ α} {P : α → Prop}

omit [DecidableEq ρ] in
theorem Returns.pure {a : α} (h : P a) : Returns (pure a : Tracked ρ α) P := by
  rintro s b s' hrun
  cases hrun
  exact h

omit [DecidableEq ρ] in
theorem Returns.bind {next : α → Tracked ρ β} {P' : β → Prop} (h : Returns prog P)
    (hnext : ∀ a, P a → Returns (next a) P') : Returns (prog >>= next) P' := by
  intro s b s' hrun
  obtain ⟨⟨a, t⟩, hprog, hrest⟩ := Option.bind_eq_some_iff.mp hrun
  exact hnext a (h s a t hprog) t b s' hrest

omit [DecidableEq ρ] in
theorem Returns.ite {c : Prop} [Decidable c] {other : Tracked ρ α} (h : c → Returns prog P)
    (h' : ¬ c → Returns other P) : Returns (if c then prog else other) P := by
  split_ifs with hc
  · exact h hc
  · exact h' hc

omit [DecidableEq ρ] in
theorem Returns.any (prog : Tracked ρ α) : Returns prog fun _ => True := fun _ _ _ _ => trivial

omit [DecidableEq ρ] in
theorem Returns.foldlM {ι : Type} {body : σ → ι → Tracked ρ σ} {is : List ι} {a : σ}
    (Inv : List ι → σ → Prop) (hstart : Inv [] a)
    (hbody : ∀ (pre : List ι) (i : ι), (pre ++ [i]).IsPrefix is → ∀ a, Inv pre a →
      Returns (body a i) (Inv (pre ++ [i]))) : Returns (is.foldlM body a) (Inv is) := by
  suffices hsuffix : ∀ (rest pre : List ι) (a : σ), pre ++ rest = is → Inv pre a →
      Returns (rest.foldlM body a) (Inv is) from hsuffix is [] a rfl hstart
  intro rest
  induction rest with
  | nil =>
      intro pre a hpre hinv
      rw [List.append_nil] at hpre
      rw [← hpre]
      exact Returns.pure hinv
  | cons i rest ih =>
      intro pre a hpre hinv
      have hsplit : pre ++ [i] ++ rest = is := by
        rw [List.append_assoc]
        exact hpre
      rw [List.foldlM_cons]
      refine (hbody pre i ⟨rest, hsplit⟩ a hinv).bind ?_
      intro a' hinv'
      exact ih (pre ++ [i]) a' hsplit hinv'

theorem Triple.returns {Q : α → Finset ρ → Prop} (h : Triple ∅ prog Q)
    (hp : ∀ a t, Q a t → P a) : Returns prog P := by
  intro s a s' hrun
  obtain ⟨b, t, hrun', -, hq⟩ := h.run s
  rw [hrun] at hrun'
  cases hrun'
  exact hp a t hq

end Returns

/-! ## The operations -/

theorem Triple.obtainNew (supply : Supply κ) (kind : κ) :
    Triple ∅ (obtainNew supply kind) (fun n t => t = {(kind, n)}) := by
  intro frame _
  have hfresh := supply.fresh kind frame
  refine ⟨supply.next kind frame, {(kind, supply.next kind frame)}, ?_, ?_, rfl⟩
  · rw [Finset.union_empty, Finset.union_comm]
    rfl
  · exact Finset.disjoint_singleton_right.mpr hfresh

theorem Triple.release (r : ρ) : Triple {r} (release r) (fun _ t => t = ∅) := by
  intro frame hframe
  have hnot := Finset.disjoint_singleton_right.mp hframe
  refine ⟨(), ∅, ?_, Finset.disjoint_empty_right frame, rfl⟩
  have hheld : r ∈ frame ∪ {r} := Finset.mem_union_right _ (Finset.mem_singleton_self r)
  have hleft : (frame ∪ {r}).erase r = frame ∪ ∅ := by
    rw [Finset.union_empty, Finset.union_comm]
    exact Finset.erase_insert hnot
  change (if r ∈ frame ∪ {r} then some ((), (frame ∪ {r}).erase r) else none) = _
  rw [if_pos hheld, hleft]

theorem owns_nil : Owns ([] : List ρ) ∅ := ⟨List.nodup_nil, rfl⟩

theorem owns_singleton (r : ρ) : Owns [r] {r} := ⟨List.nodup_singleton r, rfl⟩

theorem Owns.append {rs rs' : List ρ} {s s' : Finset ρ} (h : Owns rs s) (h' : Owns rs' s')
    (hdisj : Disjoint s s') : Owns (rs ++ rs') (s ∪ s') := by
  obtain ⟨hnodup, rfl⟩ := h
  obtain ⟨hnodup', rfl⟩ := h'
  refine ⟨List.nodup_append'.mpr ⟨hnodup, hnodup', ?_⟩, (List.toFinset_append ..).symm⟩
  exact List.disjoint_toFinset_iff_disjoint.mp hdisj

theorem Owns.perm {rs rs' : List ρ} {s : Finset ρ} (h : Owns rs s) (hperm : rs.Perm rs') :
    Owns rs' s :=
  ⟨hperm.nodup_iff.mp h.1, h.2.trans (List.toFinset_eq_of_perm _ _ hperm)⟩

theorem Owns.eq_empty {s : Finset ρ} (h : Owns [] s) : s = ∅ := h.2

theorem Triple.releaseThen {r : ρ} {rs : List ρ} {s : Finset ρ} {next : Unit → Tracked ρ α}
    {Q : α → Finset ρ → Prop} (h : Owns (r :: rs) s)
    (hnext : ∀ t, Owns rs t → Triple t (next ()) Q) :
    Triple s (Ownership.release r >>= next) Q := by
  obtain ⟨hnodup, rfl⟩ := h
  rw [List.nodup_cons] at hnodup
  have hnot : r ∉ rs.toFinset := fun hmem => hnodup.1 (List.mem_toFinset.mp hmem)
  have hframed := (Triple.release r).frame (Finset.disjoint_singleton_left.mpr hnot)
  rw [List.toFinset_cons, Finset.insert_eq]
  apply hframed.bind
  rintro _ _ ⟨t, rfl, -, rfl⟩
  rw [Finset.empty_union]
  exact hnext rs.toFinset ⟨hnodup.2, rfl⟩

theorem Triple.releaseAllThen {rs rs' : List ρ} {s : Finset ρ} {next : Unit → Tracked ρ α}
    {Q : α → Finset ρ → Prop} (h : Owns (rs ++ rs') s)
    (hnext : ∀ t, Owns rs' t → Triple t (next ()) Q) :
    Triple s (Ownership.releaseAll rs >>= next) Q := by
  induction rs generalizing s with
  | nil => exact hnext s h
  | cons r rs ih =>
      rw [Ownership.releaseAll, bind_assoc]
      exact Triple.releaseThen h fun t ht => ih ht

theorem releaseAll_append (rs rs' : List ρ) :
    releaseAll (rs ++ rs') = (do
      releaseAll rs
      releaseAll rs') := by
  induction rs with
  | nil => rfl
  | cons r rs ih =>
      rw [List.cons_append, releaseAll, releaseAll, ih, bind_assoc]

end CodingGateway.Library.Ownership
