import Mathlib.Data.List.DropRight
set_option autoImplicit false

/-!
# Stripping both ends of a list

`strip p s` is `s` without the entries at either end that satisfy `p`.

* `strip_append_blank` — what follows the last entry kept does not matter;
* `strip_append_cons` — text that is appended after an entry kept is kept with the
  blanks before it.
-/

namespace CodingGateway.Library.Stripping

variable {α : Type*} {p : α → Bool}

/-- Drop the entries at both ends that satisfy `p`. -/
def strip (p : α → Bool) (s : List α) : List α := (s.dropWhile p).rdropWhile p

/-- Every entry is blank. -/
def Blank (p : α → Bool) (s : List α) : Prop := ∀ x ∈ s, p x = true

theorem dropWhile_of_blank {s : List α} (hs : Blank p s) : s.dropWhile p = [] :=
  List.dropWhile_eq_nil_iff.mpr hs

theorem blank_of_dropWhile {s : List α} (h : s.dropWhile p = []) : Blank p s :=
  List.dropWhile_eq_nil_iff.mp h

theorem dropWhile_append_of_ne_nil {s : List α} (hs : s.dropWhile p ≠ []) (t : List α) :
    (s ++ t).dropWhile p = s.dropWhile p ++ t := by
  rw [List.dropWhile_append, if_neg]
  simpa using hs

theorem dropWhile_append_cons {d : α} (hd : p d = false) (s e : List α) :
    (s ++ d :: e).dropWhile p = s.dropWhile p ++ d :: e := by
  cases hs : s.dropWhile p with
  | nil =>
      have hfirst : (d :: e).dropWhile p = d :: e := by
        rw [List.dropWhile_cons, if_neg (by simp [hd])]
      rw [List.dropWhile_append, hs, hfirst]
      rfl
  | cons x rest =>
      rw [dropWhile_append_of_ne_nil (by simp [hs]), hs]

theorem rdropWhile_append_blank (s : List α) {w : List α} (hw : Blank p w) :
    (s ++ w).rdropWhile p = s.rdropWhile p := by
  induction w using List.reverseRecOn with
  | nil => rw [List.append_nil]
  | append_singleton w x ih =>
      have hx : p x = true := hw x (by simp)
      have hrest : Blank p w := fun y hy => hw y (by simp [hy])
      rw [← List.append_assoc, List.rdropWhile_concat_pos _ _ _ hx, ih hrest]

theorem rdropWhile_append_cons {d : α} (hd : p d = false) (s e : List α) :
    (s ++ d :: e).rdropWhile p = s ++ d :: e.rdropWhile p := by
  induction e using List.reverseRecOn with
  | nil => rw [List.rdropWhile_concat_neg _ _ _ (by simp [hd]), List.rdropWhile_nil]
  | append_singleton e x ih =>
      rw [← List.cons_append, ← List.append_assoc]
      by_cases hx : p x = true
      · rw [List.rdropWhile_concat_pos _ _ _ hx, List.rdropWhile_concat_pos _ _ _ hx, ih]
      · rw [List.rdropWhile_concat_neg _ _ _ hx, List.rdropWhile_concat_neg _ _ _ hx]
        simp

theorem strip_of_blank {s : List α} (hs : Blank p s) : strip p s = [] := by
  rw [strip, dropWhile_of_blank hs, List.rdropWhile_nil]

theorem dropWhile_eq_nil_of_strip {s : List α} (h : strip p s = []) : s.dropWhile p = [] := by
  cases hs : s.dropWhile p with
  | nil => rfl
  | cons x rest =>
      have hblank := List.rdropWhile_eq_nil_iff.mp h
      have hx : p x = true := hblank x (by simp [hs])
      have hhead := List.head_dropWhile_not p (l := s) (by simp [hs])
      simp only [hs, List.head_cons, hx] at hhead
      cases hhead

theorem strip_append_blank (s : List α) {w : List α} (hw : Blank p w) :
    strip p (s ++ w) = strip p s := by
  cases hs : s.dropWhile p with
  | nil =>
      rw [strip_of_blank (blank_of_dropWhile hs), strip_of_blank]
      intro x hx
      rcases List.mem_append.mp hx with hold | hnew
      · exact blank_of_dropWhile hs x hold
      · exact hw x hnew
  | cons x rest =>
      rw [strip, strip, dropWhile_append_of_ne_nil (by simp [hs]), rdropWhile_append_blank _ hw]

theorem dropWhile_eq_strip_append (s : List α) :
    s.dropWhile p = strip p s ++ (s.dropWhile p).rtakeWhile p :=
  List.rdropWhile_append_rtakeWhile.symm

theorem strip_append_cons {d : α} (hd : p d = false) (s e : List α) :
    ∃ w, Blank p w ∧ (strip p s = [] → w = []) ∧
      (strip p s ≠ [] → (∃ s' x, s = s' ++ [x] ∧ p x = true) → w ≠ []) ∧
      strip p (s ++ d :: e) = strip p s ++ w ++ d :: e.rdropWhile p := by
  refine ⟨(s.dropWhile p).rtakeWhile p, fun x hx => List.mem_rtakeWhile_imp hx, ?_, ?_, ?_⟩
  · intro h
    rw [dropWhile_eq_nil_of_strip h, List.rtakeWhile_nil]
  · rintro hne ⟨s', x, rfl, hx⟩ hnil
    have hdrop : (s' ++ [x]).dropWhile p = s'.dropWhile p ++ [x] := by
      refine dropWhile_append_of_ne_nil (fun hs' => hne ?_) _
      apply strip_of_blank
      intro y hy
      rcases List.mem_append.mp hy with hold | hlast
      · exact blank_of_dropWhile hs' y hold
      · rw [List.mem_singleton.mp hlast]
        exact hx
    rw [hdrop, List.rtakeWhile_concat_pos _ _ _ hx] at hnil
    exact List.append_ne_nil_of_right_ne_nil _ (List.cons_ne_nil x []) hnil
  · calc strip p (s ++ d :: e) = (s.dropWhile p ++ d :: e).rdropWhile p := by
          rw [strip, dropWhile_append_cons hd]
      _ = s.dropWhile p ++ d :: e.rdropWhile p := rdropWhile_append_cons hd _ _
      _ = _ := by rw [← dropWhile_eq_strip_append]

end CodingGateway.Library.Stripping
