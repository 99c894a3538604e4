import Mathlib.Data.Nat.Notation
import Mathlib.Logic.Function.Basic
set_option autoImplicit false

/-!
# Arrays with bounds

An array is read through its index, so it has a value everywhere; the operations here
are defined inside its size only.  A program written with them that has a value has
made no access out of bounds.

* `forRange_eq`, `forRange_eq_some` — a loop whose turns have a value;
* `forRange_update` — a loop that rewrites each cell from its own value;
* `search_eq` — a loop that looks for the first index that passes a test.
-/

namespace CodingGateway.Library.BoundedArray

variable {α σ : Type*} {size n : ℕ} {a : ℕ → α}

/-- Cell `i` of an array of `size` cells. -/
def load (size : ℕ) (a : ℕ → α) (i : ℕ) : Option α := if i < size then some (a i) else none

/-- The array with `v` in cell `i`. -/
def store (size : ℕ) (a : ℕ → α) (i : ℕ) (v : α) : Option (ℕ → α) :=
  if i < size then some (Function.update a i v) else none

/-- The array from cell `off` on, for an access to `n` cells there. -/
def slice (size : ℕ) (a : ℕ → α) (off n : ℕ) : Option (ℕ → α) :=
  if off + n ≤ size then some fun j => a (off + j) else none

/-- The loop `for (i = 0; i < n; i++)`. -/
def forRange (n : ℕ) (s : σ) (body : σ → ℕ → Option σ) : Option σ := (List.range n).foldlM body s

/-- The loop that stops at the first index of the list that passes a test. -/
def search (test : ℕ → Option Bool) : List ℕ → Option (Option ℕ)
  | [] => some none
  | i :: is =>
      match test i with
      | none => none
      | some true => some (some i)
      | some false => search test is

theorem load_of_lt {i : ℕ} (h : i < size) : load size a i = some (a i) := if_pos h

theorem store_of_lt {i : ℕ} (h : i < size) (v : α) :
    store size a i v = some (Function.update a i v) := if_pos h

theorem slice_of_le {off : ℕ} (h : off + n ≤ size) :
    slice size a off n = some fun j => a (off + j) := if_pos h

theorem forRange_succ (n : ℕ) (s : σ) (body : σ → ℕ → Option σ) :
    forRange (n + 1) s body = (forRange n s body).bind fun s => body s n := by
  unfold forRange
  rw [List.range_succ, List.foldlM_append]
  simp

/-- A loop whose turns have a value from every state of the invariant `Inv`, and keep it. -/
theorem forRange_eq {f : σ → ℕ → σ} {body : σ → ℕ → Option σ} {s : σ} (Inv : ℕ → σ → Prop)
    (hs : Inv 0 s)
    (hbody : ∀ i < n, ∀ s, Inv i s → body s i = some (f s i) ∧ Inv (i + 1) (f s i)) :
    forRange n s body = some ((List.range n).foldl f s) ∧ Inv n ((List.range n).foldl f s) := by
  induction n with
  | zero => exact ⟨rfl, hs⟩
  | succ n ih =>
      obtain ⟨hrun, hinv⟩ := ih fun i hi => hbody i (Nat.lt_succ_of_lt hi)
      obtain ⟨hstep, hinv'⟩ := hbody n (Nat.lt_succ_self n) _ hinv
      rw [forRange_succ, hrun, Option.bind_some, List.range_succ, List.foldl_append]
      exact ⟨hstep, hinv'⟩

theorem forRange_eq_foldl {f : σ → ℕ → σ} {body : σ → ℕ → Option σ} (s : σ)
    (hbody : ∀ i < n, ∀ s, body s i = some (f s i)) :
    forRange n s body = some ((List.range n).foldl f s) := by
  have hloop := forRange_eq (fun _ _ => True) (s := s) trivial
    fun i hi s _ => ⟨hbody i hi s, trivial⟩
  exact hloop.1

theorem forRange_eq_some (body : σ → ℕ → Option σ) (r : ℕ → σ)
    (hbody : ∀ i < n, body (r i) i = some (r (i + 1))) : forRange n (r 0) body = some (r n) := by
  induction n with
  | zero => rfl
  | succ n ih =>
      rw [forRange_succ, ih fun i hi => hbody i (Nat.lt_succ_of_lt hi)]
      exact hbody n (Nat.lt_succ_self n)

/-- The array `a` with its first `i` cells taken from `g`. -/
def upTo (i : ℕ) (g a : ℕ → α) : ℕ → α := fun j => if j < i then g j else a j

@[simp] theorem upTo_zero (g a : ℕ → α) : upTo 0 g a = a := by
  funext j
  exact if_neg (Nat.not_lt_zero j)

@[simp] theorem upTo_self (i : ℕ) (g a : ℕ → α) : upTo i g a i = a i := if_neg (Nat.lt_irrefl i)

theorem update_upTo (i : ℕ) (g a : ℕ → α) :
    Function.update (upTo i g a) i (g i) = upTo (i + 1) g a := by
  funext j
  rw [Function.update_apply]
  unfold upTo
  by_cases hji : j = i
  · rw [if_pos hji, hji, if_pos (Nat.lt_succ_self i)]
  · have hiff : j < i + 1 ↔ j < i := by omega
    simp only [if_neg hji, hiff]

theorem forRange_update {g : ℕ → α → α} {body : (ℕ → α) → ℕ → Option (ℕ → α)}
    (hbody : ∀ i < n, ∀ b : ℕ → α, b i = a i → body b i = some (Function.update b i (g i (a i)))) :
    forRange n a body = some (upTo n (fun j => g j (a j)) a) := by
  have hloop := forRange_eq_some body (fun i => upTo i (fun j => g j (a j)) a) (n := n)
    fun i hi => by
      rw [hbody i hi _ (upTo_self i _ a)]
      exact congrArg some (update_upTo i (fun j => g j (a j)) a)
  rwa [upTo_zero] at hloop

theorem foldl_bind_eq_foldlM (f : σ → ℕ → Option σ) (s : σ) (n : ℕ) :
    (List.range n).foldl (fun o i => o.bind fun s => f s i) (some s) =
      (List.range n).foldlM f s := by
  induction n with
  | zero => rfl
  | succ n ih =>
      rw [List.range_succ, List.foldl_append, List.foldlM_append, ih]
      simp

theorem mapM_eq {β : Type*} {f : ℕ → Option β} {g : ℕ → β} {l : List ℕ}
    (h : ∀ i ∈ l, f i = some (g i)) : l.mapM f = some (l.map g) := by
  induction l with
  | nil => rfl
  | cons i l ih =>
      rw [List.mapM_cons, h i List.mem_cons_self, ih fun j hj => h j (List.mem_cons_of_mem i hj)]
      rfl

theorem search_eq {test : ℕ → Option Bool} {p : ℕ → Bool} {l : List ℕ}
    (h : ∀ i ∈ l, test i = some (p i)) : search test l = some (l.find? p) := by
  induction l with
  | nil => rfl
  | cons i l ih =>
      have hrest := ih fun j hj => h j (List.mem_cons_of_mem i hj)
      rw [search, h i List.mem_cons_self, List.find?_cons]
      cases p i with
      | true => rfl
      | false => exact hrest

end CodingGateway.Library.BoundedArray
