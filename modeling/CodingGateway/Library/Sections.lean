import Mathlib.Data.List.Basic
import Mathlib.Data.List.GetD
import Mathlib.Data.List.ModifyLast
import Mathlib.Logic.Function.Basic
set_option autoImplicit false

/-!
# Sections and assignments

A document is read as a sequence of headings and assignments; an assignment belongs to the last
heading before it, and one before all headings to none.

* `lookup_heading`, `lookup_assign` — the last assignment to a key of a section counts;
* `values_heading`, `values_assign` — or all of them do, in order.
-/

namespace CodingGateway.Library.Sections

variable {σ κ ν : Type*}

/-- What one line of a document says. -/
inductive Entry (σ κ ν : Type*)
  | heading (name : σ)
  | assign (key : κ) (value : ν)
deriving DecidableEq, Repr

/-- A heading and the assignments below it. -/
structure Block (σ κ ν : Type*) where
  name : σ
  body : List (κ × ν)
deriving DecidableEq, Repr

/-- The block with one more assignment. -/
def Block.add (b : Block σ κ ν) (key : κ) (value : ν) : Block σ κ ν :=
  { b with body := b.body ++ [(key, value)] }

@[simp] theorem Block.add_name (b : Block σ κ ν) (key : κ) (value : ν) :
    (b.add key value).name = b.name := rfl

def addEntry (doc : List (Block σ κ ν)) : Entry σ κ ν → List (Block σ κ ν)
  | .heading name => doc ++ [⟨name, []⟩]
  | .assign key value => doc.modifyLast fun b => b.add key value

/-- The blocks of a document. -/
def blocks (entries : List (Entry σ κ ν)) : List (Block σ κ ν) := entries.foldl addEntry []

@[simp] theorem blocks_nil : blocks ([] : List (Entry σ κ ν)) = [] := rfl

theorem blocks_concat (entries : List (Entry σ κ ν)) (e : Entry σ κ ν) :
    blocks (entries ++ [e]) = addEntry (blocks entries) e := by
  rw [blocks, List.foldl_append]
  rfl

@[simp] theorem addEntry_heading (doc : List (Block σ κ ν)) (name : σ) :
    addEntry doc (.heading name) = doc ++ [⟨name, []⟩] := rfl

@[simp] theorem addEntry_assign_nil (key : κ) (value : ν) :
    addEntry ([] : List (Block σ κ ν)) (.assign key value) = [] := rfl

@[simp] theorem addEntry_assign_concat (doc : List (Block σ κ ν)) (b : Block σ κ ν) (key : κ)
    (value : ν) : addEntry (doc ++ [b]) (.assign key value) = doc ++ [b.add key value] :=
  List.modifyLast_concat _ _ _

/-! ## What a section holds -/

section Body

variable [DecidableEq σ]

/-- All that is assigned in sections of a name. -/
def bodyOf (name : σ) (doc : List (Block σ κ ν)) : List (κ × ν) :=
  (doc.filter fun b => b.name = name).flatMap Block.body

variable {name : σ} (doc : List (Block σ κ ν)) (b : Block σ κ ν) (k : κ) (v : ν)

theorem bodyOf_concat : bodyOf name (doc ++ [b]) =
    bodyOf name doc ++ if b.name = name then b.body else [] := by
  rw [bodyOf, List.filter_append, List.flatMap_append]
  by_cases h : b.name = name
  · simp [bodyOf, h]
  · simp [bodyOf, h]

theorem bodyOf_heading (n : σ) : bodyOf name (doc ++ [⟨n, []⟩]) = bodyOf name doc := by
  rw [bodyOf_concat]
  simp

theorem bodyOf_assign : bodyOf name (doc ++ [b.add k v]) =
    bodyOf name (doc ++ [b]) ++ if b.name = name then [(k, v)] else [] := by
  rw [bodyOf_concat, bodyOf_concat]
  by_cases h : b.name = name
  · simp [Block.add, h]
  · simp [Block.add, h]

end Body

/-! ## What a key is given -/

section Keys

variable [DecidableEq κ]

/-- The value of the last assignment to a key. -/
def lastOf (key : κ) (body : List (κ × ν)) : Option ν :=
  body.foldl (fun found a => if a.1 = key then some a.2 else found) none

theorem lastOf_concat (key : κ) (body : List (κ × ν)) (a : κ × ν) :
    lastOf key (body ++ [a]) = if a.1 = key then some a.2 else lastOf key body := by
  rw [lastOf, List.foldl_append]
  rfl

variable [DecidableEq σ]

/-- The value that a key of a section has: the last one assigned. -/
def lookup (name : σ) (key : κ) (doc : List (Block σ κ ν)) : Option ν :=
  lastOf key (bodyOf name doc)

/-- All values of a key of a section, in order. -/
def values (name : σ) (key : κ) (doc : List (Block σ κ ν)) : List ν :=
  (bodyOf name doc).filterMap fun a => if a.1 = key then some a.2 else none

variable {name : σ} {key : κ} (doc : List (Block σ κ ν)) (b : Block σ κ ν) (k : κ) (v : ν)

theorem lookup_heading (n : σ) : lookup name key (doc ++ [⟨n, []⟩]) = lookup name key doc := by
  rw [lookup, bodyOf_heading, lookup]

theorem lookup_assign : lookup name key (doc ++ [b.add k v]) =
    if b.name = name ∧ k = key then some v else lookup name key (doc ++ [b]) := by
  rw [lookup, bodyOf_assign, lookup]
  by_cases h : b.name = name
  · rw [if_pos h, lastOf_concat]
    simp [h]
  · rw [if_neg h, List.append_nil, if_neg fun hboth => h hboth.1]

theorem values_heading (n : σ) : values name key (doc ++ [⟨n, []⟩]) = values name key doc := by
  rw [values, bodyOf_heading, values]

theorem values_assign : values name key (doc ++ [b.add k v]) =
    values name key (doc ++ [b]) ++ if b.name = name ∧ k = key then [v] else [] := by
  rw [values, bodyOf_assign, values, List.filterMap_append]
  congr 1
  by_cases h : b.name = name
  · by_cases hk : k = key
    · simp [h, hk]
    · simp [h, hk]
  · simp [h]

end Keys

theorem take_concat {α : Type*} (l : List α) (a : α) (n : ℕ) :
    (l ++ [a]).take n = l.take n ++ if (l.take n).length < n then [a] else [] := by
  rw [List.take_append, List.length_take]
  congr 1
  split_ifs with h
  · rw [List.take_of_length_le]
    simp only [List.length_singleton]
    omega
  · rw [show n - l.length = 0 by omega, List.take_zero]

theorem update_getD {α : Type*} (l : List α) (d a : α) :
    Function.update (fun i => l.getD i d) l.length a = fun i => (l ++ [a]).getD i d := by
  funext i
  rcases Nat.lt_trichotomy i l.length with h | rfl | h
  · rw [Function.update_of_ne (by omega), List.getD_append _ _ _ _ h]
  · rw [Function.update_self, List.getD_append_right _ _ _ _ (Nat.le_refl _), Nat.sub_self]
    rfl
  · rw [Function.update_of_ne (by omega), List.getD_eq_default _ _ (by omega),
      List.getD_eq_default _ _ (by simp; omega)]

end CodingGateway.Library.Sections
