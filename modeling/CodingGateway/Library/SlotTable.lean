import Mathlib.Data.Finset.Card
import Mathlib.Data.List.Range
import Mathlib.Data.Set.Card
import Mathlib.Logic.Function.Basic
set_option autoImplicit false

/-!
# Tables of slots as partial maps

A table is an array of `n` slots.  A slot is `live` or free, and a live slot has a
key.  `lookup` is the partial map from keys to slots that a table with `Distinct`
live keys stands for; writing one slot updates the map at one key.
-/

namespace CodingGateway.Library.SlotTable

variable {κ β : Type*} [DecidableEq κ] (live : β → Bool) (key : β → κ)

/-- The first live slot with key `id`. -/
def slotOf (slots : ℕ → β) (n : ℕ) (id : κ) : Option ℕ :=
  (List.range n).find? fun i => live (slots i) && key (slots i) == id

/-- The first free slot. -/
def freeSlot (slots : ℕ → β) (n : ℕ) : Option ℕ :=
  (List.range n).find? fun i => !live (slots i)

/-- What the table holds under a key. -/
def lookup (slots : ℕ → β) (n : ℕ) (id : κ) : Option β := (slotOf live key slots n id).map slots

/-- No two live slots share a key. -/
def Distinct (slots : ℕ → β) (n : ℕ) : Prop :=
  ∀ i < n, ∀ j < n, live (slots i) = true → live (slots j) = true →
    key (slots i) = key (slots j) → i = j

variable {live key} {slots : ℕ → β} {n : ℕ}

theorem slotOf_spec {id : κ} {i : ℕ} (h : slotOf live key slots n id = some i) :
    i < n ∧ live (slots i) = true ∧ key (slots i) = id := by
  have hpred := List.find?_some h
  have hmem := List.mem_of_find?_eq_some h
  simp only [Bool.and_eq_true, beq_iff_eq] at hpred
  exact ⟨List.mem_range.mp hmem, hpred.1, hpred.2⟩

theorem slotOf_eq_none {id : κ} :
    slotOf live key slots n id = none ↔ ∀ i < n, live (slots i) = true → key (slots i) ≠ id := by
  simp [slotOf]

theorem freeSlot_spec {i : ℕ} (h : freeSlot live slots n = some i) :
    i < n ∧ live (slots i) = false := by
  have hpred := List.find?_some h
  have hmem := List.mem_of_find?_eq_some h
  exact ⟨List.mem_range.mp hmem, by simpa using hpred⟩

theorem freeSlot_eq_none : freeSlot live slots n = none ↔ ∀ i < n, live (slots i) = true := by
  simp [freeSlot]

/-! ## The map of a table -/

theorem lookup_eq_none {id : κ} :
    lookup live key slots n id = none ↔ ∀ i < n, live (slots i) = true → key (slots i) ≠ id := by
  rw [lookup, Option.map_eq_none_iff, slotOf_eq_none]

theorem exists_of_lookup {id : κ} {b : β} (h : lookup live key slots n id = some b) :
    ∃ i < n, slotOf live key slots n id = some i ∧ slots i = b ∧ live b = true ∧ key b = id := by
  obtain ⟨i, hi, rfl⟩ := Option.map_eq_some_iff.mp h
  obtain ⟨hlt, hlive, hkey⟩ := slotOf_spec hi
  exact ⟨i, hlt, hi, rfl, hlive, hkey⟩

theorem slotOf_of_distinct (hd : Distinct live key slots n) {i : ℕ} (hi : i < n)
    (hlive : live (slots i) = true) : slotOf live key slots n (key (slots i)) = some i := by
  cases hfind : slotOf live key slots n (key (slots i)) with
  | none => exact absurd rfl (slotOf_eq_none.mp hfind i hi hlive)
  | some j =>
      obtain ⟨hj, hlivej, hkeyj⟩ := slotOf_spec hfind
      rw [hd j hj i hi hlivej hlive hkeyj]

theorem lookup_of_distinct (hd : Distinct live key slots n) {i : ℕ} (hi : i < n)
    (hlive : live (slots i) = true) : lookup live key slots n (key (slots i)) = some (slots i) := by
  rw [lookup, slotOf_of_distinct hd hi hlive, Option.map_some]

theorem lookup_eq_some (hd : Distinct live key slots n) {id : κ} {b : β} :
    lookup live key slots n id = some b ↔ ∃ i < n, slots i = b ∧ live b = true ∧ key b = id := by
  constructor
  · intro h
    obtain ⟨i, hi, _, hslot, hlive, hkey⟩ := exists_of_lookup h
    exact ⟨i, hi, hslot, hlive, hkey⟩
  · rintro ⟨i, hi, rfl, hlive, rfl⟩
    exact lookup_of_distinct hd hi hlive

/-- A live slot satisfies `p` exactly when the map has an entry that does. -/
theorem any_live_iff (hd : Distinct live key slots n) (p : β → Bool) :
    ((List.range n).any fun i => live (slots i) && p (slots i)) = true ↔
      ∃ id b, lookup live key slots n id = some b ∧ p b = true := by
  rw [List.any_eq_true]
  constructor
  · rintro ⟨i, hi, hp⟩
    rw [Bool.and_eq_true] at hp
    exact ⟨_, _, lookup_of_distinct hd (List.mem_range.mp hi) hp.1, hp.2⟩
  · rintro ⟨id, b, hlookup, hp⟩
    obtain ⟨i, hi, _, rfl, hlive, _⟩ := exists_of_lookup hlookup
    exact ⟨i, List.mem_range.mpr hi, by rw [hlive, hp]; rfl⟩

theorem exists_free (hd : Distinct live key slots n) (keys : Finset κ) (hcard : keys.card < n)
    (hkeys : ∀ id b, lookup live key slots n id = some b → id ∈ keys) :
    ∃ i, freeSlot live slots n = some i := by
  rw [← Option.ne_none_iff_exists']
  intro hnone
  have hlive := freeSlot_eq_none.mp hnone
  have hmaps : ∀ i ∈ Finset.range n, key (slots i) ∈ keys := by
    intro i hi
    have hlt := Finset.mem_range.mp hi
    exact hkeys _ _ (lookup_of_distinct hd hlt (hlive i hlt))
  have hcard' : keys.card < (Finset.range n).card := by rwa [Finset.card_range]
  obtain ⟨i, hi, j, hj, hne, hkey⟩ :=
    Finset.exists_ne_map_eq_of_card_lt_of_maps_to hcard' hmaps
  rw [Finset.mem_range] at hi hj
  exact hne (hd i hi j hj (hlive i hi) (hlive j hj) hkey)

theorem keys_eq_image (hd : Distinct live key slots n) :
    {id | (lookup live key slots n id).isSome} =
      (fun i => key (slots i)) '' ↑((Finset.range n).filter fun i => live (slots i) = true) := by
  ext id
  rw [Set.mem_ofPred_eq, Option.isSome_iff_exists, Set.mem_image]
  constructor
  · rintro ⟨b, hb⟩
    obtain ⟨i, hi, _, rfl, hlive, hkey⟩ := exists_of_lookup hb
    exact ⟨i, by simp [hi, hlive], hkey⟩
  · rintro ⟨i, hi, rfl⟩
    rw [Finset.mem_coe, Finset.mem_filter, Finset.mem_range] at hi
    exact ⟨_, lookup_of_distinct hd hi.1 hi.2⟩

/-- A table has room exactly when it has fewer keys than slots. -/
theorem ncard_keys_lt_iff (hd : Distinct live key slots n) :
    {id | (lookup live key slots n id).isSome}.ncard < n ↔ (freeSlot live slots n).isSome := by
  have hinj : Set.InjOn (fun i => key (slots i))
      ↑((Finset.range n).filter fun i => live (slots i) = true) := by
    intro i hi j hj hkey
    rw [Finset.mem_coe, Finset.mem_filter, Finset.mem_range] at hi hj
    exact hd i hi.1 j hj.1 hi.2 hj.2 hkey
  rw [keys_eq_image hd, hinj.ncard_image, Set.ncard_coe_finset]
  constructor
  · intro hlt
    by_contra hnone
    have hlive := freeSlot_eq_none.mp (Option.not_isSome_iff_eq_none.mp hnone)
    have hall : (Finset.range n).filter (fun i => live (slots i) = true) = Finset.range n :=
      Finset.filter_true_of_mem fun i hi => hlive i (Finset.mem_range.mp hi)
    rw [hall, Finset.card_range] at hlt
    exact lt_irrefl n hlt
  · intro hsome
    obtain ⟨i, hi⟩ := Option.isSome_iff_exists.mp hsome
    obtain ⟨hlt, hidle⟩ := freeSlot_spec hi
    have hsub : (Finset.range n).filter (fun i => live (slots i) = true) ⊂ Finset.range n := by
      refine (Finset.filter_ssubset).mpr ⟨i, Finset.mem_range.mpr hlt, ?_⟩
      rw [hidle]
      decide
    have hcard := Finset.card_lt_card hsub
    rwa [Finset.card_range] at hcard

/-! ## Writing a slot -/

section Write

variable {i : ℕ} {b : β}

/-- No other slot has the key of `b`. -/
def Fits (live : β → Bool) (key : β → κ) (slots : ℕ → β) (n i : ℕ) (b : β) : Prop :=
  ∀ j < n, j ≠ i → live (slots j) = true → live b = true → key (slots j) ≠ key b

omit [DecidableEq κ] in
theorem fits_of_free (hb : live b = false) : Fits live key slots n i b := by
  intro j _ _ _ hlive
  rw [hb] at hlive
  cases hlive

theorem fits_of_lookup_none (h : lookup live key slots n (key b) = none) :
    Fits live key slots n i b :=
  fun j hj _ hlive _ => lookup_eq_none.mp h j hj hlive

omit [DecidableEq κ] in
theorem fits_of_key (hd : Distinct live key slots n) (hi : i < n) (hlive : live (slots i) = true)
    (hkey : key (slots i) = key b) : Fits live key slots n i b :=
  fun j hj hji hlivej _ hkeyj => hji (hd j hj i hi hlivej hlive (hkeyj.trans hkey.symm))

omit [DecidableEq κ] in
theorem distinct_update (hd : Distinct live key slots n)
    (hfits : Fits live key slots n i b) : Distinct live key (Function.update slots i b) n := by
  intro j hj l hl hlivej hlivel hkey
  by_cases hji : j = i
  · by_cases hli : l = i
    · rw [hji, hli]
    · subst hji
      rw [Function.update_self] at hlivej hkey
      rw [Function.update_of_ne hli] at hlivel hkey
      exact absurd hkey.symm (hfits l hl hli hlivel hlivej)
  · rw [Function.update_of_ne hji] at hlivej hkey
    by_cases hli : l = i
    · subst hli
      rw [Function.update_self] at hlivel hkey
      exact absurd hkey (hfits j hj hji hlivej hlivel)
    · rw [Function.update_of_ne hli] at hlivel hkey
      exact hd j hj l hl hlivej hlivel hkey

theorem lookup_update_of_ne (hd : Distinct live key slots n) (hfits : Fits live key slots n i b)
    {id : κ} (hnew : live b = true → key b ≠ id)
    (hold : live (slots i) = true → key (slots i) ≠ id) :
    lookup live key (Function.update slots i b) n id = lookup live key slots n id := by
  ext c
  rw [lookup_eq_some (distinct_update hd hfits), lookup_eq_some hd]
  constructor
  · rintro ⟨j, hj, hslot, hlive, hkey⟩
    have hji : j ≠ i := by
      rintro rfl
      rw [Function.update_self] at hslot
      subst hslot
      exact hnew hlive hkey
    rw [Function.update_of_ne hji] at hslot
    exact ⟨j, hj, hslot, hlive, hkey⟩
  · rintro ⟨j, hj, hslot, hlive, hkey⟩
    have hji : j ≠ i := by
      rintro rfl
      subst hslot
      exact hold hlive hkey
    exact ⟨j, hj, by rw [Function.update_of_ne hji, hslot], hlive, hkey⟩

theorem lookup_update_live (hd : Distinct live key slots n) (hi : i < n)
    (hfits : Fits live key slots n i b) (hb : live b = true)
    (hold : live (slots i) = true → key (slots i) = key b) :
    lookup live key (Function.update slots i b) n =
      Function.update (lookup live key slots n) (key b) (some b) := by
  funext id
  by_cases hid : id = key b
  · subst hid
    rw [Function.update_self, lookup_eq_some (distinct_update hd hfits)]
    exact ⟨i, hi, Function.update_self .., hb, rfl⟩
  · rw [Function.update_of_ne hid]
    exact lookup_update_of_ne hd hfits (fun _ => Ne.symm hid)
      (fun hlive hkey => hid (hkey.symm.trans (hold hlive)))

theorem lookup_update_free (hd : Distinct live key slots n) (hi : i < n)
    (hb : live b = false) (hlive : live (slots i) = true) :
    lookup live key (Function.update slots i b) n =
      Function.update (lookup live key slots n) (key (slots i)) none := by
  funext id
  by_cases hid : id = key (slots i)
  · subst hid
    rw [Function.update_self, lookup_eq_none]
    intro j hj hlivej hkey
    have hji : j ≠ i := by
      rintro rfl
      rw [Function.update_self, hb] at hlivej
      cases hlivej
    rw [Function.update_of_ne hji] at hlivej hkey
    exact hji (hd j hj i hi hlivej hlive hkey)
  · rw [Function.update_of_ne hid]
    exact lookup_update_of_ne hd (fits_of_free hb) (fun hlive' => by simp [hb] at hlive')
      (fun _ => Ne.symm hid)

theorem lookup_update_idle (hd : Distinct live key slots n) (hb : live b = false)
    (hlive : live (slots i) = false) :
    lookup live key (Function.update slots i b) n = lookup live key slots n := by
  funext id
  exact lookup_update_of_ne hd (fits_of_free hb) (fun h => by simp [hb] at h)
    (fun h => by simp [hlive] at h)

end Write

end CodingGateway.Library.SlotTable
