import CodingGateway.Model.CryptoKey
import Mathlib.Data.List.GetD
import Mathlib.Data.UInt
import Mathlib.Tactic.SplitIfs
set_option autoImplicit false

/-!
# Which key texts are taken

`sscanf` is content with a pair of characters of which it can read one as a digit, so
64 characters may be taken as a key that nobody typed.

* `sscanfHex_pair` — the pairs that are read, and two digits.
* `parsesExactly_iff` — the texts on which the parser does what its name says.
-/

namespace CodingGateway.Proofs.KeyParser

open CodingGateway.Model

variable {hex : List UInt8} {out : Bytes} {a b : UInt8}

def IsKeyText (hex : List UInt8) : Prop := hex.length = 64 ∧ ∀ c ∈ hex, isHexDigit c = true

def denotedByte (a b : UInt8) : UInt8 := UInt8.ofNat (16 * (hexVal a).getD 0 + (hexVal b).getD 0)

/-- Exactly the key texts are taken, as the bytes they denote. -/
structure ParsesExactly (hex : List UInt8) : Prop where
  accepts : ∀ out, (cryptoParseKey hex out).1 = true ↔ IsKeyText hex
  bytes : ∀ out, IsKeyText hex → ∀ i < cryptoKeyLen,
    (cryptoParseKey hex out).2 i = denotedByte (hex.getD (2 * i) 0) (hex.getD (2 * i + 1) 0)

/-- A digit and any character that does not make it a prefix `0x`, or white space or a sign and
then a digit. -/
def Loose (a b : UInt8) : Prop :=
  isHexDigit a = true ∧ ¬ (a = 48 ∧ (b = 120 ∨ b = 88)) ∨
    (isSpace a = true ∨ a = 43 ∨ a = 45) ∧ isHexDigit b = true

instance (a b : UInt8) : Decidable (Loose a b) := by unfold Loose; infer_instance

/-- 64 characters, not all of them digits, in pairs that are read. -/
def LooseText (hex : List UInt8) : Prop :=
  hex.length = 64 ∧ (∃ c ∈ hex, isHexDigit c = false) ∧
    ∀ i < cryptoKeyLen, Loose (hex.getD (2 * i) 0) (hex.getD (2 * i + 1) 0)

/-! ## One pair -/

theorem not_special_of_isHexDigit (h : isHexDigit a = true) :
    isSpace a = false ∧ a ≠ 43 ∧ a ≠ 45 ∧ a ≠ 120 ∧ a ≠ 88 := by
  have hrange : (48 ≤ a.toNat ∧ a.toNat ≤ 57) ∨ (97 ≤ a.toNat ∧ a.toNat ≤ 102) ∨
      (65 ≤ a.toNat ∧ a.toNat ≤ 70) := by
    unfold isHexDigit hexVal at h
    split_ifs at h with h1 h2 h3
    · exact Or.inl h1
    · exact Or.inr (Or.inl h2)
    · exact Or.inr (Or.inr h3)
    · cases h
  have hne : ∀ c : UInt8, a.toNat ≠ c.toNat → a ≠ c := fun c hc heq => hc (congrArg UInt8.toNat heq)
  refine ⟨?_, hne 43 ?_, hne 45 ?_, hne 120 ?_, hne 88 ?_⟩
  · have hspace : isSpace a = false ↔ ¬ (a = 32 ∨ 9 ≤ a ∧ a ≤ 13) := by
      rw [isSpace, ← Bool.not_eq_true, Bool.or_eq_true, Bool.and_eq_true, beq_iff_eq,
        decide_eq_true_iff, decide_eq_true_iff]
    rw [hspace]
    rintro (heq | ⟨hge, hle⟩)
    · exact hne 32 (by show a.toNat ≠ 32; omega) heq
    · have hle' : a.toNat ≤ 13 := hle
      omega
  · show a.toNat ≠ 43
    omega
  · show a.toNat ≠ 45
    omega
  · show a.toNat ≠ 120
    omega
  · show a.toNat ≠ 88
    omega

theorem sscanfHex_of_digit (ha : isHexDigit a = true) :
    sscanfHex 2 [a, b] =
      if a = 48 ∧ (b = 120 ∨ b = 88) then none
      else if isHexDigit b = true then some (UInt32.ofNat (hexNumber [a, b]))
      else some (UInt32.ofNat (hexNumber [a])) := by
  obtain ⟨hspace, hplus, hminus, -, -⟩ := not_special_of_isHexDigit ha
  by_cases hstart : a = 48 ∧ (b = 120 ∨ b = 88)
  · obtain ⟨rfl, hx⟩ := hstart
    simp [sscanfHex, hspace, hx]
  · by_cases hzero : a = 48
    · subst hzero
      have hx : ¬ (b = 120 ∨ b = 88) := fun h => hstart ⟨rfl, h⟩
      by_cases hb : isHexDigit b = true
      · simp [sscanfHex, hspace, hx, ha, hb]
      · simp [sscanfHex, hspace, hx, ha, hb]
    · by_cases hb : isHexDigit b = true
      · simp [sscanfHex, hspace, hplus, hminus, hzero, ha, hb]
      · simp [sscanfHex, hspace, hplus, hminus, hzero, ha, hb]

/-- A pair that does not: the second character is the only one that can be read. -/
theorem sscanfHex_of_not_digit (ha : isHexDigit a = false) :
    (sscanfHex 2 [a, b]).isSome = true ↔
      (isSpace a = true ∨ a = 43 ∨ a = 45) ∧ isHexDigit b = true := by
  have hzero : a ≠ 48 := by
    rintro rfl
    cases ha
  by_cases hspace : isSpace a = true
  · have hplus : a ≠ 43 := by
      rintro rfl
      cases hspace
    by_cases hb : isHexDigit b = true
    · obtain ⟨hspace', hplus', hminus', -, -⟩ := not_special_of_isHexDigit hb
      simp [sscanfHex, hspace, hspace', hplus', hminus', hb]
    · have hnone : sscanfHex 2 [a, b] = none := by
        by_cases hspace' : isSpace b = true
        · simp [sscanfHex, hspace, hspace']
        · by_cases hsign : b = 43 ∨ b = 45
          · rcases hsign with rfl | rfl
            · simp [sscanfHex, hspace, hspace']
            · simp [sscanfHex, hspace, hspace']
          · rw [not_or] at hsign
            simp [sscanfHex, hspace, hspace', hsign.1, hsign.2, hb]
      simp [hnone, hb]
  · by_cases hsign : a = 43 ∨ a = 45
    · by_cases hb : isHexDigit b = true
      · rcases hsign with rfl | rfl
        · simp [sscanfHex, hspace, hb]
        · simp [sscanfHex, hspace, hb]
      · rcases hsign with rfl | rfl
        · simp [sscanfHex, hspace, hb]
        · simp [sscanfHex, hspace, hb]
    · rw [not_or] at hsign
      simp [sscanfHex, hspace, hsign.1, hsign.2, hzero, ha]

theorem sscanfHex_pair (a b : UInt8) : (sscanfHex 2 [a, b]).isSome = true ↔ Loose a b := by
  by_cases ha : isHexDigit a = true
  · obtain ⟨hspace, hplus, hminus, -, -⟩ := not_special_of_isHexDigit ha
    have hfirst : ¬ (isSpace a = true ∨ a = 43 ∨ a = 45) := by
      rw [hspace]
      rintro (h | h | h)
      · cases h
      · exact hplus h
      · exact hminus h
    have hloose : Loose a b ↔ ¬ (a = 48 ∧ (b = 120 ∨ b = 88)) := by
      unfold Loose
      rw [and_iff_right ha]
      exact or_iff_left fun h => hfirst h.1
    rw [sscanfHex_of_digit ha, hloose]
    split_ifs with hstart hb
    · exact iff_of_false (by simp) fun h => h hstart
    · exact iff_of_true rfl hstart
    · exact iff_of_true rfl hstart
  · have ha' : isHexDigit a = false := by simpa using ha
    rw [sscanfHex_of_not_digit ha']
    exact (or_iff_right fun h => ha h.1).symm

theorem sscanfHex_digits (ha : isHexDigit a = true) (hb : isHexDigit b = true) :
    ∃ byte, sscanfHex 2 [a, b] = some byte ∧ byte.toUInt8 = denotedByte a b := by
  have hstart : ¬ (a = 48 ∧ (b = 120 ∨ b = 88)) := by
    obtain ⟨-, -, -, hx, hX⟩ := not_special_of_isHexDigit hb
    rintro ⟨-, h | h⟩
    · exact hx h
    · exact hX h
  refine ⟨UInt32.ofNat (hexNumber [a, b]), ?_, ?_⟩
  · rw [sscanfHex_of_digit ha, if_neg hstart, if_pos hb]
  · have hnumber : hexNumber [a, b] = 16 * (hexVal a).getD 0 + (hexVal b).getD 0 := by
      simp [hexNumber]
    rw [hnumber, denotedByte]
    simp

/-! ## The loop -/

theorem fst_parseKeyLoop (is : List ℕ) (out : Bytes) :
    (parseKeyLoop hex is out).1 = true ↔
      ∀ i ∈ is, Loose (hex.getD (2 * i) 0) (hex.getD (2 * i + 1) 0) := by
  induction is generalizing out with
  | nil => simp [parseKeyLoop]
  | cons i is ih =>
      have hpair := sscanfHex_pair (hex.getD (2 * i) 0) (hex.getD (2 * i + 1) 0)
      rw [parseKeyLoop, List.forall_mem_cons, ← hpair]
      cases sscanfHex 2 [hex.getD (2 * i) 0, hex.getD (2 * i + 1) 0] with
      | none => simp
      | some byte =>
          dsimp only
          rw [ih]
          simp

theorem snd_parseKeyLoop {is : List ℕ} (hnodup : is.Nodup)
    (hdigits : ∀ i ∈ is, isHexDigit (hex.getD (2 * i) 0) = true ∧
      isHexDigit (hex.getD (2 * i + 1) 0) = true) (out : Bytes) (j : ℕ) :
    (parseKeyLoop hex is out).2 j =
      if j ∈ is then denotedByte (hex.getD (2 * j) 0) (hex.getD (2 * j + 1) 0) else out j := by
  induction is generalizing out with
  | nil => rfl
  | cons i is ih =>
      obtain ⟨hnot, hnodup'⟩ := List.nodup_cons.mp hnodup
      obtain ⟨hfirst, hrest⟩ := List.forall_mem_cons.mp hdigits
      obtain ⟨byte, hscan, hbyte⟩ := sscanfHex_digits hfirst.1 hfirst.2
      rw [parseKeyLoop, hscan]
      dsimp only
      rw [ih hnodup' hrest]
      by_cases hji : j = i
      · rw [hji, if_neg hnot, if_pos List.mem_cons_self, Function.update_self, hbyte]
      · have hmem : j ∈ i :: is ↔ j ∈ is := by
          rw [List.mem_cons, or_iff_right hji]
        simp only [hmem, Function.update_of_ne hji]

/-! ## Texts -/

theorem forall_mem_iff_pairs (hlen : hex.length = 64) (P : UInt8 → Prop) :
    (∀ c ∈ hex, P c) ↔ ∀ i < cryptoKeyLen, P (hex.getD (2 * i) 0) ∧ P (hex.getD (2 * i + 1) 0) := by
  have hkey : cryptoKeyLen = 32 := rfl
  have hget : ∀ j < 64, hex.getD j 0 ∈ hex := by
    intro j hj
    rw [List.getD_eq_getElem _ _ (by omega)]
    exact List.getElem_mem ..
  constructor
  · intro hall i hi
    exact ⟨hall _ (hget _ (by omega)), hall _ (hget _ (by omega))⟩
  · intro hpairs c hc
    obtain ⟨j, hj, rfl⟩ := List.getElem_of_mem hc
    have hpair := hpairs (j / 2) (by omega)
    rcases Nat.mod_two_eq_zero_or_one j with heven | hodd
    · have hidx : 2 * (j / 2) = j := by omega
      rw [hidx, List.getD_eq_getElem _ _ hj] at hpair
      exact hpair.1
    · have hidx : 2 * (j / 2) + 1 = j := by omega
      rw [hidx, List.getD_eq_getElem _ _ hj] at hpair
      exact hpair.2

theorem cryptoParseKey_of_length (hlen : hex.length = 64) (out : Bytes) :
    cryptoParseKey hex out = parseKeyLoop hex (List.range cryptoKeyLen) out :=
  if_neg fun h => h hlen

theorem accepts_iff (out : Bytes) :
    (cryptoParseKey hex out).1 = true ↔ hex.length = 64 ∧
      ∀ i < cryptoKeyLen, Loose (hex.getD (2 * i) 0) (hex.getD (2 * i + 1) 0) := by
  by_cases hlen : hex.length = 64
  · rw [cryptoParseKey_of_length hlen, fst_parseKeyLoop]
    simp [hlen]
  · have hreject : cryptoParseKey hex out = (false, out) := if_pos hlen
    rw [hreject]
    exact iff_of_false Bool.false_ne_true fun h => hlen h.1

theorem bytes_of_isKeyText (h : IsKeyText hex) (out : Bytes) {i : ℕ} (hi : i < cryptoKeyLen) :
    (cryptoParseKey hex out).2 i =
      denotedByte (hex.getD (2 * i) 0) (hex.getD (2 * i + 1) 0) := by
  have hdigits := (forall_mem_iff_pairs h.1 fun c => isHexDigit c = true).mp h.2
  rw [cryptoParseKey_of_length h.1,
    snd_parseKeyLoop List.nodup_range (fun j hj => hdigits j (List.mem_range.mp hj)),
    if_pos (List.mem_range.mpr hi)]

theorem loose_of_digits (ha : isHexDigit a = true) (hb : isHexDigit b = true) : Loose a b := by
  obtain ⟨-, -, -, hx, hX⟩ := not_special_of_isHexDigit hb
  left
  refine ⟨ha, ?_⟩
  rintro ⟨-, h | h⟩
  · exact hx h
  · exact hX h

/-- **The key parser.** It takes exactly 64 hexadecimal digits, and as the key they denote, unless
the text is one of 64 characters in readable pairs that are not all digits. -/
theorem parsesExactly_iff (hex : List UInt8) : ParsesExactly hex ↔ ¬ LooseText hex := by
  constructor
  · rintro h ⟨hlen, ⟨c, hc, hcdigit⟩, hpairs⟩
    have hkey := (h.accepts fun _ => 0).mp ((accepts_iff _).mpr ⟨hlen, hpairs⟩)
    have hdigit := hkey.2 c hc
    rw [hcdigit] at hdigit
    cases hdigit
  · intro hnot
    refine ⟨fun out => ?_, fun out hkey i hi => bytes_of_isKeyText hkey out hi⟩
    rw [accepts_iff]
    constructor
    · rintro ⟨hlen, hpairs⟩
      refine ⟨hlen, fun c hc => ?_⟩
      by_contra hdigit
      exact hnot ⟨hlen, ⟨c, hc, by simpa using hdigit⟩, hpairs⟩
    · rintro ⟨hlen, hdigits⟩
      refine ⟨hlen, fun i hi => ?_⟩
      obtain ⟨ha, hb⟩ := (forall_mem_iff_pairs hlen fun c => isHexDigit c = true).mp hdigits i hi
      exact loose_of_digits ha hb

/-- A key of which one digit was mistyped. -/
def mistypedKey : List UInt8 := chars "0g" ++ List.replicate 62 48

/-- The mistyped key is taken, with 0 as its first byte. -/
theorem not_parsesExactly_mistypedKey :
    (cryptoParseKey mistypedKey fun _ => 7).1 = true ∧
      (cryptoParseKey mistypedKey fun _ => 7).2 0 = 0 ∧ ¬ ParsesExactly mistypedKey := by
  have htaken : (cryptoParseKey mistypedKey fun _ => 7).1 = true := by decide +kernel
  refine ⟨htaken, by decide +kernel, fun h => ?_⟩
  have hkey := ((h.accepts fun _ => 7).mp htaken).2 103 (by decide)
  cases hkey

end CodingGateway.Proofs.KeyParser
