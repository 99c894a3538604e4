import CodingGateway.Library.Stripping
import CodingGateway.Model.ConfigLoad
set_option autoImplicit false

/-!
# Physical lines and the pieces that are read

`fgets` returns a line of the file in pieces of at most 255 characters, and the parser
takes each piece for a line.

* `readFile_append` — the pieces of a file are those of its physical lines;
* `readFile_joinLines` — so a file is read physical line by physical line.
-/

namespace CodingGateway.Proofs.PhysicalLines

open CodingGateway.Model
open CodingGateway.Library.Stripping

/-! ## The pieces that `fgets` returns -/

theorem fgetsLines_cons {acc s : List UInt8} {c : UInt8} (hs : 10 ∉ c :: s)
    (hlen : acc.length < 254) (file : List UInt8) :
    fgetsLines acc (c :: file) = fgetsLines (c :: acc) file := by
  have hc : c ≠ 10 := by
    rintro rfl
    exact hs List.mem_cons_self
  rw [fgetsLines, if_neg]
  rintro (hnewline | hfull)
  · exact hc hnewline
  · omega

theorem fgetsLines_last {acc s : List UInt8} (hs : 10 ∉ s) (hlen : acc.length + s.length < 255) :
    fgetsLines acc s = if acc = [] ∧ s = [] then [] else [acc.reverse ++ s] := by
  induction s generalizing acc with
  | nil =>
      rw [fgetsLines]
      cases acc with
      | nil => rfl
      | cons x acc => simp
  | cons c s ih =>
      rw [List.length_cons] at hlen
      rw [fgetsLines_cons hs (by omega),
        ih (fun h => hs (List.mem_cons_of_mem c h)) (by rw [List.length_cons]; omega)]
      simp

theorem fgetsLines_newline {acc s : List UInt8} (hs : 10 ∉ s)
    (hlen : acc.length + s.length < 255) (file : List UInt8) :
    fgetsLines acc (s ++ 10 :: file) = (acc.reverse ++ s ++ [10]) :: fgetsLines [] file := by
  induction s generalizing acc with
  | nil =>
      rw [List.nil_append, fgetsLines, if_pos (Or.inl rfl)]
      simp
  | cons c s ih =>
      rw [List.length_cons] at hlen
      rw [List.cons_append, fgetsLines_cons hs (by omega),
        ih (fun h => hs (List.mem_cons_of_mem c h)) (by rw [List.length_cons]; omega)]
      simp

theorem fgetsLines_full {acc s : List UInt8} (hs : 10 ∉ s) (hne : s ≠ [])
    (hlen : acc.length + s.length = 255) (file : List UInt8) :
    fgetsLines acc (s ++ file) = (acc.reverse ++ s) :: fgetsLines [] file := by
  induction s generalizing acc with
  | nil => exact absurd rfl hne
  | cons c s ih =>
      rw [List.length_cons] at hlen
      cases s with
      | nil =>
          have hroom : acc.length = 254 := by simpa using hlen
          rw [List.cons_append, fgetsLines, if_pos (Or.inr hroom)]
          simp
      | cons d s =>
          rw [List.length_cons] at hlen
          rw [List.cons_append, fgetsLines_cons hs (by omega),
            ih (fun h => hs (List.mem_cons_of_mem c h)) (List.cons_ne_nil d s)
              (by rw [List.length_cons, List.length_cons]; omega)]
          simp

theorem fgetsLines_append {q : ℕ} {s : List UInt8} (hs : 10 ∉ s) (hlen : s.length = 255 * q)
    (file : List UInt8) : fgetsLines [] (s ++ file) = fgetsLines [] s ++ fgetsLines [] file := by
  induction q generalizing s with
  | zero =>
      have hnil : s = [] := List.length_eq_zero_iff.mp hlen
      rw [hnil]
      rfl
  | succ q ih =>
      have hfirst : (s.take 255).length = 255 := by
        rw [List.length_take]
        omega
      have hmem : 10 ∉ s.take 255 := fun h => hs (List.mem_of_mem_take h)
      have hne : s.take 255 ≠ [] := fun h => by simp [h] at hfirst
      have hrest : fgetsLines [] (s.drop 255 ++ file) =
          fgetsLines [] (s.drop 255) ++ fgetsLines [] file :=
        ih (fun h => hs (List.mem_of_mem_drop h)) (by rw [List.length_drop]; omega)
      have hboth : ∀ rest, fgetsLines [] (s.take 255 ++ rest) =
          s.take 255 :: fgetsLines [] rest := fun rest => by
        rw [fgetsLines_full hmem hne (by simpa using hfirst)]
        rfl
      calc fgetsLines [] (s ++ file)
          = fgetsLines [] (s.take 255 ++ (s.drop 255 ++ file)) := by
            rw [← List.append_assoc, List.take_append_drop]
        _ = s.take 255 :: (fgetsLines [] (s.drop 255) ++ fgetsLines [] file) := by
            rw [hboth, hrest]
        _ = fgetsLines [] (s.take 255 ++ s.drop 255) ++ fgetsLines [] file := by
            rw [hboth]
            rfl
        _ = fgetsLines [] s ++ fgetsLines [] file := by rw [List.take_append_drop]

/-! ## Reading line by line -/

/-- The loop of `config_load` over a text. -/
def readFile (num : NumberParser) (st : ConfigState) (text : List UInt8) : ConfigState :=
  (fgetsLines [] text).foldl (configLine num) st

section Reading

variable {num : NumberParser} {st : ConfigState}

theorem trim_eq_strip (s : List UInt8) : trim s = strip isSpace s := rfl

theorem configLine_newline (num : NumberParser) (st : ConfigState) (s : List UInt8) :
    configLine num st (s ++ [10]) = configLine num st s := by
  have htrim : trim (cString (s ++ [10])) = trim (cString s) := by
    unfold cString
    by_cases hnul : ∀ x ∈ s, x ≠ 0
    · have hall : s.takeWhile (· ≠ 0) = s := by
        rw [List.takeWhile_eq_self_iff]
        simpa using hnul
      rw [List.takeWhile_append_of_pos (by simpa using hnul), hall, trim_eq_strip, trim_eq_strip]
      refine strip_append_blank s fun x hx => ?_
      rw [List.mem_singleton.mp ((List.takeWhile_prefix _).mem hx)]
      rfl
    · rw [List.takeWhile_append, if_neg]
      intro hlen
      have hall : s.takeWhile (· ≠ 0) = s := (List.takeWhile_prefix _).eq_of_length hlen
      rw [List.takeWhile_eq_self_iff] at hall
      exact hnul (by simpa using hall)
  unfold configLine
  rw [htrim]

theorem readFile_short {s : List UInt8} (hs : 10 ∉ s) (hlen : s.length < 255) :
    readFile num st s = configLine num st s := by
  rw [readFile, fgetsLines_last hs (by simpa using hlen)]
  cases s with
  | nil => rfl
  | cons c s => rfl

theorem readFile_full (num : NumberParser) (st : ConfigState) {s : List UInt8} (hs : 10 ∉ s)
    (hlen : s.length = 255) (text : List UInt8) :
    readFile num st (s ++ text) = readFile num (configLine num st s) text := by
  have hne : s ≠ [] := fun h => by simp [h] at hlen
  rw [readFile, fgetsLines_full hs hne (by simpa using hlen)]
  rfl

theorem readFile_le {s : List UInt8} (hs : 10 ∉ s) (hlen : s.length ≤ 255) :
    readFile num st s = configLine num st s := by
  rcases Nat.lt_or_ge s.length 255 with hlt | hge
  · exact readFile_short hs hlt
  · have hfull := readFile_full num st hs (Nat.le_antisymm hlen hge) []
    rw [List.append_nil] at hfull
    exact hfull

theorem readFile_pieces {q : ℕ} {s : List UInt8} (hs : 10 ∉ s) (hlen : s.length = 255 * q)
    (text : List UInt8) : readFile num st (s ++ text) = readFile num (readFile num st s) text := by
  rw [readFile, fgetsLines_append hs hlen, List.foldl_append]
  rfl

/-- The whole pieces at the start of a line, and the rest. -/
def fullPart (s : List UInt8) : List UInt8 := s.take (255 * (s.length / 255))

def lastPart (s : List UInt8) : List UInt8 := s.drop (255 * (s.length / 255))

theorem fullPart_append_lastPart (s : List UInt8) : fullPart s ++ lastPart s = s :=
  List.take_append_drop ..

theorem length_fullPart (s : List UInt8) : (fullPart s).length = 255 * (s.length / 255) := by
  rw [fullPart, List.length_take]
  omega

theorem length_lastPart (s : List UInt8) : (lastPart s).length < 255 := by
  rw [lastPart, List.length_drop]
  omega

theorem readFile_append {l : List UInt8} (hl : 10 ∉ l) (text : List UInt8) :
    readFile num st (l ++ 10 :: text) = readFile num (readFile num st l) text := by
  have hfull : 10 ∉ fullPart l := fun h => hl (List.mem_of_mem_take h)
  have hlast : 10 ∉ lastPart l := fun h => hl (List.mem_of_mem_drop h)
  have hpieces : ∀ rest, readFile num st (fullPart l ++ rest) =
      readFile num (readFile num st (fullPart l)) rest :=
    readFile_pieces hfull (length_fullPart l)
  calc readFile num st (l ++ 10 :: text)
      = readFile num (readFile num st (fullPart l)) (lastPart l ++ 10 :: text) := by
        rw [← hpieces, ← List.append_assoc, fullPart_append_lastPart]
    _ = readFile num (configLine num (readFile num st (fullPart l)) (lastPart l ++ [10])) text := by
        rw [readFile, fgetsLines_newline hlast (by simpa using length_lastPart l)]
        rfl
    _ = readFile num (readFile num (readFile num st (fullPart l)) (lastPart l)) text := by
        rw [configLine_newline, readFile_short hlast (length_lastPart l)]
    _ = readFile num (readFile num st l) text := by rw [← hpieces, fullPart_append_lastPart]

/-- The physical lines of a file, put together again. -/
def joinLines (lines : List (List UInt8)) : List UInt8 := [10].intercalate lines

theorem readFile_joinLines {lines : List (List UInt8)} (hlines : ∀ l ∈ lines, 10 ∉ l)
    (st : ConfigState) : readFile num st (joinLines lines) = lines.foldl (readFile num) st := by
  induction lines generalizing st with
  | nil => rfl
  | cons l lines ih =>
      have hl := hlines l List.mem_cons_self
      have hrest : ∀ l' ∈ lines, 10 ∉ l' := fun l' hl' => hlines l' (List.mem_cons_of_mem l hl')
      cases lines with
      | nil =>
          rw [joinLines, List.intercalate_singleton]
          rfl
      | cons l' lines =>
          have hjoin : joinLines (l :: l' :: lines) = l ++ 10 :: joinLines (l' :: lines) := by
            rw [joinLines, List.intercalate_cons_cons, List.append_assoc]
            rfl
          rw [hjoin, readFile_append hl, ih hrest]
          rfl

end Reading

end CodingGateway.Proofs.PhysicalLines
