import CodingGateway.Library.Printf
import Mathlib.Data.List.DropRight
set_option autoImplicit false

/-!
# Samples in a text, and a text in a message

A sample is a line that ends with a blank and a value; a message is a header of lines that end
with CR LF, an empty line and a body.

* `readSamples_render` — samples are read back from their lines;
* `readMessage_message` — a header and a body are read back from a message.
-/

namespace CodingGateway.Library.Exposition

open CodingGateway.Library.Printf

/-! ## Samples -/

/-- A series and the text of its value. -/
structure Sample where
  series : List UInt8
  value : List UInt8
deriving DecidableEq, Repr

/-- The line of a sample. -/
def Sample.line (s : Sample) : List UInt8 := s.series ++ 32 :: (s.value ++ [10])

def render (samples : List Sample) : List UInt8 := (samples.map Sample.line).flatten

/-- The last blank of a line separates the series from the value. -/
def readLine (text : List UInt8) : Option Sample :=
  if 32 ∈ text then
    some ⟨(text.rdropWhile (· ≠ 32)).dropLast, text.rtakeWhile (· ≠ 32)⟩
  else none

/-- Every line is a sample, and the last one ends with a newline. -/
def readSamples (text : List UInt8) : Option (List Sample) :=
  (text.splitOn 10).dropLast.mapM readLine

/-- The number that digits stand for. -/
def ofDecimal (text : List UInt8) : ℕ :=
  Nat.ofDigitChars 10 (text.map fun c => Char.ofNat c.toNat) 0

theorem ofDecimal_decimal (n : ℕ) : ofDecimal (decimal n) = n := by
  rw [ofDecimal, toDigits_of_decimal]
  exact Nat.ofDigitChars_ten_toDigits

/-- A sample that its line does not hide. -/
structure Sample.Plain (s : Sample) : Prop where
  series : 10 ∉ s.series
  value : 10 ∉ s.value
  blank : 32 ∉ s.value

theorem readLine_eq {s : Sample} (h : 32 ∉ s.value) :
    readLine (s.series ++ 32 :: s.value) = some s := by
  have hmem : (32 : UInt8) ∈ s.series ++ 32 :: s.value := by simp
  have hvalue : ∀ c ∈ s.value.reverse, decide (c ≠ 32) = true := by
    intro c hc
    rw [decide_eq_true_iff]
    rintro rfl
    exact h (List.mem_reverse.mp hc)
  have hreverse : (s.series ++ 32 :: s.value).reverse =
      s.value.reverse ++ 32 :: s.series.reverse := by
    simp
  have hdrop : (s.series ++ 32 :: s.value).rdropWhile (· ≠ 32) = s.series ++ [32] := by
    rw [List.rdropWhile, hreverse, List.dropWhile_append_of_pos hvalue]
    simp
  have htake : (s.series ++ 32 :: s.value).rtakeWhile (· ≠ 32) = s.value := by
    rw [List.rtakeWhile, hreverse, List.takeWhile_append_of_pos hvalue]
    simp
  rw [readLine, if_pos hmem, hdrop, htake, List.dropLast_concat]

theorem splitOn_render {samples : List Sample} (h : ∀ s ∈ samples, s.Plain) :
    (render samples).splitOn 10 = samples.map (fun s => s.series ++ 32 :: s.value) ++ [[]] := by
  induction samples with
  | nil => rfl
  | cons s samples ih =>
      have hplain := h s List.mem_cons_self
      have hline : 10 ∉ s.series ++ 32 :: s.value := by
        simp [hplain.series, hplain.value]
      have hrest := ih fun t ht => h t (List.mem_cons_of_mem s ht)
      calc (render (s :: samples)).splitOn 10
          = ((s.series ++ 32 :: s.value) ++ 10 :: render samples).splitOn 10 := by
            simp [render, Sample.line]
        _ = (s.series ++ 32 :: s.value) :: (render samples).splitOn 10 :=
            List.splitOn_append_cons_self_of_not_mem hline _
        _ = _ := by rw [hrest]; rfl

theorem mapM_readLine {samples : List Sample} (h : ∀ s ∈ samples, s.Plain) :
    (samples.map fun s => s.series ++ 32 :: s.value).mapM readLine = some samples := by
  induction samples with
  | nil => rfl
  | cons s samples ih =>
      have hrest := ih fun t ht => h t (List.mem_cons_of_mem s ht)
      rw [List.map_cons, List.mapM_cons, readLine_eq (h s List.mem_cons_self).blank, hrest]
      rfl

/-- **Samples are read back.** -/
theorem readSamples_render {samples : List Sample} (h : ∀ s ∈ samples, s.Plain) :
    readSamples (render samples) = some samples := by
  rw [readSamples, splitOn_render h, List.dropLast_concat, mapM_readLine h]

/-! ## Messages -/

/-- A header line with its end. -/
def headerLine (line : List UInt8) : List UInt8 := line ++ [13, 10]

/-- A header, an empty line and a body. -/
def message (header : List (List UInt8)) (body : List UInt8) : List UInt8 :=
  (header.map headerLine).flatten ++ [13, 10] ++ body

/-- The lines up to the first empty one, and all behind it. -/
def readMessage (text : List UInt8) : List (List UInt8) × List UInt8 :=
  let lines := text.splitOn 10
  ((lines.takeWhile (· ≠ [13])).map List.dropLast,
    [10].intercalate ((lines.dropWhile (· ≠ [13])).drop 1))

/-- What a header says behind the name of a field. -/
def fieldValue (name : List UInt8) (header : List (List UInt8)) : Option (List UInt8) :=
  header.findSome? fun line =>
    if name.isPrefixOf line then some (line.drop name.length) else none

theorem splitOn_message {header : List (List UInt8)} (h : ∀ line ∈ header, 10 ∉ line)
    (body : List UInt8) :
    (message header body).splitOn 10 =
      header.map (fun line => line ++ [13]) ++ [13] :: body.splitOn 10 := by
  induction header with
  | nil =>
      have hempty : (10 : UInt8) ∉ [13] := by decide
      exact List.splitOn_append_cons_self_of_not_mem hempty body
  | cons line header ih =>
      have hline : 10 ∉ line ++ [13] := by simp [h line List.mem_cons_self]
      have hrest := ih fun l hl => h l (List.mem_cons_of_mem line hl)
      calc (message (line :: header) body).splitOn 10
          = ((line ++ [13]) ++ 10 :: message header body).splitOn 10 := by
            simp [message, headerLine]
        _ = (line ++ [13]) :: (message header body).splitOn 10 :=
            List.splitOn_append_cons_self_of_not_mem hline _
        _ = _ := by rw [hrest]; rfl

/-- **A message is read back.** -/
theorem readMessage_message {header : List (List UInt8)}
    (h : ∀ line ∈ header, 10 ∉ line ∧ line ≠ []) (body : List UInt8) :
    readMessage (message header body) = (header, body) := by
  have hpass : ∀ line ∈ header.map fun line => line ++ [13], decide (line ≠ [13]) = true := by
    intro line hline
    obtain ⟨l, hl, rfl⟩ := List.mem_map.mp hline
    rw [decide_eq_true_iff]
    intro hempty
    exact (h l hl).2 (by simpa using hempty)
  rw [readMessage, splitOn_message fun line hline => (h line hline).1]
  rw [List.takeWhile_append_of_pos hpass, List.dropWhile_append_of_pos hpass]
  have hstop : decide (([13] : List UInt8) ≠ [13]) = false := by decide
  rw [List.takeWhile_cons_of_neg (by rw [hstop]; exact Bool.false_ne_true),
    List.dropWhile_cons_of_neg (by rw [hstop]; exact Bool.false_ne_true), List.append_nil,
    List.map_map, List.drop_one, List.tail_cons, List.intercalate_splitOn]
  have hlines : header.map (List.dropLast ∘ fun line => line ++ [13]) = header := by
    simp [Function.comp_def]
  rw [hlines]

end CodingGateway.Library.Exposition
