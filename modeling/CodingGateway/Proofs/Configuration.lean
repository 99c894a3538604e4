import CodingGateway.Model.ConfigLoad
set_option autoImplicit false

/-!
# The bounds of a loaded configuration

* `bounds_of_configLoad` — whatever the file holds, the sizes that index arrays are in
  their ranges.
-/

namespace CodingGateway.Proofs.Configuration

open CodingGateway.Model

theorem clamp_mem {lo hi v : ℤ} (h : lo ≤ hi) : lo ≤ clamp lo hi v ∧ clamp lo hi v ≤ hi := by
  unfold clamp
  dsimp only
  split_ifs <;> omega

/-- The sizes by which the program indexes its arrays. -/
structure Bounded (cfg : GatewayConfig) : Prop where
  k : 1 ≤ cfg.k ∧ cfg.k ≤ maxK
  windowSize : 1 ≤ cfg.windowSize ∧ cfg.windowSize ≤ maxWindow
  maxPayload : 1 ≤ cfg.maxPayload ∧ cfg.maxPayload ≤ Model.maxPayload
  pathCount : cfg.pathCount ≤ maxPaths

theorem pathCount_openSection {st : ConfigState} (h : st.cfg.pathCount ≤ maxPaths)
    (p : List UInt8) : (openSection st p).cfg.pathCount ≤ maxPaths := by
  unfold openSection
  dsimp only
  split_ifs with hend hpath hfull
  · exact h
  · exact Nat.not_le.mp hfull
  · exact h
  · exact h

theorem pathCount_assign (num : NumberParser) (st : ConfigState) (key val : List UInt8) :
    (assign num st key val).cfg.pathCount = st.cfg.pathCount := by
  unfold assign
  split_ifs
  · unfold setGeneral
    split_ifs <;> rfl
  · unfold setCoding
    split_ifs <;> rfl
  · unfold setStrategy
    split_ifs <;> rfl
  · unfold setForward
    split_ifs <;> rfl
  · cases st.curPath <;> rfl

theorem pathCount_configLine {num : NumberParser} {st : ConfigState}
    (h : st.cfg.pathCount ≤ maxPaths) (line : List UInt8) :
    (configLine num st line).cfg.pathCount ≤ maxPaths := by
  unfold configLine
  cases trim (cString line) with
  | nil => exact h
  | cons c rest =>
      dsimp only
      split_ifs
      · exact h
      · exact pathCount_openSection h rest
      · rw [pathCount_assign]
        exact h
      · exact h

theorem pathCount_lines {num : NumberParser} {st : ConfigState}
    (h : st.cfg.pathCount ≤ maxPaths) (lines : List (List UInt8)) :
    (lines.foldl (configLine num) st).cfg.pathCount ≤ maxPaths := by
  induction lines generalizing st with
  | nil => exact h
  | cons line lines ih => exact ih (pathCount_configLine h line)

theorem bounds_of_configLoad {num : NumberParser} {file : Option (List UInt8)}
    {cfg : GatewayConfig} (h : configLoad num file = some cfg) : Bounded cfg := by
  cases file with
  | none => cases h
  | some file =>
      cases h
      exact ⟨clamp_mem (by decide), clamp_mem (by decide), clamp_mem (by decide),
        pathCount_lines (Nat.zero_le _) _⟩

end CodingGateway.Proofs.Configuration
