import CodingGateway.Library.Stripping
import CodingGateway.Model.ConfigLoad
set_option autoImplicit false

/-!
# What an assignment stores

A value goes into a number, a `char` array or a flag, by its section and key.

* `assign_eq_iff` — a comment behind the value changes what is stored unless the field
  keeps it out;
* `clampConfig_assign_iff` — and the configuration tells.
-/

namespace CodingGateway.Proofs.ConfigFields

open CodingGateway.Model
open CodingGateway.Library.Stripping

/-- How a key's value is stored: as a number, in a `char` array, or as whether it is `true`. -/
inductive Field
  | number
  | text (size : ℕ)
  | flag
deriving DecidableEq, Repr

/-- The keys of `[general]`. -/
def generalField (key : List UInt8) : Option Field :=
  if key = chars "mode" then some (.text 7)
  else if key = chars "tun_name" then some (.text 15)
  else if key = chars "tun_addr" then some (.text 19)
  else if key = chars "listen_port" then some .number
  else if key = chars "metrics_port" then some .number
  else if key = chars "log_level" then some .number
  else if key = chars "crypto_key" then some (.text 64)
  else none

/-- The keys of `[coding]`. -/
def codingField (key : List UInt8) : Option Field :=
  if key = chars "k" then some .number
  else if key = chars "redundancy_ratio" then some .number
  else if key = chars "block_timeout_ms" then some .number
  else if key = chars "max_payload" then some .number
  else if key = chars "window_size" then some .number
  else none

/-- The keys of `[strategy]`. -/
def strategyField (key : List UInt8) : Option Field :=
  if key = chars "type" then some (.text 15)
  else if key = chars "probe_interval_ms" then some .number
  else if key = chars "probe_loss_threshold" then some .number
  else if key = chars "ewma_alpha" then some .number
  else none

/-- The keys of `[forward]`; routes past the eighth are not stored. -/
def forwardField (routes : ℕ) (key : List UInt8) : Option Field :=
  if key = chars "ip_forward" then some .flag
  else if key = chars "route" ∧ routes < 8 then some (.text 47)
  else none

def pathField (key : List UInt8) : Option Field :=
  if key = chars "interface" then some (.text 15)
  else if key = chars "remote_ip" then some (.text 39)
  else if key = chars "remote_port" then some .number
  else if key = chars "weight" then some .number
  else if key = chars "enabled" then some .flag
  else none

def fieldOf (st : ConfigState) (key : List UInt8) : Option Field :=
  if st.sectionName = chars "general" then generalField key
  else if st.sectionName = chars "coding" then codingField key
  else if st.sectionName = chars "strategy" then strategyField key
  else if st.sectionName = chars "forward" then forwardField st.cfg.forwardRouteCount key
  else if st.curPath.isSome then pathField key
  else none

/-- The field does not take in what follows the value: it holds a number, the value fills it, or
it is a flag that the value does not set. -/
def keeps (field : Option Field) (val : List UInt8) : Bool :=
  match field with
  | none => true
  | some .number => true
  | some (.text size) => decide (size ≤ val.length)
  | some .flag => decide (val ≠ chars "true")

/-- `atoi` and `atof` read no further than white space and a `#`. -/
structure StopsAtComment (num : NumberParser) : Prop where
  atoi_blank : ∀ s w c, w ≠ [] → Blank isSpace w → num.atoi (s ++ w ++ 35 :: c) = num.atoi s
  atoi_hash : ∀ c, num.atoi (35 :: c) = num.atoi []
  atof_blank : ∀ s w c, w ≠ [] → Blank isSpace w → num.atof (s ++ w ++ 35 :: c) = num.atof s
  atof_hash : ∀ c, num.atof (35 :: c) = num.atof []

/-- `val'` is `val` with a comment behind it, as the fields see it. -/
structure Commented (num : NumberParser) (val val' : List UInt8) : Prop where
  atoi : num.atoi val' = num.atoi val
  atof : num.atof val' = num.atof val
  take : ∀ n, val'.take n = val.take n ↔ n ≤ val.length
  notTrue : val' ≠ chars "true"

section Storing

variable {num : NumberParser} {val val' : List UInt8}

theorem commented_of_append (hnum : StopsAtComment num) {w c : List UInt8} (hw : Blank isSpace w)
    (hne : val ≠ [] → w ≠ []) (hnil : val = [] → w = []) :
    Commented num val (val ++ w ++ 35 :: c) where
  atoi := by
    by_cases hval : val = []
    · rw [hnil hval, hval]
      exact hnum.atoi_hash c
    · exact hnum.atoi_blank val w c (hne hval) hw
  atof := by
    by_cases hval : val = []
    · rw [hnil hval, hval]
      exact hnum.atof_hash c
    · exact hnum.atof_blank val w c (hne hval) hw
  take n := by
    rw [List.append_assoc, List.take_append]
    constructor
    · intro h
      have hlen := congrArg List.length h
      simp only [List.length_append, List.length_take, List.length_cons] at hlen
      omega
    · intro hle
      rw [Nat.sub_eq_zero_of_le hle, List.take_zero, List.append_nil]
  notTrue h := by
    have hmem : (35 : UInt8) ∈ chars "true" := by
      rw [← h]
      simp
    revert hmem
    decide

variable (hval : Commented num val val')
include hval

theorem keeps_text {size : ℕ} : keeps (some (.text size)) val = true ↔
    strncpy val' size = strncpy val size := by
  rw [keeps, decide_eq_true_iff]
  exact (hval.take size).symm

theorem keeps_flag : keeps (some .flag) val = true ↔
    (decide (val' = chars "true")) = decide (val = chars "true") := by
  rw [keeps, decide_eq_true_iff, decide_eq_false hval.notTrue, eq_comm, decide_eq_false_iff_not]

omit hval in
theorem put_eq_iff {α ρ : Type*} (put : α → ρ) (get : ρ → α) (hget : ∀ v, get (put v) = v)
    {a b : α} : put a = put b ↔ a = b :=
  (Function.LeftInverse.injective hget).eq_iff

omit hval in
theorem ite_eq_ite_iff {ρ : Type*} {c : Prop} [Decidable c] {x x' y y' : ρ} {f g : Option Field}
    (hkey : x' = x ↔ keeps f val = true) (hrest : y' = y ↔ keeps g val = true) :
    (if c then x' else y') = (if c then x else y) ↔ keeps (if c then f else g) val = true := by
  by_cases hc : c
  · rw [if_pos hc, if_pos hc, if_pos hc]
    exact hkey
  · rw [if_neg hc, if_neg hc, if_neg hc]
    exact hrest

theorem setGeneral_eq_iff (cfg : GatewayConfig) (key : List UInt8) :
    setGeneral num cfg key val' = setGeneral num cfg key val ↔
      keeps (generalField key) val = true := by
  unfold setGeneral generalField
  rw [hval.atoi]
  apply ite_eq_ite_iff
  · rw [keeps_text hval]
    exact put_eq_iff (fun v => { cfg with mode := v }) GatewayConfig.mode fun _ => rfl
  apply ite_eq_ite_iff
  · rw [keeps_text hval]
    exact put_eq_iff (fun v => { cfg with tunName := v }) GatewayConfig.tunName fun _ => rfl
  apply ite_eq_ite_iff
  · rw [keeps_text hval]
    exact put_eq_iff (fun v => { cfg with tunAddr := v }) GatewayConfig.tunAddr fun _ => rfl
  apply ite_eq_ite_iff
  · exact iff_of_true rfl rfl
  apply ite_eq_ite_iff
  · exact iff_of_true rfl rfl
  apply ite_eq_ite_iff
  · exact iff_of_true rfl rfl
  apply ite_eq_ite_iff
  · rw [keeps_text hval]
    exact put_eq_iff (fun v => { cfg with cryptoKey := v }) GatewayConfig.cryptoKey fun _ => rfl
  · exact iff_of_true rfl rfl

theorem setCoding_eq (cfg : GatewayConfig) (key : List UInt8) :
    setCoding num cfg key val' = setCoding num cfg key val := by
  unfold setCoding
  rw [hval.atoi, hval.atof]

omit hval in
theorem keeps_codingField (key : List UInt8) : keeps (codingField key) val = true := by
  unfold codingField
  split_ifs
  · rfl
  · rfl
  · rfl
  · rfl
  · rfl
  · rfl

theorem setStrategy_eq_iff (cfg : GatewayConfig) (key : List UInt8) :
    setStrategy num cfg key val' = setStrategy num cfg key val ↔
      keeps (strategyField key) val = true := by
  unfold setStrategy strategyField
  rw [hval.atoi, hval.atof]
  apply ite_eq_ite_iff
  · rw [keeps_text hval]
    exact put_eq_iff (fun v => { cfg with strategyType := v }) GatewayConfig.strategyType
      fun _ => rfl
  apply ite_eq_ite_iff
  · exact iff_of_true rfl rfl
  apply ite_eq_ite_iff
  · exact iff_of_true rfl rfl
  apply ite_eq_ite_iff
  · exact iff_of_true rfl rfl
  · exact iff_of_true rfl rfl

theorem setForward_eq_iff (cfg : GatewayConfig) (key : List UInt8) :
    setForward cfg key val' = setForward cfg key val ↔
      keeps (forwardField cfg.forwardRouteCount key) val = true := by
  unfold setForward forwardField
  apply ite_eq_ite_iff
  · rw [keeps_flag hval]
    exact put_eq_iff (fun v => { cfg with ipForward := v }) GatewayConfig.ipForward fun _ => rfl
  apply ite_eq_ite_iff
  · rw [keeps_text hval]
    exact put_eq_iff
      (fun v => { cfg with
        forwardRoutes := Function.update cfg.forwardRoutes cfg.forwardRouteCount v
        forwardRouteCount := cfg.forwardRouteCount + 1 })
      (fun stored => stored.forwardRoutes cfg.forwardRouteCount) fun _ => Function.update_self ..
  · exact iff_of_true rfl rfl

theorem setPath_eq_iff (p : PathConfig) (key : List UInt8) :
    setPath num p key val' = setPath num p key val ↔ keeps (pathField key) val = true := by
  unfold setPath pathField
  rw [hval.atoi, hval.atof]
  apply ite_eq_ite_iff
  · rw [keeps_text hval]
    exact put_eq_iff (fun v => { p with interface := v }) PathConfig.interface fun _ => rfl
  apply ite_eq_ite_iff
  · rw [keeps_text hval]
    exact put_eq_iff (fun v => { p with remoteIp := v }) PathConfig.remoteIp fun _ => rfl
  apply ite_eq_ite_iff
  · exact iff_of_true rfl rfl
  apply ite_eq_ite_iff
  · exact iff_of_true rfl rfl
  apply ite_eq_ite_iff
  · rw [keeps_flag hval]
    exact put_eq_iff (fun v => { p with enabled := v }) PathConfig.enabled fun _ => rfl
  · exact iff_of_true rfl rfl

/-- The comment leaves an assignment alone exactly if the field keeps it out. -/
theorem assign_eq_iff (st : ConfigState) (key : List UInt8) :
    assign num st key val' = assign num st key val ↔ keeps (fieldOf st key) val = true := by
  unfold assign fieldOf
  split_ifs with hgeneral hcoding hstrategy hforward hcur
  · simp only [ConfigState.mk.injEq, and_true]
    exact setGeneral_eq_iff hval st.cfg key
  · rw [setCoding_eq hval]
    exact iff_of_true rfl (keeps_codingField key)
  · simp only [ConfigState.mk.injEq, and_true]
    exact setStrategy_eq_iff hval st.cfg key
  · simp only [ConfigState.mk.injEq, and_true]
    exact setForward_eq_iff hval st.cfg key
  · obtain ⟨i, hpath⟩ := Option.isSome_iff_exists.mp hcur
    simp only [hpath, ConfigState.mk.injEq, GatewayConfig.mk.injEq, true_and, and_true]
    rw [(Function.update_injective st.cfg.paths i).eq_iff]
    exact setPath_eq_iff hval (st.cfg.paths i) key
  · rw [Option.not_isSome_iff_eq_none.mp hcur]
    exact iff_of_true rfl rfl

end Storing

def numbers (cfg : GatewayConfig) : ℤ × ℤ × ℤ := (cfg.k, cfg.windowSize, cfg.maxPayload)

theorem numbers_ite {c : Prop} [Decidable c] {cfg a b : GatewayConfig}
    (ha : numbers a = numbers cfg) (hb : numbers b = numbers cfg) :
    numbers (if c then a else b) = numbers cfg := by
  by_cases hc : c
  · rw [if_pos hc]
    exact ha
  · rw [if_neg hc]
    exact hb

/-- What the final clamps change is not text. -/
theorem numbers_assign {num : NumberParser} {val val' : List UInt8}
    (hval : Commented num val val') (st : ConfigState) (key : List UInt8) :
    numbers (assign num st key val').cfg = numbers (assign num st key val).cfg := by
  have hgeneral (v : List UInt8) : numbers (setGeneral num st.cfg key v) = numbers st.cfg :=
    numbers_ite rfl <| numbers_ite rfl <| numbers_ite rfl <| numbers_ite rfl <|
      numbers_ite rfl <| numbers_ite rfl <| numbers_ite rfl rfl
  have hstrategy (v : List UInt8) : numbers (setStrategy num st.cfg key v) = numbers st.cfg :=
    numbers_ite rfl <| numbers_ite rfl <| numbers_ite rfl <| numbers_ite rfl rfl
  have hforward (v : List UInt8) : numbers (setForward st.cfg key v) = numbers st.cfg :=
    numbers_ite rfl <| numbers_ite rfl rfl
  unfold assign
  split_ifs
  · exact (hgeneral val').trans (hgeneral val).symm
  · rw [setCoding_eq hval]
  · exact (hstrategy val').trans (hstrategy val).symm
  · exact (hforward val').trans (hforward val).symm
  · cases st.curPath with
    | none => rfl
    | some i => rfl

theorem eq_of_clampConfig {a b : GatewayConfig} (hnumbers : numbers a = numbers b)
    (h : clampConfig a = clampConfig b) : a = b := by
  cases a
  cases b
  simp_all [clampConfig, numbers]

theorem assign_section (num : NumberParser) (st : ConfigState) (key val : List UInt8) :
    (assign num st key val).sectionName = st.sectionName ∧
      (assign num st key val).curPath = st.curPath := by
  unfold assign
  split_ifs
  · exact ⟨rfl, rfl⟩
  · exact ⟨rfl, rfl⟩
  · exact ⟨rfl, rfl⟩
  · exact ⟨rfl, rfl⟩
  · split
    · exact ⟨rfl, rfl⟩
    · exact ⟨rfl, rfl⟩

theorem clampConfig_assign_iff {num : NumberParser} {val val' : List UInt8}
    (hval : Commented num val val') (st : ConfigState) (key : List UInt8) :
    clampConfig (assign num st key val').cfg = clampConfig (assign num st key val).cfg ↔
      keeps (fieldOf st key) val = true := by
  rw [← assign_eq_iff hval]
  constructor
  · intro h
    have hcfg := eq_of_clampConfig (numbers_assign hval st key) h
    have hsection := assign_section num st key val
    have hsection' := assign_section num st key val'
    rw [ConfigState.mk.injEq]
    exact ⟨hcfg, hsection'.1.trans hsection.1.symm, hsection'.2.trans hsection.2.symm⟩
  · intro h
    rw [h]

theorem fieldOf_of_hash (st : ConfigState) {key : List UInt8} (h : 35 ∈ key) :
    fieldOf st key = none := by
  have hne : ∀ s, 35 ∉ chars s → key ≠ chars s := fun s hs heq => hs (heq ▸ h)
  unfold fieldOf
  split_ifs
  · rw [generalField, if_neg (hne "mode" (by decide)), if_neg (hne "tun_name" (by decide)),
      if_neg (hne "tun_addr" (by decide)), if_neg (hne "listen_port" (by decide)),
      if_neg (hne "metrics_port" (by decide)), if_neg (hne "log_level" (by decide)),
      if_neg (hne "crypto_key" (by decide))]
  · rw [codingField, if_neg (hne "k" (by decide)), if_neg (hne "redundancy_ratio" (by decide)),
      if_neg (hne "block_timeout_ms" (by decide)), if_neg (hne "max_payload" (by decide)),
      if_neg (hne "window_size" (by decide))]
  · rw [strategyField, if_neg (hne "type" (by decide)),
      if_neg (hne "probe_interval_ms" (by decide)), if_neg (hne "probe_loss_threshold" (by decide)),
      if_neg (hne "ewma_alpha" (by decide))]
  · rw [forwardField, if_neg (hne "ip_forward" (by decide)),
      if_neg fun hroute => hne "route" (by decide) hroute.1]
  · rw [pathField, if_neg (hne "interface" (by decide)), if_neg (hne "remote_ip" (by decide)),
      if_neg (hne "remote_port" (by decide)), if_neg (hne "weight" (by decide)),
      if_neg (hne "enabled" (by decide))]
  · rfl

theorem ite_of_none {ρ : Type*} {c : Prop} [Decidable c] {f : Field} {g : Option Field}
    {x y z : ρ} (hrest : g = none → y = z) (h : (if c then some f else g) = none) :
    (if c then x else y) = z := by
  by_cases hc : c
  · rw [if_pos hc] at h
    cases h
  · rw [if_neg hc] at h ⊢
    exact hrest h

theorem assign_of_no_field (num : NumberParser) {st : ConfigState} {key : List UInt8}
    (h : fieldOf st key = none) (val : List UInt8) : assign num st key val = st := by
  have hgeneral : generalField key = none → setGeneral num st.cfg key val = st.cfg :=
    ite_of_none <| ite_of_none <| ite_of_none <| ite_of_none <| ite_of_none <| ite_of_none <|
      ite_of_none fun _ => rfl
  have hcoding : codingField key = none → setCoding num st.cfg key val = st.cfg :=
    ite_of_none <| ite_of_none <| ite_of_none <| ite_of_none <| ite_of_none fun _ => rfl
  have hstrategy : strategyField key = none → setStrategy num st.cfg key val = st.cfg :=
    ite_of_none <| ite_of_none <| ite_of_none <| ite_of_none fun _ => rfl
  have hforward : forwardField st.cfg.forwardRouteCount key = none →
      setForward st.cfg key val = st.cfg :=
    ite_of_none <| ite_of_none fun _ => rfl
  have hpath (p : PathConfig) : pathField key = none → setPath num p key val = p :=
    ite_of_none <| ite_of_none <| ite_of_none <| ite_of_none <| ite_of_none fun _ => rfl
  unfold fieldOf at h
  unfold assign
  split_ifs at h ⊢ with _ _ _ _ hcur
  · rw [hgeneral h]
  · rw [hcoding h]
  · rw [hstrategy h]
  · rw [hforward h]
  · obtain ⟨i, hi⟩ := Option.isSome_iff_exists.mp hcur
    rw [hi]
    dsimp only
    rw [hpath (st.cfg.paths i) h, Function.update_eq_self, ← hi]
  · rw [Option.not_isSome_iff_eq_none.mp hcur]

end CodingGateway.Proofs.ConfigFields
