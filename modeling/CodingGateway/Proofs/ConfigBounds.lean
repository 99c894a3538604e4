import CodingGateway.Model.CheckedConfig
import CodingGateway.Proofs.Configuration
set_option autoImplicit false

/-!
# The bounds of the configuration record

No line of any file makes `config_load` write outside of the record, and every string in it
ends inside its array.

* `checkedConfigLine_is` — a line on the arrays and on the strings they hold;
* `checkedConfigLine_of_extraPath` — a section past the last path changes nothing;
* `configLoad_bounded` — the record after a whole file.
-/

namespace CodingGateway.Proofs.ConfigBounds

open CodingGateway.Model
open CodingGateway.Library
open CodingGateway.Library.CharArray (Holds)
open CodingGateway.Proofs.Configuration

variable {val : List UInt8} {a : ConfigArrays} {c : GatewayConfig}

/-- The arrays of a path hold its strings. -/
structure PathIs (a : PathArrays) (c : PathConfig) : Prop where
  name : Holds nameSize a.name c.name
  interface : Holds interfaceSize a.interface c.interface
  remoteIp : Holds remoteIpSize a.remoteIp c.remoteIp
  remotePort : a.remotePort = c.remotePort
  weight : a.weight = c.weight
  enabled : a.enabled = c.enabled

/-- The arrays of the record hold its strings, the counts are in their ranges, and the routes
not yet read are empty. -/
structure ConfigIs (a : ConfigArrays) (c : GatewayConfig) : Prop where
  mode : Holds modeSize a.mode c.mode
  tunName : Holds tunNameSize a.tunName c.tunName
  tunAddr : Holds tunAddrSize a.tunAddr c.tunAddr
  k : a.k = c.k
  redundancyRatio : a.redundancyRatio = c.redundancyRatio
  blockTimeoutMs : a.blockTimeoutMs = c.blockTimeoutMs
  maxPayload : a.maxPayload = c.maxPayload
  windowSize : a.windowSize = c.windowSize
  strategyType : Holds strategyTypeSize a.strategyType c.strategyType
  probeIntervalMs : a.probeIntervalMs = c.probeIntervalMs
  probeLossThreshold : a.probeLossThreshold = c.probeLossThreshold
  ewmaAlpha : a.ewmaAlpha = c.ewmaAlpha
  listenPort : a.listenPort = c.listenPort
  paths : ∀ i < maxPaths, PathIs (a.paths i) (c.paths i)
  pathCount : a.pathCount = c.pathCount
  pathCount_le : c.pathCount ≤ maxPaths
  metricsPort : a.metricsPort = c.metricsPort
  logLevel : a.logLevel = c.logLevel
  cryptoKey : Holds cryptoKeySize a.cryptoKey c.cryptoKey
  ipForward : a.ipForward = c.ipForward
  forwardRoutes : ∀ i < maxRoutes, Holds routeSize (a.forwardRoutes i) (c.forwardRoutes i)
  forwardRouteCount : a.forwardRouteCount = c.forwardRouteCount
  forwardRouteCount_le : c.forwardRouteCount ≤ maxRoutes
  unread : ∀ i, c.forwardRouteCount ≤ i → c.forwardRoutes i = []

/-! ## Single assignments -/

theorem copyString_eq {size : ℕ} {dst : Bytes} {s : List UInt8} (h : Holds size dst s)
    (hval : 0 ∉ val) :
    ∃ dst', copyString size dst val = some dst' ∧ Holds size dst' (strncpy val (size - 1)) :=
  CharArray.strncpy_eq h hval

theorem ite_is {α β : Type*} (R : α → β → Prop) {key : Prop} [Decidable key] {x y : Option α}
    {u v : β} (hkey : ∃ a', x = some a' ∧ R a' u) (hrest : ∃ a', y = some a' ∧ R a' v) :
    ∃ a', (if key then x else y) = some a' ∧ R a' (if key then u else v) := by
  by_cases hk : key
  · rw [if_pos hk, if_pos hk]
    exact hkey
  · rw [if_neg hk, if_neg hk]
    exact hrest

theorem checkedSetGeneral_is (num : NumberParser) (key : List UInt8) (h : ConfigIs a c)
    (hval : 0 ∉ val) :
    ∃ a', checkedSetGeneral num a key val = some a' ∧ ConfigIs a' (setGeneral num c key val) := by
  unfold checkedSetGeneral setGeneral
  apply ite_is ConfigIs
  · obtain ⟨mode, hcopy, hholds⟩ := copyString_eq h.mode hval
    rw [hcopy]
    exact ⟨_, rfl, { h with mode := hholds }⟩
  apply ite_is ConfigIs
  · obtain ⟨tunName, hcopy, hholds⟩ := copyString_eq h.tunName hval
    rw [hcopy]
    exact ⟨_, rfl, { h with tunName := hholds }⟩
  apply ite_is ConfigIs
  · obtain ⟨tunAddr, hcopy, hholds⟩ := copyString_eq h.tunAddr hval
    rw [hcopy]
    exact ⟨_, rfl, { h with tunAddr := hholds }⟩
  apply ite_is ConfigIs
  · exact ⟨_, rfl, { h with listenPort := rfl }⟩
  apply ite_is ConfigIs
  · exact ⟨_, rfl, { h with metricsPort := rfl }⟩
  apply ite_is ConfigIs
  · exact ⟨_, rfl, { h with logLevel := rfl }⟩
  apply ite_is ConfigIs
  · obtain ⟨cryptoKey, hcopy, hholds⟩ := copyString_eq h.cryptoKey hval
    rw [hcopy]
    exact ⟨_, rfl, { h with cryptoKey := hholds }⟩
  · exact ⟨a, rfl, h⟩

theorem setCodingArrays_is (num : NumberParser) (key val : List UInt8) (h : ConfigIs a c) :
    ConfigIs (setCodingArrays num a key val) (setCoding num c key val) := by
  unfold setCodingArrays setCoding
  split_ifs
  · exact { h with k := rfl }
  · exact { h with redundancyRatio := rfl }
  · exact { h with blockTimeoutMs := rfl }
  · exact { h with maxPayload := rfl }
  · exact { h with windowSize := rfl }
  · exact h

theorem checkedSetStrategy_is (num : NumberParser) (key : List UInt8) (h : ConfigIs a c)
    (hval : 0 ∉ val) :
    ∃ a', checkedSetStrategy num a key val = some a' ∧
      ConfigIs a' (setStrategy num c key val) := by
  unfold checkedSetStrategy setStrategy
  apply ite_is ConfigIs
  · obtain ⟨strategyType, hcopy, hholds⟩ := copyString_eq h.strategyType hval
    rw [hcopy]
    exact ⟨_, rfl, { h with strategyType := hholds }⟩
  apply ite_is ConfigIs
  · exact ⟨_, rfl, { h with probeIntervalMs := rfl }⟩
  apply ite_is ConfigIs
  · exact ⟨_, rfl, { h with probeLossThreshold := rfl }⟩
  apply ite_is ConfigIs
  · exact ⟨_, rfl, { h with ewmaAlpha := rfl }⟩
  · exact ⟨a, rfl, h⟩

theorem copied_length (size : ℕ) (s : List UInt8) :
    (if size ≤ s.length then size - 1 else s.length) = min s.length (size - 1) := by
  split_ifs <;> omega

theorem checkedSetForward_is (key : List UInt8) (h : ConfigIs a c) (hval : 0 ∉ val) :
    ∃ a', checkedSetForward a key val = some a' ∧ ConfigIs a' (setForward c key val) := by
  unfold checkedSetForward setForward
  by_cases hforward : key = chars "ip_forward"
  · rw [if_pos hforward, if_pos hforward]
    exact ⟨_, rfl, { h with ipForward := rfl }⟩
  rw [if_neg hforward, if_neg hforward, h.forwardRouteCount]
  by_cases hroute : key = chars "route" ∧ c.forwardRouteCount < 8
  · have hlt : c.forwardRouteCount < maxRoutes := hroute.2
    have hempty := h.forwardRoutes _ hlt
    rw [h.unread _ (Nat.le_refl _)] at hempty
    obtain ⟨route, hcopy, hholds⟩ := CharArray.copyTerminated_eq hempty hval
    have hlen : (if routeSize ≤ val.length then 47 else val.length) =
        min val.length (routeSize - 1) := copied_length routeSize val
    rw [if_pos hroute, if_pos hroute, BoundedArray.load_of_lt hlt, hlen]
    simp only [Option.bind_eq_bind, Option.bind_some, hcopy, BoundedArray.store_of_lt hlt]
    refine ⟨_, rfl, { h with
      forwardRoutes := fun i hi => ?_
      forwardRouteCount := rfl
      forwardRouteCount_le := hlt
      unread := fun i hi => ?_ }⟩
    · dsimp only
      by_cases hat : i = c.forwardRouteCount
      · rw [hat, Function.update_self, Function.update_self]
        exact hholds
      · rw [Function.update_of_ne hat, Function.update_of_ne hat]
        exact h.forwardRoutes i hi
    · have hi' : c.forwardRouteCount + 1 ≤ i := hi
      dsimp only
      rw [Function.update_of_ne (by omega)]
      exact h.unread i (by omega)
  · rw [if_neg hroute, if_neg hroute]
    exact ⟨a, rfl, h⟩

theorem checkedSetPath_is (num : NumberParser) (key : List UInt8) {p : PathArrays} {q : PathConfig}
    (h : PathIs p q) (hval : 0 ∉ val) :
    ∃ p', checkedSetPath num p key val = some p' ∧ PathIs p' (setPath num q key val) := by
  unfold checkedSetPath setPath
  apply ite_is PathIs
  · obtain ⟨interface, hcopy, hholds⟩ := copyString_eq h.interface hval
    rw [hcopy]
    exact ⟨_, rfl, { h with interface := hholds }⟩
  apply ite_is PathIs
  · obtain ⟨remoteIp, hcopy, hholds⟩ := copyString_eq h.remoteIp hval
    rw [hcopy]
    exact ⟨_, rfl, { h with remoteIp := hholds }⟩
  apply ite_is PathIs
  · exact ⟨_, rfl, { h with remotePort := rfl }⟩
  apply ite_is PathIs
  · exact ⟨_, rfl, { h with weight := rfl }⟩
  apply ite_is PathIs
  · exact ⟨_, rfl, { h with enabled := rfl }⟩
  · exact ⟨p, rfl, h⟩

/-! ## Lines -/

theorem mem_of_mem_trim {s : List UInt8} {x : UInt8} (h : x ∈ trim s) : x ∈ s :=
  (List.dropWhile_suffix isSpace).mem ((List.rdropWhile_prefix isSpace _).mem h)

/-- What the string functions see of a line has no NUL in it. -/
theorem zero_notMem_cString (line : List UInt8) : 0 ∉ cString line := by
  intro hmem
  have hne := List.mem_takeWhile_imp hmem
  exact absurd hne (by decide)

/-- The variables of the two loaders agree, and `cur_path` points into the array. -/
structure StateIs (a : ArraysState) (st : ConfigState) : Prop where
  cfg : ConfigIs a.cfg st.cfg
  sectionName : a.sectionName = st.sectionName
  curPath : a.curPath = st.curPath
  curPath_lt : ∀ i, st.curPath = some i → i < maxPaths

theorem ConfigIs.update_path (h : ConfigIs a c) {i : ℕ} {p : PathArrays} {q : PathConfig}
    (hp : PathIs p q) :
    ∀ j < maxPaths, PathIs (Function.update a.paths i p j) (Function.update c.paths i q j) := by
  intro j hj
  by_cases hat : j = i
  · rw [hat, Function.update_self, Function.update_self]
    exact hp
  · rw [Function.update_of_ne hat, Function.update_of_ne hat]
    exact h.paths j hj

theorem checkedOpenSection_is {st : ConfigState} {b : ArraysState} (h : StateIs b st)
    {p : List UInt8} (hp : 0 ∉ p) :
    ∃ b', checkedOpenSection b p = some b' ∧ StateIs b' (openSection st p) := by
  obtain ⟨a, sectionName, curPath⟩ := b
  obtain ⟨c, _, _⟩ := st
  obtain ⟨hcfg, ⟨⟩, ⟨⟩, hcur⟩ := h
  unfold checkedOpenSection openSection
  by_cases hend : 93 ∈ p
  · rw [if_pos hend, if_pos hend]
    dsimp only
    generalize hname : (trim (p.takeWhile (· ≠ 93))).take 63 = name
    have hnul : 0 ∉ name := by
      rw [← hname]
      intro hmem
      exact hp ((List.takeWhile_prefix _).mem (mem_of_mem_trim (List.mem_of_mem_take hmem)))
    by_cases hpath : (chars "path.").isPrefixOf name = true
    · have hcount : a.pathCount = c.pathCount := hcfg.pathCount
      rw [if_pos hpath, if_pos hpath, hcount]
      by_cases hfull : maxPaths ≤ c.pathCount
      · rw [if_pos hfull, if_pos hfull]
        exact ⟨_, rfl, hcfg, rfl, rfl, fun i hi => by cases hi⟩
      · have hlt : c.pathCount < maxPaths := Nat.not_le.mp hfull
        have hlabel : 0 ∉ name.drop 5 := fun hmem => hnul (List.mem_of_mem_drop hmem)
        obtain ⟨label, hcopy, hholds⟩ := CharArray.copyTerminated_eq
          (CharArray.holds_zero (by decide : 0 < nameSize)) hlabel
        have hpath' : PathIs { zeroPathArrays with weight := 1, enabled := true, name := label }
            { zeroPathConfig with
              weight := 1, enabled := true, name := (name.drop 5).take 31 } :=
          ⟨hholds, CharArray.holds_zero (by decide), CharArray.holds_zero (by decide), rfl, rfl,
            rfl⟩
        rw [if_neg hfull, if_neg hfull, copied_length nameSize (name.drop 5)]
        have hcopy' : CharArray.copyTerminated nameSize zeroPathArrays.name (name.drop 5)
            (min (name.drop 5).length (nameSize - 1)) = some label := hcopy
        simp only [Option.bind_eq_bind, Option.bind_some, hcopy', BoundedArray.store_of_lt hlt]
        refine ⟨_, rfl, ⟨{ hcfg with
          paths := hcfg.update_path hpath'
          pathCount := rfl
          pathCount_le := hlt }, rfl, rfl, fun i hi => ?_⟩⟩
        cases hi
        exact hlt
    · rw [if_neg hpath, if_neg hpath]
      exact ⟨_, rfl, hcfg, rfl, rfl, fun i hi => by cases hi⟩
  · rw [if_neg hend, if_neg hend]
    exact ⟨_, rfl, hcfg, rfl, rfl, hcur⟩

theorem checkedAssign_is (num : NumberParser) (key : List UInt8) {st : ConfigState}
    {b : ArraysState} (h : StateIs b st) (hval : 0 ∉ val) :
    ∃ b', checkedAssign num b key val = some b' ∧ StateIs b' (assign num st key val) := by
  obtain ⟨a, sectionName, curPath⟩ := b
  obtain ⟨c, _, _⟩ := st
  obtain ⟨hcfg, ⟨⟩, ⟨⟩, hcur⟩ := h
  unfold checkedAssign assign
  split_ifs
  · obtain ⟨cfg, hset, hcfg'⟩ := checkedSetGeneral_is num key hcfg hval
    simp only [Option.bind_eq_bind, hset, Option.bind_some]
    exact ⟨_, rfl, hcfg', rfl, rfl, hcur⟩
  · exact ⟨_, rfl, setCodingArrays_is num key val hcfg, rfl, rfl, hcur⟩
  · obtain ⟨cfg, hset, hcfg'⟩ := checkedSetStrategy_is num key hcfg hval
    simp only [Option.bind_eq_bind, hset, Option.bind_some]
    exact ⟨_, rfl, hcfg', rfl, rfl, hcur⟩
  · obtain ⟨cfg, hset, hcfg'⟩ := checkedSetForward_is key hcfg hval
    simp only [Option.bind_eq_bind, hset, Option.bind_some]
    exact ⟨_, rfl, hcfg', rfl, rfl, hcur⟩
  · cases curPath with
    | none => exact ⟨_, rfl, hcfg, rfl, rfl, hcur⟩
    | some i =>
        have hlt : i < maxPaths := hcur i rfl
        obtain ⟨path, hset, hpath⟩ := checkedSetPath_is num key (hcfg.paths i hlt) hval
        simp only [BoundedArray.load_of_lt hlt, Option.bind_eq_bind, Option.bind_some, hset,
          BoundedArray.store_of_lt hlt]
        exact ⟨_, rfl, { hcfg with paths := hcfg.update_path hpath }, rfl, rfl, hcur⟩

/-- **Step.** No line makes the loader write outside of the record. -/
theorem checkedConfigLine_is (num : NumberParser) {st : ConfigState} {b : ArraysState}
    (h : StateIs b st) (line : List UInt8) :
    ∃ b', checkedConfigLine num b line = some b' ∧ StateIs b' (configLine num st line) := by
  have hline : 0 ∉ trim (cString line) := fun hmem =>
    zero_notMem_cString line (mem_of_mem_trim hmem)
  unfold checkedConfigLine configLine
  generalize trim (cString line) = text at hline
  cases text with
  | nil => exact ⟨b, rfl, h⟩
  | cons c rest =>
      dsimp only
      split_ifs
      · exact ⟨b, rfl, h⟩
      · exact checkedOpenSection_is h fun hmem => hline (List.mem_cons_of_mem c hmem)
      · refine checkedAssign_is num _ h fun hmem => hline ?_
        exact (List.dropWhile_suffix _).mem (List.mem_of_mem_drop (mem_of_mem_trim hmem))
      · exact ⟨b, rfl, h⟩

/-- **Run.** -/
theorem checkedConfigLines_is (num : NumberParser) {st : ConfigState} {b : ArraysState}
    (h : StateIs b st) (lines : List (List UInt8)) :
    ∃ b', lines.foldlM (checkedConfigLine num) b = some b' ∧
      StateIs b' (lines.foldl (configLine num) st) := by
  induction lines generalizing b st with
  | nil => exact ⟨b, rfl, h⟩
  | cons line lines ih =>
      obtain ⟨b₁, hfirst, hb₁⟩ := checkedConfigLine_is num h line
      obtain ⟨b₂, hrest, hb₂⟩ := ih hb₁
      refine ⟨b₂, ?_, hb₂⟩
      rw [List.foldlM_cons, hfirst]
      exact hrest

theorem zeroPath_is : PathIs zeroPathArrays zeroPathConfig :=
  ⟨CharArray.holds_zero (by decide), CharArray.holds_zero (by decide),
    CharArray.holds_zero (by decide), rfl, rfl, rfl⟩

theorem checkedDefaults_is : ∃ a, checkedDefaults = some a ∧ ConfigIs a configDefaults := by
  obtain ⟨mode, hmode, hholds⟩ := copyString_eq
    (CharArray.holds_zero (by decide : 0 < modeSize)) (by decide : 0 ∉ chars "tx")
  obtain ⟨strategyType, hstrategy, hholds'⟩ := copyString_eq
    (CharArray.holds_zero (by decide : 0 < strategyTypeSize)) (by decide : 0 ∉ chars "fixed")
  have hmode' : copyString modeSize zeroConfigArrays.mode (chars "tx") = some mode := hmode
  have hstrategy' : copyString strategyTypeSize zeroConfigArrays.strategyType (chars "fixed") =
      some strategyType := hstrategy
  simp only [checkedDefaults, hmode', hstrategy', Option.bind_eq_bind, Option.bind_some]
  refine ⟨_, rfl, ?_⟩
  exact
    { mode := hholds
      tunName := CharArray.holds_zero (by decide)
      tunAddr := CharArray.holds_zero (by decide)
      k := rfl
      redundancyRatio := rfl
      blockTimeoutMs := rfl
      maxPayload := rfl
      windowSize := rfl
      strategyType := hholds'
      probeIntervalMs := rfl
      probeLossThreshold := rfl
      ewmaAlpha := rfl
      listenPort := rfl
      paths := fun _ _ => zeroPath_is
      pathCount := rfl
      pathCount_le := Nat.zero_le _
      metricsPort := rfl
      logLevel := rfl
      cryptoKey := CharArray.holds_zero (by decide)
      ipForward := rfl
      forwardRoutes := fun _ _ => CharArray.holds_zero (by decide)
      forwardRouteCount := rfl
      forwardRouteCount_le := Nat.zero_le _
      unread := fun _ _ => rfl }

/-! ## Sections past the last path -/

/-- The line opens the section of a path. -/
def OpensPath (line : List UInt8) : Prop :=
  ∃ rest, trim (cString line) = 91 :: rest ∧ 93 ∈ rest ∧
    (chars "path.").isPrefixOf ((trim (rest.takeWhile (· ≠ 93))).take 63) = true

def OpensNothing (line : List UInt8) : Prop :=
  ∀ rest, trim (cString line) = 91 :: rest → 93 ∉ rest

/-- The state in a section past the last path; `a` is the record when it began. -/
structure InExtraPath (a : ConfigArrays) (st : ArraysState) : Prop where
  cfg : st.cfg = a
  sectionName : (chars "path.").isPrefixOf st.sectionName = true
  curPath : st.curPath = none

theorem checkedConfigLine_of_opensPath (num : NumberParser) {st : ArraysState} {line : List UInt8}
    (hfull : maxPaths ≤ st.cfg.pathCount) (hopens : OpensPath line) :
    ∃ st', checkedConfigLine num st line = some st' ∧ InExtraPath st.cfg st' := by
  obtain ⟨rest, htext, hend, hpath⟩ := hopens
  have hline : checkedConfigLine num st line = checkedOpenSection st rest := by
    unfold checkedConfigLine
    rw [htext]
    rfl
  rw [hline, checkedOpenSection, if_pos hend]
  dsimp only
  rw [if_pos hpath, if_pos hfull]
  exact ⟨_, rfl, rfl, hpath, rfl⟩

theorem checkedConfigLine_of_extraPath (num : NumberParser) {st : ArraysState}
    (h : InExtraPath a st) {line : List UInt8} (hopens : OpensNothing line) :
    checkedConfigLine num st line = some st := by
  have hother : ∀ name, (chars "path.").isPrefixOf name = false → st.sectionName ≠ name := by
    rintro name hname rfl
    rw [h.sectionName] at hname
    cases hname
  unfold checkedConfigLine
  cases htext : trim (cString line) with
  | nil => rfl
  | cons c rest =>
      dsimp only
      split_ifs with hcomment hsection hassign
      · rfl
      · exact if_neg (hopens rest (by rw [htext, hsection]))
      · rw [checkedAssign, if_neg (hother _ (by decide)), if_neg (hother _ (by decide)),
          if_neg (hother _ (by decide)), if_neg (hother _ (by decide)), h.curPath]
      · rfl

theorem checkedConfigLines_of_extraPath (num : NumberParser) {st : ArraysState}
    (h : InExtraPath a st) {body : List (List UInt8)} (hbody : ∀ line ∈ body, OpensNothing line) :
    body.foldlM (checkedConfigLine num) st = some st := by
  induction body with
  | nil => rfl
  | cons line body ih =>
      rw [List.foldlM_cons,
        checkedConfigLine_of_extraPath num h (hbody line List.mem_cons_self)]
      exact ih fun l hl => hbody l (List.mem_cons_of_mem line hl)

/-! ## Whole files -/

/-- The numbers of the record are in their ranges, and its strings end inside their arrays. -/
structure BoundedRecord (a : ConfigArrays) : Prop where
  k : 1 ≤ a.k ∧ a.k ≤ maxK
  windowSize : 1 ≤ a.windowSize ∧ a.windowSize ≤ maxWindow
  maxPayload : 1 ≤ a.maxPayload ∧ a.maxPayload ≤ Model.maxPayload
  pathCount : a.pathCount ≤ maxPaths
  forwardRouteCount : a.forwardRouteCount ≤ 8
  mode : ∃ j < modeSize, a.mode j = 0
  tunName : ∃ j < tunNameSize, a.tunName j = 0
  tunAddr : ∃ j < tunAddrSize, a.tunAddr j = 0
  strategyType : ∃ j < strategyTypeSize, a.strategyType j = 0
  cryptoKey : ∃ j < cryptoKeySize, a.cryptoKey j = 0
  paths : ∀ i < maxPaths, (∃ j < nameSize, (a.paths i).name j = 0) ∧
    (∃ j < interfaceSize, (a.paths i).interface j = 0) ∧
    ∃ j < remoteIpSize, (a.paths i).remoteIp j = 0
  forwardRoutes : ∀ i < maxRoutes, ∃ j < routeSize, a.forwardRoutes i j = 0

theorem boundedRecord_of_is (h : ConfigIs a c) (hbounded : Bounded c) : BoundedRecord a where
  k := by
    rw [h.k]
    exact hbounded.k
  windowSize := by
    rw [h.windowSize]
    exact hbounded.windowSize
  maxPayload := by
    rw [h.maxPayload]
    exact hbounded.maxPayload
  pathCount := by
    rw [h.pathCount]
    exact h.pathCount_le
  forwardRouteCount := by
    rw [h.forwardRouteCount]
    exact h.forwardRouteCount_le
  mode := CharArray.exists_nul_of_holds h.mode
  tunName := CharArray.exists_nul_of_holds h.tunName
  tunAddr := CharArray.exists_nul_of_holds h.tunAddr
  strategyType := CharArray.exists_nul_of_holds h.strategyType
  cryptoKey := CharArray.exists_nul_of_holds h.cryptoKey
  paths i hi :=
    have hpath := h.paths i hi
    ⟨CharArray.exists_nul_of_holds hpath.name, CharArray.exists_nul_of_holds hpath.interface,
      CharArray.exists_nul_of_holds hpath.remoteIp⟩
  forwardRoutes i hi := CharArray.exists_nul_of_holds (h.forwardRoutes i hi)

/-- A path section past the last path, up to the next section, leaves the record as it was. -/
def IgnoresExtraPaths (num : NumberParser) (file : List UInt8) : Prop :=
  ∀ before line body rest, fgetsLines [] file = before ++ line :: body ++ rest →
    ∀ start st, checkedDefaults = some start →
      before.foldlM (checkedConfigLine num) ⟨start, [], none⟩ = some st →
      maxPaths ≤ st.cfg.pathCount → OpensPath line → (∀ l ∈ body, OpensNothing l) →
        ∃ st', (line :: body).foldlM (checkedConfigLine num) st = some st' ∧ st'.cfg = st.cfg

/-- **Configuration bounds.** Whatever a readable file holds and whatever `atoi` and `atof` make
of it, the loader writes inside the record only and leaves it in bounds. -/
theorem configLoad_bounded (num : NumberParser) (file : List UInt8) :
    (∃ a cfg, checkedConfigLoad num file = some a ∧ configLoad num (some file) = some cfg ∧
      ConfigIs a cfg ∧ BoundedRecord a) ∧ IgnoresExtraPaths num file := by
  constructor
  · obtain ⟨start, hstart, hdefaults⟩ := checkedDefaults_is
    have hinit : StateIs ⟨start, [], none⟩ ⟨configDefaults, [], none⟩ :=
      ⟨hdefaults, rfl, rfl, fun i hi => by cases hi⟩
    obtain ⟨b, hrun, hb⟩ := checkedConfigLines_is num hinit (fgetsLines [] file)
    have hload : configLoad num (some file) = some (clampConfig
        ((fgetsLines [] file).foldl (configLine num) ⟨configDefaults, [], none⟩).cfg) := rfl
    have hclamped : ConfigIs { b.cfg with
          k := clamp 1 maxK b.cfg.k
          windowSize := clamp 1 maxWindow b.cfg.windowSize
          maxPayload := clamp 1 maxPayload b.cfg.maxPayload }
        (clampConfig
          ((fgetsLines [] file).foldl (configLine num) ⟨configDefaults, [], none⟩).cfg) :=
      { hb.cfg with
        k := congrArg (clamp 1 maxK) hb.cfg.k
        windowSize := congrArg (clamp 1 maxWindow) hb.cfg.windowSize
        maxPayload := congrArg (clamp 1 maxPayload) hb.cfg.maxPayload }
    refine ⟨_, _, ?_, hload, hclamped,
      boundedRecord_of_is hclamped (bounds_of_configLoad hload)⟩
    simp only [checkedConfigLoad, hstart, hrun, Option.bind_eq_bind, Option.bind_some]
  · intro before line body rest _ start st _ _ hfull hopens hbody
    obtain ⟨st', hline, hextra⟩ := checkedConfigLine_of_opensPath num hfull hopens
    refine ⟨st', ?_, hextra.cfg⟩
    rw [List.foldlM_cons, hline]
    exact checkedConfigLines_of_extraPath num hextra hbody

end CodingGateway.Proofs.ConfigBounds
