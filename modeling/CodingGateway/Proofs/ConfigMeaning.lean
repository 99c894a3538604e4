import CodingGateway.Library.Sections
import CodingGateway.Proofs.ConfigFields
set_option autoImplicit false

/-!
# What a configuration file means

A file is a document of sections and assignments.  A setting has the value of the last assignment
to its key in its section, or its default; routes are collected in order, up to eight; the first
sections whose name starts with `path.` are the paths, in order, up to `MAX_PATHS`.

* `means_unique` — this describes one configuration;
* `means_document` — the loop of `config_load` computes it.
-/

namespace CodingGateway.Proofs.ConfigMeaning

open CodingGateway.Model
open CodingGateway.Library.Sections
open CodingGateway.Proofs.ConfigFields (assign_section)

/-- A line that is a section header or an assignment. -/
abbrev ConfigEntry := Entry (List UInt8) (List UInt8) (List UInt8)

abbrev ConfigBlock := Block (List UInt8) (List UInt8) (List UInt8)

/-- What a line that `fgets` returns says; comments and everything else say nothing. -/
def readEntry (line : List UInt8) : Option ConfigEntry :=
  match trim (cString line) with
  | [] => none
  | c :: rest =>
      if c = 35 then none
      else if c = 91 then
        if 93 ∈ rest then some (.heading ((trim (rest.takeWhile (· ≠ 93))).take 63)) else none
      else if 61 ∈ c :: rest then
        some (.assign (trim ((c :: rest).takeWhile (· ≠ 61)))
          (trim (((c :: rest).dropWhile (· ≠ 61)).drop 1)))
      else none

def document (file : List UInt8) : List ConfigBlock :=
  blocks ((fgetsLines [] file).filterMap readEntry)

/-! ## Settings -/

/-- What is stored for a setting. -/
inductive Value
  | text (s : List UInt8)
  | int (n : ℤ)
  | ratio (q : ℚ)
  | flag (b : Bool)
deriving DecidableEq, Repr

/-- The settings outside of path sections, apart from routes. -/
inductive Setting
  | mode | tunName | tunAddr | listenPort | metricsPort | logLevel | cryptoKey
  | k | redundancyRatio | blockTimeoutMs | maxPayload | windowSize
  | strategyType | probeIntervalMs | probeLossThreshold | ewmaAlpha
  | ipForward
deriving DecidableEq, Repr

/-- The section and the key of a setting. -/
def Setting.place : Setting → String × String
  | .mode => ("general", "mode")
  | .tunName => ("general", "tun_name")
  | .tunAddr => ("general", "tun_addr")
  | .listenPort => ("general", "listen_port")
  | .metricsPort => ("general", "metrics_port")
  | .logLevel => ("general", "log_level")
  | .cryptoKey => ("general", "crypto_key")
  | .k => ("coding", "k")
  | .redundancyRatio => ("coding", "redundancy_ratio")
  | .blockTimeoutMs => ("coding", "block_timeout_ms")
  | .maxPayload => ("coding", "max_payload")
  | .windowSize => ("coding", "window_size")
  | .strategyType => ("strategy", "type")
  | .probeIntervalMs => ("strategy", "probe_interval_ms")
  | .probeLossThreshold => ("strategy", "probe_loss_threshold")
  | .ewmaAlpha => ("strategy", "ewma_alpha")
  | .ipForward => ("forward", "ip_forward")

def Setting.sectionName (f : Setting) : List UInt8 := chars f.place.1

def Setting.key (f : Setting) : List UInt8 := chars f.place.2

def Setting.get (cfg : GatewayConfig) : Setting → Value
  | .mode => .text cfg.mode
  | .tunName => .text cfg.tunName
  | .tunAddr => .text cfg.tunAddr
  | .listenPort => .int cfg.listenPort
  | .metricsPort => .int cfg.metricsPort
  | .logLevel => .int cfg.logLevel
  | .cryptoKey => .text cfg.cryptoKey
  | .k => .int cfg.k
  | .redundancyRatio => .ratio cfg.redundancyRatio
  | .blockTimeoutMs => .int cfg.blockTimeoutMs
  | .maxPayload => .int cfg.maxPayload
  | .windowSize => .int cfg.windowSize
  | .strategyType => .text cfg.strategyType
  | .probeIntervalMs => .int cfg.probeIntervalMs
  | .probeLossThreshold => .ratio cfg.probeLossThreshold
  | .ewmaAlpha => .ratio cfg.ewmaAlpha
  | .ipForward => .flag cfg.ipForward

/-- What the text behind the `=` stands for. -/
def Setting.parse (num : NumberParser) (val : List UInt8) : Setting → Value
  | .mode => .text (val.take 7)
  | .tunName => .text (val.take 15)
  | .tunAddr => .text (val.take 19)
  | .cryptoKey => .text (val.take 64)
  | .strategyType => .text (val.take 15)
  | .redundancyRatio | .probeLossThreshold | .ewmaAlpha => .ratio (num.atof val)
  | .ipForward => .flag (val = chars "true")
  | _ => .int (num.atoi val)

/-- The settings of a path. -/
inductive PathSetting
  | interface | remoteIp | remotePort | weight | enabled
deriving DecidableEq, Repr

def PathSetting.key : PathSetting → List UInt8
  | .interface => chars "interface"
  | .remoteIp => chars "remote_ip"
  | .remotePort => chars "remote_port"
  | .weight => chars "weight"
  | .enabled => chars "enabled"

def PathSetting.get (p : PathConfig) : PathSetting → Value
  | .interface => .text p.interface
  | .remoteIp => .text p.remoteIp
  | .remotePort => .int p.remotePort.toNat
  | .weight => .ratio p.weight
  | .enabled => .flag p.enabled

def PathSetting.parse (num : NumberParser) (val : List UInt8) : PathSetting → Value
  | .interface => .text (val.take 15)
  | .remoteIp => .text (val.take 39)
  | .remotePort => .int (UInt16.ofInt (num.atoi val)).toNat
  | .weight => .ratio (num.atof val)
  | .enabled => .flag (val = chars "true")

def newPath (name : List UInt8) : PathConfig :=
  { zeroPathConfig with weight := 1, enabled := true, name := (name.drop 5).take 31 }

def pathBlocks (doc : List ConfigBlock) : List ConfigBlock :=
  (doc.filter fun b => (chars "path.").isPrefixOf b.name).take maxPaths

def routes (doc : List ConfigBlock) : List (List UInt8) :=
  ((values (chars "forward") (chars "route") doc).map (List.take 47)).take 8

structure PathMeans (num : NumberParser) (b : ConfigBlock) (p : PathConfig) : Prop where
  name : p.name = (b.name.drop 5).take 31
  setting : ∀ f : PathSetting, f.get p =
    ((lastOf f.key b.body).map fun val => f.parse num val).getD (f.get (newPath b.name))

def routeTable (cfg : GatewayConfig) : ℕ × (ℕ → List UInt8) :=
  (cfg.forwardRouteCount, cfg.forwardRoutes)

def pathTable (cfg : GatewayConfig) : ℕ × (ℕ → PathConfig) := (cfg.pathCount, cfg.paths)

/-- The paths are what their sections say, and the rest of the array is zero. -/
structure PathsMean (num : NumberParser) (bs : List ConfigBlock) (table : ℕ × (ℕ → PathConfig)) :
    Prop where
  count : table.1 = bs.length
  path : ∀ i (hi : i < bs.length), PathMeans num bs[i] (table.2 i)
  noPath : ∀ i, bs.length ≤ i → table.2 i = zeroPathConfig

structure Means (num : NumberParser) (doc : List ConfigBlock) (cfg : GatewayConfig) : Prop where
  setting : ∀ f : Setting, f.get cfg =
    ((lookup f.sectionName f.key doc).map fun val => f.parse num val).getD (f.get configDefaults)
  routes : routeTable cfg = ((routes doc).length, fun i => (routes doc).getD i [])
  paths : PathsMean num (pathBlocks doc) (pathTable cfg)

/-! ## The meaning is one configuration -/

theorem eq_of_pathSettings {p q : PathConfig} (hname : p.name = q.name)
    (hget : ∀ f : PathSetting, f.get p = f.get q) : p = q := by
  rcases p with ⟨_, _, _, _, _, _⟩
  rcases q with ⟨_, _, _, _, _, _⟩
  rw [PathConfig.mk.injEq]
  exact ⟨hname, Value.text.inj (hget .interface), Value.text.inj (hget .remoteIp),
    UInt16.toNat_inj.mp (Int.ofNat_inj.mp (Value.int.inj (hget .remotePort))),
    Value.ratio.inj (hget .weight), Value.flag.inj (hget .enabled)⟩

theorem eq_of_settings {a b : GatewayConfig} (hget : ∀ f : Setting, f.get a = f.get b)
    (hroutes : routeTable a = routeTable b) (hpaths : pathTable a = pathTable b) : a = b := by
  rcases a with ⟨_, _, _, _, _, _, _, _, _, _, _, _, _, _, _, _, _, _, _, _, _⟩
  rcases b with ⟨_, _, _, _, _, _, _, _, _, _, _, _, _, _, _, _, _, _, _, _, _⟩
  rw [GatewayConfig.mk.injEq]
  exact ⟨Value.text.inj (hget .mode), Value.text.inj (hget .tunName),
    Value.text.inj (hget .tunAddr), Value.int.inj (hget .k),
    Value.ratio.inj (hget .redundancyRatio), Value.int.inj (hget .blockTimeoutMs),
    Value.int.inj (hget .maxPayload), Value.int.inj (hget .windowSize),
    Value.text.inj (hget .strategyType), Value.int.inj (hget .probeIntervalMs),
    Value.ratio.inj (hget .probeLossThreshold), Value.ratio.inj (hget .ewmaAlpha),
    Value.int.inj (hget .listenPort), congrArg Prod.snd hpaths, congrArg Prod.fst hpaths,
    Value.int.inj (hget .metricsPort), Value.int.inj (hget .logLevel),
    Value.text.inj (hget .cryptoKey), Value.flag.inj (hget .ipForward),
    congrArg Prod.snd hroutes, congrArg Prod.fst hroutes⟩

theorem pathsMean_unique {num : NumberParser} {bs : List ConfigBlock}
    {t t' : ℕ × (ℕ → PathConfig)} (h : PathsMean num bs t) (h' : PathsMean num bs t') : t = t' := by
  refine Prod.ext (h.count.trans h'.count.symm) (funext fun i => ?_)
  by_cases hi : i < bs.length
  · have hp := h.path i hi
    have hp' := h'.path i hi
    exact eq_of_pathSettings (hp.name.trans hp'.name.symm)
      fun f => (hp.setting f).trans (hp'.setting f).symm
  · exact (h.noPath i (by omega)).trans (h'.noPath i (by omega)).symm

theorem means_unique {num : NumberParser} {doc : List ConfigBlock} {a b : GatewayConfig}
    (ha : Means num doc a) (hb : Means num doc b) : a = b :=
  eq_of_settings (fun f => (ha.setting f).trans (hb.setting f).symm)
    (ha.routes.trans hb.routes.symm) (pathsMean_unique ha.paths hb.paths)

/-! ## Single assignments -/

section Assign

variable {num : NumberParser} {cfg : GatewayConfig} {key val : List UInt8}

theorem get_setGeneral (f : Setting) : f.get (setGeneral num cfg key val) =
    if chars "general" = f.sectionName ∧ key = f.key then f.parse num val else f.get cfg := by
  by_cases h₁ : key = chars "mode"
  · subst h₁
    cases f <;> rfl
  by_cases h₂ : key = chars "tun_name"
  · subst h₂
    cases f <;> rfl
  by_cases h₃ : key = chars "tun_addr"
  · subst h₃
    cases f <;> rfl
  by_cases h₄ : key = chars "listen_port"
  · subst h₄
    cases f <;> rfl
  by_cases h₅ : key = chars "metrics_port"
  · subst h₅
    cases f <;> rfl
  by_cases h₆ : key = chars "log_level"
  · subst h₆
    cases f <;> rfl
  by_cases h₇ : key = chars "crypto_key"
  · subst h₇
    cases f <;> rfl
  have hidle : setGeneral num cfg key val = cfg := by simp [setGeneral, h₁, h₂, h₃, h₄, h₅, h₆, h₇]
  have hother : ¬ (chars "general" = f.sectionName ∧ key = f.key) := by
    rintro ⟨hsection, hkey⟩
    cases f
    case mode => exact h₁ hkey
    case tunName => exact h₂ hkey
    case tunAddr => exact h₃ hkey
    case listenPort => exact h₄ hkey
    case metricsPort => exact h₅ hkey
    case logLevel => exact h₆ hkey
    case cryptoKey => exact h₇ hkey
    all_goals exact absurd hsection (by decide)
  rw [hidle, if_neg hother]

theorem get_setCoding (f : Setting) : f.get (setCoding num cfg key val) =
    if chars "coding" = f.sectionName ∧ key = f.key then f.parse num val else f.get cfg := by
  by_cases h₁ : key = chars "k"
  · subst h₁
    cases f <;> rfl
  by_cases h₂ : key = chars "redundancy_ratio"
  · subst h₂
    cases f <;> rfl
  by_cases h₃ : key = chars "block_timeout_ms"
  · subst h₃
    cases f <;> rfl
  by_cases h₄ : key = chars "max_payload"
  · subst h₄
    cases f <;> rfl
  by_cases h₅ : key = chars "window_size"
  · subst h₅
    cases f <;> rfl
  have hidle : setCoding num cfg key val = cfg := by simp [setCoding, h₁, h₂, h₃, h₄, h₅]
  have hother : ¬ (chars "coding" = f.sectionName ∧ key = f.key) := by
    rintro ⟨hsection, hkey⟩
    cases f
    case k => exact h₁ hkey
    case redundancyRatio => exact h₂ hkey
    case blockTimeoutMs => exact h₃ hkey
    case maxPayload => exact h₄ hkey
    case windowSize => exact h₅ hkey
    all_goals exact absurd hsection (by decide)
  rw [hidle, if_neg hother]

theorem get_setStrategy (f : Setting) : f.get (setStrategy num cfg key val) =
    if chars "strategy" = f.sectionName ∧ key = f.key then f.parse num val else f.get cfg := by
  by_cases h₁ : key = chars "type"
  · subst h₁
    cases f <;> rfl
  by_cases h₂ : key = chars "probe_interval_ms"
  · subst h₂
    cases f <;> rfl
  by_cases h₃ : key = chars "probe_loss_threshold"
  · subst h₃
    cases f <;> rfl
  by_cases h₄ : key = chars "ewma_alpha"
  · subst h₄
    cases f <;> rfl
  have hidle : setStrategy num cfg key val = cfg := by simp [setStrategy, h₁, h₂, h₃, h₄]
  have hother : ¬ (chars "strategy" = f.sectionName ∧ key = f.key) := by
    rintro ⟨hsection, hkey⟩
    cases f
    case strategyType => exact h₁ hkey
    case probeIntervalMs => exact h₂ hkey
    case probeLossThreshold => exact h₃ hkey
    case ewmaAlpha => exact h₄ hkey
    all_goals exact absurd hsection (by decide)
  rw [hidle, if_neg hother]

theorem get_setForward (f : Setting) : f.get (setForward cfg key val) =
    if chars "forward" = f.sectionName ∧ key = f.key then f.parse num val else f.get cfg := by
  by_cases h : key = chars "ip_forward"
  · subst h
    cases f <;> rfl
  have hidle : f.get (setForward cfg key val) = f.get cfg := by
    rw [setForward, if_neg h]
    by_cases hroute : key = chars "route" ∧ cfg.forwardRouteCount < 8
    · rw [if_pos hroute]
      cases f <;> rfl
    · rw [if_neg hroute]
  have hother : ¬ (chars "forward" = f.sectionName ∧ key = f.key) := by
    rintro ⟨hsection, hkey⟩
    cases f
    case ipForward => exact h hkey
    all_goals exact absurd hsection (by decide)
  rw [hidle, if_neg hother]

theorem get_setPath (p : PathConfig) (f : PathSetting) : f.get (setPath num p key val) =
    if key = f.key then f.parse num val else f.get p := by
  by_cases h₁ : key = chars "interface"
  · subst h₁
    cases f <;> rfl
  by_cases h₂ : key = chars "remote_ip"
  · subst h₂
    cases f <;> rfl
  by_cases h₃ : key = chars "remote_port"
  · subst h₃
    cases f <;> rfl
  by_cases h₄ : key = chars "weight"
  · subst h₄
    cases f <;> rfl
  by_cases h₅ : key = chars "enabled"
  · subst h₅
    cases f <;> rfl
  have hidle : setPath num p key val = p := by simp [setPath, h₁, h₂, h₃, h₄, h₅]
  have hother : key ≠ f.key := by
    intro hkey
    cases f
    case interface => exact h₁ hkey
    case remoteIp => exact h₂ hkey
    case remotePort => exact h₃ hkey
    case weight => exact h₄ hkey
    case enabled => exact h₅ hkey
  rw [hidle, if_neg hother]

theorem name_setPath (p : PathConfig) : (setPath num p key val).name = p.name := by
  unfold setPath
  split_ifs <;> rfl

theorem sectionName_cases (f : Setting) :
    f.sectionName = chars "general" ∨ f.sectionName = chars "coding" ∨
      f.sectionName = chars "strategy" ∨ f.sectionName = chars "forward" := by
  cases f <;> decide

variable {st : ConfigState}

theorem get_assign (f : Setting) : f.get (assign num st key val).cfg =
    if st.sectionName = f.sectionName ∧ key = f.key then f.parse num val else f.get st.cfg := by
  by_cases h₁ : st.sectionName = chars "general"
  · rw [assign, if_pos h₁, get_setGeneral, h₁]
  by_cases h₂ : st.sectionName = chars "coding"
  · rw [assign, if_neg h₁, if_pos h₂, get_setCoding, h₂]
  by_cases h₃ : st.sectionName = chars "strategy"
  · rw [assign, if_neg h₁, if_neg h₂, if_pos h₃, get_setStrategy, h₃]
  by_cases h₄ : st.sectionName = chars "forward"
  · rw [assign, if_neg h₁, if_neg h₂, if_neg h₃, if_pos h₄, get_setForward f, h₄]
  have hother : ¬ (st.sectionName = f.sectionName ∧ key = f.key) := by
    rintro ⟨hsection, -⟩
    rcases sectionName_cases f with h | h | h | h
    · exact h₁ (hsection.trans h)
    · exact h₂ (hsection.trans h)
    · exact h₃ (hsection.trans h)
    · exact h₄ (hsection.trans h)
  rw [assign, if_neg h₁, if_neg h₂, if_neg h₃, if_neg h₄, if_neg hother]
  split
  · rfl
  · cases f <;> rfl

theorem tables_setGeneral : routeTable (setGeneral num cfg key val) = routeTable cfg ∧
    pathTable (setGeneral num cfg key val) = pathTable cfg := by
  unfold setGeneral
  split_ifs <;> exact ⟨rfl, rfl⟩

theorem tables_setCoding : routeTable (setCoding num cfg key val) = routeTable cfg ∧
    pathTable (setCoding num cfg key val) = pathTable cfg := by
  unfold setCoding
  split_ifs <;> exact ⟨rfl, rfl⟩

theorem tables_setStrategy : routeTable (setStrategy num cfg key val) = routeTable cfg ∧
    pathTable (setStrategy num cfg key val) = pathTable cfg := by
  unfold setStrategy
  split_ifs <;> exact ⟨rfl, rfl⟩

theorem pathTable_setForward : pathTable (setForward cfg key val) = pathTable cfg := by
  unfold setForward
  split_ifs <;> rfl

theorem routeTable_setForward : routeTable (setForward cfg key val) =
    if key = chars "route" ∧ cfg.forwardRouteCount < 8 then
      (cfg.forwardRouteCount + 1,
        Function.update cfg.forwardRoutes cfg.forwardRouteCount (val.take 47))
    else routeTable cfg := by
  by_cases h : key = chars "ip_forward"
  · have hother : ¬ (key = chars "route" ∧ cfg.forwardRouteCount < 8) := by
      rintro ⟨hroute, -⟩
      exact absurd (h.symm.trans hroute) (by decide)
    rw [setForward, if_pos h, if_neg hother]
    rfl
  · rw [setForward, if_neg h]
    split_ifs <;> rfl

theorem routeTable_assign : routeTable (assign num st key val).cfg =
    if st.sectionName = chars "forward" ∧ key = chars "route" ∧ st.cfg.forwardRouteCount < 8 then
      (st.cfg.forwardRouteCount + 1,
        Function.update st.cfg.forwardRoutes st.cfg.forwardRouteCount (val.take 47))
    else routeTable st.cfg := by
  by_cases h₄ : st.sectionName = chars "forward"
  · have hforward : (assign num st key val).cfg = setForward st.cfg key val := by
      simp only [assign, h₄]
      rfl
    rw [hforward, routeTable_setForward]
    simp only [h₄, true_and]
  rw [if_neg fun h => h₄ h.1]
  unfold assign
  split_ifs
  · exact tables_setGeneral.1
  · exact tables_setCoding.1
  · exact tables_setStrategy.1
  · split <;> rfl

theorem pathTable_assign_of_none (h : st.curPath = none) :
    pathTable (assign num st key val).cfg = pathTable st.cfg := by
  unfold assign
  split_ifs
  · exact tables_setGeneral.2
  · exact tables_setCoding.2
  · exact tables_setStrategy.2
  · exact pathTable_setForward
  · rw [h]

theorem pathTable_assign_of_some {i : ℕ} (h : st.curPath = some i)
    (hname : (chars "path.").isPrefixOf st.sectionName = true) :
    pathTable (assign num st key val).cfg = (st.cfg.pathCount,
      Function.update st.cfg.paths i (setPath num (st.cfg.paths i) key val)) := by
  unfold assign
  split_ifs with h₁ h₂ h₃ h₄
  · exact absurd hname (by rw [h₁]; decide)
  · exact absurd hname (by rw [h₂]; decide)
  · exact absurd hname (by rw [h₃]; decide)
  · exact absurd hname (by rw [h₄]; decide)
  · rw [h]
    rfl

end Assign

/-! ## Blocks -/

section Blocks

variable (doc : List ConfigBlock) (b : ConfigBlock) (k v : List UInt8)

theorem pathBlocks_concat : pathBlocks (doc ++ [b]) = pathBlocks doc ++
    if (chars "path.").isPrefixOf b.name = true ∧ (pathBlocks doc).length < maxPaths then [b]
    else [] := by
  by_cases h : (chars "path.").isPrefixOf b.name = true
  · rw [pathBlocks, List.filter_append, List.filter_singleton, h, cond_true, take_concat]
    simp only [true_and, pathBlocks]
  · rw [pathBlocks, List.filter_append, List.filter_singleton, if_neg fun hboth => h hboth.1]
    simp only [h, cond_false, List.append_nil, pathBlocks]

theorem routes_heading (name : List UInt8) : routes (doc ++ [⟨name, []⟩]) = routes doc := by
  rw [routes, values_heading, routes]

theorem routes_assign : routes (doc ++ [b.add k v]) = routes (doc ++ [b]) ++
    if b.name = chars "forward" ∧ k = chars "route" ∧ (routes (doc ++ [b])).length < 8 then
      [v.take 47]
    else [] := by
  by_cases h : b.name = chars "forward" ∧ k = chars "route"
  · rw [routes, values_assign, if_pos h, List.map_append, List.map_singleton, take_concat]
    simp only [true_and, routes, h]
  · rw [routes, values_assign, if_neg h, List.append_nil,
      if_neg fun hall => h ⟨hall.1, hall.2.1⟩, List.append_nil, routes]

end Blocks

/-! ## The loop -/

/-- The index of the path that assignments go to. -/
def currentPath (doc : List ConfigBlock) : Option ℕ :=
  match doc.getLast? with
  | none => none
  | some b =>
      if (chars "path.").isPrefixOf b.name = true ∧ (pathBlocks doc.dropLast).length < maxPaths then
        some (pathBlocks doc.dropLast).length
      else none

/-- The state of the loop after the lines of a document. -/
structure Reads (num : NumberParser) (doc : List ConfigBlock) (st : ConfigState) : Prop where
  means : Means num doc st.cfg
  sectionName : st.sectionName = doc.getLast?.elim [] Block.name
  curPath : st.curPath = currentPath doc

theorem currentPath_concat (doc : List ConfigBlock) (b : ConfigBlock) :
    currentPath (doc ++ [b]) =
      if (chars "path.").isPrefixOf b.name = true ∧ (pathBlocks doc).length < maxPaths then
        some (pathBlocks doc).length
      else none := by
  simp [currentPath]

section Loop

variable {num : NumberParser} {doc : List ConfigBlock} {st : ConfigState}

/-! ### Paths -/

theorem pathMeans_newPath (name : List UInt8) :
    PathMeans num ⟨name, []⟩ (newPath name) :=
  ⟨rfl, fun _ => rfl⟩

theorem pathMeans_add {b : ConfigBlock} {p : PathConfig} (h : PathMeans num b p)
    (k v : List UInt8) : PathMeans num (b.add k v) (setPath num p k v) where
  name := by
    rw [name_setPath]
    exact h.name
  setting f := by
    rw [get_setPath, Block.add, lastOf_concat]
    split_ifs
    · rfl
    · exact h.setting f

theorem pathsMean_concat {bs : List ConfigBlock} {b : ConfigBlock} {p : PathConfig}
    {table : ℕ × (ℕ → PathConfig)} (h : PathsMean num bs table) (hb : PathMeans num b p) :
    PathsMean num (bs ++ [b]) (table.1 + 1, Function.update table.2 table.1 p) where
  count := by
    rw [h.count, List.length_append, List.length_singleton]
  path i hi := by
    rw [List.length_append, List.length_singleton] at hi
    rw [h.count]
    by_cases hlast : i = bs.length
    · subst hlast
      simpa using hb
    · simpa [hlast, List.getElem_append_left (show i < bs.length by omega)] using
        h.path i (by omega)
  noPath i hi := by
    rw [List.length_append, List.length_singleton] at hi
    rw [h.count]
    simpa [show i ≠ bs.length by omega] using h.noPath i (by omega)

theorem pathsMean_last {bs : List ConfigBlock} {b b' : ConfigBlock} {p : PathConfig}
    {table : ℕ × (ℕ → PathConfig)} (h : PathsMean num (bs ++ [b]) table)
    (hb : PathMeans num b' p) :
    PathsMean num (bs ++ [b']) (table.1, Function.update table.2 bs.length p) where
  count := by
    rw [h.count, List.length_append, List.length_append]
    rfl
  path i hi := by
    rw [List.length_append, List.length_singleton] at hi
    by_cases hlast : i = bs.length
    · subst hlast
      simpa using hb
    · have hold := h.path i (by simp; omega)
      rw [List.getElem_append_left (by omega)] at hold ⊢
      simpa [hlast] using hold
  noPath i hi := by
    rw [List.length_append, List.length_singleton] at hi
    simpa [show i ≠ bs.length by omega] using h.noPath i (by simp; omega)

/-! ### Steps -/

theorem reads_nil : Reads num [] ⟨configDefaults, [], none⟩ where
  means :=
    { setting := fun _ => rfl
      routes := rfl
      paths := ⟨rfl, fun _ hi => absurd hi (Nat.not_lt_zero _), fun _ _ => rfl⟩ }
  sectionName := rfl
  curPath := rfl

theorem reads_heading_of_not (h : Reads num doc st) {name : List UInt8}
    (hpath : ¬ ((chars "path.").isPrefixOf name = true ∧ (pathBlocks doc).length < maxPaths)) :
    Reads num (doc ++ [⟨name, []⟩]) { st with sectionName := name, curPath := none } where
  means :=
    { setting := by
        intro f
        rw [lookup_heading]
        exact h.means.setting f
      routes := by
        rw [routes_heading]
        exact h.means.routes
      paths := by
        rw [pathBlocks_concat, if_neg hpath, List.append_nil]
        exact h.means.paths }
  sectionName := by simp
  curPath := by rw [currentPath_concat, if_neg hpath]

theorem reads_heading_of_path (h : Reads num doc st) {name : List UInt8}
    (hpath : (chars "path.").isPrefixOf name = true ∧ (pathBlocks doc).length < maxPaths) :
    Reads num (doc ++ [⟨name, []⟩])
      { cfg := { st.cfg with
          paths := Function.update st.cfg.paths st.cfg.pathCount (newPath name)
          pathCount := st.cfg.pathCount + 1 }
        sectionName := name
        curPath := some st.cfg.pathCount } where
  means :=
    { setting := by
        intro f
        rw [lookup_heading]
        refine Eq.trans ?_ (h.means.setting f)
        cases f <;> rfl
      routes := by
        rw [routes_heading]
        exact h.means.routes
      paths := by
        rw [pathBlocks_concat, if_pos hpath]
        exact pathsMean_concat h.means.paths (pathMeans_newPath name) }
  sectionName := by simp
  curPath := by
    rw [currentPath_concat, if_pos hpath]
    exact congrArg some h.means.paths.count

theorem reads_heading (h : Reads num doc st) {p : List UInt8} (hclose : 93 ∈ p) :
    Reads num (doc ++ [⟨(trim (p.takeWhile (· ≠ 93))).take 63, []⟩]) (openSection st p) := by
  rw [openSection, if_pos hclose]
  generalize (trim (p.takeWhile (· ≠ 93))).take 63 = name
  have hcount : st.cfg.pathCount = (pathBlocks doc).length := h.means.paths.count
  by_cases hpath : (chars "path.").isPrefixOf name = true
  · by_cases hroom : maxPaths ≤ st.cfg.pathCount
    · simp only [hpath, hroom, if_true]
      exact reads_heading_of_not h fun hboth => absurd hboth.2 (by omega)
    · simp only [hpath, hroom, if_true, if_false]
      exact reads_heading_of_path h ⟨hpath, by omega⟩
  · simp only [hpath]
    exact reads_heading_of_not h fun hboth => hpath hboth.1

theorem reads_assign_nil (h : Reads num [] st) (k v : List UInt8) :
    Reads num [] (assign num st k v) := by
  have hname : st.sectionName = [] := h.sectionName
  have hcur : st.curPath = none := h.curPath
  have hidle : assign num st k v = st := by
    rw [assign, hname, hcur]
    rfl
  rw [hidle]
  exact h

theorem pathsMean_assign {b : ConfigBlock} (h : Reads num (doc ++ [b]) st) (k v : List UInt8) :
    PathsMean num (pathBlocks (doc ++ [b.add k v])) (pathTable (assign num st k v).cfg) := by
  have hname : st.sectionName = b.name := by simpa using h.sectionName
  have hcur := h.curPath.trans (currentPath_concat doc b)
  have hpaths := h.means.paths
  rw [pathBlocks_concat] at hpaths
  rw [pathBlocks_concat, Block.add_name]
  by_cases hpath : (chars "path.").isPrefixOf b.name = true ∧ (pathBlocks doc).length < maxPaths
  · rw [if_pos hpath] at hcur hpaths
    have hlast := hpaths.path (pathBlocks doc).length (by simp)
    rw [List.getElem_concat_length rfl] at hlast
    rw [if_pos hpath, pathTable_assign_of_some hcur (hname ▸ hpath.1)]
    exact pathsMean_last hpaths (pathMeans_add hlast k v)
  · rw [if_neg hpath] at hcur hpaths
    rw [if_neg hpath, pathTable_assign_of_none hcur]
    exact hpaths

theorem reads_assign {b : ConfigBlock} (h : Reads num (doc ++ [b]) st) (k v : List UInt8) :
    Reads num (doc ++ [b.add k v]) (assign num st k v) := by
  have hname : st.sectionName = b.name := by simpa using h.sectionName
  obtain ⟨hsame, hsameCur⟩ := assign_section num st k v
  exact
    { means :=
        { setting := by
            intro f
            rw [get_assign, lookup_assign, hname]
            split_ifs
            · rfl
            · exact h.means.setting f
          routes := by
            have hcount : st.cfg.forwardRouteCount = (routes (doc ++ [b])).length :=
              congrArg Prod.fst h.means.routes
            have htable : st.cfg.forwardRoutes = fun i => (routes (doc ++ [b])).getD i [] :=
              congrArg Prod.snd h.means.routes
            rw [routeTable_assign, routes_assign, hname, hcount, htable]
            split_ifs
            · rw [update_getD, List.length_append]
              rfl
            · rw [List.append_nil]
              exact h.means.routes
          paths := pathsMean_assign h k v }
      sectionName := by
        rw [hsame, hname]
        simp
      curPath := by
        rw [hsameCur, h.curPath, currentPath_concat, currentPath_concat]
        rfl }

theorem reads_addEntry_assign (h : Reads num doc st) (k v : List UInt8) :
    Reads num (addEntry doc (.assign k v)) (assign num st k v) := by
  rcases List.eq_nil_or_concat' doc with rfl | ⟨above, b, rfl⟩
  · rw [addEntry_assign_nil]
    exact reads_assign_nil h k v
  · rw [addEntry_assign_concat]
    exact reads_assign h k v

theorem reads_line {entries : List ConfigEntry} (h : Reads num (blocks entries) st)
    (line : List UInt8) :
    Reads num (blocks (entries ++ (readEntry line).toList)) (configLine num st line) := by
  unfold readEntry configLine
  cases trim (cString line) with
  | nil => simpa using h
  | cons c rest =>
      dsimp only
      split_ifs with hcomment hsection hclose hequals
      · simpa using h
      · rw [Option.toList_some, blocks_concat, addEntry_heading]
        exact reads_heading h hclose
      · rw [openSection, if_neg hclose]
        simpa using h
      · rw [Option.toList_some, blocks_concat]
        exact reads_addEntry_assign h _ _
      · simpa using h

theorem reads_lines (num : NumberParser) (lines : List (List UInt8)) :
    Reads num (blocks (lines.filterMap readEntry))
      (lines.foldl (configLine num) ⟨configDefaults, [], none⟩) := by
  induction lines using List.reverseRecOn with
  | nil => exact reads_nil
  | append_singleton lines line ih =>
      have hentry : [line].filterMap readEntry = (readEntry line).toList := by
        cases hread : readEntry line <;> simp [hread]
      rw [List.filterMap_append, hentry, List.foldl_append]
      exact reads_line ih line

end Loop

/-- `config_load` reads what the file says, and clamps it. -/
theorem means_document (num : NumberParser) (file : List UInt8) :
    ∃ cfg, configLoad num (some file) = some (clampConfig cfg) ∧
      Means num (document file) cfg ∧ ∀ cfg', Means num (document file) cfg' → cfg' = cfg := by
  have hmeans := (reads_lines num (fgetsLines [] file)).means
  exact ⟨_, rfl, hmeans, fun _ h => means_unique h hmeans⟩

end CodingGateway.Proofs.ConfigMeaning
