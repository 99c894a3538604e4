import CodingGateway.Model.Program
set_option autoImplicit false

/-!
# What the program opens it closes

In its loop the program holds the descriptors and blocks that its variables name, each once.
Every way out of `main` closes and frees all of them, and nothing is closed twice.

* `triple_tunOpen`, `triple_transportOpen`, `triple_metricsListen` — one function each;
* `triple_mainStart`, `triple_programStep` — startup, and a turn of the loop or the exit;
* `programMain_handles` — the program from start to exit.
-/

namespace CodingGateway.Proofs.OpenHandles

open CodingGateway.Library.Ownership
open CodingGateway.Model

variable {os : System} {num : NumberParser}

/-! ## The calls -/

/-- What a call that may fail hands out. -/
def handed (kind : HandleKind) (n : Option ℕ) : List Handle := n.toList.map fun n => (kind, n)

theorem triple_obtainIf (kind : HandleKind) (succeeds : Bool) :
    Triple ∅ (obtainIf os kind succeeds)
      (fun n t => Owns (handed kind n) t ∧ n.isSome = succeeds) := by
  unfold obtainIf
  apply Triple.ite
  · intro hsucceeds
    apply (Triple.obtainNew os kind).bind
    rintro n _ rfl
    exact Triple.pure ⟨owns_singleton _, hsucceeds.symm⟩
  · intro hfails
    exact Triple.pure ⟨owns_nil, (Bool.eq_false_iff.mpr hfails).symm⟩

theorem returns_obtainIf (kind : HandleKind) (succeeds : Bool) :
    Returns (obtainIf os kind succeeds) (fun n => n.isSome = succeeds) :=
  (triple_obtainIf kind succeeds).returns fun _ _ h => h.2

theorem triple_releaseThen {α : Type} {r : Handle} {a : α} {t : Finset Handle}
    {Q : α → Finset Handle → Prop} (ht : Owns [r] t) (hq : Q a ∅) :
    Triple t (do release r; pure a) Q := by
  apply Triple.releaseThen ht
  intro t' ht'
  rw [ht'.eq_empty]
  exact Triple.pure hq

/-! ## `tun.c` -/

theorem triple_tunOpen (env : TunOpenEnv) :
    Triple ∅ (tunOpen os env) (fun fd t => Owns (handed .descriptor fd) t) := by
  unfold tunOpen
  apply (triple_obtainIf .descriptor env.opens).bind
  rintro (_ | fd) t ⟨ht, -⟩
  · exact Triple.pure ht
  · apply Triple.ite
    · intro _
      exact Triple.pure ht
    · intro _
      exact triple_releaseThen ht owns_nil

theorem triple_tunConfigure (env : TunConfigureEnv) (name addrCidr : List UInt8) :
    Triple ∅ (tunConfigure os num env name addrCidr) (fun _ t => t = ∅) := by
  unfold tunConfigure
  apply (triple_obtainIf .descriptor env.socket).bind
  rintro (_ | sock) t ⟨ht, -⟩
  · exact Triple.pure ht.2
  · cases env.inetPton (tunAddr addrCidr) with
    | none => exact triple_releaseThen ht rfl
    | some addr => exact triple_releaseThen ht rfl

theorem triple_tunApplyForward (env : ForwardEnv) (tunName : List UInt8) (cfg : GatewayConfig) :
    Triple ∅ (tunApplyForward os env tunName cfg) (fun _ t => t = ∅) := by
  unfold tunApplyForward
  apply Triple.ite
  · intro _
    exact Triple.pure rfl
  · intro _
    apply (triple_obtainIf .stream env.opens).bind
    rintro (_ | f) t ⟨ht, -⟩
    · exact Triple.pure ht.2
    · exact triple_releaseThen ht rfl

/-! ## `transport.c` -/

/-- The sockets of the paths of a list. -/
def pathHandles (paths : ℕ → PathSock) (is : List ℕ) : List Handle :=
  is.filterMap fun i =>
    if 0 ≤ (paths i).fd then some (.descriptor, (paths i).fd.toNat) else none

/-- What `transport_init` hands out, in the order in which `transport_free` gives it back. -/
def transportHandles (t : Transport) : List Handle :=
  (.descriptor, t.recvFd) :: pathHandles t.ctx.paths (List.range t.ctx.pathCount) ++
    [(.memory, t.block)]

theorem pathHandles_update {paths : ℕ → PathSock} {is : List ℕ} {i : ℕ} (hi : i ∉ is)
    (sock : PathSock) : pathHandles (Function.update paths i sock) is = pathHandles paths is := by
  apply List.filterMap_congr
  intro j hj
  have hne : j ≠ i := by
    rintro rfl
    exact hi hj
  rw [Function.update_of_ne hne]

theorem pathHandles_concat {paths : ℕ → PathSock} {is : List ℕ} {i : ℕ} (hi : i ∉ is)
    (sock : PathSock) :
    pathHandles (Function.update paths i sock) (is ++ [i]) =
      pathHandles paths is ++ pathHandles (fun _ => sock) [i] := by
  unfold pathHandles
  rw [List.filterMap_append]
  congr 1
  · exact pathHandles_update hi sock
  · simp only [List.filterMap_cons, Function.update_self, List.filterMap_nil]

theorem triple_openPath (env : TransportEnv) (cfg : GatewayConfig) {paths : ℕ → PathSock}
    {is : List ℕ} {i : ℕ} (hi : i ∉ is) {t : Finset Handle} (ht : Owns (pathHandles paths is) t) :
    Triple t (openPath os env cfg paths i)
      (fun paths' t' => Owns (pathHandles paths' (is ++ [i])) t') := by
  have hnone (enabled : Bool) : Owns (pathHandles
      (Function.update paths i ⟨-1, 0, enabled⟩) (is ++ [i])) t := by
    have hnew : pathHandles (fun _ => ⟨-1, 0, enabled⟩) [i] = [] := rfl
    rw [pathHandles_concat hi, hnew, List.append_nil]
    exact ht
  unfold openPath
  apply Triple.ite
  · intro _
    exact Triple.pure (hnone false)
  · intro _
    apply (triple_obtainIf .descriptor (env.socket i)).callFresh
    rintro (_ | fd) t' ⟨ht', -⟩ hdisj
    · obtain ⟨-, rfl⟩ := ht'
      have hsame : ([] : List Handle).toFinset ∪ t = t := Finset.empty_union t
      apply Triple.pure
      rw [show handed .descriptor none = [] from rfl, hsame]
      exact hnone true
    · cases env.inetPton (cfg.paths i).remoteIp with
      | some addr =>
          apply Triple.pure
          have hnew : pathHandles (fun _ => (⟨fd, addr, true⟩ : PathSock)) [i] =
              handed .descriptor (some fd) := rfl
          rw [pathHandles_concat hi, hnew]
          exact (ht'.append ht hdisj).perm List.perm_append_comm
      | none =>
          obtain ⟨-, rfl⟩ := ht'
          have hframed := (Triple.release (HandleKind.descriptor, fd)).frame hdisj
          apply hframed.bind
          rintro _ _ ⟨_, rfl, -, rfl⟩
          apply Triple.pure
          rw [Finset.empty_union]
          exact hnone true

theorem not_mem_of_prefix_range {is : List ℕ} {i n : ℕ}
    (h : (is ++ [i]).IsPrefix (List.range n)) : i ∉ is := by
  have hnodup := List.nodup_range.sublist h.sublist
  rw [List.nodup_append'] at hnodup
  exact fun hmem => hnodup.2.2 hmem (List.mem_singleton_self i)

theorem triple_openPaths (env : TransportEnv) (cfg : GatewayConfig) (n : ℕ)
    (paths : ℕ → PathSock) :
    Triple ∅ ((List.range n).foldlM (openPath os env cfg) paths)
      (fun paths' t => Owns (pathHandles paths' (List.range n)) t) := by
  apply Triple.foldlM (fun is paths t => Owns (pathHandles paths is) t) owns_nil
  intro is i hinitial paths t ht
  exact triple_openPath env cfg (not_mem_of_prefix_range hinitial) ht

theorem triple_transportOpen (env : TransportEnv) (cfg : GatewayConfig) :
    Triple ∅ (transportOpen os env cfg)
      (fun t s => Owns (t.elim [] transportHandles) s) := by
  unfold transportOpen
  apply (triple_obtainIf .memory env.calloc).bind
  rintro (_ | block) s ⟨hblock, -⟩
  · exact Triple.pure hblock
  · apply (triple_obtainIf .descriptor env.recvSocket).callFresh
    rintro (_ | recvFd) s' ⟨hrecv, -⟩ hdisj
    · rw [hrecv.eq_empty, Finset.empty_union]
      exact triple_releaseThen hblock owns_nil
    · have hboth := hrecv.append hblock hdisj
      apply Triple.ite
      · intro _
        apply (triple_openPaths env cfg cfg.pathCount fun _ => ⟨0, 0, false⟩).callFresh
        intro paths s'' hpaths hdisj'
        apply Triple.pure
        have hperm : (pathHandles paths (List.range cfg.pathCount) ++
            [(HandleKind.descriptor, recvFd), (HandleKind.memory, block)]).Perm
            (transportHandles ⟨⟨paths, cfg.pathCount⟩, recvFd, block⟩) := List.perm_middle
        exact (hpaths.append hboth hdisj').perm hperm
      · intro _
        apply Triple.releaseThen hboth
        intro t ht
        exact triple_releaseThen ht owns_nil

theorem closePaths_eq (paths : ℕ → PathSock) (is : List ℕ) :
    closePaths paths is = releaseAll (pathHandles paths is) := by
  induction is with
  | nil => rfl
  | cons i is ih =>
      unfold closePaths pathHandles
      rw [List.filterMap_cons]
      split_ifs
      · rw [ih]
        rfl
      · exact ih

theorem transportFree_eq (t : Transport) : transportFree t = releaseAll (transportHandles t) := by
  unfold transportFree transportHandles
  rw [closePaths_eq, List.cons_append, releaseAll, releaseAll_append, releaseAll, releaseAll,
    bind_pure_unit]
  rfl

/-! ## `metrics.c` and `config.c` -/

theorem triple_metricsListen (env : ListenEnv) :
    Triple ∅ (metricsListen os env) (fun fd t => Owns (handed .descriptor fd) t) := by
  unfold metricsListen
  apply (triple_obtainIf .descriptor env.socket).bind
  rintro (_ | fd) t ⟨ht, -⟩
  · exact Triple.pure ht
  · apply Triple.ite
    · intro _
      exact Triple.pure ht
    · intro _
      exact triple_releaseThen ht owns_nil

theorem triple_metricsConnection (accepted : Bool) :
    Triple ∅ (metricsConnection os accepted) (fun _ t => t = ∅) := by
  unfold metricsConnection
  apply (triple_obtainIf .descriptor accepted).bind
  rintro (_ | conn) t ⟨ht, -⟩
  · exact Triple.pure ht.eq_empty
  · obtain ⟨-, rfl⟩ := ht
    exact Triple.release _

theorem triple_configRead (file : Option (List UInt8)) :
    Triple ∅ (configRead os num file) (fun cfg t => t = ∅ ∧ cfg = configLoad num file) := by
  unfold configRead
  apply (triple_obtainIf .stream file.isSome).bind
  rintro (_ | f) t ⟨ht, hopened⟩
  · cases file with
    | none => exact Triple.pure ⟨ht.eq_empty, rfl⟩
    | some text => cases hopened
  · exact triple_releaseThen ht ⟨rfl, rfl⟩

theorem triple_mainMetrics (env : ListenEnv) (cfg : GatewayConfig) :
    Triple ∅ (mainMetrics os env cfg) (fun fd t => Owns (handed .descriptor fd) t) := by
  unfold mainMetrics
  apply Triple.ite
  · intro _
    exact triple_metricsListen env
  · intro _
    exact Triple.pure owns_nil

/-! ## `main.c` -/

/-- What the variables of `main` name, in the order in which it is given back. -/
def runningHandles (g : Running) : List Handle :=
  handed .descriptor g.metricsFd ++ ((.memory, g.sctx) ::
    (transportHandles g.transport ++ [(.descriptor, g.tunFd)]))

def programHandles : Program → List Handle
  | .running g => runningHandles g
  | .exited => []

theorem triple_mainClose (g : Running) {t : Finset Handle} (ht : Owns (runningHandles g) t) :
    Triple t (mainClose g) (fun _ t => t = ∅) := by
  have hrest (s : Finset Handle) (hs : Owns ((.memory, g.sctx) ::
      (transportHandles g.transport ++ [(.descriptor, g.tunFd)])) s) :
      Triple s (do
        free g.sctx
        transportFree g.transport
        closeFd g.tunFd) (fun _ t => t = ∅) := by
    apply Triple.releaseThen hs
    intro t ht
    rw [transportFree_eq]
    apply Triple.releaseAllThen ht
    rintro t ⟨-, rfl⟩
    exact Triple.release _
  unfold mainClose
  cases hfd : g.metricsFd with
  | none =>
      rw [runningHandles, hfd] at ht
      exact hrest t ht
  | some fd =>
      rw [runningHandles, hfd] at ht
      exact Triple.releaseThen ht hrest

theorem triple_mainStart (env : StartEnv) :
    Triple ∅ (mainStart os num env) (fun g t => Owns (g.elim [] runningHandles) t) := by
  unfold mainStart
  apply Triple.ite
  · intro _
    exact Triple.pure owns_nil
  intro _
  apply (triple_configRead env.file).bind
  rintro (_ | cfg) _ ⟨rfl, -⟩
  · exact Triple.pure owns_nil
  dsimp only
  cases mainCrypto cfg env.keyBin with
  | none => exact Triple.pure owns_nil
  | some crypto =>
      apply (triple_tunOpen env.tun).bind
      rintro (_ | tunFd) t htun
      · exact Triple.pure htun
      apply (triple_tunConfigure env.address cfg.tunName cfg.tunAddr).callFresh
      rintro ⟨configured, _⟩ _ rfl -
      rw [Finset.empty_union]
      apply Triple.ite
      · intro _
        exact triple_releaseThen htun owns_nil
      intro _
      apply (triple_tunApplyForward env.forward cfg.tunName cfg).callFresh
      rintro _ _ rfl -
      rw [Finset.empty_union]
      apply (triple_transportOpen env.transport cfg).callFresh
      rintro (_ | transport) s htransport hdisj
      · rw [htransport.eq_empty, Finset.empty_union]
        exact triple_releaseThen htun owns_nil
      have hboth : Owns (transportHandles transport ++ [(.descriptor, tunFd)]) (s ∪ t) :=
        htransport.append htun hdisj
      apply (triple_obtainIf .memory env.strategy).callFresh
      rintro (_ | sctx) s' ⟨hsctx, -⟩ hdisj'
      · rw [hsctx.eq_empty, Finset.empty_union, transportFree_eq]
        apply Triple.releaseAllThen hboth
        intro t' ht'
        exact triple_releaseThen ht' owns_nil
      have hthree := hsctx.append hboth hdisj'
      apply (triple_mainMetrics env.metrics cfg).callFresh
      intro metricsFd u hmetrics hdisj''
      exact Triple.pure (hmetrics.append hthree hdisj'')

/-! ## The loop -/

theorem triple_mainScrape (metricsFd : Option ℕ) (ready : Option Bool) :
    Triple ∅ (mainScrape os metricsFd ready) (fun _ t => t = ∅) := by
  cases metricsFd with
  | none => exact Triple.pure rfl
  | some fd =>
      cases ready with
      | none => exact Triple.pure rfl
      | some accepted => exact triple_metricsConnection accepted

theorem triple_programTurn (fuel : ℕ) (g : Running) (turn : ProgramTurn) :
    Triple ∅ (programTurn os num fuel g turn) (fun res t => t = ∅ ∧
      ∀ r, res = some r → runningHandles r.1 = runningHandles g) := by
  unfold programTurn
  cases turn.reload with
  | some file =>
      apply (triple_configRead file).bind
      rintro cfg _ ⟨rfl, -⟩
      refine Triple.pure ⟨rfl, fun r hr => ?_⟩
      obtain ⟨q, -, rfl⟩ := Option.map_eq_some_iff.mp hr
      rfl
  | none =>
      dsimp only
      cases mainStep fuel g.st { turn.inp with reload := none } with
      | none => exact Triple.pure ⟨rfl, fun r hr => by cases hr⟩
      | some q =>
          obtain ⟨st, out⟩ := q
          have hsame : ∀ r, some (({ g with st := st } : Running), out) = some r →
              runningHandles r.1 = runningHandles g := by
            rintro _ ⟨rfl⟩
            rfl
          apply Triple.ite
          · intro _
            exact Triple.pure ⟨rfl, hsame⟩
          · intro _
            apply (triple_mainScrape g.metricsFd turn.scrape).bind
            rintro _ _ rfl
            exact Triple.pure ⟨rfl, hsame⟩

/-- What is held after a step, unless a turn did not end. -/
def HeldAfter {α : Type} (res : Option (Program × α)) (t : Finset Handle) : Prop :=
  ∀ p out, res = some (p, out) → Owns (programHandles p) t

theorem triple_programStep (fuel : ℕ) (g : Running) (inp : ProgramInput) {t : Finset Handle}
    (ht : Owns (runningHandles g) t) : Triple t (programStep os num fuel g inp) HeldAfter := by
  cases inp with
  | turn turn =>
      apply (triple_programTurn fuel g turn).callFresh
      rintro res _ ⟨rfl, hsame⟩ -
      rw [Finset.empty_union]
      apply Triple.pure
      intro p out hp
      obtain ⟨r, hr, hpair⟩ := Option.map_eq_some_iff.mp hp
      cases hpair
      rw [programHandles, hsame r hr]
      exact ht
  | shutdown env =>
      apply (triple_mainClose g ht).bind
      rintro _ _ rfl
      apply Triple.pure
      rintro _ _ ⟨rfl, rfl⟩
      exact owns_nil

theorem triple_programLoop (fuel : ℕ) (inputs : List ProgramInput) (p : Program)
    {t : Finset Handle} (ht : Owns (programHandles p) t) :
    Triple t (programLoop os num fuel inputs p) HeldAfter := by
  induction inputs generalizing p t with
  | nil =>
      apply Triple.pure
      rintro _ _ ⟨rfl, rfl⟩
      exact ht
  | cons inp inputs ih =>
      cases p with
      | exited =>
          apply Triple.pure
          rintro _ _ ⟨rfl, rfl⟩
          exact ht
      | running g =>
          apply (triple_programStep fuel g inp ht).bind
          rintro (_ | ⟨p', out⟩) t' ht'
          · apply Triple.pure
            intro _ _ h
            cases h
          · apply (ih p' (ht' p' out rfl)).bind
            intro res t'' ht''
            apply Triple.pure
            intro q outs hq
            obtain ⟨r, hr, hpair⟩ := Option.map_eq_some_iff.mp hq
            cases hpair
            exact ht'' r.1 r.2 hr

/-- **Handles of the program.** Whatever succeeds or fails outside, and whatever else is in
use, the program never closes or frees what it does not hold.  In its loop it holds what its
variables name, each once; when `main` has returned it holds nothing of what it opened. -/
theorem programMain_handles (os : System) (num : NumberParser) (fuel : ℕ) (env : StartEnv)
    (inputs : List ProgramInput) (live : Finset Handle) :
    ∃ res live', programMain os num fuel env inputs live = some (res, live') ∧
      ∀ p outs, res = some (p, outs) →
        (programHandles p).Nodup ∧ (∀ h ∈ programHandles p, h ∉ live) ∧
          live' = live ∪ (programHandles p).toFinset ∧ (p = .exited → live' = live) := by
  have hmain : Triple ∅ (programMain os num fuel env inputs) HeldAfter := by
    apply (triple_mainStart env).bind
    rintro (_ | g) t ht
    · apply Triple.pure
      rintro _ _ ⟨rfl, rfl⟩
      exact ht
    · exact triple_programLoop fuel inputs (.running g) ht
  obtain ⟨res, t, hrun, hdisj, hheld⟩ := hmain.run live
  refine ⟨res, live ∪ t, hrun, fun p outs hres => ?_⟩
  obtain ⟨hnodup, rfl⟩ := hheld p outs hres
  refine ⟨hnodup, fun h hmem hlive => ?_, rfl, ?_⟩
  · exact Finset.disjoint_left.mp hdisj hlive (List.mem_toFinset.mpr hmem)
  · rintro rfl
    exact Finset.union_empty live

end CodingGateway.Proofs.OpenHandles
