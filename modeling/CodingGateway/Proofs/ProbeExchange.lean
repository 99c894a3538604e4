import CodingGateway.Proofs.Flush
import CodingGateway.Proofs.PathHealth
import CodingGateway.Proofs.WireFormat
set_option autoImplicit false

/-!
# Probes between two gateways

A gateway probes its paths, the peer answers every probe it reads, and the network loses,
repeats, delays and reorders what it carries.  Both ends run the event loop, and their turns
may come in any order.

* `sent_cases` — what a turn puts on the wire: shards, an answer to the probe it read, probes;
* `sound_exchangeRun` — every answer on the wire belongs to a probe that left before.
-/

namespace CodingGateway.Proofs.ProbeExchange

open CodingGateway.Model
open CodingGateway.Library
open CodingGateway.Proofs.EventLoop
open CodingGateway.Proofs.Scheduler
open CodingGateway.Proofs.PathHealth
open CodingGateway.Proofs.Flush
open CodingGateway.Proofs.Wire
open CodingGateway.Proofs.WireFormat

/-! ## What a turn sends -/

def typeOf (bytes : List UInt8) : UInt8 := (headerOf bytes).type

theorem typeOf_shardDatagram (blockId : UInt32) (shardIdx k n : UInt8) (s : Shard) :
    typeOf (shardDatagram blockId shardIdx k n s) = typeData := by
  rw [typeOf, headerOf, shardDatagram, List.append_assoc, parseHeader_headerBytes]

theorem typeOf_probeDatagram (type : UInt8) (ts : UInt64) :
    typeOf (probeDatagram type ts) = type := (probeChecks_probeDatagram type ts).type

theorem typeOf_of_mem_flush {blk : TxBlock} {tctx : TransportCtx} {sctx : StrategyCtx} {k : ℕ}
    {crypto : CryptoCtx} {metrics : Metrics} {env : FlushEnv} {d : ℕ × List UInt8}
    (hd : d ∈ (txBlockFlush blk tctx sctx k crypto metrics env).sent) : typeOf d.2 = typeData := by
  by_cases hempty : blk.pktCount = 0
  · rw [txBlockFlush, if_pos hempty] at hd
    cases hd
  · obtain ⟨s, _, hshard⟩ := mem_sent hempty hd
    rw [hshard]
    exact typeOf_shardDatagram ..

section Turn

variable {fuel : ℕ} {st st' : MainState} {inp : MainInput}

theorem typeOf_of_mem_mainRead {d : ℕ × List UInt8} (hd : d ∈ (mainRead st inp).2.2) :
    typeOf d.2 = typeData := by
  unfold mainRead at hd
  split_ifs at hd with htx
  · cases hpacket : inp.packet with
    | none =>
        rw [hpacket] at hd
        cases hd
    | some pkt =>
        rw [hpacket] at hd
        dsimp only at hd
        split_ifs at hd with hfull
        · exact typeOf_of_mem_flush hd
        · cases hd
  · cases hd

theorem typeOf_of_mem_mainTimeout {d : ℕ × List UInt8} (hd : d ∈ (mainTimeout st inp).2.2) :
    typeOf d.2 = typeData := by
  unfold mainTimeout at hd
  split_ifs at hd with hflush
  · exact typeOf_of_mem_flush hd
  · cases hd

theorem sent_of_mainRx {rx : Option RxOutput} {sent : List (ℕ × List UInt8)}
    (h : mainRx fuel st inp = some (st', rx, sent)) {d : ℕ × List UInt8} (hd : d ∈ sent) :
    ∃ r ts, inp.arrival = some r ∧
      transportRecv st.tctx r.dgram r.garbage.shardIn = .probe ts d.1 ∧
      d.2 = probeDatagram typeProbeEcho ts := by
  cases rxPhase_of_mainRx h with
  | quiet => cases hd
  | refused => cases hd
  | shard => cases hd
  | shardIgnored => cases hd
  | echo => cases hd
  | echoIgnored => cases hd
  | @probe r ts path harr hrecv =>
      split_ifs at hd with hsent
      · rw [List.mem_singleton.mp hd]
        exact ⟨r, ts, harr, hrecv, rfl⟩
      · cases hd

theorem sent_cases {out : MainOutput} (h : mainStep fuel st inp = some (st', out))
    {d : ℕ × List UInt8} (hd : d ∈ out.sent) :
    typeOf d.2 = typeData ∨
      (∃ r ts, inp.arrival = some r ∧
        transportRecv st.tctx r.dgram r.garbage.shardIn = .probe ts d.1 ∧
        d.2 = probeDatagram typeProbeEcho ts) ∨
      d.1 ∈ out.probed ∧ d.2 = probeDatagram typeProbe inp.probeUs := by
  rcases mainStep_cases h with ⟨_, _, rfl, rfl⟩ | ⟨_, _, rfl, rfl⟩ | ⟨_, _, ⟨p⟩⟩
  · cases hd
  · cases hd
  · rw [p.out_sent, List.mem_append, List.mem_append, List.mem_append] at hd
    rcases hd with ((hread | htimeout) | hanswer) | hprobe
    · have hfst : d ∈ (mainRead st inp).2.2 := by
        rw [p.read_eq]
        exact hread
      exact Or.inl (typeOf_of_mem_mainRead hfst)
    · have hsnd : d ∈ (mainTimeout p.read inp).2.2 := by
        rw [p.timeout_eq]
        exact htimeout
      exact Or.inl (typeOf_of_mem_mainTimeout hsnd)
    · have hrecv := sent_of_mainRx p.received_eq hanswer
      rw [p.sameSetup_timeout.1.tctx] at hrecv
      exact Or.inr (Or.inl hrecv)
    · obtain ⟨q, hq, rfl⟩ := List.mem_map.mp hprobe
      rw [p.out_probed]
      exact Or.inr (Or.inr ⟨hq, rfl⟩)

end Turn

/-! ## The exchange -/

/-- Two gateways and the probes between them.  Datagrams stay on the wire: they may be
delivered late, in any order, more than once or never.  An answer stands beside the path
that its probe was sent on. -/
structure Exchange where
  near : MainState
  far : MainState
  probes : List (ℕ × List UInt8)
  echoes : List (ℕ × List UInt8)

/-- Whose turn it is, and what the turn meets.  In `near` and `far` it may read any datagram
or none; in `answer` the peer reads the `n`-th probe, which it sees come from `sender`; in
`deliver` the `n`-th answer comes back. -/
inductive Event
  | near (inp : MainInput)
  | far (inp : MainInput)
  | answer (n : ℕ) (sender : UInt32) (r : RxInput) (inp : MainInput)
  | deliver (n : ℕ) (r : RxInput) (inp : MainInput)

def reading (inp : MainInput) (r : RxInput) (dgram : Datagram) : MainInput :=
  { inp with selectFailed := false, reload := none, arrival := some { r with dgram := dgram } }

def ofType (type : UInt8) (sent : List (ℕ × List UInt8)) : List (ℕ × List UInt8) :=
  sent.filter fun d => typeOf d.2 == type

theorem mem_ofType {type : UInt8} {sent : List (ℕ × List UInt8)} {d : ℕ × List UInt8} :
    d ∈ ofType type sent ↔ d ∈ sent ∧ typeOf d.2 = type := by
  rw [ofType, List.mem_filter, beq_iff_eq]

/-- One turn of either gateway.  The peer's replies for path `i` come from the remote address
configured for path `i`. -/
def exchangeStep (fuel : ℕ) (x : Exchange) : Event → Option (Exchange × MainOutput)
  | .near inp =>
      (mainStep fuel x.near inp).map fun r =>
        ({ x with near := r.1, probes := x.probes ++ ofType typeProbe r.2.sent }, r.2)
  | .far inp => (mainStep fuel x.far inp).map fun r => ({ x with far := r.1 }, r.2)
  | .answer n sender r inp =>
      x.probes[n]?.bind fun d =>
        (mainStep fuel x.far (reading inp r ⟨sender, d.2⟩)).map fun r =>
          ({ x with
              far := r.1
              echoes := x.echoes ++ (ofType typeProbeEcho r.2.sent).map fun e => (d.1, e.2) },
            r.2)
  | .deliver n r inp =>
      x.echoes[n]?.bind fun d =>
        (mainStep fuel x.near
          (reading inp r ⟨(x.near.tctx.paths d.1).remoteAddr, d.2⟩)).map fun r =>
            ({ x with near := r.1, probes := x.probes ++ ofType typeProbe r.2.sent }, r.2)

def exchangeRun (fuel : ℕ) : Exchange → List Event → Option (Exchange × List MainOutput) :=
  Machine.run (exchangeStep fuel)

/-- What every exchange keeps: each probe on the wire left on an enabled path of a gateway that
sends, and each answer repeats the timestamp of a probe that left on the path beside it. -/
structure Sound (tctx : TransportCtx) (pathCount : ℕ) (x : Exchange) : Prop where
  sockets : x.near.tctx = tctx
  lossFree : LossFree x.near.sctx
  count : x.near.sctx.pathCount = pathCount
  probes : ∀ d ∈ x.probes, (∃ ts, d.2 = probeDatagram typeProbe ts) ∧ x.near.isTx = true ∧
    d.1 < pathCount ∧ (tctx.paths d.1).enabled = true
  echoes : ∀ d ∈ x.echoes, ∃ ts, d.2 = probeDatagram typeProbeEcho ts ∧
    (d.1, probeDatagram typeProbe ts) ∈ x.probes

section Invariant

variable {fuel pathCount : ℕ} {tctx : TransportCtx} {x : Exchange}

theorem Sound.near {st : MainState} {inp : MainInput} {out : MainOutput}
    (h : Sound tctx pathCount x) (hstep : mainStep fuel x.near inp = some (st, out)) :
    Sound tctx pathCount
      { x with near := st, probes := x.probes ++ ofType typeProbe out.sent } := by
  have hpath := pathStep_mainStep h.lossFree hstep
  have hsetup := (mainStep_window hstep).1
  refine ⟨hsetup.tctx.trans h.sockets, hpath.lossFree, hpath.pathCount.trans h.count,
    fun d hd => ?_, fun d hd => ?_⟩
  · rcases List.mem_append.mp hd with hold | hnew
    · obtain ⟨hts, htx, hrest⟩ := h.probes d hold
      exact ⟨hts, hsetup.isTx.trans htx, hrest⟩
    · obtain ⟨hsent, htype⟩ := mem_ofType.mp hnew
      rcases sent_cases hstep hsent with hdata | ⟨_, ts, _, _, hecho⟩ | ⟨hprobed, hprobe⟩
      · rw [hdata] at htype
        cases htype
      · rw [hecho, typeOf_probeDatagram] at htype
        cases htype
      · obtain ⟨htick, hi, _, hsend⟩ := (hpath.probed d.1).mp hprobed
        have henabled : (tctx.paths d.1).enabled = true := by
          rw [h.sockets] at hsend
          by_contra hoff
          simp [sendBuf, hoff] at hsend
        exact ⟨⟨_, hprobe⟩, hsetup.isTx.trans htick.2.2.1, h.count ▸ hi, henabled⟩
  · obtain ⟨ts, hecho, hmem⟩ := h.echoes d hd
    exact ⟨ts, hecho, List.mem_append_left _ hmem⟩

theorem Sound.answer {d : ℕ × List UInt8} {sender : UInt32} {r : RxInput} {st : MainState}
    {inp : MainInput} {out : MainOutput} (h : Sound tctx pathCount x) (hd : d ∈ x.probes)
    (hstep : mainStep fuel x.far (reading inp r ⟨sender, d.2⟩) = some (st, out)) :
    Sound tctx pathCount
      { x with
        far := st
        echoes := x.echoes ++ (ofType typeProbeEcho out.sent).map fun e => (d.1, e.2) } := by
  refine ⟨h.sockets, h.lossFree, h.count, h.probes, fun e he => ?_⟩
  rcases List.mem_append.mp he with hold | hnew
  · exact h.echoes e hold
  · obtain ⟨e', he', rfl⟩ := List.mem_map.mp hnew
    obtain ⟨hsent, htype⟩ := mem_ofType.mp he'
    rcases sent_cases hstep hsent with hdata | ⟨r', ts, harr, hrecv, hecho⟩ | ⟨_, hprobe⟩
    · rw [hdata] at htype
      cases htype
    · refine ⟨ts, hecho, ?_⟩
      obtain ⟨ts', hd'⟩ := (h.probes d hd).1
      have hdgram : r'.dgram = ⟨sender, d.2⟩ := by
        cases harr
        rfl
      rw [hdgram, hd', (transportRecv_sent x.far.tctx sender r'.garbage.shardIn).2.1 ts'] at hrecv
      rw [Received.probe.injEq] at hrecv
      rw [← hrecv.1, ← hd']
      exact hd
    · rw [hprobe, typeOf_probeDatagram] at htype
      cases htype

theorem sound_exchangeStep {x' : Exchange} {e : Event} {out : MainOutput}
    (h : Sound tctx pathCount x) (hstep : exchangeStep fuel x e = some (x', out)) :
    Sound tctx pathCount x' := by
  cases e with
  | near inp =>
      obtain ⟨r, hr, heq⟩ := Option.map_eq_some_iff.mp hstep
      cases heq
      exact h.near hr
  | far inp =>
      obtain ⟨r, hr, heq⟩ := Option.map_eq_some_iff.mp hstep
      cases heq
      exact ⟨h.sockets, h.lossFree, h.count, h.probes, h.echoes⟩
  | answer n sender r inp =>
      obtain ⟨d, hd, hmap⟩ := Option.bind_eq_some_iff.mp hstep
      obtain ⟨q, hq, heq⟩ := Option.map_eq_some_iff.mp hmap
      cases heq
      exact h.answer (List.mem_of_getElem? hd) hq
  | deliver n r inp =>
      obtain ⟨d, hd, hmap⟩ := Option.bind_eq_some_iff.mp hstep
      obtain ⟨q, hq, heq⟩ := Option.map_eq_some_iff.mp hmap
      cases heq
      exact h.near hq

/-- Every run of the exchange keeps the wire sound, whatever state the peer starts in. -/
theorem sound_exchangeRun {x' : Exchange} {events : List Event} {outs : List MainOutput}
    (h : Sound tctx pathCount x) (hrun : exchangeRun fuel x events = some (x', outs)) :
    Sound tctx pathCount x' :=
  Machine.run_induction (P := fun _ x' _ => Sound tctx pathCount x') h
    (fun _ _ _ _ _ _ _ ih hstep => sound_exchangeStep ih hstep) hrun

end Invariant

end CodingGateway.Proofs.ProbeExchange
