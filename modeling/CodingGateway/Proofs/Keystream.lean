import CodingGateway.Proofs.BlockAssembly
import CodingGateway.Proofs.Generator
import Mathlib.Data.UInt
set_option autoImplicit false

/-!
# No keystream is used twice

The nonce of a shard packs its block id and index; mixing it into the hash of the key,
and every step of the generator, is injective.  The replacement of a zero seed is not,
but the two nonces it brings together differ above their low 40 bits, and the nonce of
a shard has no more.
-/

namespace CodingGateway.Proofs.Keystream

open CodingGateway.Library
open CodingGateway.Model
open CodingGateway.Proofs.Cipher
open CodingGateway.Proofs.DeadPath
open CodingGateway.Proofs.EventLoop
open CodingGateway.Proofs.Flush
open CodingGateway.Proofs.Generator
open CodingGateway.Proofs.Sender
open CodingGateway.Proofs.SentBlocks

/-! ## The seed -/

def keyHash (key : ℕ → UInt8) : UInt64 :=
  (List.range cryptoKeyLen).foldl (fun s i => (s ^^^ (key i).toUInt64) * fnvPrime)
    0xcbf29ce484222325

/-- The inverse of the FNV prime modulo `2 ^ 64`. -/
def fnvInverse : UInt64 := 0xce965057aff6957b

theorem fnvPrime_mul_fnvInverse : fnvPrime * fnvInverse = 1 := by
  decide

theorem mul_fnvPrime_eq_iff {x y : UInt64} : x * fnvPrime = y ↔ x = y * fnvInverse := by
  constructor
  · rintro rfl
    rw [UInt64.mul_assoc, fnvPrime_mul_fnvInverse, UInt64.mul_one]
  · rintro rfl
    rw [UInt64.mul_assoc, UInt64.mul_comm fnvInverse, fnvPrime_mul_fnvInverse, UInt64.mul_one]

theorem mix_injective (hash : UInt64) :
    Function.Injective fun nonce : UInt64 => (hash ^^^ nonce) * fnvPrime := by
  intro x y h
  have hxor : hash ^^^ x = hash ^^^ y := by
    rw [mul_fnvPrime_eq_iff.mp h, UInt64.mul_assoc, fnvPrime_mul_fnvInverse, UInt64.mul_one]
  exact (UInt64.xor_right_inj hash).mp hxor

/-- The nonce that collides with a zero seed differs from its partner by a word of 64 bits. -/
theorem xor_eq_of_zero_seed {hash x y : UInt64} (hx : (hash ^^^ x) * fnvPrime = 0)
    (hy : (hash ^^^ y) * fnvPrime = 0x5A5A5A5A5A5A5A5A) : x ^^^ y = 0xe4436b2c587bcb3e := by
  have hx' : hash ^^^ x = 0 := by
    rw [mul_fnvPrime_eq_iff.mp hx, UInt64.zero_mul]
  have hy' : hash ^^^ y = 0xe4436b2c587bcb3e := by
    rw [mul_fnvPrime_eq_iff.mp hy]
    decide
  calc x ^^^ y = (hash ^^^ x) ^^^ (hash ^^^ y) := by
        rw [UInt64.xor_comm hash x, UInt64.xor_assoc, ← UInt64.xor_assoc hash, UInt64.xor_self,
          UInt64.zero_xor]
    _ = 0xe4436b2c587bcb3e := by
        rw [hx', hy', UInt64.zero_xor]

theorem not_zero_seed_pair {hash x y : UInt64} (hx40 : x.toNat < 2 ^ 40) (hy40 : y.toNat < 2 ^ 40)
    (hx : (hash ^^^ x) * fnvPrime = 0) :
    (hash ^^^ y) * fnvPrime ≠ 0x5A5A5A5A5A5A5A5A := by
  intro hy
  have hlow : (x ^^^ y).toNat < 2 ^ 40 := by
    rw [UInt64.toNat_xor]
    exact Nat.xor_lt_two_pow hx40 hy40
  rw [xor_eq_of_zero_seed hx hy] at hlow
  exact absurd hlow (by decide)

theorem seed_inj {key : ℕ → UInt8} {x y : UInt64} (hx : x.toNat < 2 ^ 40) (hy : y.toNat < 2 ^ 40)
    (h : seedFromKeyNonce key x = seedFromKeyNonce key y) : x = y := by
  have hseed (nonce : UInt64) : seedFromKeyNonce key nonce =
      if (keyHash key ^^^ nonce) * fnvPrime = 0 then 0x5A5A5A5A5A5A5A5A
      else (keyHash key ^^^ nonce) * fnvPrime := rfl
  rw [hseed, hseed] at h
  split_ifs at h with hzero hzero' hzero'
  · exact mix_injective (keyHash key) (hzero.trans hzero'.symm)
  · exact absurd h.symm (not_zero_seed_pair hx hy hzero)
  · exact absurd h (not_zero_seed_pair hy hx hzero')
  · exact mix_injective (keyHash key) h

theorem seed_eq_of_keystream {key : ℕ → UInt8} {x y : UInt64}
    (h : ∀ t < 8, keystream key x t = keystream key y t) :
    seedFromKeyNonce key x = seedFromKeyNonce key y := by
  apply xorshift64_injective
  apply eq_of_byteOf_eq
  intro t ht
  have hfirst (nonce : UInt64) :
      keystream key nonce t = byteOf (xorshift64 (seedFromKeyNonce key nonce)) t := by
    simpa using keystream_word key nonce 0 ht
  rw [← hfirst, ← hfirst]
  exact h t ht

/-! ## The nonces of the shards -/

theorem toNat_shardNonce (blockId : UInt32) {idx : ℕ} (hidx : idx < 256) :
    (shardNonce blockId idx).toNat = blockId.toNat * 256 + idx := by
  have hblock := blockId.toNat_lt
  have hidx' : (UInt64.ofNat idx).toNat = idx := by
    rw [UInt64.toNat_ofNat']
    omega
  have hdist : (8 : UInt64).toNat % 64 = 8 := by decide
  have hshift : (blockId.toUInt64 <<< 8).toNat = blockId.toNat <<< 8 := by
    rw [UInt64.toNat_shiftLeft, UInt32.toNat_toUInt64, hdist, Nat.shiftLeft_eq]
    exact Nat.mod_eq_of_lt (by omega)
  rw [shardNonce, UInt64.toNat_or, hshift, hidx',
    ← Nat.shiftLeft_add_eq_or_of_lt (by omega), Nat.shiftLeft_eq]

/-- Two nonces give different seeds, and the first eight bytes of their keystreams differ. -/
def Apart (key : ℕ → UInt8) (x y : UInt64) : Prop :=
  seedFromKeyNonce key x ≠ seedFromKeyNonce key y ∧ ∃ t < 8, keystream key x t ≠ keystream key y t

theorem apart_shardNonce (key : ℕ → UInt8) {b b' : UInt32} {i i' : ℕ} (hi : i < 256)
    (hi' : i' < 256) (hne : (b, i) ≠ (b', i')) :
    Apart key (shardNonce b i) (shardNonce b' i') := by
  have hnat := toNat_shardNonce b hi
  have hnat' := toNat_shardNonce b' hi'
  have hb := b.toNat_lt
  have hb' := b'.toNat_lt
  have hseed : seedFromKeyNonce key (shardNonce b i) ≠
      seedFromKeyNonce key (shardNonce b' i') := by
    intro h
    have hnonce := congrArg UInt64.toNat (seed_inj (by omega) (by omega) h)
    have hblock : b = b' := UInt32.toNat_inj.mp (by omega)
    have hidx : i = i' := by omega
    exact hne (by rw [hblock, hidx])
  refine ⟨hseed, ?_⟩
  by_contra hsame
  simp only [not_exists, not_and, not_not] at hsame
  exact hseed (seed_eq_of_keystream hsame)

/-! ## The blocks of a run -/

/-- The blocks flushed so far have the ids from 0 on, and the next two ids are taken by the
block being filled and by the one after it. -/
structure Numbered (st : MainState) (flushed : List TxBlock) : Prop where
  ids : flushed.map TxBlock.blockId = (List.range flushed.length).map UInt32.ofNat
  blockId : st.tx.blockId = UInt32.ofNat flushed.length
  next : st.nextBlockId = UInt32.ofNat (flushed.length + 1)

section Run

variable {fuel : ℕ} {st st' : MainState} {flushed : List TxBlock}

theorem Numbered.congr (h : Numbered st flushed) (hid : st'.tx.blockId = st.tx.blockId)
    (hnext : st'.nextBlockId = st.nextBlockId) : Numbered st' flushed :=
  ⟨h.ids, hid.trans h.blockId, hnext.trans h.next⟩

theorem Numbered.ids_concat (h : Numbered st flushed) :
    (flushed ++ [st.tx]).map TxBlock.blockId =
      (List.range (flushed ++ [st.tx]).length).map UInt32.ofNat := by
  rw [List.length_append, List.length_singleton, List.range_succ, List.map_append, List.map_append,
    h.ids, List.map_singleton, List.map_singleton, h.blockId]

theorem numbered_mainFlush (h : Numbered st flushed) (env : FlushEnv) :
    Numbered (mainFlush st env).1 (flushed ++ (mainFlush st env).2.1) := by
  have hlen : (flushed ++ (mainFlush st env).2.1).length = flushed.length + 1 :=
    List.length_append
  refine ⟨h.ids_concat, ?_, ?_⟩
  · calc (mainFlush st env).1.tx.blockId = st.nextBlockId := rfl
      _ = UInt32.ofNat (flushed ++ (mainFlush st env).2.1).length := by rw [h.next, hlen]
  · calc (mainFlush st env).1.nextBlockId = st.nextBlockId + 1 := rfl
      _ = UInt32.ofNat ((flushed ++ (mainFlush st env).2.1).length + 1) := by
        rw [h.next, hlen]
        exact (UInt32.ofNat_add (flushed.length + 1) 1).symm

theorem numbered_mainRead (h : Numbered st flushed) (inp : MainInput) :
    Numbered (mainRead st inp).1 (flushed ++ (mainRead st inp).2.1) := by
  have hidle : Numbered st (flushed ++ []) := (List.append_nil flushed).symm ▸ h
  unfold mainRead
  split_ifs with htx
  · cases inp.packet with
    | none => exact hidle
    | some pkt =>
        have hadd : Numbered { st with tx := (txBlockAddPkt st.tx (arrayOf pkt.bytes)
            (UInt16.ofNat pkt.bytes.length) st.cfg.k.toNat inp.addTime).1 } flushed :=
          h.congr (txBlockAddPkt_blockId ..) rfl
        dsimp only
        split_ifs
        · exact numbered_mainFlush hadd inp.fullFlush
        · exact (List.append_nil flushed).symm ▸ hadd
  · exact hidle

theorem numbered_mainTimeout (h : Numbered st flushed) (inp : MainInput) :
    Numbered (mainTimeout st inp).1 (flushed ++ (mainTimeout st inp).2.1) := by
  unfold mainTimeout
  split_ifs
  · exact numbered_mainFlush h inp.timeoutFlush
  · exact (List.append_nil flushed).symm ▸ h

theorem numbered_mainStep {inp : MainInput} {out : MainOutput} (h : Numbered st flushed)
    (hstep : mainStep fuel st inp = some (st', out)) :
    Numbered st' (flushed ++ out.flushed) := by
  rcases mainStep_cases hstep with ⟨newCfg, hreload, rfl, rfl⟩ | ⟨hreload, hselect, rfl, rfl⟩ |
    ⟨hreload, hselect, ⟨p⟩⟩
  · have hkeep : Numbered (mainReload st newCfg) flushed := by
      cases newCfg <;> exact h.congr rfl rfl
    exact (List.append_nil flushed).symm ▸ hkeep
  · exact (List.append_nil flushed).symm ▸ h
  · have hread := numbered_mainRead h inp
    rw [p.read_eq] at hread
    have htimeout := numbered_mainTimeout hread inp
    rw [p.timeout_eq] at htimeout
    obtain ⟨hrxTx, hrxNext, -⟩ := mainRx_sender p.received_eq
    have hprobe : st'.tx = p.received.tx ∧ st'.nextBlockId = p.received.nextBlockId := by
      simpa only [p.probe_eq] using mainProbe_sender p.received inp
    rw [p.out_flushed, ← List.append_assoc]
    exact htimeout.congr (congrArg TxBlock.blockId (hprobe.1.trans hrxTx))
      (hprobe.2.trans hrxNext)

theorem numbered_mainRun {cfg : GatewayConfig} {tctx : TransportCtx} {crypto : CryptoCtx}
    {now : Timeval} {inputs : List MainInput} {outs : List MainOutput}
    (hrun : mainRun fuel (mainInit cfg tctx crypto now) inputs = some (st, outs)) :
    Numbered st (outs.flatMap MainOutput.flushed) := by
  refine Machine.run_induction
    (P := fun _ st outs => Numbered st (outs.flatMap MainOutput.flushed)) ?_ ?_ hrun
  · exact ⟨rfl, rfl, rfl⟩
  · intro pre s os i s' o _ hnumbered hstep
    rw [List.flatMap_append, List.flatMap_singleton]
    exact numbered_mainStep hnumbered hstep

theorem ids_mainDrain (h : Numbered st flushed) (env : FlushEnv) :
    (flushed ++ (mainDrain st env).2.1).map TxBlock.blockId =
      (List.range (flushed ++ (mainDrain st env).2.1).length).map UInt32.ofNat := by
  unfold mainDrain
  split_ifs
  · exact h.ids_concat
  · have hnone : flushed ++ [] = flushed := List.append_nil flushed
    exact hnone.symm ▸ h.ids

end Run

/-! ## The keystreams of a run -/

/-- The shards of the flushed blocks have pairwise different keystreams. -/
def NeverReused (key : ℕ → UInt8) (flushed : List TxBlock) : Prop :=
  ∀ (j j' : Fin flushed.length) (s s' : ℕ), s < maxN → s' < maxN → (j, s) ≠ (j', s') →
    Apart key (shardNonce (flushed.get j).blockId s) (shardNonce (flushed.get j').blockId s')

theorem neverReused_of_ids {key : ℕ → UInt8} {flushed : List TxBlock}
    (hids : flushed.map TxBlock.blockId = (List.range flushed.length).map UInt32.ofNat)
    (hbound : flushed.length ≤ 2 ^ 32) : NeverReused key flushed := by
  have hid (j : Fin flushed.length) : (flushed.get j).blockId = UInt32.ofNat j := by
    have hget := congrArg (fun l => l[j.val]?) hids
    simpa using hget
  intro j j' s s' hs hs' hne
  have hmaxN : maxN ≤ 256 := by decide
  refine apart_shardNonce key (hs.trans_le hmaxN) (hs'.trans_le hmaxN) fun heq => hne ?_
  rw [Prod.mk.injEq, hid, hid] at heq
  have hnat := congrArg UInt32.toNat heq.1
  rw [UInt32.toNat_ofNat', UInt32.toNat_ofNat'] at hnat
  have hj : j = j' := by
    apply Fin.ext
    omega
  rw [hj, heq.2]

theorem flushShards_data {crypto : CryptoCtx} (hon : crypto.enabled = true) (blk : TxBlock)
    (env : FlushEnv) {k n s : ℕ} (hs : s < n) {t : ℕ} (ht : t < (shardLen blk k).toNat) :
    (flushShards (filled blk k) k n crypto env s).data t =
      (encoded blk k env s).data t ^^^ keystream crypto.key (shardNonce blk.blockId s) t := by
  calc (flushShards (filled blk k) k n crypto env s).data t
      = cryptoXor crypto (encoded blk k env s).data (encoded blk k env s).len.toNat
          (shardNonce blk.blockId s) t := by
        rw [flushShards_eq blk crypto env hs, wireShard]
    _ = (encoded blk k env s).data t ^^^ keystream crypto.key (shardNonce blk.blockId s) t := by
        rw [cryptoXor_apply, encoded_len, if_pos ⟨hon, ht⟩]

/-- **Keystream uniqueness.** For every key, two different pairs of a block id and a shard index
give different seeds and keystreams that differ within eight bytes.  A run of at most `2 ^ 32`
blocks, the drained one included, never repeats a pair, so none of its keystreams comes twice;
and every shard is sent under the keystream of its pair. -/
theorem keystream_unique (key : ℕ → UInt8) {cfg : GatewayConfig} {tctx : TransportCtx}
    {now : Timeval} {fuel : ℕ} {inputs : List MainInput} {st : MainState} {outs : List MainOutput}
    (hrun : mainRun fuel (mainInit cfg tctx (cryptoInit (some key)) now) inputs = some (st, outs))
    (env : FlushEnv)
    (hbound : (outs.flatMap MainOutput.flushed ++ (mainDrain st env).2.1).length ≤ 2 ^ 32) :
    (∀ (b b' : UInt32) (i i' : ℕ), i < 256 → i' < 256 → (b, i) ≠ (b', i') →
      Apart key (shardNonce b i) (shardNonce b' i')) ∧
    NeverReused key (outs.flatMap MainOutput.flushed ++ (mainDrain st env).2.1) ∧
    ∀ (blk : TxBlock) (env : FlushEnv) (k n s t : ℕ), s < n → t < (shardLen blk k).toNat →
      (flushShards (filled blk k) k n (cryptoInit (some key)) env s).data t =
        (encoded blk k env s).data t ^^^ keystream key (shardNonce blk.blockId s) t := by
  refine ⟨fun b b' i i' hi hi' hne => apart_shardNonce key hi hi' hne, ?_, ?_⟩
  · exact neverReused_of_ids (ids_mainDrain (numbered_mainRun hrun) env) hbound
  · intro blk env k n s t hs ht
    exact flushShards_data rfl blk env hs ht

/-- The blocks of the run that reads one packet and stops. -/
def onePacketRun (key : ℕ → UInt8) : Option (MainState × List MainOutput) :=
  mainRun 1 (mainInit onePathConfig onePathSocket (cryptoInit (some key)) ⟨0, 0⟩)
    [{ quietTurn with packet := some shortPacket }]

theorem keystream_unique_onePacket :
    ∃ st outs, onePacketRun (fun _ => 0) = some (st, outs) ∧
      (outs.flatMap MainOutput.flushed ++ (mainDrain st quietTurn.fullFlush).2.1).length = 1 ∧
      NeverReused (fun _ => 0)
        (outs.flatMap MainOutput.flushed ++ (mainDrain st quietTurn.fullFlush).2.1) := by
  have hlength : (onePacketRun fun _ => 0).map (fun p =>
      (p.2.flatMap MainOutput.flushed ++ (mainDrain p.1 quietTurn.fullFlush).2.1).length) =
        some 1 := by
    decide +kernel
  obtain ⟨⟨st, outs⟩, hrun, hone⟩ := Option.map_eq_some_iff.mp hlength
  have hbound := hone.trans_le (by decide : 1 ≤ 2 ^ 32)
  exact ⟨st, outs, hrun, hone, (keystream_unique (fun _ => 0) hrun quietTurn.fullFlush hbound).2.1⟩

end CodingGateway.Proofs.Keystream
