import CodingGateway.Proofs.FirstBlocks
import CodingGateway.Proofs.SentBlocks
set_option autoImplicit false

/-!
# Reordering

Shards of the blocks `b .. b + W - 1` arrive interleaved.  The first shard of a newer
block moves `base_id` up to it, so a block is decoded exactly if it can be decoded from
the shards that arrive before any shard of a newer block.
-/

namespace CodingGateway.Proofs.Reordering

open CodingGateway.Model
open CodingGateway.Library
open CodingGateway.Proofs.Completeness
open CodingGateway.Proofs.Elimination
open CodingGateway.Proofs.FieldTables
open CodingGateway.Proofs.FirstBlocks
open CodingGateway.Proofs.Flush
open CodingGateway.Proofs.ReceiveLoop
open CodingGateway.Proofs.SentBlocks
open CodingGateway.Proofs.Transfer
open CodingGateway.Proofs.Window

/-- Shard `shard` of block number `block` arrives, and this is what processing it meets. -/
structure ShardArrival where
  block : ℕ
  shard : ℕ
  sender : UInt32
  garbage : StackGarbage
  insertUs : UInt64
  advanceUs : ℕ → UInt64

/-- The shards of a block among the arrivals, by rising index. -/
def arrivedShards (xs : List ShardArrival) (n : ℕ) : List ℕ :=
  (List.range maxN).filter fun s => xs.any fun x => decide (x.block = n) && decide (x.shard = s)

/-- The `k` shards of lowest index are there and independent. -/
def Decodable (b : SentBlock) (k : ℕ) (shards : List ℕ) : Prop :=
  k ≤ shards.length ∧ LinearIndependent GF256
    fun i : Fin k => coeffRow k (encoded (b.block k) k b.env (shards.getD i 0))

section Interleaving

variable (blocks : ℕ → SentBlock) (k : ℕ) (crypto : CryptoCtx)

/-- The datagram of the shard, as it is read. -/
def ShardArrival.input (x : ShardArrival) : RxInput where
  dgram := ⟨x.sender, datagram ((blocks x.block).block k) k ((blocks x.block).shardCount k) crypto
    (blocks x.block).env x.shard⟩
  garbage := x.garbage
  insertUs := x.insertUs
  advanceUs := x.advanceUs

/-- Shards of `W` consecutive blocks arrive, each block's within 50 ms of its first one: no
clock reading before a later shard of the block is 50 ms past the first. -/
structure Interleaving (W : ℕ) (b : UInt32) (xs : List ShardArrival) : Prop where
  ids : ∀ n < W, (blocks n).blockId = nth b n
  filled : ∀ n < W, (blocks n).Filled k
  inRange : ∀ x ∈ xs, x.block < W ∧ x.shard < (blocks x.block).shardCount k
  timely : ∀ pre x mid z post, xs = pre ++ x :: (mid ++ z :: post) → z.block = x.block →
    (∀ y ∈ pre, y.block ≠ x.block) → ∀ y ∈ x :: mid, ∀ p,
      y.advanceUs p - x.insertUs < rxBlockTimeoutUs

/-- Block `n` can be decoded at a point where no shard of a newer block has arrived. -/
def InTime (xs : List ShardArrival) (n : ℕ) : Prop :=
  ∃ pre, pre <+: xs ∧ (∀ x ∈ pre, x.block ≤ n) ∧ Decodable (blocks n) k (arrivedShards pre n)

/-- All systematic shards of block `n` arrive. -/
def SystematicArrived (xs : List ShardArrival) (n : ℕ) : Prop :=
  ∀ s < k, ∃ x ∈ xs, x.block = n ∧ x.shard = s

/-- The delivery is one of the block, and the packets of the block are written first. -/
def Restores (b : SentBlock) (dl : Delivery) : Prop :=
  dl.blockId = b.blockId ∧
    ((∀ p ∈ b.bytes, IsIpPacket p) → dl.writes.take b.packets.length = b.bytes)

/-- Block `n` is decoded and its packets are written. -/
def Delivered (outs : List RxOutput) (n : ℕ) : Prop :=
  ∃ dl ∈ deliveries outs, Restores (blocks n) dl

end Interleaving

/-! ## The shards that arrived -/

theorem mem_arrivedShards {xs : List ShardArrival} {n s : ℕ} :
    s ∈ arrivedShards xs n ↔ s < maxN ∧ ∃ x ∈ xs, x.block = n ∧ x.shard = s := by
  simp [arrivedShards]

theorem arrivedShards_concat_of_ne {xs : List ShardArrival} {x : ShardArrival} {n : ℕ}
    (hx : x.block ≠ n) : arrivedShards (xs ++ [x]) n = arrivedShards xs n := by
  simp [arrivedShards, hx]

theorem mem_arrivedShards_concat {xs : List ShardArrival} {x : ShardArrival} {s : ℕ}
    (hs : x.shard < maxN) : s ∈ arrivedShards (xs ++ [x]) x.block ↔
      s = x.shard ∨ s ∈ arrivedShards xs x.block := by
  simp only [mem_arrivedShards, List.mem_append, List.mem_singleton]
  constructor
  · rintro ⟨hlt, y, hy | rfl, hblock, hshard⟩
    · exact Or.inr ⟨hlt, y, hy, hblock, hshard⟩
    · exact Or.inl hshard.symm
  · rintro (rfl | ⟨hlt, y, hy, hblock, hshard⟩)
    · exact ⟨hs, x, Or.inr rfl, rfl, rfl⟩
    · exact ⟨hlt, y, Or.inl hy, hblock, hshard⟩

theorem inTime_concat {blocks : ℕ → SentBlock} {k : ℕ} {xs : List ShardArrival} {x : ShardArrival}
    {n : ℕ} : InTime blocks k (xs ++ [x]) n ↔ InTime blocks k xs n ∨
      (∀ y ∈ xs ++ [x], y.block ≤ n) ∧ Decodable (blocks n) k (arrivedShards (xs ++ [x]) n) := by
  constructor
  · rintro ⟨pre, hpre, hle, hdec⟩
    rcases List.prefix_concat_iff.mp hpre with rfl | hpre
    · exact Or.inr ⟨hle, hdec⟩
    · exact Or.inl ⟨pre, hpre, hle, hdec⟩
  · rintro (⟨pre, hpre, hle, hdec⟩ | ⟨hle, hdec⟩)
    · exact ⟨pre, hpre.trans (List.prefix_append xs [x]), hle, hdec⟩
    · exact ⟨_, List.prefix_rfl, hle, hdec⟩

/-! ## A block that is being collected -/

/-- The block in the window has the shards that arrived, and dates from the first of them. -/
structure Collects (xs : List ShardArrival) (n : ℕ) (rb : RxBlock) : Prop where
  undecoded : rb.decoded = false
  received : ∀ s, rb.received s = true ↔ s ∈ arrivedShards xs n
  first : ∃ pre x post, xs = pre ++ x :: post ∧ x.block = n ∧ (∀ y ∈ pre, y.block ≠ n) ∧
    rb.firstRecvUs = x.insertUs

theorem Collects.concat_of_ne {xs : List ShardArrival} {x : ShardArrival} {n : ℕ} {rb : RxBlock}
    (h : Collects xs n rb) (hx : x.block ≠ n) : Collects (xs ++ [x]) n rb := by
  obtain ⟨pre, y, post, rfl, hy, hpre, hfirst⟩ := h.first
  refine ⟨h.undecoded, ?_, pre, y, post ++ [x], by simp, hy, hpre, hfirst⟩
  rw [arrivedShards_concat_of_ne hx]
  exact h.received

theorem exists_decodes_iff_decodable {b : SentBlock} {k : ℕ} {xs : List ShardArrival} {n : ℕ}
    {rb : RxBlock} (hfill : b.Filled k) (hcount : Counted rb)
    (hrestored : Restored (b.block k) k b.env rb) (hcollect : Collects xs n rb)
    (garbage : StackGarbage) :
    (∃ o, Decodes rb k garbage o) ↔ Decodable b k (arrivedShards xs n) := by
  have hindices : receivedIndices rb = arrivedShards xs n := by
    apply List.filter_congr
    intro s hs
    rw [Bool.eq_iff_iff, hcollect.received s, mem_arrivedShards]
    simp [List.mem_range.mp hs]
  have hlens : ∀ s, rb.received s = true → (rb.shards s).len = shardLen (b.block k) k :=
    fun s hs => (hrestored s hs).len.trans (encoded_len ..)
  rw [exists_decodes_iff hcount hlens (block_shardLen_le hfill) hcollect.undecoded garbage,
    Decodable, hindices]
  refine and_congr_right fun hk => ?_
  have hrows : (fun i : Fin k => coeffRow k (rb.shards (lowestReceived rb i))) =
      fun i : Fin k =>
        coeffRow k (encoded (b.block k) k b.env ((arrivedShards xs n).getD i 0)) := by
    funext i
    have hlt : i.val < (receivedIndices rb).length := by
      rw [hindices]
      omega
    rw [← hindices]
    exact coeffRow_congr (hrestored _ ((mem_receivedIndices hcount).mp (lowestReceived_mem hlt)))
  rw [hrows]

/-- Block `n` is not behind `base_id`, and it is held with the shards that arrived. -/
structure Tracks (W : ℕ) (b : UInt32) (pos n : ℕ) (xs : List ShardArrival) (win : RxWindow) :
    Prop where
  pos_le : pos ≤ n
  fresh : (∀ x ∈ xs, x.block ≠ n) → held win W (nth b n) = none
  collecting : (∃ x ∈ xs, x.block = n) →
    pos = n ∧ ∃ rb, held win W (nth b n) = some rb ∧ Collects xs n rb

/-- The arrival is what the datagram of `x` is parsed to. -/
structure Parsed (blocks : ℕ → SentBlock) (k : ℕ) (crypto : CryptoCtx) (x : ShardArrival)
    (a : Arrival) : Prop where
  carries : Carries ((blocks x.block).block k) k crypto (blocks x.block).env x.shard a
  insertUs : a.insertUs = x.insertUs
  advanceUs : a.advanceUs = x.advanceUs

section Step

variable {W k : ℕ} {b : UInt32} {crypto : CryptoCtx} {blocks : ℕ → SentBlock}
  {xs pre : List ShardArrival} {x : ShardArrival} {a : Arrival} {pos n : ℕ} {win : RxWindow}

theorem Interleaving.parsed_blockId (hint : Interleaving blocks k W b xs) (hx : x ∈ xs)
    (ha : Parsed blocks k crypto x a) : a.hdr.blockId = nth b x.block := by
  have hlt := (hint.inRange x hx).1
  rw [ha.carries.blockId, (block_spec (hint.filled _ hlt).fits).1, hint.ids _ hlt]

theorem Interleaving.shard_lt (hint : Interleaving blocks k W b xs) (hk : 1 ≤ k ∧ k ≤ maxK)
    (hx : x ∈ xs) : x.shard < maxN :=
  (hint.inRange x hx).2.trans_le (shardCount_bounds _ hk).2

theorem Interleaving.exists_parsed (hint : Interleaving blocks k W b xs) (hk : 1 ≤ k ∧ k ≤ maxK)
    (tctx : TransportCtx) (hx : x ∈ xs) :
    ∃ a, arrivalOf tctx (x.input blocks k crypto) = some a ∧ Parsed blocks k crypto x a := by
  have hfill := hint.filled _ (hint.inRange x hx).1
  obtain ⟨a, ha, hcarry, _, hinsert, hadvance⟩ := exists_carries hk.2 (hint.shard_lt hk hx)
    (block_shardLen_le hfill) tctx (rfl : (x.input blocks k crypto).dgram.bytes = _)
  exact ⟨a, ha, hcarry, hinsert, hadvance⟩

theorem received_storeShard_iff {rb : RxBlock} (now : UInt64)
    (hreceived : ∀ s, rb.received s = true ↔ s ∈ arrivedShards pre x.block)
    (hidx : a.hdr.shardIdx.toNat = x.shard) (hshard : x.shard < maxN) (s : ℕ) :
    (storeShard rb a.hdr a.shard crypto now).received s = true ↔
      s ∈ arrivedShards (pre ++ [x]) x.block := by
  rw [mem_arrivedShards_concat hshard, ← hreceived s]
  change Function.update rb.received a.hdr.shardIdx.toNat true s = true ↔ _
  rw [hidx, Function.update_apply]
  by_cases hs : s = x.shard
  · simp [hs]
  · simp [hs]

theorem exists_collects_inserted (crypto : CryptoCtx) (hW : W ≤ maxWindow)
    (hwin : Within W b pos win)
    (ht : Tracks W b pos x.block pre win) (hx : x.block < W) (hshard : x.shard < maxN)
    (hid : a.hdr.blockId = nth b x.block) (hidx : a.hdr.shardIdx.toNat = x.shard)
    (hinsert : a.insertUs = x.insertUs) :
    ∃ rb, held (inserted W crypto win a) W (nth b x.block) = some rb ∧
      Collects (pre ++ [x]) x.block rb := by
  have hmax : W ≤ 16 := hW
  have hidx' : a.hdr.shardIdx.toNat < maxN := by
    rw [hidx]
    exact hshard
  rw [← hid]
  by_cases hany : ∃ y ∈ pre, y.block = x.block
  · obtain ⟨rfl, rb, hheld, hcollect⟩ := ht.collecting hany
    rw [← hid] at hheld
    have hinside : ahead win.baseId a.hdr.blockId < W := by
      rw [hwin.base, hid, ahead_self]
      omega
    have htarget := target_of_held hinside hheld
    obtain ⟨first, y, post, rfl, hy, hfirst, hus⟩ := hcollect.first
    have hdate : ∃ l z r, first ++ y :: post ++ [x] = l ++ z :: r ∧ z.block = x.block ∧
        (∀ w ∈ l, w.block ≠ x.block) ∧ rb.firstRecvUs = z.insertUs :=
      ⟨first, y, post ++ [x], by simp, hy, hfirst, hus⟩
    by_cases hnew : rb.received x.shard = true
    · -- The shard came before: the block stays as it is.
      have hnot : ∀ rb', ¬ Accepts win W a.hdr rb' := by
        intro rb' hacc
        have hsame : rb' = rb := Option.some.inj (hacc.target.symm.trans htarget)
        have hfresh := hacc.fresh
        rw [hsame, hidx, hnew] at hfresh
        cases hfresh
      obtain ⟨_, _, ⟨rb', hacc, _⟩ | ⟨_, hmap⟩⟩ := inserted_spec hW hwin.wf crypto a
      · exact absurd hacc (hnot rb')
      · rw [hmap]
        refine ⟨rb, hheld, hcollect.undecoded, fun s => ?_, hdate⟩
        rw [mem_arrivedShards_concat hshard, hcollect.received s]
        refine (or_iff_right_of_imp fun hs => ?_).symm
        rw [hs]
        exact (hcollect.received _).mp hnew
    · have hacc : Accepts win W a.hdr rb :=
        ⟨htarget, hcollect.undecoded, hidx', by rw [hidx]; simpa using hnew⟩
      obtain ⟨_, _, hmap⟩ := insert_of_accepts a.shard crypto a.insertUs hW hwin.wf hacc
      refine ⟨_, (congrFun hmap a.hdr.blockId).trans (Function.update_self ..),
        hcollect.undecoded, received_storeShard_iff _ hcollect.received hidx hshard, ?_⟩
      have hlive := held_live hheld
      have hkeep : (storeShard rb a.hdr a.shard crypto a.insertUs).firstRecvUs = rb.firstRecvUs :=
        if_neg (by omega)
      rw [hkeep]
      exact hdate
  · have hnone : ∀ y ∈ pre, y.block ≠ x.block := fun y hy hblock => hany ⟨y, hy, hblock⟩
    have hheld := ht.fresh hnone
    rw [← hid] at hheld
    have hacc := accepts_of_fresh hW hwin hx hid ht.pos_le hheld hidx'
    obtain ⟨_, _, hmap⟩ := insert_of_accepts a.shard crypto a.insertUs hW hwin.wf hacc
    refine ⟨_, (congrFun hmap a.hdr.blockId).trans (Function.update_self ..), rfl,
      received_storeShard_iff _ (fun s => ?_) hidx hshard, pre, x, [], rfl, rfl, hnone, hinsert⟩
    have hnot : s ∉ arrivedShards pre x.block := by
      intro hs
      obtain ⟨_, y, hy, hblock, _⟩ := mem_arrivedShards.mp hs
      exact hnone y hy hblock
    exact iff_of_false Bool.false_ne_true hnot

theorem not_blockDone_of_pending (hint : Interleaving blocks k W b xs) {rest : List ShardArrival}
    (hxs : xs = pre ++ [x] ++ rest) (hpending : ∃ z ∈ rest, z.block = n) {rb : RxBlock}
    (hcollect : Collects (pre ++ [x]) n rb) (p : ℕ) : blockDone rb (x.advanceUs p) = false := by
  obtain ⟨first, y, post, heq, hy, hfirst, hus⟩ := hcollect.first
  obtain ⟨z, hz, hblock⟩ := hpending
  obtain ⟨mid, later, rfl⟩ := List.append_of_mem hz
  have hsplit : xs = first ++ y :: (post ++ mid ++ z :: later) := by
    rw [hxs, heq]
    simp
  have hlast : x ∈ y :: (post ++ mid) := by
    rcases List.eq_nil_or_concat post with rfl | ⟨post', w, rfl⟩
    · obtain ⟨_, hxy⟩ := List.append_inj' heq rfl
      cases hxy
      exact List.mem_cons_self
    · rw [List.concat_eq_append, ← List.cons_append, ← List.append_assoc] at heq
      obtain ⟨_, hxw⟩ := List.append_inj' heq rfl
      cases hxw
      simp
  have hyoung := hint.timely first y (post ++ mid) z later hsplit (hblock.trans hy.symm)
    (fun w hw => by rw [hy]; exact hfirst w hw) x hlast p
  rw [blockDone, hcollect.undecoded, hus, Bool.false_or, decide_eq_false_iff_not, UInt64.not_le]
  exact hyoung

theorem tracks_rxStep (hW : W ≤ maxWindow) (hk : 1 ≤ k ∧ k ≤ maxK)
    (hint : Interleaving blocks k W b xs) (hwin : Within W b pos win)
    (ht : Tracks W b pos n pre win) (hn : n < W) {rest : List ShardArrival}
    (hxs : xs = pre ++ [x] ++ rest) (hpending : ∃ z ∈ rest, z.block = n) (hle : x.block ≤ n)
    (ha : Parsed blocks k crypto x a)
    (hnot : x.block = n → ∀ rb o, ¬ Delivers W crypto win a rb o) {pos' : ℕ} {win' : RxWindow}
    (hmoved : Moved W b pos x.block (attempted W crypto win a).1 a.advanceUs pos' win') :
    Tracks W b pos' n (pre ++ [x]) win' := by
  have hmax : W ≤ 16 := hW
  have hxmem : x ∈ xs := by
    rw [hxs]
    simp
  have hid := hint.parsed_blockId hxmem ha
  have hpos := ht.pos_le
  have hother : x.block ≠ n → held (attempted W crypto win a).1 W (nth b n) =
      held win W (nth b n) := by
    intro hne
    refine held_attempted_of_ne hW hwin.wf fun heq => hne ?_
    rw [hid] at heq
    exact (nth_injective b (by omega) (by omega) heq).symm
  by_cases hany : ∃ y ∈ pre ++ [x], y.block = n
  · -- The block is in the window, and it is the newest one.
    have hheld : max pos x.block = n ∧ ∃ rb,
        held (attempted W crypto win a).1 W (nth b n) = some rb ∧ Collects (pre ++ [x]) n rb := by
      by_cases hx : x.block = n
      · subst hx
        obtain ⟨rb, hheld, hcollect⟩ := exists_collects_inserted crypto hW hwin ht hn
          (hint.shard_lt hk hxmem) hid ha.carries.shardIdx ha.insertUs
        refine ⟨Nat.max_eq_right hpos, rb, ?_, hcollect⟩
        rw [(attempted_of_not_delivers hW hwin.wf (hnot rfl)).2.2.1]
        exact hheld
      · have hold : ∃ y ∈ pre, y.block = n := by
          obtain ⟨y, hy, hblock⟩ := hany
          rcases List.mem_append.mp hy with hy | hy
          · exact ⟨y, hy, hblock⟩
          · rw [List.mem_singleton.mp hy] at hblock
            exact absurd hblock hx
        obtain ⟨hposn, rb, hheld, hcollect⟩ := ht.collecting hold
        rw [hother hx]
        exact ⟨by omega, rb, hheld, hcollect.concat_of_ne hx⟩
    obtain ⟨hnewest, rb, hheld, hcollect⟩ := hheld
    have hyoung : ∀ p, blockDone rb (a.advanceUs p) = false := by
      intro p
      rw [ha.advanceUs]
      exact not_blockDone_of_pending hint hxs hpending hcollect p
    have hpos' : pos' = n := by
      rcases hmoved.stop with hstop | ⟨_, rb', hrb', p, hdone⟩
      · rw [hstop, hnewest]
      · rw [hnewest, hheld] at hrb'
        cases hrb'
        rw [hyoung p] at hdone
        cases hdone
    refine ⟨hpos'.le, fun hnone => ?_,
      fun _ => ⟨hpos', rb, hmoved.keeps _ _ hheld hyoung, hcollect⟩⟩
    obtain ⟨y, hy, hblock⟩ := hany
    exact absurd hblock (hnone y hy)
  · -- No shard of the block has come, and `base_id` does not pass it.
    have hnone : ∀ y ∈ pre ++ [x], y.block ≠ n := fun y hy hblock => hany ⟨y, hy, hblock⟩
    have hx : x.block ≠ n := hnone x (List.mem_append_right _ (List.mem_singleton_self x))
    have hfresh : held (attempted W crypto win a).1 W (nth b n) = none := by
      rw [hother hx]
      exact ht.fresh fun y hy => hnone y (List.mem_append_left _ hy)
    refine ⟨?_, fun _ => ?_, fun h => absurd h hany⟩
    · rcases hmoved.stop with hstop | ⟨hstop, rb, hrb, _⟩
      · omega
      · have hne : max pos x.block ≠ n := by
          intro heq
          rw [heq, hfresh] at hrb
          cases hrb
        omega
    · cases hheld : held win' W (nth b n) with
      | none => rfl
      | some rb =>
          have hold := hmoved.old _ _ hheld
          rw [hfresh] at hold
          cases hold

theorem restores_iff_decodable (hW : W ≤ maxWindow) (hk : 1 ≤ k ∧ k ≤ maxK)
    (hint : Interleaving blocks k W b xs) (hx : x ∈ xs) (hwin : Within W b pos win)
    (ht : Tracks W b pos x.block pre win) (ha : Parsed blocks k crypto x a)
    (hagrees : ∀ id rb, held (inserted W crypto win a) W id = some rb →
      AgreesWith ((List.range W).map blocks) k id rb) :
    ((∃ rb o, Delivers W crypto win a rb o) ↔
        Decodable (blocks x.block) k (arrivedShards (pre ++ [x]) x.block)) ∧
      ∀ rb o, Delivers W crypto win a rb o →
        Restores (blocks x.block) ⟨a.hdr.blockId, tunWrites o a.hdr.k.toNat⟩ := by
  have hmax : W ≤ 16 := hW
  have hxW := (hint.inRange x hx).1
  have hfill := hint.filled _ hxW
  have hid := hint.parsed_blockId hx ha
  obtain ⟨rb, hheld, hcollect⟩ := exists_collects_inserted crypto hW hwin ht hxW
    (hint.shard_lt hk hx) hid ha.carries.shardIdx ha.insertUs
  rw [← hid] at hheld
  have hcount : Counted rb := counted_of_held (inserted_spec hW hwin.wf crypto a).2.1 hheld
  have hrestored : Restored ((blocks x.block).block k) k (blocks x.block).env rb :=
    hagrees _ _ hheld _ (List.mem_map_of_mem (List.mem_range.mpr hxW))
      ((hint.ids _ hxW).trans hid.symm)
  have hdecodes := exists_decodes_iff_decodable hfill hcount hrestored hcollect a.garbage
  have hinside : ahead win.baseId a.hdr.blockId < W := by
    rw [hwin.base, hid, ahead_nth_of_le b ht.pos_le (by omega)]
    omega
  constructor
  · rw [← hdecodes]
    constructor
    · rintro ⟨rb', o, hdel⟩
      have hsame : rb' = rb := Option.some.inj (hdel.held.symm.trans hheld)
      have hdec := hdel.decodes
      rw [hsame, ha.carries.blockSize] at hdec
      exact ⟨o, hdec⟩
    · rintro ⟨o, hdec⟩
      rw [← ha.carries.blockSize] at hdec
      exact ⟨rb, o, hinside, hheld, hdec⟩
  · intro rb' o hdel
    have hsame : rb' = rb := Option.some.inj (hdel.held.symm.trans hheld)
    have hdec := hdel.decodes
    rw [hsame, ha.carries.blockSize] at hdec
    rw [ha.carries.blockSize]
    exact ⟨hid.trans (hint.ids _ hxW).symm, take_tunWrites hfill hcount hrestored hdec⟩

end Step

/-! ## Runs -/

section Runs

variable {fuel W k : ℕ} {b : UInt32} {crypto : CryptoCtx} {blocks : ℕ → SentBlock}
  {xs pre : List ShardArrival} {pos : ℕ} {win : RxWindow} {outs : List RxOutput}

/-- What holds after the arrivals `pre` among all the arrivals `xs`. -/
structure Progress (W : ℕ) (b : UInt32) (blocks : ℕ → SentBlock) (k : ℕ)
    (xs : List ShardArrival) (pos : ℕ) (pre : List ShardArrival) (win : RxWindow)
    (outs : List RxOutput) : Prop where
  within : Within W b pos win
  reached : ∀ x ∈ pre, x.block ≤ pos
  agrees : ∀ id rb, held win W id = some rb → AgreesWith ((List.range W).map blocks) k id rb
  delivered : ∀ n < W, Delivered blocks outs n ↔ InTime blocks k pre n
  tracks : ∀ n < W, ∀ rest, xs = pre ++ rest → (∃ z ∈ rest, z.block = n) →
    (∀ x ∈ pre, x.block ≤ n) → ¬ InTime blocks k pre n → Tracks W b pos n pre win

theorem delivered_concat {out : RxOutput} {n : ℕ} : Delivered blocks (outs ++ [out]) n ↔
    Delivered blocks outs n ∨ ∃ dl, out.delivery = some dl ∧ Restores (blocks n) dl := by
  simp only [Delivered, deliveries_append, List.mem_append, Option.mem_toList]
  constructor
  · rintro ⟨dl, hold | hnew, hdl⟩
    · exact Or.inl ⟨dl, hold, hdl⟩
    · exact Or.inr ⟨dl, hnew, hdl⟩
  · rintro (⟨dl, hold, hdl⟩ | ⟨dl, hnew, hdl⟩)
    · exact ⟨dl, Or.inl hold, hdl⟩
    · exact ⟨dl, Or.inr hnew, hdl⟩

theorem progress_nil (hk : 1 ≤ k) (hempty : EmptyAt b win) :
    Progress W b blocks k xs 0 [] win [] where
  within := by
    refine ⟨hempty.wellFormed W, hempty.base.trans (UInt32.add_zero b).symm, Nat.zero_le W, ?_⟩
    intro id rb hheld
    rw [hempty.held] at hheld
    cases hheld
  reached _ hx := by cases hx
  agrees id rb hheld := by
    rw [hempty.held] at hheld
    cases hheld
  delivered n _ := by
    refine iff_of_false ?_ ?_
    · rintro ⟨dl, hdl, _⟩
      cases hdl
    · rintro ⟨pre, hpre, _, hdec⟩
      obtain rfl := List.prefix_nil.mp hpre
      have hlen : (arrivedShards [] n).length = 0 := by simp [arrivedShards]
      have hle := hdec.1
      omega
  tracks n _ _ _ _ _ _ :=
    ⟨Nat.zero_le n, fun _ => hempty.held W _, fun ⟨_, hx, _⟩ => by cases hx⟩

theorem Interleaving.nodup (hW : W ≤ maxWindow) (hint : Interleaving blocks k W b xs) :
    (((List.range W).map blocks).map SentBlock.blockId).Nodup := by
  have hmax : W ≤ 16 := hW
  rw [List.map_map]
  refine List.nodup_range.map_on fun i hi j hj heq => ?_
  have hiW := List.mem_range.mp hi
  have hjW := List.mem_range.mp hj
  simp only [Function.comp_apply, hint.ids i hiW, hint.ids j hjW] at heq
  exact nth_injective b (by omega) (by omega) heq

theorem Interleaving.carriesSome (hint : Interleaving blocks k W b xs) {x : ShardArrival}
    {a : Arrival} (hx : x ∈ xs) (ha : Parsed blocks k crypto x a) :
    CarriesSome ((List.range W).map blocks) k crypto a := by
  obtain ⟨hlt, hs⟩ := hint.inRange x hx
  exact ⟨_, List.mem_map_of_mem (List.mem_range.mpr hlt), x.shard, hs, ha.carries⟩

theorem progress_rxStep (hW : W ≤ maxWindow) (hk : 1 ≤ k ∧ k ≤ maxK) (hfuel : W + 2 ≤ fuel)
    (hint : Interleaving blocks k W b xs) (hprog : Progress W b blocks k xs pos pre win outs)
    {x : ShardArrival} {rest : List ShardArrival} (hxs : xs = pre ++ [x] ++ rest) {a : Arrival}
    (ha : Parsed blocks k crypto x a) :
    ∃ win' out pos', rxStep fuel W crypto win a = some (win', out) ∧
      Progress W b blocks k xs pos' (pre ++ [x]) win' (outs ++ [out]) := by
  have hmax : W ≤ 16 := hW
  have hx : x ∈ xs := by
    rw [hxs]
    simp
  obtain ⟨hxW, _⟩ := hint.inRange x hx
  have hid := hint.parsed_blockId hx ha
  have hidx : a.hdr.shardIdx.toNat < maxN := by
    rw [ha.carries.shardIdx]
    exact hint.shard_lt hk hx
  have hall : ∀ b ∈ (List.range W).map blocks, b.Filled k := by
    intro b hb
    obtain ⟨n, hn, rfl⟩ := List.mem_map.mp hb
    exact hint.filled n (List.mem_range.mp hn)
  have hcarries := hint.carriesSome hx ha
  have hsplit : xs = pre ++ x :: rest := by
    rw [hxs, List.append_assoc]
    rfl
  obtain ⟨win', out, pos', hstep, hwithin, hmoved⟩ :=
    within_rxStep hW hprog.within hxW hid crypto hidx hfuel
  have hagrees := agreesWith_inserted (hint.nodup hW) hall hW hprog.within.wf hprog.agrees hcarries
  -- A block that is not in time yet has kept track of its shards when the next one arrives.
  have htrack : (∀ y ∈ pre, y.block ≤ x.block) → ¬ InTime blocks k pre x.block →
      Tracks W b pos x.block pre win := fun hle hnot =>
    hprog.tracks x.block hxW (x :: rest) hsplit ⟨x, List.mem_cons_self, rfl⟩ hle hnot
  have hle_concat {n : ℕ} (hle : ∀ y ∈ pre, y.block ≤ n) (hxn : x.block ≤ n) :
      ∀ y ∈ pre ++ [x], y.block ≤ n := by
    intro y hy
    rcases List.mem_append.mp hy with hy | hy
    · exact hle y hy
    · rw [List.mem_singleton.mp hy]
      exact hxn
  refine ⟨win', out, pos', hstep, hwithin, ?_, ?_, ?_, ?_⟩
  · have hle := hmoved.le
    exact fun y hy => (hle_concat (n := max pos x.block)
      (fun z hz => (hprog.reached z hz).trans (Nat.le_max_left ..)) (Nat.le_max_right ..)
      y hy).trans hle
  · exact agreesWith_rxStep (hint.nodup hW) hall hW hprog.within.wf hstep hprog.agrees hcarries
  · intro n hn
    rw [delivered_concat, inTime_concat, hprog.delivered n hn]
    by_cases hin : InTime blocks k pre n
    · exact iff_of_true (Or.inl hin) (Or.inl hin)
    rw [or_iff_right hin, or_iff_right hin]
    have hstep_delivers : ∀ dl, out.delivery = some dl → dl.blockId = a.hdr.blockId ∧
        ∃ rb o, Delivers W crypto win a rb o ∧ dl.writes = tunWrites o a.hdr.k.toNat := by
      intro dl hdl
      obtain ⟨hblock, hwrites | ⟨_, _, hzero⟩⟩ :=
        delivery_eq_some hW hprog.within.wf hstep hdl
      · exact ⟨hblock, hwrites⟩
      · rw [ha.carries.blockSize] at hzero
        omega
    by_cases hxn : x.block = n
    · subst hxn
      by_cases hle : ∀ y ∈ pre, y.block ≤ x.block
      · obtain ⟨hiff, hrestores⟩ := restores_iff_decodable hW hk hint hx hprog.within
          (htrack hle hin) ha hagrees
        rw [← hiff, and_iff_right (hle_concat hle le_rfl)]
        constructor
        · rintro ⟨dl, hdl, _⟩
          obtain ⟨_, rb, o, hdel, _⟩ := hstep_delivers dl hdl
          exact ⟨rb, o, hdel⟩
        · rintro ⟨rb, o, hdel⟩
          rw [(rxStep_eq_some.mp hstep).2, delivered_of_delivers hW hprog.within.wf hdel]
          exact ⟨_, rfl, hrestores rb o hdel⟩
      · refine iff_of_false ?_ fun h => hle fun y hy => h.1 y (List.mem_append_left _ hy)
        rintro ⟨dl, hdl, _⟩
        obtain ⟨_, rb, o, hdel, _⟩ := hstep_delivers dl hdl
        push Not at hle
        obtain ⟨y, hy, hnewer⟩ := hle
        have hpos := hprog.reached y hy
        have hposW := hprog.within.le
        have hinside := hdel.inside
        rw [hprog.within.base, hid, ahead_nth_of_lt b (by omega) (by omega)] at hinside
        omega
    · refine iff_of_false ?_ fun h => hin ⟨pre, List.prefix_rfl,
        fun y hy => h.1 y (List.mem_append_left _ hy), ?_⟩
      · rintro ⟨dl, hdl, hblock, _⟩
        rw [(hstep_delivers dl hdl).1, hid, hint.ids n hn] at hblock
        exact hxn (nth_injective b (by omega) (by omega) hblock)
      · have hdec := h.2
        rw [arrivedShards_concat_of_ne hxn] at hdec
        exact hdec
  · intro n hn rest' hrest hpending hle hnot
    have hprior : ¬ InTime blocks k pre n := fun h => hnot (inTime_concat.mpr (Or.inl h))
    have hle' : ∀ y ∈ pre, y.block ≤ n := fun y hy => hle y (List.mem_append_left _ hy)
    have hxn : x.block ≤ n := hle x (List.mem_append_right _ (List.mem_singleton_self x))
    obtain ⟨z, hz, hblock⟩ := hpending
    have ht := hprog.tracks n hn (x :: rest') (by rw [hrest, List.append_assoc]; rfl)
      ⟨z, List.mem_cons_of_mem x hz, hblock⟩ hle' hprior
    refine tracks_rxStep hW hk hint hprog.within ht hn hrest ⟨z, hz, hblock⟩ hxn ha ?_ hmoved
    rintro rfl rb o hdel
    exact hnot (inTime_concat.mpr (Or.inr ⟨hle, (restores_iff_decodable hW hk hint hx hprog.within
      ht ha hagrees).1.mp ⟨rb, o, hdel⟩⟩))

/-- The whole run: exactly the blocks in time are delivered. -/
theorem progress_receiveRun (crypto : CryptoCtx) (hW : W ≤ maxWindow) (hk : 1 ≤ k ∧ k ≤ maxK)
    (hfuel : W + 2 ≤ fuel) (tctx : TransportCtx) (hempty : EmptyAt b win)
    (hint : Interleaving blocks k W b xs) :
    ∃ win' outs, receiveRun fuel W crypto tctx win (xs.map (ShardArrival.input blocks k crypto)) =
      some (win', outs) ∧ ∃ pos, Progress W b blocks k xs pos xs win' outs := by
  have hparsed : ∀ x ∈ xs, ∃ a, arrivalOf tctx (x.input blocks k crypto) = some a ∧
      Parsed blocks k crypto x a := fun x hx => hint.exists_parsed hk tctx hx
  have hrun : receiveRun fuel W crypto tctx win (xs.map (ShardArrival.input blocks k crypto)) =
      Machine.run (fun win x => (arrivalOf tctx (ShardArrival.input blocks k crypto x)).bind
        (rxStep fuel W crypto win)) win xs := by
    rw [receiveRun, List.filterMap_map]
    exact Machine.run_filterMap fun x hx => (hparsed x hx).imp fun a ha => ha.1
  rw [hrun]
  refine Machine.exists_run
    (P := fun pre win outs => ∃ pos, Progress W b blocks k xs pos pre win outs)
    ⟨0, progress_nil hk.1 hempty⟩ ?_
  rintro pre win outs x ⟨rest, hrest⟩ _ ⟨pos, hprog⟩
  obtain ⟨a, ha, hpa⟩ := hparsed x (by rw [← hrest]; simp)
  obtain ⟨win', out, pos', hstep, hprog'⟩ :=
    progress_rxStep hW hk hfuel hint hprog hrest.symm hpa
  exact ⟨win', out, by rw [ha, Option.bind_some, hstep], pos', hprog'⟩

/-- **Reordering tolerance.** Whatever the order in which shards of `W` consecutive blocks
arrive at an empty window, the run is defined, and every block whose systematic shards all
arrive is delivered if and only if every such block can be decoded before the first shard of
a newer block arrives. -/
theorem delivered_iff_inTime (tctx : TransportCtx) (hW : W ≤ maxWindow) (hk : 1 ≤ k ∧ k ≤ maxK)
    (hfuel : W + 2 ≤ fuel) (hempty : EmptyAt b win) (hint : Interleaving blocks k W b xs) :
    ∃ win' outs, receiveRun fuel W crypto tctx win (xs.map (ShardArrival.input blocks k crypto)) =
      some (win', outs) ∧
      ((∀ n < W, SystematicArrived k xs n → Delivered blocks outs n) ↔
        ∀ n < W, SystematicArrived k xs n → InTime blocks k xs n) := by
  obtain ⟨win', outs, hrun, pos, hprog⟩ :=
    progress_receiveRun crypto hW hk hfuel tctx hempty hint
  refine ⟨win', outs, hrun, forall_congr' fun n => forall_congr' fun hn => ?_⟩
  rw [hprog.delivered n hn]

end Runs

/-! ## Two blocks that overlap -/

/-- Blocks of two packets, each sent in two shards. -/
def twoPacketBlocks (n : ℕ) : SentBlock := shortBlock (UInt32.ofNat n) 2

/-- Shard `shard` of block `block` arrives at time zero. -/
def arrivalAtZero (block shard : ℕ) : ShardArrival := ⟨block, shard, 0, zeroStack, 0, fun _ => 0⟩

/-- The first shard of block 1 arrives before the second one of block 0. -/
def overlap : List ShardArrival := [arrivalAtZero 0 0, arrivalAtZero 1 0, arrivalAtZero 0 1]

def overlapRun : Option (RxWindow × List RxOutput) :=
  receiveRun 4 2 (cryptoInit none) ⟨fun _ => ⟨0, 0, true⟩, 1⟩ rxWindowInit
    (overlap.map (ShardArrival.input twoPacketBlocks 2 (cryptoInit none)))

theorem interleaving_overlap : Interleaving twoPacketBlocks 2 2 0 overlap where
  ids n _ := (UInt32.zero_add (UInt32.ofNat n)).symm
  filled n _ := ⟨List.cons_ne_nil _ _, le_rfl⟩
  inRange x hx := by
    have hcount (n : ℕ) : (twoPacketBlocks n).shardCount 2 = 2 := by
      change (twoPacketBlocks 0).shardCount 2 = 2
      decide +kernel
    rw [hcount]
    simp only [overlap, List.mem_cons, List.not_mem_nil, or_false] at hx
    rcases hx with rfl | rfl | rfl <;> decide
  timely pre x mid z post heq _ _ y hy p := by
    have hzero : ∀ w ∈ overlap, w.insertUs = 0 ∧ w.advanceUs = fun _ => 0 := by
      intro w hw
      simp only [overlap, List.mem_cons, List.not_mem_nil, or_false] at hw
      rcases hw with rfl | rfl | rfl <;> exact ⟨rfl, rfl⟩
    have hx : x ∈ overlap := by
      rw [heq]
      simp
    have hyo : y ∈ overlap := by
      rw [heq]
      rcases List.mem_cons.mp hy with rfl | hmid
      · simp
      · simp [hmid]
    have hyoung : (0 : UInt64) - 0 < rxBlockTimeoutUs := by decide
    rw [(hzero x hx).1, (hzero y hyo).2]
    exact hyoung

/-- All shards of block 0 arrive, and it is not delivered. -/
theorem not_delivered_overlap :
    ∃ win outs, overlapRun = some (win, outs) ∧ SystematicArrived 2 overlap 0 ∧
      ¬ Delivered twoPacketBlocks outs 0 := by
  have hnone : overlapRun.map (fun r => (deliveries r.2).length) = some 0 := by
    decide +kernel
  cases hrun : overlapRun with
  | none =>
      rw [hrun] at hnone
      cases hnone
  | some r =>
      rw [hrun, Option.map_some, Option.some.injEq] at hnone
      refine ⟨r.1, r.2, rfl, fun s hs => ?_, ?_⟩
      · rcases (by omega : s = 0 ∨ s = 1) with rfl | rfl
        · exact ⟨arrivalAtZero 0 0, by simp [overlap], rfl, rfl⟩
        · exact ⟨arrivalAtZero 0 1, by simp [overlap], rfl, rfl⟩
      · rintro ⟨dl, hdl, _⟩
        rw [List.eq_nil_of_length_eq_zero hnone] at hdl
        cases hdl

theorem delivered_iff_inTime_overlap :
    ∃ win outs, overlapRun = some (win, outs) ∧
      ((∀ n < 2, SystematicArrived 2 overlap n → Delivered twoPacketBlocks outs n) ↔
        ∀ n < 2, SystematicArrived 2 overlap n → InTime twoPacketBlocks 2 overlap n) :=
  delivered_iff_inTime _ (by decide) ⟨by decide, by decide⟩ (by decide) emptyAt_init
    interleaving_overlap

end CodingGateway.Proofs.Reordering
