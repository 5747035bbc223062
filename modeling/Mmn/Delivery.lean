import Mmn.Sample
import Mmn.Steps
import Mmn.Tally

/-!
# The order in which a block and its votes arrive

A block is finalized when a vote for its slot is counted, the block is there
and the count reaches the threshold. Votes and block arrive in any order.
For one slot, a node is a party of `Mmn.Tally`: the block is the proposal,
and a validator has a vote of its own, which it casts when it stores the
block; a listener has none (`step_refines_deliver`).

Once a valid block and votes from enough other voters are delivered, the
block is finalized at a validator in every order. At a listener it is
finalized unless the block comes last, or only repeated votes come after it:
storing a block does not look at the votes already counted
(`finalized_iff_of_delivered`).

A valid block has no transactions – a transaction that verifies is longer
than an entry admits – so nothing in its application can fail.
-/

namespace Mmn

section

variable [Primitives]

/-! ## Blocks and votes -/

/-- **A valid block**: it passes the checks a live block is put through, and
is not flagged. -/
structure BroadcastedBlock.Valid (cfg : Config) (b : BroadcastedBlock) : Prop where
  leader : cfg.leaderSchedule.isLeaderAt b.slot b.leaderID = true
  signature : b.verifySignature = true
  transactions : verifyBlockTransactions b = .ok ()
  poh : b.verifyPoH = .ok ()
  unflagged : b.invalidPoH = false

/-- **A vote for a block from another voter** who has not been counted for
its slot. -/
structure Vote.IsFor (cfg : Config) (n : Node) (b : BroadcastedBlock) (v : Vote) :
    Prop where
  slot_eq : v.slot = b.slot
  blockHash_eq : v.blockHash = b.hash
  valid : v.validate = .ok ()
  other : v.voterID ≠ cfg.selfPubKey
  fresh : v.voterID ∉ n.collector.votesForSlot b.slot

/-- **The block is finalized**: its slot is marked, and the block stored
there is this one, as finalized. -/
def Node.Finalized (n : Node) (b : BroadcastedBlock) : Prop :=
  n.store.isApplied b.slot = true ∧
    ∃ b' ∈ n.store.block b.slot, b'.status = .finalized ∧ b'.hash = b.hash

/-- A valid block keeps its flag and has no transactions. -/
theorem BroadcastedBlock.Valid.markPoH_eq {cfg : Config} {b : BroadcastedBlock}
    (h : b.Valid cfg) : b.markPoH = b := by
  unfold markPoH
  rw [h.poh]

theorem BroadcastedBlock.Valid.allTxs_eq {cfg : Config} {b : BroadcastedBlock}
    (h : b.Valid cfg) : b.allTxs = [] :=
  BroadcastedBlock.allTxs_eq_nil h.poh h.transactions

theorem ownVote_valid (cfg : Config) (slot : UInt64) (blockHash : Hash) :
    (ownVote cfg slot blockHash).validate = .ok () := by
  obtain ⟨pub, hpub, hsign⟩ := cfg.keyPair
  obtain ⟨hlen, hverify⟩ :=
    hsign (Vote.serializeVote ⟨slot, blockHash, cfg.selfPubKey, []⟩)
  obtain ⟨hdec, hpublen⟩ := decode_of_getPublicKeyFromID hpub
  have hne : cfg.selfPubKey ≠ "" := by
    intro hempty
    unfold getPublicKeyFromLeaderID getPublicKeyFromID at hpub
    rw [if_pos hempty] at hpub
    cases hpub
  have hvoter : getPublicKeyFromVoterID cfg.selfPubKey = .ok pub := by
    unfold getPublicKeyFromVoterID getPublicKeyFromID
    rw [if_neg hne, hdec]
    simp [hpublen]
  have hserialize : (ownVote cfg slot blockHash).serializeVote
      = Vote.serializeVote ⟨slot, blockHash, cfg.selfPubKey, []⟩ := rfl
  have hsig : (ownVote cfg slot blockHash).signature
      = ed25519Sign cfg.selfPrivKey
        (Vote.serializeVote ⟨slot, blockHash, cfg.selfPubKey, []⟩) := rfl
  unfold Vote.validate
  rw [show (ownVote cfg slot blockHash).voterID = cfg.selfPubKey from rfl, hvoter]
  simp [hserialize, hsig, hlen, hverify]

/-! ## A slot of a node as a tally -/

/-- What a node knows of a slot. -/
def Node.tally (n : Node) (slot : UInt64) : Tally String where
  proposed := n.store.hasCompleteBlock slot
  voters := (n.collector.votesForSlot slot).keys.toFinset
  decided := n.store.isApplied slot

/-- A node's own vote: a listener has none. -/
def Config.ownVoter (cfg : Config) : Option String :=
  if cfg.isListener then none else some cfg.selfPubKey

/-- **The block of the slot can be applied**: a block stored there is this
one, without a flag or transactions, and it is finalized if the slot is
marked. -/
structure Applicable (b : BroadcastedBlock) (n : Node) : Prop where
  stored : ∀ b' ∈ n.store.block b.slot, b'.slot = b.slot ∧ b'.hash = b.hash ∧
    b'.invalidPoH = false ∧ b'.txHashes = []
  marked : n.store.isApplied b.slot = true →
    ∃ b' ∈ n.store.block b.slot, b'.status = .finalized

theorem Applicable.finalized_iff {b : BroadcastedBlock} {n : Node}
    (h : Applicable b n) :
    n.Finalized b ↔ (n.tally b.slot).decided = true := by
  refine ⟨fun hfin => hfin.1, fun hmark => ⟨hmark, ?_⟩⟩
  obtain ⟨b', hb', hstatus⟩ := h.marked hmark
  exact ⟨b', hb', hstatus, (h.stored b' hb').2.1⟩

omit [Primitives] in
theorem Store.hasCompleteBlock_eq (s : Store) (slot : UInt64) :
    s.hasCompleteBlock slot = (s.block slot).isSome := by
  unfold hasCompleteBlock block
  rw [Option.isSome_map, Bool.eq_iff_iff, AList.lookup_isSome]
  simp

/-- Counting a vote, in the collector and in the tally. -/
theorem Collector.keys_put (c : Collector) {v : Vote} (hv : v.validate = .ok ()) :
    ((c.put v hv).votesForSlot v.slot).keys.toFinset
      = insert v.voterID (c.votesForSlot v.slot).keys.toFinset := by
  rw [votesForSlot_put]
  ext id
  rw [Finset.mem_insert, List.mem_toFinset, List.mem_toFinset, ← AList.mem_keys,
    ← AList.mem_keys, AList.mem_insert]

theorem Collector.count_eq_card (c : Collector) (slot : UInt64) :
    c.count slot = (c.votesForSlot slot).keys.toFinset.card := by
  rw [List.toFinset_card_of_nodup (c.votesForSlot slot).keys_nodup]
  exact (List.length_map _).symm

theorem Node.mem_voters_tally {n : Node} {slot : UInt64} {id : String} :
    id ∈ (n.tally slot).voters ↔ id ∈ n.collector.votesForSlot slot :=
  List.mem_toFinset.trans AList.mem_keys.symm

/-- A counted vote adds its voter to the tally of its slot. -/
theorem Node.tally_put {n : Node} {v : Vote} (hv : v.validate = .ok ()) :
    Node.tally { n with collector := n.collector.put v hv } v.slot
      = { n.tally v.slot with voters := insert v.voterID (n.tally v.slot).voters } :=
  Tally.ext rfl (n.collector.keys_put hv) rfl

/-! ## One delivery -/

namespace Node

variable (cfg : Config) {b : BroadcastedBlock}

theorem finalizeBlock_of_applicable {n : Node} (h : Applicable b n) {b' : Block}
    (hb' : n.store.block b.slot = some b') (note : Event) :
    n.finalizeBlock cfg b' note
      = some
        ({ n with store := n.store.applyBlock b', history := n.history ++ [note] },
          .ok ()) := by
  obtain ⟨hslot, -, hpoh, hnone⟩ := h.stored b' hb'
  have hmem : b'.slot ∈ n.store.blocks := by
    rw [hslot]
    exact Store.mem_blocks_iff.mpr ⟨b', hb'⟩
  rw [finalizeBlock_of_idle (Or.inr hnone) hmem note, hpoh]
  rfl

/-- **Applying the slot of the block** marks it, once there is a block. -/
theorem applyDataToBlock_of_applicable {n : Node} (h : Applicable b n)
    (hproposed : n.store.hasCompleteBlock b.slot = true) :
    ∃ n', n.applyDataToBlock cfg b.slot = some (n', .ok ()) ∧ Applicable b n' ∧
      n'.collector = n.collector ∧ n'.store.hasCompleteBlock b.slot = true ∧
      n'.store.isApplied b.slot = true := by
  unfold applyDataToBlock
  by_cases hmark : n.store.isApplied b.slot = true
  · rw [if_pos hmark]
    exact ⟨n, rfl, h, rfl, hproposed, hmark⟩
  · rw [if_neg hmark]
    rw [Store.hasCompleteBlock_eq, Option.isSome_iff_exists] at hproposed
    obtain ⟨b', hb'⟩ := hproposed
    obtain ⟨hslot, hhash, hpoh, hnone⟩ := h.stored b' hb'
    have hfin := finalizeBlock_of_applicable cfg
      (n := { n with mempool := n.mempool.setCurrentSlot b.slot })
        ⟨h.stored, h.marked⟩ hb'
      (.committed n.store b.slot b' (n.collector.votesForSlot b.slot))
    have hblock : (n.store.applyBlock b').block b.slot
        = some { b' with status := .finalized } := by
      rw [Store.applyBlock, Store.block_putFinalized, if_pos hslot.symm]
    rw [hb']
    dsimp only
    rw [hfin]
    refine ⟨_, rfl, ⟨?_, fun _ => ?_⟩, rfl, ?_, ?_⟩
    · intro b'' hb''
      cases hblock.symm.trans hb''
      exact ⟨hslot, hhash, hpoh, hnone⟩
    · exact ⟨_, hblock, rfl⟩
    · rw [Store.hasCompleteBlock_eq, hblock]
      rfl
    · show decide (b.slot ∈ insert b'.slot n.store.finalized) = true
      rw [hslot]
      simp

/-- A new vote for the block's slot: it is counted, and the block applied if
that completes a quorum. -/
theorem processVote_refines_of_notMem {n : Node} (h : Applicable b n) {v : Vote}
    (hslot : v.slot = b.slot) (hv : v.validate = .ok ())
    (hmem : v.voterID ∉ n.collector.votesForSlot v.slot) :
    ∃ n' r, n.processVote cfg v = some (n', r) ∧ Applicable b n' ∧
      n'.collector.threshold = n.collector.threshold ∧
      n'.tally b.slot = { n.tally b.slot with
        voters := insert v.voterID (n.tally b.slot).voters
        decided := (n.tally b.slot).decided || ((n.tally b.slot).proposed && decide
          (n.collector.threshold
            ≤ (insert v.voterID (n.tally b.slot).voters).card)) } := by
  have hcounted : Applicable b { n with collector := n.collector.put v hv } :=
    ⟨h.stored, h.marked⟩
  have htally := n.tally_put hv
  have hcard : (n.collector.put v hv).count v.slot
      = (insert v.voterID (n.tally v.slot).voters).card := by
    rw [Collector.count_eq_card]
    exact congrArg (fun t => t.voters.card) htally
  unfold processVote
  rw [Collector.addVote_of_notMem hv hmem, hcard]
  dsimp only
  rw [hslot] at htally ⊢
  by_cases hboth : n.store.hasCompleteBlock b.slot = true ∧
      n.collector.threshold ≤ (insert v.voterID (n.tally b.slot).voters).card
  · obtain ⟨hblock, hthr⟩ := hboth
    obtain ⟨n', happly, h', hcollector, hblock', hmark'⟩ :=
      applyDataToBlock_of_applicable cfg hcounted hblock
    refine ⟨n', .ok (), ?_, h', ?_, ?_⟩
    · rw [hblock]
      simpa [hthr] using happly
    · rw [hcollector]
      rfl
    · refine Tally.ext (hblock'.trans hblock.symm) ?_ ?_
      · show (n'.collector.votesForSlot b.slot).keys.toFinset = _
        rw [hcollector]
        exact congrArg Tally.voters htally
      · show n'.store.isApplied b.slot
          = (_ || (n.store.hasCompleteBlock b.slot && decide _))
        rw [hmark', hblock, decide_eq_true hthr, Bool.and_true, Bool.or_true]
  · have hfalse : (n.store.hasCompleteBlock b.slot && decide (n.collector.threshold
        ≤ (insert v.voterID (n.tally b.slot).voters).card)) = false := by
      rw [Bool.eq_false_iff, ne_eq, Bool.and_eq_true, decide_eq_true_eq]
      exact hboth
    refine ⟨{ n with collector := n.collector.put v hv }, .ok (), ?_,
      hcounted, rfl, ?_⟩
    · by_cases hblock : n.store.hasCompleteBlock b.slot = true
      · rw [hblock, Bool.true_and] at hfalse
        rw [hblock, hfalse]
        rfl
      · simp [hblock]
    · rw [htally]
      refine Tally.ext rfl rfl ?_
      show n.store.isApplied b.slot
        = (n.store.isApplied b.slot || (n.store.hasCompleteBlock b.slot && decide _))
      rw [hfalse, Bool.or_false]

/-- **Counting a vote for the block's slot** is counting it in the tally. -/
theorem processVote_refines {n : Node} (h : Applicable b n) {v : Vote}
    (hslot : v.slot = b.slot) (hv : v.validate = .ok ()) :
    ∃ n' r, n.processVote cfg v = some (n', r) ∧ Applicable b n' ∧
      n'.collector.threshold = n.collector.threshold ∧
      n'.tally b.slot = (n.tally b.slot).count n.collector.threshold v.voterID := by
  by_cases hmem : v.voterID ∈ n.collector.votesForSlot v.slot
  · have hvoter : v.voterID ∈ (n.tally b.slot).voters := by
      rwa [mem_voters_tally, ← hslot]
    rw [Tally.count_of_mem hvoter]
    unfold processVote
    rw [Collector.addVote_of_mem hv hmem]
    exact ⟨n, _, rfl, h, rfl, rfl⟩
  · have hvoter : v.voterID ∉ (n.tally b.slot).voters := by
      rwa [mem_voters_tally, ← hslot]
    rw [Tally.count_of_notMem hvoter]
    exact processVote_refines_of_notMem cfg h hslot hv hmem

variable {cfg}

/-- **What receiving the block comes to** when its slot is free: it is
stored, and a validator counts its own vote. -/
theorem onBlockReceived_of_valid {n : Node} (hb : b.Valid cfg)
    (hnone : n.store.block b.slot = none) :
    ∃ n₁ : Node, n₁.store = n.store.addBlock b ∧ n₁.collector = n.collector ∧
      n.onBlockReceived cfg b
        = if cfg.isListener then some (n₁, .ok ())
          else n₁.processVote cfg (ownVote cfg b.slot b.hash) := by
  have hfree : b.slot ∉ n.store.blocks := by
    rw [Store.mem_blocks_iff, hnone]
    exact fun ⟨_, h⟩ => by cases h
  have hadd : n.addBlockPending b
      = ({ n with toCore := n.toCore.addBlock b }, .ok ()) := by
    unfold addBlockPending
    rw [Store.addBlockPending_eq_ok.mpr ⟨hfree, rfl⟩]
    rfl
  have hlatest : ¬b.slot > (n.toCore.addBlock b).store.latestStore :=
    UInt64.not_lt.mpr (n.store.slot_le_latestStore_addBlock b)
  have hmempool : n.mempool.verifyBlockTransactions n.dedup [] = .ok () := rfl
  have hreceived : n.onBlockReceived cfg b
      = if cfg.isListener then some ({ n with toCore := n.toCore.addBlock b }, .ok ())
        else voteForReceived cfg { n with toCore := n.toCore.addBlock b } b [] := by
    unfold onBlockReceived
    simp only [hnone, hb.leader, hb.signature, hb.transactions, hb.allTxs_eq,
      hb.markPoH_eq,
      Option.isSome_none, Bool.false_eq_true, if_false, Bool.not_true, List.any_nil,
      List.reduceOption_nil, hmempool, hadd, if_neg hlatest]
  obtain ⟨mempool, hclean⟩ : ∃ mempool, n.mempool.blockCleanup [] = some mempool :=
    ⟨_, rfl⟩
  by_cases hlisten : cfg.isListener = true
  · rw [if_pos hlisten] at hreceived
    refine ⟨{ n with toCore := n.toCore.addBlock b }, rfl, rfl, ?_⟩
    rw [hreceived, if_pos hlisten]
  · rw [if_neg hlisten] at hreceived
    refine ⟨Node.log { n with
      toCore := n.toCore.addBlock b
      dedup := n.dedup.add []
      mempool := mempool } (.voted (ownVote cfg b.slot b.hash)), rfl, rfl, ?_⟩
    rw [hreceived, if_neg hlisten]
    unfold voteForReceived
    simp only [hb.unflagged, Bool.false_eq_true, if_false, List.map_nil, hclean]
    rfl

/-- **Receiving the block** is the proposal in the tally. -/
theorem onBlockReceived_refines {n : Node} (h : Applicable b n) (hb : b.Valid cfg) :
    ∃ n' r, n.onBlockReceived cfg b = some (n', r) ∧ Applicable b n' ∧
      n'.collector.threshold = n.collector.threshold ∧
      n'.tally b.slot
        = (n.tally b.slot).deliver n.collector.threshold cfg.ownVoter .proposal := by
  by_cases hstored : (n.store.block b.slot).isSome = true
  · have hproposed : (n.tally b.slot).proposed = true :=
      (n.store.hasCompleteBlock_eq b.slot).trans hstored
    refine ⟨n, .ok (), ?_, h, rfl, (if_pos hproposed).symm⟩
    unfold onBlockReceived
    rw [if_pos hstored]
  · have hnone : n.store.block b.slot = none := by simpa using hstored
    have hproposed : (n.tally b.slot).proposed = false := by
      show n.store.hasCompleteBlock b.slot = false
      rw [Store.hasCompleteBlock_eq, hnone]
      rfl
    obtain ⟨n₁, hstore, hcollector, hreceived⟩ := onBlockReceived_of_valid hb hnone
    have hblock : n₁.store.block b.slot = some (broadcastedBlockToBlock b) := by
      rw [hstore, Store.block_addBlock, if_pos rfl]
    have hmark : n₁.store.isApplied b.slot = n.store.isApplied b.slot := by
      unfold Store.isApplied
      rw [hstore, Store.finalized_addBlock]
    have happlicable : Applicable b n₁ := by
      refine ⟨fun b' hb' => ?_, fun hmarked => ?_⟩
      · cases hblock.symm.trans hb'
        exact ⟨rfl, rfl, hb.unflagged, txHashes_broadcastedBlockToBlock hb.allTxs_eq⟩
      · -- a slot without a block is not marked
        rw [hmark] at hmarked
        obtain ⟨b', hb', -⟩ := h.marked hmarked
        cases hnone.symm.trans hb'
    have htally : n₁.tally b.slot = { n.tally b.slot with proposed := true } := by
      refine Tally.ext ?_ ?_ hmark
      · show n₁.store.hasCompleteBlock b.slot = true
        rw [Store.hasCompleteBlock_eq, hblock]
        rfl
      · show (n₁.collector.votesForSlot b.slot).keys.toFinset = _
        rw [hcollector]
        rfl
    rw [hreceived]
    unfold Tally.deliver Config.ownVoter
    rw [hproposed]
    by_cases hlisten : cfg.isListener = true
    · rw [if_pos hlisten, if_pos hlisten]
      exact ⟨n₁, .ok (), rfl, happlicable,
        congrArg Collector.threshold hcollector, htally⟩
    · rw [if_neg hlisten, if_neg hlisten]
      obtain ⟨n', r, hvote, h', hthr, htally'⟩ := processVote_refines cfg happlicable
        (show (ownVote cfg b.slot b.hash).slot = b.slot from rfl)
        (ownVote_valid cfg b.slot b.hash)
      refine ⟨n', r, hvote, h', hthr.trans (congrArg Collector.threshold hcollector),
        ?_⟩
      rw [htally', htally, hcollector]
      rfl

end Node

/-! ## All orders -/

/-- The input that delivers the block or a vote for it. -/
def Input.deliver (b : BroadcastedBlock) : Tally.Message Vote → Input
  | .proposal => .block b
  | .vote v => .vote v

/-- **One delivery** is one message of the tally. -/
theorem Node.step_refines_deliver {cfg : Config} {b : BroadcastedBlock}
    (hb : b.Valid cfg) {n : Node} (h : Applicable b n) {m : Tally.Message Vote}
    (hm : ∀ v, m = .vote v → v.slot = b.slot ∧ v.validate = .ok ()) :
    ∃ n', n.step cfg (.deliver b m) = some n' ∧ Applicable b n' ∧
      n'.collector.threshold = n.collector.threshold ∧
      n'.tally b.slot = (n.tally b.slot).deliver n.collector.threshold cfg.ownVoter
        (m.map Vote.voterID) := by
  cases m with
  | proposal =>
    obtain ⟨n', r, hstep, hrest⟩ := onBlockReceived_refines h hb
    refine ⟨n', ?_, hrest⟩
    show (n.onBlockReceived cfg b).map Prod.fst = _
    rw [hstep]
    rfl
  | vote v =>
    obtain ⟨hslot, hv⟩ := hm v rfl
    obtain ⟨n', r, hstep, hrest⟩ := processVote_refines cfg h hslot hv
    refine ⟨n', ?_, hrest⟩
    show (n.processVote cfg v).map Prod.fst = _
    rw [hstep]
    rfl

/-- **Any number of deliveries** are a fold of the tally. -/
theorem Node.exec_refines_deliver {cfg : Config} {b : BroadcastedBlock}
    (hb : b.Valid cfg) {n : Node} (h : Applicable b n)
    {ms : List (Tally.Message Vote)}
    (hms : ∀ v, .vote v ∈ ms → v.slot = b.slot ∧ v.validate = .ok ()) :
    ∃ n', Machine.exec (Node.step cfg) Machine.Always n
      (ms.map (.deliver b)) = some n' ∧ Applicable b n' ∧
      n'.tally b.slot = (ms.map (Tally.Message.map Vote.voterID)).foldl
        (Tally.deliver n.collector.threshold cfg.ownVoter) (n.tally b.slot) := by
  have hstep : ∀ (n₁ : Node) (m : Tally.Message Vote),
      (Applicable b n₁ ∧ n₁.collector.threshold = n.collector.threshold) →
      (∀ v, m = .vote v → v.slot = b.slot ∧ v.validate = .ok ()) →
      ∃ n₂, n₁.step cfg (.deliver b m) = some n₂ ∧
        (Applicable b n₂ ∧ n₂.collector.threshold = n.collector.threshold) ∧
        n₂.tally b.slot = (n₁.tally b.slot).deliver n.collector.threshold cfg.ownVoter
          (m.map Vote.voterID) := by
    rintro n₁ m ⟨happ, hthr⟩ hm
    obtain ⟨n₂, hn₂, happ₂, hthr₂, htally⟩ := step_refines_deliver hb happ hm
    rw [hthr] at hthr₂ htally
    exact ⟨n₂, hn₂, ⟨happ₂, hthr₂⟩, htally⟩
  have hvalid : ∀ m ∈ ms, ∀ v, m = .vote v → v.slot = b.slot ∧
      v.validate = .ok () := by
    rintro m hm v rfl
    exact hms v hm
  obtain ⟨n', hexec, ⟨happ, -⟩, htally⟩ := Machine.exec_refines
    (I := fun n₁ => Applicable b n₁ ∧ n₁.collector.threshold = n.collector.threshold)
    (Input.deliver b) (fun n₁ => n₁.tally b.slot)
    (fun t m => t.deliver n.collector.threshold cfg.ownVoter (m.map Vote.voterID))
    hstep hvalid ⟨h, rfl⟩
  refine ⟨n', hexec, happ, ?_⟩
  rw [htally, List.foldl_map]

/-- **Order of delivery.** Once a valid block and votes for it from at least
`threshold` distinct other voters are delivered, `before` ahead of the block
and `after` behind it, the node has not stopped, and the block is finalized
exactly if the node is a validator or somebody new votes after the block. -/
theorem finalized_iff_of_delivered {cfg : Config} {n : Node} {b : BroadcastedBlock}
    {before after : List Vote} (hb : b.Valid cfg)
    (hfree : n.store.block b.slot = none)
    (hunmarked : n.store.isApplied b.slot = false)
    (hself : cfg.selfPubKey ∉ n.collector.votesForSlot b.slot)
    (hvotes : ∀ v ∈ before ++ after, v.IsFor cfg n b)
    (hquorum : n.collector.threshold
      ≤ ((before ++ after).map Vote.voterID).toFinset.card) :
    ∃ n', Machine.exec (Node.step cfg) Machine.Always n
        (before.map .vote ++ .block b :: after.map .vote) = some n' ∧
      (n'.Finalized b ↔
        cfg.isListener = false ∨ ∃ v ∈ after, ∀ w ∈ before,
        w.voterID ≠ v.voterID) := by
  have happ : Applicable b n := by
    refine ⟨fun b' hb' => ?_, fun hmark => ?_⟩
    · cases hfree.symm.trans hb'
    · cases hunmarked.symm.trans hmark
  have hms : ∀ v, .vote v ∈ before.map Tally.Message.vote ++
      .proposal :: after.map Tally.Message.vote → v.slot = b.slot ∧
      v.validate = .ok () := by
    intro v hv
    have hmem : v ∈ before ++ after := by simpa using hv
    exact ⟨(hvotes v hmem).slot_eq, (hvotes v hmem).valid⟩
  obtain ⟨n', hexec, happ', htally⟩ := Node.exec_refines_deliver hb happ hms
  have hinputs : (before.map Tally.Message.vote ++
      .proposal :: after.map Tally.Message.vote).map (Input.deliver b)
      = before.map .vote ++ .block b :: after.map .vote := by
    simp [Input.deliver, Function.comp_def]
  have hmessages : (before.map Tally.Message.vote ++
      .proposal :: after.map Tally.Message.vote).map (Tally.Message.map Vote.voterID)
      = (before.map Vote.voterID).map Tally.Message.vote ++
        .proposal :: (after.map Vote.voterID).map Tally.Message.vote := by
    simp [Tally.Message.map, Function.comp_def]
  refine ⟨n', hinputs ▸ hexec, ?_⟩
  rw [happ'.finalized_iff, htally, hmessages, Tally.decided_deliver_iff]
  · rw [Config.ownVoter]
    refine or_congr ?_ ?_
    · cases cfg.isListener <;> simp
    · simp only [List.mem_map, exists_exists_and_eq_and, not_exists, not_and]
  · show n.store.hasCompleteBlock b.slot = false
    rw [Store.hasCompleteBlock_eq, hfree]
    rfl
  · exact hunmarked
  · intro id hid
    rw [← List.map_append] at hid
    obtain ⟨v, hv, rfl⟩ := List.mem_map.mp hid
    exact Node.mem_voters_tally.not.mpr (hvotes v hv).fresh
  · intro id hid
    have hid : id = cfg.selfPubKey := by
      unfold Config.ownVoter at hid
      split at hid
      · cases hid
      · exact (Option.some.inj hid).symm
    subst hid
    refine ⟨Node.mem_voters_tally.not.mpr hself, fun hin => ?_⟩
    obtain ⟨v, hv, heq⟩ := List.mem_map.mp hin
    exact (hvotes v (List.mem_append_left after hv)).other heq
  · rw [← List.map_append]
    exact hquorum

end

/-! ## Examples -/

section Sample

attribute [local instance] Sample.primitives

open Sample

/-- The block of slot 2: one tick after the zero hash. -/
def tickBlock : BroadcastedBlock :=
  (assembleBlock 2 zeroHash (keyID 2)
    [{ newTickEntry 1 zeroHash
      with hash := entryHash zeroHash (newTickEntry 1 zeroHash) }]
    0).sign (keyBytes 2)

theorem tickBlock_valid (isListener : Bool) :
    tickBlock.Valid (oneOfFour isListener) where
  leader := by cases isListener <;> decide +kernel
  signature := by decide +kernel
  transactions := by decide +kernel
  poh := by decide +kernel
  unflagged := rfl

/-- A vote for the block. -/
def voteForTick (voter : ℕ) : Vote := voteOf voter 2 tickBlock.hash

/-- A listener on a new database. -/
def newListener : Node :=
  Node.new (oneOfFour true)
    ((initializeBlockchain [] 0).toOption.getD Store.empty).reopen

theorem voteForTick_isFor (voter : ℕ) (h : voter = 2 ∨ voter = 3) :
    (voteForTick voter).IsFor (oneOfFour true) newListener tickBlock := by
  obtain rfl | rfl := h
  · exact ⟨rfl, rfl, by decide +kernel, by decide +kernel, by decide +kernel⟩
  · exact ⟨rfl, rfl, by decide +kernel, by decide +kernel, by decide +kernel⟩

/-- A vote, the block, a vote: a listener finalizes. -/
theorem finalized_between_votes :
    ∃ n, Machine.exec (Node.step (oneOfFour true)) Machine.Always newListener
        ([voteForTick 2].map .vote ++ .block tickBlock :: [voteForTick 3].map .vote)
          = some n ∧
      n.Finalized tickBlock := by
  have hvotes : ∀ v ∈ [voteForTick 2] ++ [voteForTick 3],
      v.IsFor (oneOfFour true) newListener tickBlock := by
    intro v hv
    obtain rfl | rfl : v = voteForTick 2 ∨ v = voteForTick 3 := by simpa using hv
    · exact voteForTick_isFor 2 (Or.inl rfl)
    · exact voteForTick_isFor 3 (Or.inr rfl)
  obtain ⟨n, hexec, hiff⟩ := finalized_iff_of_delivered (tickBlock_valid true)
    (by decide +kernel) (by decide +kernel) (by decide +kernel) hvotes
      (by decide +kernel)
  exact ⟨n, hexec, hiff.mpr
    (Or.inr ⟨voteForTick 3, by decide +kernel, by decide +kernel⟩)⟩

/-- **Two votes, then the block**: a listener has the block and a quorum of
votes for it, and does not finalize it. -/
theorem not_finalized_after_votes :
    tickBlock.Valid (oneOfFour true) ∧
      (voteForTick 2).IsFor (oneOfFour true) newListener tickBlock ∧
      (voteForTick 3).IsFor (oneOfFour true) newListener tickBlock ∧
      (voteForTick 2).voterID ≠ (voteForTick 3).voterID ∧
      newListener.collector.threshold = 2 ∧
      (Machine.exec (Node.step (oneOfFour true)) Machine.Always newListener
        [.vote (voteForTick 2), .vote (voteForTick 3), .block tickBlock]).any
          (fun n =>
          n.store.hasCompleteBlock 2 && !n.store.isApplied 2) = true :=
  ⟨tickBlock_valid true, voteForTick_isFor 2 (Or.inl rfl),
    voteForTick_isFor 3 (Or.inr rfl), by decide +kernel, rfl, by decide +kernel⟩

end Sample

end Mmn
