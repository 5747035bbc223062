import Mathlib.Data.List.ReduceOption
import Mmn.Moves
import Mmn.System

/-!
# What a step of a node can do

The handlers of a node are many, and each of them makes a few moves
(`Core.Move`). `Node.moves_of_step` says that every step of a node is a
chain of them. The invariants of the development are proved move by move;
none of them looks into a handler again.

A move that takes a block or a vote from outside says where it came from.
`Admits` collects what the handler of an input has checked about the block
it stores, and `Counts` what is known about the vote it counts.
-/

namespace Mmn

variable [Primitives]

/-! ## The operations of a node as moves -/

namespace Node

variable {cfg : Config} {A : Core → BroadcastedBlock → Prop} {V : Core → Vote → Prop}

/-- Storing a block at a free slot is a move. -/
theorem addBlockPending_of_notMem {n : Node} {b : BroadcastedBlock}
    (h : b.slot ∉ n.store.blocks) :
    n.addBlockPending b = ({ n with toCore := n.toCore.addBlock b }, .ok ()) := by
  unfold addBlockPending
  rw [Store.addBlockPending_eq_ok.mpr ⟨h, rfl⟩]
  rfl

/-- Storing a block at a slot that has one fails and changes nothing. -/
theorem addBlockPending_of_mem {n : Node} {b : BroadcastedBlock}
    (h : b.slot ∈ n.store.blocks) :
    ∃ err, n.addBlockPending b = (n, .error err) := by
  unfold addBlockPending
  split
  · next err _ => exact ⟨err, rfl⟩
  · next s hok => exact absurd h (Store.addBlockPending_eq_ok.mp hok).1

/-- Storing a block fails and changes nothing, or is a move. -/
theorem addBlockPending_cases (n : Node) (b : BroadcastedBlock) :
    (∃ err, n.addBlockPending b = (n, .error err)) ∨
      (b.slot ∉ n.store.blocks ∧
        n.addBlockPending b = ({ n with toCore := n.toCore.addBlock b },
          .ok ())) := by
  by_cases h : b.slot ∈ n.store.blocks
  · exact Or.inl (addBlockPending_of_mem h)
  · exact Or.inr ⟨h, addBlockPending_of_notMem h⟩

/-- Applying a block changes nothing but the tracker, or applies it and
notes it. -/
theorem finalizeBlock_cases {n n' : Node} {b : Block} {note : Event}
    {r : Except String Unit} (h : n.finalizeBlock cfg b note = some (n', r)) :
    ∃ t, n' = { n with tracker := t } ∨
      (b.invalidPoH = false ∧ b.slot ∈ n.store.blocks ∧
        n' = { n with
          store := n.store.applyBlock b
          history := n.history ++ [note]
          tracker := t }) := by
  unfold finalizeBlock at h
  split at h
  · cases h
  · next s t err hfin =>
    cases h
    obtain ⟨rfl, -⟩ | ⟨-, -, -, hr⟩ := Mmn.finalizeBlock_cases hfin
    · exact ⟨t, Or.inl rfl⟩
    · cases hr
  · next s t hfin =>
    cases h
    obtain ⟨rfl, hpoh | hr⟩ | ⟨rfl, hpoh, hmem, -⟩ := Mmn.finalizeBlock_cases hfin
    · exact ⟨t, Or.inl (by rw [if_pos hpoh])⟩
    · exact absurd rfl hr
    · refine ⟨t, Or.inr ⟨hpoh, hmem, ?_⟩⟩
      rw [hpoh]
      rfl

/-- **Applying an idle block succeeds** at a slot that has a block, and
changes nothing if the block is flagged. -/
theorem finalizeBlock_of_idle {n : Node} {b : Block} (hidle : b.Idle)
    (hmem : b.slot ∈ n.store.blocks) (note : Event) :
    n.finalizeBlock cfg b note
      = some (if b.invalidPoH then n
          else { n with store := n.store.applyBlock b, history := n.history
            ++ [note] },
          .ok ()) := by
  cases hpoh : b.invalidPoH with
  | true =>
    have hledger : Ledger.finalizeBlock n.store n.tracker b cfg.isListener
        = some (n.store, n.tracker, .ok ()) := by
      unfold Ledger.finalizeBlock
      rw [if_pos hpoh]
    unfold finalizeBlock
    rw [hledger, hpoh]
    rfl
  | false =>
    have hnone := hidle.resolve_left (Bool.eq_false_iff.mp hpoh)
    have htxs := Store.txsInBlock_eq_nil hnone n.store
    have hlatest : (n.store.executeBlock b).latest = ∅ := by
      unfold Store.executeBlock
      rw [htxs]
      rfl
    have hstore : n.store.finalizeBlock b (n.store.executeBlock b).txMetas
        (n.store.executeBlock b).state (n.store.executeBlock b).latest
        = .ok (n.store.applyBlock b) := by
      refine Store.finalizeBlock_eq_ok.mpr ⟨hmem, ?_, rfl⟩
      rw [hlatest]
      exact fun _ he => absurd he List.not_mem_nil
    have htracker : (if cfg.isListener then some n.tracker
        else Ledger.removeTransactions n.tracker (n.store.txsInBlock b))
            = some n.tracker := by
      rw [htxs]
      split <;> rfl
    have hledger : Ledger.finalizeBlock n.store n.tracker b cfg.isListener
        = some (n.store.applyBlock b, n.tracker, .ok ()) := by
      unfold Ledger.finalizeBlock
      rw [hpoh, htracker]
      simp [hstore]
    unfold finalizeBlock
    rw [hledger, hpoh]
    rfl

/-- **Applying the block of a slot** finds nothing to do, or changes nothing
but the tracker and the slot of the mempool, or applies the block and notes
it. -/
theorem applyDataToBlock_cases {n n' : Node} {slot : UInt64} {r : Except String Unit}
    (h : n.applyDataToBlock cfg slot = some (n', r)) :
    n' = n ∨ ∃ b t, n.store.block slot = some b ∧ slot ∉ n.store.finalized ∧
      (n' = { n with tracker := t, mempool := n.mempool.setCurrentSlot slot } ∨
        (b.invalidPoH = false ∧
          n' = { n with
            store := n.store.applyBlock b
            history := n.history
              ++ [.committed n.store slot b (n.collector.votesForSlot slot)]
            tracker := t
            mempool := n.mempool.setCurrentSlot slot })) := by
  unfold applyDataToBlock at h
  split at h
  · cases h
    exact Or.inl rfl
  next happlied =>
  have hnot : slot ∉ n.store.finalized := by simpa [Store.isApplied] using happlied
  split at h
  · cases h
    exact Or.inl rfl
  next b hb =>
  -- the three answers of `finalizeBlock` differ only in the error text
  have hfin : ∃ r', Node.finalizeBlock cfg
      { n with mempool := n.mempool.setCurrentSlot slot } b
      (.committed n.store slot b (n.collector.votesForSlot slot))
          = some (n', r') := by
    dsimp only at h
    split at h
    · cases h
    · next n₁ err hfin =>
      cases h
      exact ⟨_, hfin⟩
    · next n₁ hfin =>
      cases h
      exact ⟨_, hfin⟩
  obtain ⟨r', hfin⟩ := hfin
  obtain ⟨t, rfl | ⟨hpoh, -, rfl⟩⟩ := finalizeBlock_cases hfin
  · exact Or.inr ⟨b, t, hb, hnot, Or.inl rfl⟩
  · exact Or.inr ⟨b, t, hb, hnot, Or.inr ⟨hpoh, rfl⟩⟩

/-- **Counting a vote** is refused and changes nothing, or puts the vote, or
puts it and applies the block of its slot. The mempool keeps its
transactions. -/
theorem processVote_cases {n n' : Node} {v : Vote} {r : Except String Unit}
    (h : n.processVote cfg v = some (n', r)) :
    n' = n ∨ ∃ (hv : v.validate = .ok ()) (t : TransactionTracker) (slot : UInt64),
      v.voterID ∉ n.collector.votesForSlot v.slot ∧
        (n' = { n with toCore := n.toCore.count v hv } ∨
          n' = { n with
            toCore := n.toCore.count v hv
            tracker := t
            mempool := n.mempool.setCurrentSlot slot } ∨
          ∃ b, n.collector.threshold ≤ (n.collector.put v hv).count v.slot ∧
            n.store.block v.slot = some b ∧ b.invalidPoH = false ∧
            v.slot ∉ n.store.finalized ∧
            n' = { n with
              toCore := n.toCore.commit v hv b
              tracker := t
              mempool := n.mempool.setCurrentSlot slot }) := by
  unfold processVote at h
  split at h
  · cases h
    exact Or.inl rfl
  next collector committed needApply hadd =>
  obtain ⟨hv, hnew, rfl, hcommitted, -⟩ := Collector.addVote_eq_ok.mp hadd
  refine Or.inr ⟨hv, ?_⟩
  dsimp only at h
  split at h
  · cases h
    exact ⟨n.tracker, 0, hnew, Or.inl rfl⟩
  split at h
  · next hboth =>
    have hthreshold : n.collector.threshold
        ≤ (n.collector.put v hv).count v.slot := by
      rw [Bool.and_eq_true] at hboth
      simpa [hcommitted] using hboth.1
    obtain rfl | ⟨b, t, hb, happlied, rfl | ⟨hpoh, rfl⟩⟩ := applyDataToBlock_cases h
    · exact ⟨n.tracker, 0, hnew, Or.inl rfl⟩
    · exact ⟨t, v.slot, hnew, Or.inr (Or.inl rfl)⟩
    · exact ⟨t, v.slot, hnew,
        Or.inr (Or.inr ⟨b, hthreshold, hb, hpoh, happlied, rfl⟩)⟩
  · cases h
    exact ⟨n.tracker, 0, hnew, Or.inl rfl⟩

/-- Counting a vote as a chain of moves. -/
theorem moves_of_processVote {n n' : Node} {v : Vote} {r : Except String Unit}
    (h : n.processVote cfg v = some (n', r)) (hcount : V n.toCore v) :
    Core.Moves cfg A V n.toCore n'.toCore := by
  obtain rfl | ⟨hv, t, slot, hnew, hcases⟩ := processVote_cases h
  · exact .refl
  · obtain rfl | rfl | ⟨b, hthreshold, hb, hpoh, happlied, rfl⟩ := hcases
    · exact .single (.count hcount hv hnew)
    · exact .single (.count hcount hv hnew)
    · exact .single (.commit hcount hv hnew hthreshold hb hpoh happlied)

/-- Voting for a stored block as a chain of moves. -/
theorem moves_of_castVote {n n' : Node} {b : Block} {r : Except String Unit}
    (h : n.castVote cfg b.slot b.hash = some (n', r))
    (hb : n.store.block b.slot = some b)
    (hcount : V (n.toCore.cast (ownVote cfg b.slot b.hash))
      (ownVote cfg b.slot b.hash)) :
    Core.Moves cfg A V n.toCore n'.toCore := by
  refine .head (.cast hb) ?_
  exact moves_of_processVote (n := n.log (.voted (ownVote cfg b.slot b.hash))) h
    hcount

end Node

/-! ## Where blocks and votes come from -/

namespace Node

/-- **The blocks an input offers a node for storing.** A message of the sync
stream offers the blocks that are now next in line; most inputs offer none. -/
def offered (cfg : Config) (n : Node) : Input → List BroadcastedBlock
  | .block blk => [blk]
  | .emptyBlocks blocks => blocks.reduceOption
  | .syncResponse (some blk) clock =>
    if n.store.hasCompleteBlock blk.slot then []
    else match takeConsecutive cfg n.store n.worldLatestSlot clock consecutiveFuel
        { queue := n.blockOrderingQueue.insert blk.slot blk,
          next := n.nextExpectedSlot, processed := [] } with
      | some c => c.processed
      | none => []
  | .broadcast i _ => n.outbox[i]?.toList
  | _ => []

end Node

/-- **What is known of a block that an input makes a node store.** The node
is the one before the input; the core is the one at the moment of storing. -/
inductive Admits (cfg : Config) (n : Node) :
    Input → Core → BroadcastedBlock → Prop where
  /-- A live block has passed the checks of `onBlockReceived`. -/
  | live {blk : BroadcastedBlock}
      (hleader : cfg.leaderSchedule.isLeaderAt blk.slot blk.leaderID = true)
      (hsig : blk.verifySignature = true)
      (htxs : verifyBlockTransactions blk = .ok ())
      (hnull : none ∉ blk.allTxs)
      (hnew : n.mempool.verifyBlockTransactions n.dedup blk.allTxs.reduceOption
        = .ok ()) :
      Admits cfg n (.block blk) n.toCore blk.markPoH
  /-- A block of the empty-block topic has passed none, but its slot was
  free. -/
  | empty {blocks : List (Option BroadcastedBlock)} {blk : BroadcastedBlock}
    {c : Core}
      (hmem : some blk ∈ blocks) (hfree : blk.slot ∉ n.store.blocks) :
      Admits cfg n (.emptyBlocks blocks) c blk
  /-- A block of the sync has passed the checks of `processBlock`. -/
  | synced {msg : Option BroadcastedBlock} {clock : ℕ → UInt64}
    {blk : BroadcastedBlock}
      {c : Core} (hmem : blk ∈ n.offered cfg (.syncResponse msg clock))
      (hsig : blk.verifySignature = true)
      (htxs : verifyBlockTransactions blk = .ok ()) :
      Admits cfg n (.syncResponse msg clock) c blk.markPoH
  /-- An own block was waiting for its broadcast. -/
  | own {i : ℕ} {published : Bool} {blk : BroadcastedBlock}
      (hmem : n.outbox[i]? = some blk) : Admits cfg n (.broadcast i published)
        n.toCore blk

/-- **What is known of a vote that an input makes a node count.** -/
inductive Counts (cfg : Config) (n : Node) : Input → Core → Vote → Prop where
  | received {v : Vote} : Counts cfg n (.vote v) n.toCore v
  /-- The node's vote for a live block it just stored. -/
  | live {blk : BroadcastedBlock} {c : Core} (hlistener : cfg.isListener = false)
      (hfree : blk.slot ∉ n.store.blocks) (hcollector : c.collector = n.collector)
      (hfinalized : c.store.finalized = n.store.finalized)
      (hb : c.store.block blk.slot = some (broadcastedBlockToBlock blk.markPoH))
      (hcast : .voted (ownVote cfg blk.slot blk.hash) ∈ c.history) :
      Counts cfg n (.block blk) c (ownVote cfg blk.slot blk.hash)
  /-- The node's vote for its own block. -/
  | own {i : ℕ} {published : Bool} {blk : BroadcastedBlock} {c : Core}
      (hmem : n.outbox[i]? = some blk) (hfree : blk.slot ∉ n.store.blocks)
      (hcollector : c.collector = n.collector)
      (hfinalized : c.store.finalized = n.store.finalized)
      (hb : c.store.block blk.slot = some (broadcastedBlockToBlock blk))
      (hcast : .voted (ownVote cfg blk.slot blk.hash) ∈ c.history) :
      Counts cfg n (.broadcast i published) c (ownVote cfg blk.slot blk.hash)

/-- **The vote an input makes a node count**, with the block that is stored
at its slot when it is counted. -/
def Node.nextVote (cfg : Config) (n : Node) : Input → Option (Vote × Block)
  | .vote v => (n.store.block v.slot).map (fun b => (v, b))
  | .block blk =>
    if blk.slot ∈ n.store.blocks then none
    else some (ownVote cfg blk.slot blk.hash, broadcastedBlockToBlock blk.markPoH)
  | .broadcast i _ => n.outbox[i]?.bind (fun blk =>
      if blk.slot ∈ n.store.blocks then none
      else some (ownVote cfg blk.slot blk.hash, broadcastedBlockToBlock blk))
  | _ => none

/-- A vote that is counted at a slot with a block is the next vote of the
node, and the collector and the marks are those before the input. -/
theorem Counts.nextVote {cfg : Config} {n : Node} {i : Input} {c : Core} {v : Vote}
    {b : Block} (h : Counts cfg n i c v) (hb : c.store.block v.slot = some b) :
    n.nextVote cfg i = some (v, b) ∧ c.collector = n.collector ∧
      c.store.finalized = n.store.finalized := by
  cases h with
  | received =>
    refine ⟨?_, rfl, rfl⟩
    dsimp only [Node.nextVote]
    rw [hb]
    rfl
  | live _ hfree hcollector hfinalized hb' =>
    refine ⟨?_, hcollector, hfinalized⟩
    obtain rfl := Option.some.inj (hb'.symm.trans hb)
    exact if_neg hfree
  | own hmem hfree hcollector hfinalized hb' =>
    refine ⟨?_, hcollector, hfinalized⟩
    obtain rfl := Option.some.inj (hb'.symm.trans hb)
    dsimp only [Node.nextVote]
    rw [hmem]
    exact if_neg hfree

/-- A block that is stored was offered; at most its flag is new. -/
theorem Admits.exists_offered {cfg : Config} {n : Node} {i : Input} {c : Core}
    {b : BroadcastedBlock} (h : Admits cfg n i c b) :
    ∃ blk ∈ n.offered cfg i, b = blk ∨ b = blk.markPoH := by
  cases h with
  | live => exact ⟨_, List.mem_singleton_self _, Or.inr rfl⟩
  | empty hmem => exact ⟨b, List.reduceOption_mem_iff.mpr hmem, Or.inl rfl⟩
  | synced hmem => exact ⟨_, hmem, Or.inr rfl⟩
  | own hmem =>
    refine ⟨b, ?_, Or.inl rfl⟩
    dsimp only [Node.offered]
    rw [hmem]
    exact List.mem_singleton_self b

namespace BroadcastedBlock

variable (b : BroadcastedBlock)

/-- The flag is all that `markPoH` can change. -/
theorem markPoH_eq : b.markPoH = { b with invalidPoH := b.markPoH.invalidPoH } := by
  unfold markPoH
  split <;> rfl

@[simp] theorem slot_markPoH : b.markPoH.slot = b.slot := by rw [markPoH_eq]

@[simp] theorem hash_markPoH : b.markPoH.hash = b.hash := by rw [markPoH_eq]

@[simp] theorem leaderID_markPoH : b.markPoH.leaderID = b.leaderID := by
  rw [markPoH_eq]

@[simp] theorem entries_markPoH : b.markPoH.entries = b.entries := by rw [markPoH_eq]

@[simp] theorem blockTxs_markPoH : b.markPoH.blockTxs = b.blockTxs := by
  unfold blockTxs
  rw [entries_markPoH]

end BroadcastedBlock

namespace Node

variable {cfg : Config} {A : Core → BroadcastedBlock → Prop} {V : Core → Vote → Prop}

/-! ## Live blocks -/

/-- Voting for a stored block: its transactions are remembered and cleaned
up exactly if its entries follow. -/
theorem voteForReceived_cases {n n' : Node} {blk : BroadcastedBlock}
    {txs : List Transaction} {r : Except String Unit}
    (h : n.voteForReceived cfg blk txs = some (n', r)) :
    ∃ dedup mempool,
      ((blk.invalidPoH = true ∧ dedup = n.dedup ∧ mempool = n.mempool) ∨
        (blk.invalidPoH = false ∧
          dedup = n.dedup.add (txs.map Transaction.dedupHash) ∧
          n.mempool.blockCleanup (txs.map (fun tx => Transaction.hash (some tx)))
            = some mempool)) ∧
      ({ n with dedup := dedup, mempool := mempool } : Node).castVote cfg
        blk.slot blk.hash = some (n', r) := by
  unfold voteForReceived at h
  split at h
  · next hpoh => exact ⟨n.dedup, n.mempool, Or.inl ⟨hpoh, rfl, rfl⟩, h⟩
  · next hpoh =>
    dsimp only at h
    split at h
    · cases h
    · next mempool hclean =>
      exact ⟨_, mempool, Or.inr ⟨Bool.eq_false_iff.mpr hpoh, rfl, hclean⟩, h⟩

/-- **What a live block can do**: nothing, or be stored and, unless the node
only listens, voted for. The clock is never reset, because a stored block is
not beyond the latest stored slot. -/
theorem onBlockReceived_cases {n n' : Node} {blk : BroadcastedBlock}
    {r : Except String Unit} (h : n.onBlockReceived cfg blk = some (n', r)) :
    n' = n ∨
      (Admits cfg n (.block blk) n.toCore blk.markPoH ∧ blk.slot ∉ n.store.blocks ∧
        ((cfg.isListener = true ∧
            n' = { n with toCore := n.toCore.addBlock blk.markPoH }) ∨
          (cfg.isListener = false ∧
            Node.voteForReceived cfg
              { n with toCore := n.toCore.addBlock blk.markPoH }
              blk.markPoH blk.allTxs.reduceOption = some (n', r)))) := by
  unfold onBlockReceived at h
  split at h
  · cases h
    exact Or.inl rfl
  split at h
  · cases h
    exact Or.inl rfl
  next hleader =>
  split at h
  · cases h
    exact Or.inl rfl
  next hsig =>
  split at h
  · cases h
    exact Or.inl rfl
  next htxs =>
  split at h
  · cases h
  next hnull =>
  dsimp only at h
  split at h
  · cases h
    exact Or.inl rfl
  next hnew =>
  obtain ⟨err, hadd⟩ | ⟨hfree, hadd⟩ := addBlockPending_cases n blk.markPoH
  · rw [hadd] at h
    cases h
    exact Or.inl rfl
  · rw [hadd] at h
    dsimp only at h
    have hlatest : ¬ blk.markPoH.slot
        > (n.toCore.addBlock blk.markPoH).store.latestStore :=
      UInt64.not_lt.mpr (Store.slot_le_latestStore_addBlock n.store _)
    rw [if_neg hlatest] at h
    refine Or.inr ⟨.live ?_ ?_ htxs ?_ hnew, ?_, ?_⟩
    · simpa using hleader
    · simpa using hsig
    · simpa using hnull
    · simpa using hfree
    · split at h
      · next hlistener =>
        cases h
        exact Or.inl ⟨hlistener, rfl⟩
      · next hlistener => exact Or.inr ⟨Bool.eq_false_iff.mpr hlistener, h⟩

theorem moves_of_block {n n' : Node} {blk : BroadcastedBlock} {r : Except String Unit}
    (h : n.onBlockReceived cfg blk = some (n', r)) :
    Core.Moves cfg (Admits cfg n (.block blk)) (Counts cfg n (.block blk))
      n.toCore n'.toCore := by
  obtain rfl | ⟨horigin, hfree, ⟨-, rfl⟩ | ⟨hlistener, hvote⟩⟩ :=
    onBlockReceived_cases h
  · exact .refl
  · exact .single (.addBlock horigin (by rwa [BroadcastedBlock.slot_markPoH]))
  · refine .head (.addBlock horigin (by rwa [BroadcastedBlock.slot_markPoH])) ?_
    obtain ⟨dedup, mempool, -, hcast⟩ := voteForReceived_cases hvote
    have hb : (n.store.addBlock blk.markPoH).block blk.markPoH.slot
        = some (broadcastedBlockToBlock blk.markPoH) := by
      rw [Store.block_addBlock, if_pos rfl]
    refine moves_of_castVote (b := broadcastedBlockToBlock blk.markPoH) hcast hb ?_
    have hcount : Counts cfg n (.block blk)
        ((n.toCore.addBlock blk.markPoH).cast (ownVote cfg blk.slot blk.hash))
        (ownVote cfg blk.slot blk.hash) :=
      .live hlistener hfree rfl (Store.finalized_addBlock _ _)
        (by rw [← hb, BroadcastedBlock.slot_markPoH]; rfl)
        (List.mem_append_right _ (List.mem_singleton_self _))
    simpa [broadcastedBlockToBlock] using hcount

/-! ## Empty blocks -/

theorem moves_of_emptyBlocks (n : Node) (blocks : List (Option BroadcastedBlock)) :
    Core.Moves cfg (Admits cfg n (.emptyBlocks blocks)) V
      n.toCore (n.onEmptyBlockReceived blocks).toCore := by
  -- the loop may be at any node that has at least the blocks of the first
  have hloop : ∀ (l : List (Option BroadcastedBlock)) (m : Node),
      (∀ b ∈ l, b ∈ blocks) →
      (∀ slot, slot ∈ n.store.blocks → slot ∈ m.store.blocks) →
      Core.Moves cfg (Admits cfg n (.emptyBlocks blocks)) V
        m.toCore (l.foldl storeEmptyBlock m).toCore := by
    intro l
    induction l with
    | nil => exact fun m _ _ => .refl
    | cons b l ih =>
      intro m hsub hgrows
      have hone : Core.Moves cfg (Admits cfg n (.emptyBlocks blocks)) V
            m.toCore (m.storeEmptyBlock b).toCore ∧
          ∀ slot, slot ∈ m.store.blocks →
          slot ∈ (m.storeEmptyBlock b).store.blocks := by
        unfold storeEmptyBlock
        split
        · exact ⟨.refl, fun _ h => h⟩
        · next blk =>
          split
          · exact ⟨.refl, fun _ h => h⟩
          · obtain ⟨err, hadd⟩ | ⟨hfree, hadd⟩ := addBlockPending_cases m blk
            · rw [hadd]
              exact ⟨.refl, fun _ h => h⟩
            · rw [hadd]
              refine ⟨.single (.addBlock (.empty (hsub _ List.mem_cons_self) ?_)
                hfree), ?_⟩
              · exact fun hmem => hfree (hgrows _ hmem)
              · intro slot hslot
                exact (m.store.mem_blocks_addBlock blk slot).mpr (Or.inr hslot)
      exact hone.1.trans (ih _ (fun b' hb' => hsub b' (List.mem_cons_of_mem b hb'))
        (fun slot h => hone.2 slot (hgrows slot h)))
  exact hloop blocks n (fun _ hb => hb) (fun _ h => h)

/-! ## The sync stream -/

/-- The loop over the queue processes blocks of the queue and blocks made
up, and adds nothing to the queue. -/
theorem takeConsecutive_spec {P : BroadcastedBlock → Prop} {s : Store}
    {worldLatestSlot : UInt64} {clock : ℕ → UInt64}
    (hown : ∀ slot prevHash now, isLeader cfg slot = true →
      P (emptyBlock cfg slot prevHash now)) :
    ∀ (fuel : ℕ) (c c' : Consecutive),
      takeConsecutive cfg s worldLatestSlot clock fuel c = some c' →
      (∀ slot blk, c.queue.lookup slot = some blk → P blk) →
      (∀ blk ∈ c.processed, P blk) →
      (∀ blk ∈ c'.processed, P blk) ∧
        ∀ slot blk, c'.queue.lookup slot = some blk →
        c.queue.lookup slot = some blk := by
  intro fuel
  induction fuel with
  | zero => exact fun c c' h => by cases h
  | succ fuel ih =>
    intro c c' h hqueue hprocessed
    unfold takeConsecutive at h
    split at h
    · cases h
      exact ⟨hprocessed, fun _ _ hlook => hlook⟩
    · split at h
      · next blk hlook =>
        obtain ⟨hall, hsub⟩ := ih _ _ h
          (fun slot b hb => hqueue slot b (AList.lookup_of_lookup_erase hb))
          (fun b hb => (List.mem_append.mp hb).elim (hprocessed b) fun hb =>
            List.mem_singleton.mp hb ▸ hqueue _ blk hlook)
        exact ⟨hall, fun slot b hb => AList.lookup_of_lookup_erase (hsub slot b hb)⟩
      · split at h
        · next hleader =>
          dsimp only at h
          obtain ⟨hall, hsub⟩ := ih _ _ h hqueue
            (fun b hb => (List.mem_append.mp hb).elim (hprocessed b) fun hb =>
              List.mem_singleton.mp hb ▸ hown _ _ _ hleader)
          exact ⟨hall, hsub⟩
        · cases h
          exact ⟨hprocessed, fun _ _ hlook => hlook⟩

/-- **What processing a block of the sync can do**: nothing, store it, or
store and apply it. -/
theorem processBlock_cases {n n' : Node} {blk : BroadcastedBlock}
    {r : Except String Unit} (h : n.processBlock cfg blk = some (n', r)) :
    n' = n ∨ ∃ t, blk.verifySignature = true ∧ verifyBlockTransactions blk = .ok () ∧
      blk.markPoH.slot ∉ n.store.blocks ∧
      (n' = { n with toCore := n.toCore.addBlock blk.markPoH, tracker := t } ∨
        (blk.markPoH.invalidPoH = false ∧
          n' = { n with
            toCore := (n.toCore.addBlock blk.markPoH).applySynced
              (broadcastedBlockToBlock blk.markPoH)
            tracker := t })) := by
  unfold processBlock at h
  split at h
  · cases h
    exact Or.inl rfl
  next hsig =>
  split at h
  · cases h
    exact Or.inl rfl
  next htxs =>
  dsimp only at h
  obtain ⟨err, hadd⟩ | ⟨hfree, hadd⟩ := addBlockPending_cases n blk.markPoH
  · rw [hadd] at h
    cases h
    exact Or.inl rfl
  · rw [hadd] at h
    have hfin : ∃ r', Node.finalizeBlock cfg
        { n with toCore := n.toCore.addBlock blk.markPoH }
        (broadcastedBlockToBlock blk.markPoH)
        (.synced (n.store.addBlock blk.markPoH) (broadcastedBlockToBlock blk.markPoH))
          = some (n', r') := by
      dsimp only at h
      split at h
      · cases h
      · next n₁ err hfin =>
        cases h
        exact ⟨_, hfin⟩
      · next n₁ hfin =>
        cases h
        exact ⟨_, hfin⟩
    obtain ⟨r', hfin⟩ := hfin
    obtain ⟨t, rfl | ⟨hpoh, -, rfl⟩⟩ := finalizeBlock_cases hfin
    · exact Or.inr ⟨t, by simpa using hsig, htxs, hfree, Or.inl rfl⟩
    · exact Or.inr ⟨t, by simpa using hsig, htxs, hfree, Or.inr ⟨hpoh, rfl⟩⟩

/-- Processing blocks of the sync is a chain of moves, and changes nothing
else but the tracker. -/
theorem processBlocks_spec {P : BroadcastedBlock → Prop}
    (hA : ∀ (c : Core) (blk : BroadcastedBlock), P blk → blk.verifySignature = true →
      verifyBlockTransactions blk = .ok () → A c blk.markPoH) :
    ∀ (blks : List BroadcastedBlock) (n n' : Node), (∀ blk ∈ blks, P blk) →
      n.processBlocks cfg blks = some n' →
      ∃ c t, n' = { n with toCore := c, tracker := t } ∧
        Core.Moves cfg A V n.toCore c := by
  intro blks
  induction blks with
  | nil =>
    intro n n' _ h
    cases h
    exact ⟨n.toCore, n.tracker, rfl, .refl⟩
  | cons blk blks ih =>
    intro n n' hP h
    unfold processBlocks at h
    split at h
    · cases h
    · next n₁ r hblk =>
      have hhead : ∃ c t, n₁ = { n with toCore := c, tracker := t } ∧
          Core.Moves cfg A V n.toCore c := by
        obtain rfl | ⟨t, hsig, htxs, hfree, hcases⟩ := processBlock_cases hblk
        · exact ⟨n₁.toCore, n₁.tracker, rfl, .refl⟩
        · have horigin := hA n.toCore blk (hP blk List.mem_cons_self) hsig htxs
          obtain rfl | ⟨hpoh, rfl⟩ := hcases
          · exact ⟨_, t, rfl, .single (.addBlock horigin hfree)⟩
          · exact ⟨_, t, rfl, .single (.sync horigin hfree hpoh)⟩
      obtain ⟨c, t, rfl, hmoves⟩ := hhead
      obtain ⟨c', t', rfl, hmoves'⟩ := ih _ _
        (fun b hb => hP b (List.mem_cons_of_mem blk hb)) h
      exact ⟨c', t', rfl, hmoves.trans hmoves'⟩

/-- Switching to full mode touches neither the stores nor the buffers,
except that it may clear the recorder. -/
theorem enableFullMode_cases {n n' : Node} {latest : BroadcastedBlock}
    (h : n.enableFullMode cfg latest = some n') :
    n' = n ∨ ∃ dedup mempool, mempool.txs = n.mempool.txs ∧
      n' = { n with
        recorder := n.recorder.reset latest.lastEntryHash latest.slot
        fullModeEnabled := true
        dedup := dedup
        mempool := mempool
        ready := true } := by
  unfold enableFullMode at h
  split at h
  · cases h
    exact Or.inl rfl
  · refine Or.inr ?_
    unfold startCoreServices at h
    split at h
    · cases h
      exact ⟨n.dedup, n.mempool, rfl, rfl⟩
    · split at h
      · cases h
      · next dedup _ =>
        cases h
        refine ⟨dedup, n.mempool.setCurrentSlot n.store.latestFinalized, ?_, rfl⟩
        unfold Mempool.setCurrentSlot
        split <;> rfl

/-- What the queue and the processing of a sync message do: the queue holds
blocks that were in it or the message, and the core makes moves. -/
theorem addBlockToOrderingQueue_spec {n n' : Node} {blk : BroadcastedBlock}
    {clock : ℕ → UInt64} {latest : Option BroadcastedBlock}
    (h : n.addBlockToOrderingQueue cfg blk clock = some (n', latest)) :
    ∃ c t queue next,
      n' = { n with
        toCore := c
        tracker := t
        blockOrderingQueue := queue
        nextExpectedSlot := next } ∧
      (∀ slot b, queue.lookup slot = some b →
        b = blk ∨ n.blockOrderingQueue.lookup slot = some b) ∧
      Core.Moves cfg (Admits cfg n (.syncResponse (some blk) clock)) V
        n.toCore c := by
  unfold addBlockToOrderingQueue at h
  split at h
  · cases h
    exact ⟨n.toCore, n.tracker, n.blockOrderingQueue, n.nextExpectedSlot, rfl,
      fun _ _ hlook => Or.inr hlook, .refl⟩
  · next hstored =>
    unfold processConsecutiveBlocks at h
    dsimp only at h
    split at h
    · cases h
    · next c htake =>
      have hinsert : ∀ slot b,
          (n.blockOrderingQueue.insert blk.slot blk).lookup slot = some b →
          b = blk ∨ n.blockOrderingQueue.lookup slot = some b := by
        intro slot b hlook
        by_cases hslot : slot = blk.slot
        · subst hslot
          rw [AList.lookup_insert] at hlook
          exact Or.inl (Option.some.inj hlook).symm
        · rw [AList.lookup_insert_ne hslot] at hlook
          exact Or.inr hlook
      obtain ⟨-, hsub⟩ := takeConsecutive_spec (P := fun _ => True)
        (fun _ _ _ _ => trivial) _ _ _ htake (fun _ _ _ => trivial)
          (fun _ _ => trivial)
      have hoffered : n.offered cfg (.syncResponse (some blk) clock)
          = c.processed := by
        dsimp only [offered]
        rw [if_neg hstored, htake]
      obtain ⟨n₁, hprocess, hpair⟩ := Option.map_eq_some_iff.mp h
      cases hpair
      obtain ⟨c', t, rfl, hmoves⟩ := processBlocks_spec
        (A := Admits cfg n (.syncResponse (some blk) clock)) (V := V)
        (fun _ b hmem hsig htxs => .synced (hoffered ▸ hmem) hsig htxs)
        c.processed _ _ (fun _ hb => hb) hprocess
      exact ⟨c', t, c.queue, c.next, rfl,
        fun slot b hlook => hinsert slot b (hsub slot b hlook), hmoves⟩

/-- **What a message of the sync stream can do**: the queue may take it in,
the core makes moves, and the node may switch to full mode. -/
theorem onSyncResponseReceived_spec {n n' : Node} {msg : Option BroadcastedBlock}
    {clock : ℕ → UInt64} (h : n.onSyncResponseReceived cfg msg clock = some n') :
    ∃ c t queue next,
      (∀ slot b, queue.lookup slot = some b →
        msg = some b ∨ n.blockOrderingQueue.lookup slot = some b) ∧
      Core.Moves cfg (Admits cfg n (.syncResponse msg clock)) V n.toCore c ∧
      (n' = { n with
          toCore := c
          tracker := t
          blockOrderingQueue := queue
          nextExpectedSlot := next } ∨
        ∃ lastHash slot dedup mempool, mempool.txs = n.mempool.txs ∧
          n' = { n with
            toCore := c
            tracker := t
            blockOrderingQueue := queue
            nextExpectedSlot := next
            recorder := n.recorder.reset lastHash slot
            fullModeEnabled := true
            dedup := dedup
            mempool := mempool
            ready := true }) := by
  unfold onSyncResponseReceived at h
  split at h
  · cases h
    exact ⟨n.toCore, n.tracker, n.blockOrderingQueue, n.nextExpectedSlot,
      fun _ _ hlook => Or.inr hlook, .refl, Or.inl rfl⟩
  · next blk =>
    split at h
    · cases h
    · next n₁ hqueue =>
      cases h
      obtain ⟨c, t, queue, next, rfl, hsub, hmoves⟩ :=
        addBlockToOrderingQueue_spec hqueue
      exact ⟨c, t, queue, next, fun slot b hb => (hsub slot b hb).imp_left
        (fun heq => congrArg some heq.symm), hmoves, Or.inl rfl⟩
    · next n₁ latest hqueue =>
      obtain ⟨c, t, queue, next, rfl, hsub, hmoves⟩ :=
        addBlockToOrderingQueue_spec hqueue
      refine ⟨c, t, queue, next, fun slot b hb => (hsub slot b hb).imp_left
        (fun heq => congrArg some heq.symm), hmoves, ?_⟩
      split at h
      · obtain rfl | ⟨dedup, mempool, htxs, rfl⟩ := enableFullMode_cases h
        · exact Or.inl rfl
        · exact Or.inr ⟨_, _, dedup, mempool, htxs, rfl⟩
      · cases h
        exact Or.inl rfl

/-! ## Own blocks -/

/-- **What the broadcast of an own block can do**: the block leaves the
outbox, and is stored and perhaps voted for. -/
theorem broadcastTask_cases {n n' : Node} {i : ℕ} {published : Bool}
    (h : n.broadcastTask cfg i published = some n') :
    n' = n ∨ ∃ blk, n.outbox[i]? = some blk ∧
      (n' = { n with outbox := n.outbox.eraseIdx i } ∨
        (blk.slot ∉ n.store.blocks ∧
          (n' = { n with
              toCore := n.toCore.addBlock blk
              outbox := n.outbox.eraseIdx i } ∨
            ∃ r, Node.castVote cfg
              { n with
                toCore := n.toCore.addBlock blk
                outbox := n.outbox.eraseIdx i } blk.slot blk.hash = some (n',
                r)))) := by
  unfold broadcastTask at h
  split at h
  · cases h
    exact Or.inl rfl
  · next blk hmem =>
    refine Or.inr ⟨blk, hmem, ?_⟩
    obtain ⟨⟨n₁, r⟩, hbroadcast, rfl⟩ := Option.map_eq_some_iff.mp h
    unfold broadcastBlockWithProcessing at hbroadcast
    obtain ⟨err, hadd⟩ | ⟨hfree, hadd⟩ :=
      addBlockPending_cases { n with outbox := n.outbox.eraseIdx i } blk
    · rw [hadd] at hbroadcast
      cases hbroadcast
      exact Or.inl rfl
    · rw [hadd] at hbroadcast
      refine Or.inr ⟨hfree, ?_⟩
      dsimp only at hbroadcast
      split at hbroadcast
      · exact Or.inr ⟨r, hbroadcast⟩
      · cases hbroadcast
        exact Or.inl rfl

theorem moves_of_broadcast {n n' : Node} {i : ℕ} {published : Bool}
    (h : n.broadcastTask cfg i published = some n') :
    Core.Moves cfg (Admits cfg n (.broadcast i published))
      (Counts cfg n (.broadcast i published)) n.toCore n'.toCore := by
  obtain rfl | ⟨blk, hmem, rfl | ⟨hfree, rfl | ⟨r, hcast⟩⟩⟩ := broadcastTask_cases h
  · exact .refl
  · exact .refl
  · exact .single (.addBlock (.own hmem) hfree)
  · refine .head (.addBlock (.own hmem) hfree) ?_
    have hb : (n.store.addBlock blk).block blk.slot
        = some (broadcastedBlockToBlock blk) := by
      rw [Store.block_addBlock, if_pos rfl]
    exact moves_of_castVote (b := broadcastedBlockToBlock blk) hcast hb
      (.own hmem hfree rfl (Store.finalized_addBlock _ _) hb
        (List.mem_append_right _ (List.mem_singleton_self _)))

/-! ## Every step -/

theorem toCore_leaderBatch {n n' : Node} (h : n.leaderBatch cfg = some n') :
    n'.toCore = n.toCore := by
  obtain ⟨-, rfl⟩ | ⟨_, _, _, _, _, _, -, -, rfl, -⟩ := leaderBatch_cases h
  · rfl
  · rfl

/-- The second half of a flush leaves the core and the wait of a leader
alone. -/
theorem tickAndFlush_frame (n : Node) (now : UInt64) :
    (n.tickAndFlush cfg now).toCore = n.toCore ∧
      (n.tickAndFlush cfg now).waitingFor = n.waitingFor := by
  unfold tickAndFlush
  split
  · exact ⟨rfl, rfl⟩
  · dsimp only
    split
    · unfold handleEntry
      dsimp only
      split
      · exact ⟨rfl, rfl⟩
      · split <;> exact ⟨rfl, rfl⟩
    · exact ⟨rfl, rfl⟩

/-- **Every step of a node is a chain of moves**, and each block stored or
vote counted comes from where the input says. -/
theorem moves_of_step {n n' : Node} {i : Input} (h : n.step cfg i = some n') :
    Core.Moves cfg (Admits cfg n i) (Counts cfg n i) n.toCore n'.toCore := by
  cases i with
  | block blk =>
    obtain ⟨⟨n₁, r⟩, hblk, rfl⟩ := Option.map_eq_some_iff.mp h
    exact moves_of_block hblk
  | emptyBlocks blocks =>
    cases h
    exact moves_of_emptyBlocks n blocks
  | vote v =>
    obtain ⟨⟨n₁, r⟩, hvote, rfl⟩ := Option.map_eq_some_iff.mp h
    exact moves_of_processVote hvote .received
  | syncResponse msg clock =>
    obtain ⟨c, t, queue, next, -, hmoves, rfl | ⟨_, _, _, _, -, rfl⟩⟩ :=
      onSyncResponseReceived_spec h
    · exact hmoves
    · exact hmoves
  | broadcast i published => exact moves_of_broadcast h
  | cleanupVotes =>
    cases h
    exact .single .cleanup
  | leaderBatch => rw [toCore_leaderBatch h]
  | tickAndFlush now =>
    cases h
    rw [(tickAndFlush_frame n now).1]
  | transaction tx =>
    cases h
    exact .refl
  | latestSlot slot pohSlot =>
    cases h
    exact .refl
  | autoHash =>
    cases h
    exact .refl
  | drainEntries =>
    cases h
    unfold drainEntries
    split <;> exact .refl
  | roleMonitor =>
    cases h
    unfold roleMonitor
    dsimp only
    split
    · exact .refl
    split
    · split <;> exact .refl
    · split <;> exact .refl
  | leaderWait deadline =>
    cases h
    unfold leaderWait
    split
    · exact .refl
    dsimp only
    split
    · exact .refl
    · split <;> exact .refl
  | expireDedup hashes =>
    cases h
    exact .refl

/-- **An input that leaves the store, the tracker and the mempool alone**: a
report, a cleanup, or a round of a loop other than the batch loop. -/
def Quiet : Input → Prop
  | .latestSlot _ _ | .autoHash | .drainEntries | .tickAndFlush _ | .roleMonitor
    | .leaderWait _
  | .cleanupVotes | .expireDedup _ => True
  | _ => False

theorem frame_of_quiet {n n' : Node} {i : Input} (h : n.step cfg i = some n')
    (hi : Quiet i) :
    n'.store = n.store ∧ n'.tracker = n.tracker ∧ n'.mempool = n.mempool := by
  cases i with
  | block | emptyBlocks | vote | transaction | syncResponse | leaderBatch
    | broadcast => cases hi
  | latestSlot | autoHash | cleanupVotes | expireDedup =>
    cases h
    exact ⟨rfl, rfl, rfl⟩
  | drainEntries =>
    cases h
    unfold drainEntries
    split <;> exact ⟨rfl, rfl, rfl⟩
  | tickAndFlush now =>
    cases h
    unfold tickAndFlush
    split
    · exact ⟨rfl, rfl, rfl⟩
    dsimp only
    split
    · unfold handleEntry
      dsimp only
      split
      · exact ⟨rfl, rfl, rfl⟩
      · split <;> exact ⟨rfl, rfl, rfl⟩
    · exact ⟨rfl, rfl, rfl⟩
  | roleMonitor =>
    cases h
    unfold roleMonitor
    dsimp only
    split
    · exact ⟨rfl, rfl, rfl⟩
    split
    · split <;> exact ⟨rfl, rfl, rfl⟩
    · split <;> exact ⟨rfl, rfl, rfl⟩
  | leaderWait deadline =>
    cases h
    unfold leaderWait
    split
    · exact ⟨rfl, rfl, rfl⟩
    dsimp only
    split
    · exact ⟨rfl, rfl, rfl⟩
    · split <;> exact ⟨rfl, rfl, rfl⟩

/-- **The parts of which steps are made**, as far as the store, the tracker
and the mempool are concerned. -/
inductive Part (cfg : Config) (n n' : Node) : Prop where
  | same (hstore : n'.store = n.store) (htracker : n'.tracker = n.tracker)
    (hmempool : n'.mempool = n.mempool)
  /-- A block is stored at a free slot. -/
  | add (blk : BroadcastedBlock) (hfree : blk.slot ∉ n.store.blocks)
    (hstore : n'.store = n.store.addBlock blk)
      (htracker : n'.tracker = n.tracker) (hmempool : n'.mempool = n.mempool)
  | vote (v : Vote) (r : Except String Unit) (h : n.processVote cfg v = some (n', r))
  /-- A transaction is put into the mempool. -/
  | put (tx : Transaction) (hstore : n'.store = n.store)
    (htracker : n'.tracker = n.tracker)
      (hmempool : n'.mempool = n.mempool.put tx)

/-- One part after the other. -/
def Parts (cfg : Config) : Node → Node → Prop := Relation.ReflTransGen (Part cfg)

theorem parts_of_castVote {m n n' : Node} {slot : UInt64} {hash : Hash}
    {r : Except String Unit} (h : n.castVote cfg slot hash = some (n', r))
    (hm : Part cfg m n) : Parts cfg m n' := by
  unfold castVote at h
  refine .tail (.tail (.single hm) ?_) (.vote _ r h)
  exact .same rfl rfl rfl

/-- A live block: what the mempool is cleaned of are the transactions of a
block that has none. -/
theorem parts_of_block {n n' : Node} {blk : BroadcastedBlock} {r : Except String Unit}
    (h : n.onBlockReceived cfg blk = some (n', r)) : Parts cfg n n' := by
  obtain rfl | ⟨hadmits, hfree, hcases⟩ := onBlockReceived_cases h
  · exact .refl
  have hfree' : blk.markPoH.slot ∉ n.store.blocks := by
    rwa [BroadcastedBlock.slot_markPoH]
  obtain ⟨-, rfl⟩ | ⟨-, hvote⟩ := hcases
  · exact .single (.add _ hfree' rfl rfl rfl)
  obtain ⟨dedup, mempool, hclean, hcast⟩ := voteForReceived_cases hvote
  have hmempool : mempool = n.mempool := by
    obtain ⟨-, -, rfl⟩ | ⟨hpoh, -, hclean⟩ := hclean
    · rfl
    · have hok : blk.verifyPoH = .ok () := by
        cases hverify : blk.verifyPoH with
        | ok => rfl
        | error err =>
          unfold BroadcastedBlock.markPoH at hpoh
          rw [hverify] at hpoh
          cases hpoh
      have htxs : verifyBlockTransactions blk = .ok () := by
        cases hadmits with
        | live _ _ htxs => exact htxs
      rw [BroadcastedBlock.allTxs_eq_nil hok htxs] at hclean
      simpa [Mempool.blockCleanup, Mempool.dropAll] using hclean.symm
  exact parts_of_castVote hcast (.add _ hfree' rfl rfl hmempool)

theorem parts_of_emptyBlocks (n : Node) (blocks : List (Option BroadcastedBlock)) :
    Parts cfg n (n.onEmptyBlockReceived blocks) := by
  unfold onEmptyBlockReceived
  induction blocks generalizing n with
  | nil => exact .refl
  | cons b blocks ih =>
    refine Relation.ReflTransGen.head ?_ (ih (n.storeEmptyBlock b))
    unfold storeEmptyBlock
    split
    · exact .same rfl rfl rfl
    next blk =>
    split
    · exact .same rfl rfl rfl
    obtain ⟨err, hadd⟩ | ⟨hfree, hadd⟩ := addBlockPending_cases n blk
    · rw [hadd]
      exact .same rfl rfl rfl
    · rw [hadd]
      exact .add blk hfree rfl rfl rfl

/-- **A step other than a round of the batch loop or a block of the sync
stream**, in parts. -/
theorem parts_of_step {n n' : Node} {i : Input} (hbatch : i ≠ .leaderBatch)
    (hsync : ∀ msg clock, i ≠ .syncResponse msg clock) (h : n.step cfg i = some n') :
    Parts cfg n n' := by
  cases i with
  | block blk =>
    obtain ⟨⟨n₁, r⟩, hblk, rfl⟩ := Option.map_eq_some_iff.mp h
    exact parts_of_block hblk
  | emptyBlocks blocks =>
    cases h
    exact parts_of_emptyBlocks n blocks
  | vote v =>
    obtain ⟨⟨n₁, r⟩, hvote, rfl⟩ := Option.map_eq_some_iff.mp h
    exact .single (.vote v r hvote)
  | transaction tx =>
    cases h
    unfold onTransactionReceived
    obtain ⟨err, hsame⟩ | ⟨-, hput⟩ := n.mempool.addTx_cases n.dedup n.store tx
    · rw [hsame]
      exact .single (.same rfl rfl rfl)
    · rw [hput]
      exact .single (.put tx rfl rfl rfl)
  | syncResponse msg clock => exact absurd rfl (hsync msg clock)
  | broadcast i published =>
    obtain rfl | ⟨blk, -, rfl | ⟨hfree, rfl | ⟨r, hcast⟩⟩⟩ := broadcastTask_cases h
    · exact .refl
    · exact .single (.same rfl rfl rfl)
    · exact .single (.add blk hfree rfl rfl rfl)
    · exact parts_of_castVote hcast (.add blk hfree rfl rfl rfl)
  | leaderBatch => exact absurd rfl hbatch
  | latestSlot | autoHash | drainEntries | tickAndFlush | roleMonitor | leaderWait
    | cleanupVotes
  | expireDedup =>
    obtain ⟨hstore, htracker, hmempool⟩ := frame_of_quiet h trivial
    exact .single (.same hstore htracker hmempool)

end Node

/-! ## Invariants of runs -/

/-- **An invariant is proved move by move.** `J` is an invariant of the node
that the moves of a step may rely on, `I` the invariant of the core. -/
theorem NodeRun.invariant {cfg : Config} {C : Node → Input → Prop} {J : Node → Prop}
    {I : Core → Prop} {n : Node} (hrun : NodeRun cfg C n)
    (hJ₀ : ∀ s, J (Node.new cfg s))
    (hJ : ∀ n i n', J n → C n i → n.step cfg i = some n' → J n')
    (hI₀ : ∀ alloc now s, initializeBlockchain alloc now = .ok s →
      I (Node.new cfg s.reopen).toCore)
    (hI : ∀ n i c c', J n → C n i → I c →
      Core.Move cfg (Admits cfg n i) (Counts cfg n i) c c' → I c') :
    J n ∧ I n.toCore := by
  obtain ⟨alloc, now, s, hinit, hrun⟩ := hrun
  refine hrun.invariant (I := fun n => J n ∧ I n.toCore)
    ⟨hJ₀ _, hI₀ alloc now s hinit⟩ ?_
  intro n i n' ⟨hj, hi⟩ hC hstep
  refine ⟨hJ n i n' hj hC hstep, ?_⟩
  have hmoves := Node.moves_of_step hstep
  generalize n'.toCore = c at hmoves
  induction hmoves with
  | refl => exact hi
  | tail _ hmove ih => exact hI n i _ _ hj hC ih hmove

/-! ## The blocks of a node -/

/-- A block in the form an offered block is stored in: as it came, but for
the flag and the status. -/
def StoredForm (blk : BroadcastedBlock) (b : Block) : Prop :=
  ∃ status flag,
    b = { broadcastedBlockToBlock blk with status := status, invalidPoH := flag }

/-- **Where the blocks of a node come from**: after a step, a stored block
was stored before, or the input offered it and its slot was free. -/
theorem Node.block_cases {cfg : Config} {n n' : Node} {i : Input}
    (hstep : n.step cfg i = some n') {slot : UInt64} {b : Block}
    (hb : n'.store.block slot = some b) :
    (∃ status, n.store.block slot = some { b with status := status }) ∨
      ∃ blk ∈ n.offered cfg i, blk.slot ∉ n.store.blocks ∧ slot = blk.slot ∧
        StoredForm blk b := by
  -- along the moves no slot gets free again, and every block has one of the
  -- two origins
  have hmoves : ∀ c, Core.Moves cfg (Admits cfg n i) (Counts cfg n i) n.toCore c →
      (∀ slot, slot ∈ n.store.blocks → slot ∈ c.store.blocks) ∧
      ∀ slot b, c.store.block slot = some b →
        (∃ status, n.store.block slot = some { b with status := status }) ∨
          ∃ blk ∈ n.offered cfg i, blk.slot ∉ n.store.blocks ∧ slot = blk.slot ∧
            StoredForm blk b := by
    intro c hmoves
    induction hmoves with
    | refl => exact ⟨fun _ h => h, fun slot b hb => Or.inl ⟨b.status, hb⟩⟩
    | tail _ hmove ih =>
      refine ⟨fun slot hslot => ?_, fun slot b hb => ?_⟩
      · obtain ⟨b, hb⟩ := Store.mem_blocks_iff.mp (ih.1 slot hslot)
        obtain ⟨status, hb'⟩ := hmove.block_of_block hb
        exact Store.mem_blocks_iff.mpr ⟨_, hb'⟩
      · obtain ⟨status, hold⟩ | ⟨blk, status, horigin, hfree, hslot, rfl⟩ :=
          hmove.block_cases hb
        · obtain ⟨status', hfirst⟩ | ⟨blk, hmem, hfree, hslot, status',
            flag, hform⟩ :=
            ih.2 slot _ hold
          · exact Or.inl ⟨status', hfirst⟩
          · refine Or.inr ⟨blk, hmem, hfree, hslot, b.status, flag, ?_⟩
            show { ({ b with status := status } : Block) with status := b.status } = _
            rw [hform]
        · obtain ⟨blk', hmem, rfl | rfl⟩ := horigin.exists_offered
          · exact Or.inr ⟨blk, hmem, fun h => hfree (ih.1 _ h), hslot, status, _, rfl⟩
          · rw [BroadcastedBlock.slot_markPoH] at hfree hslot
            refine Or.inr ⟨blk', hmem, fun h => hfree (ih.1 _ h), hslot, status,
              blk'.markPoH.invalidPoH, ?_⟩
            rw [BroadcastedBlock.markPoH_eq]
            rfl
  exact (hmoves n'.toCore (Node.moves_of_step hstep)).2 slot b hb

end Mmn
