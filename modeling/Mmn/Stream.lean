import Mmn.Flag
import Mmn.Ordering
import Mmn.Restart

/-!
# Messages that stop a node

Blocks come from peers, and a peer can put null where a block or a
transaction should be. The handlers take most of it: a null transaction is
passed over when signatures are checked, and one that is missing its amount
is read as moving nothing; a null block in a batch is passed over as well.
In two places they do not.

The handler of live blocks computes the dedup hash of every transaction, and
it does so after the check that passes null transactions over and before the
one that refuses them. The handler of a sync stream logs the slots of the
first and the last block of each batch before it looks at the blocks: an
empty batch has neither, and either may be null. There the process stops,
and nowhere else (`peer_blocks_stop_iff`). Everything behind these two
places returns, whatever the blocks are: a block that passes the checks of
the handlers is idle, and the loop over the ordering queue ends as long as
slot numbers do not run out.
-/

namespace Mmn

section

variable [Primitives]

/-! ## Live blocks -/

namespace Node

variable {cfg : Config}

/-- Applying the slot of a stored idle block returns. -/
theorem applyDataToBlock_isSome {n : Node} {slot : UInt64} {b : Block}
    (hb : n.store.block slot = some b) (hidle : b.Idle) :
    (n.applyDataToBlock cfg slot).isSome = true := by
  unfold applyDataToBlock
  split
  · rfl
  · rw [hb]
    dsimp only
    have hmem : b.slot ∈ n.store.blocks :=
      Store.mem_blocks_iff.mpr ⟨b, (Store.slot_of_block hb).symm ▸ hb⟩
    rw [finalizeBlock_of_idle
      (n := { n with mempool := n.mempool.setCurrentSlot slot }) hidle hmem]
    rfl

/-- **Voting for a stored idle block returns.** -/
theorem castVote_isSome {n : Node} {slot : UInt64} {b : Block}
    (hb : n.store.block slot = some b) (hidle : b.Idle) (blockHash : Hash) :
    (n.castVote cfg slot blockHash).isSome = true := by
  unfold castVote processVote
  dsimp only
  split
  · rfl
  · split
    · rfl
    · split
      · exact applyDataToBlock_isSome hb hidle
      · rfl

/-- What a validator does with a checked block that it has stored returns:
if the entries follow there are no transactions to clean up. -/
theorem voteForReceived_isSome {n : Node} {blk : BroadcastedBlock}
    (htxs : verifyBlockTransactions blk = .ok ())
    (hb : n.store.block blk.slot = some (broadcastedBlockToBlock blk.markPoH)) :
    (n.voteForReceived cfg blk.markPoH blk.allTxs.reduceOption).isSome = true := by
  have hidle := idle_of_verifyBlockTransactions htxs
  unfold voteForReceived
  rw [BroadcastedBlock.slot_markPoH]
  split
  · exact castVote_isSome hb hidle _
  · next hflag =>
    rw [BroadcastedBlock.invalidPoH_markPoH_iff, not_or, not_not] at hflag
    obtain ⟨mempool, hclean⟩ : ∃ mempool, n.mempool.blockCleanup [] = some mempool :=
      ⟨_, rfl⟩
    simp only [BroadcastedBlock.allTxs_eq_nil hflag.2 htxs, List.reduceOption_nil,
      List.map_nil, hclean]
    exact castVote_isSome
      (n := { n with dedup := n.dedup.add [], mempool := mempool }) hb hidle _

/-- **A live block stops the process** exactly if it passes the checks of
leader, signature and transactions and has a null transaction. -/
theorem onBlockReceived_eq_none_iff {n : Node} {blk : BroadcastedBlock} :
    n.onBlockReceived cfg blk = none ↔
      blk.slot ∉ n.store.blocks ∧
      cfg.leaderSchedule.isLeaderAt blk.slot blk.leaderID = true ∧
        blk.verifySignature = true ∧ verifyBlockTransactions blk = .ok () ∧
        none ∈ blk.allTxs := by
  have hfree : (n.store.block blk.slot).isSome = true ↔
      blk.slot ∈ n.store.blocks := by
    rw [Option.isSome_iff_exists, Store.mem_blocks_iff]
  have hnull : blk.allTxs.any Option.isNone = true ↔ none ∈ blk.allTxs := by
    rw [List.any_eq_true]
    exact ⟨fun ⟨tx, htx, hnone⟩ => Option.isNone_iff_eq_none.mp hnone ▸ htx, fun h =>
      ⟨none, h, rfl⟩⟩
  unfold onBlockReceived
  by_cases hstored : blk.slot ∈ n.store.blocks
  · rw [if_pos (hfree.mpr hstored)]
    simp [hstored]
  rw [if_neg (mt hfree.mp hstored)]
  by_cases hleader : cfg.leaderSchedule.isLeaderAt blk.slot blk.leaderID = true
  swap
  · rw [if_pos (by simpa using hleader)]
    simp [hleader]
  rw [if_neg (by simpa using hleader)]
  by_cases hsig : blk.verifySignature = true
  swap
  · rw [if_pos (by simpa using hsig)]
    simp [hsig]
  rw [if_neg (by simpa using hsig)]
  cases htxs : verifyBlockTransactions blk with
  | error err => simp
  | ok =>
    dsimp only
    by_cases htx : none ∈ blk.allTxs
    · rw [if_pos (hnull.mpr htx)]
      simp [hstored, hleader, hsig, htx]
    rw [if_neg (mt hnull.mp htx)]
    simp only [htx, and_false, iff_false]
    -- the rest returns
    split
    · simp
    have hmark : blk.markPoH.slot ∉ n.store.blocks := by
      rwa [BroadcastedBlock.slot_markPoH]
    have hlatest : ¬blk.markPoH.slot
        > (n.toCore.addBlock blk.markPoH).store.latestStore :=
      UInt64.not_lt.mpr (Store.slot_le_latestStore_addBlock n.store _)
    rw [addBlockPending_of_notMem hmark]
    dsimp only
    rw [if_neg hlatest]
    split
    · simp
    · refine Option.isSome_iff_ne_none.mp (voteForReceived_isSome htxs ?_)
      show (n.store.addBlock blk.markPoH).block blk.slot = _
      rw [Store.block_addBlock, BroadcastedBlock.slot_markPoH, if_pos rfl]

end Node

/-! ## The sync stream -/

/-- What the sender of a stream says it answers. -/
structure SyncRequest where
  requestID : String
  fromSlot : UInt64
  toSlot : UInt64

/-- **The state of one request**: the peers that answer it, and the one that
is listened to. Streams have numbers; a peer that asked is registered
without one. -/
structure SyncRequestTracker where
  requestID : String
  fromSlot : UInt64
  toSlot : UInt64
  activePeer : String
  activeStream : Option ℕ
  isActive : Bool
  allPeers : AList (fun _ : String => Option ℕ)

namespace SyncRequestTracker

/-- The tracker of a new request. -/
def new (requestID : String) (fromSlot toSlot : UInt64) : SyncRequestTracker :=
  { requestID := requestID, fromSlot := fromSlot, toSlot := toSlot, activePeer := "",
    activeStream := none, isActive := false, allPeers := ∅ }

/-- Register a peer, and listen to it if no other is listened to. -/
def activatePeer (t : SyncRequestTracker) (peerID : String) (stream : Option ℕ) :
    SyncRequestTracker × Bool :=
  let t := { t with allPeers := t.allPeers.insert peerID stream }
  if t.isActive then (t, false)
  else ({ t with activePeer := peerID, activeStream := stream, isActive := true },
    true)

/-- The streams that are closed with the request: the active one and those
of all peers. -/
def closeAllPeers (t : SyncRequestTracker) : List ℕ :=
  t.activeStream.toList ++ t.allPeers.entries.filterMap (fun e => e.2)

end SyncRequestTracker

/-- A stream, with what its sender writes into it. -/
structure PeerStream where
  stream : ℕ
  remotePeer : String
  request : Option SyncRequest
  /-- The batches that decode, up to the end of the stream or the first that
  does not. -/
  batches : List (List (Option BroadcastedBlock))

/-- **A node with its sync requests.** -/
structure SyncNetwork where
  node : Node
  syncRequests : AList (fun _ : String => SyncRequestTracker)
  closed : Finset ℕ

/-- The slots of the first and the last block of a batch, for the log. An
index out of range and a null block stop the process. -/
def slotsOfBatch (blocks : List (Option BroadcastedBlock)) :
    Option (UInt64 × UInt64) :=
  match blocks.head?, blocks.getLast? with
  | some (some first), some (some last) => some (first.slot, last.slot)
  | _, _ => none

namespace Node

/-- The blocks of a batch, passed on one after the other. Null blocks are
skipped. `clock` has, for each block that is passed on, the times at which
blocks are made up. -/
def handleBlocks (cfg : Config) (clock : ℕ → ℕ → UInt64) :
    Node → ℕ → List (Option BroadcastedBlock) → Option (Node × ℕ)
  | n, totalBlocks, [] => some (n, totalBlocks)
  | n, totalBlocks, none :: blocks => handleBlocks cfg clock n totalBlocks blocks
  | n, totalBlocks, some blk :: blocks =>
    match n.onSyncResponseReceived cfg (some blk) (clock totalBlocks) with
    | none => none
    | some n => handleBlocks cfg clock n (totalBlocks + 1) blocks

/-- The batches of a stream, until it ends. -/
def handleBatches (cfg : Config) (clock : ℕ → ℕ → UInt64) :
    Node → ℕ → List (List (Option BroadcastedBlock)) → Option (Node × ℕ)
  | n, totalBlocks, [] => some (n, totalBlocks)
  | n, totalBlocks, blocks :: batches =>
    match slotsOfBatch blocks with
    | none => none
    | some _ =>
      match n.handleBlocks cfg clock totalBlocks blocks with
      | none => none
      | some (n, totalBlocks) => handleBatches cfg clock n totalBlocks batches

end Node

namespace SyncNetwork

/-- Close streams. -/
def close (net : SyncNetwork) (streams : List ℕ) : SyncNetwork :=
  { net with closed := net.closed ∪ streams.toFinset }

/-- The tracker of a request; a new one if there is none. -/
def tracker (net : SyncNetwork) (req : SyncRequest) : SyncRequestTracker :=
  (net.syncRequests.lookup req.requestID).getD
    (.new req.requestID req.fromSlot req.toSlot)

/-- A request that has been answered: its streams are closed and it is
forgotten. -/
def finish (net : SyncNetwork) (requestID : String) : SyncNetwork :=
  match net.syncRequests.lookup requestID with
  | none => net
  | some tracker =>
    close { net with syncRequests := net.syncRequests.erase requestID }
      tracker.closeAllPeers

/-- **A stream of blocks.** It is read if no other peer is listened to for
the request, and then the request is done. -/
def handleBlockSyncRequestStream (cfg : Config) (net : SyncNetwork) (s : PeerStream)
    (clock : ℕ → ℕ → UInt64) : Option SyncNetwork :=
  match s.request with
  | none => some (net.close [s.stream])
  | some req =>
    let (tracker, activated) :=
      (net.tracker req).activatePeer s.remotePeer (some s.stream)
    let net :=
      { net with syncRequests := net.syncRequests.insert req.requestID tracker }
    if !activated then some (net.close [s.stream])
    else
      match net.node.handleBatches cfg clock 0 s.batches with
      | none => none
      | some (n, _) =>
        let net := { net with node := n }
        some ((net.finish req.requestID).close [s.stream])

/-- Is the stream read? -/
def Reads (net : SyncNetwork) (s : PeerStream) : Prop :=
  ∃ req, s.request = some req ∧ (net.tracker req).isActive = false

end SyncNetwork

/-! ## What the stream does to the node -/

/-- **No overflow is near**: the queue of the sync is in order, and neither
the latest slot reported nor the latest one finalized is the last number
there is. -/
structure Node.Bounded (n : Node) : Prop where
  /-- Blocks wait under their slots. -/
  keyed : Node.Keyed n.blockOrderingQueue
  world : n.worldLatestSlot < noSlot
  finalized : n.store.latestFinalized < noSlot

theorem Core.latestFinalized_foldl_sync {bound : UInt64}
    {blks : List BroadcastedBlock} (hblks : ∀ b ∈ blks, b.slot < bound) {c : Core}
    (hc : c.store.latestFinalized < bound) :
    (blks.foldl Core.sync c).store.latestFinalized < bound := by
  induction blks generalizing c with
  | nil => exact hc
  | cons b blks ih =>
    refine ih (fun b' hb' => hblks b' (List.mem_cons_of_mem b hb')) ?_
    have hadd : (c.addBlock b.markPoH).store.latestFinalized
        = c.store.latestFinalized := by
      show (c.store.addBlock b.markPoH).latestFinalized = _
      rw [Store.addBlock, Store.foldl_putTx_frame]
    obtain heq | ⟨-, heq | heq⟩ := Core.sync_cases c b
    · rwa [heq]
    · rwa [heq, hadd]
    · rw [heq]
      show b.markPoH.slot < bound
      rw [BroadcastedBlock.slot_markPoH]
      exact hblks b List.mem_cons_self

namespace Node

/-- Switching to full mode returns, and leaves the sync alone. -/
theorem Bounded.enableFullMode {n : Node} (h : n.Bounded) (cfg : Config)
    (latest : BroadcastedBlock) :
    ∃ n', n.enableFullMode cfg latest = some n' ∧ n'.Bounded := by
  have hmax : n.store.latestFinalized + 1 ≠ 0 := by
    intro hzero
    have hsucc := toNat_succ_of_le h.finalized (UInt64.le_refl _)
    rw [hzero] at hsucc
    exact absurd hsucc (by simp)
  unfold Node.enableFullMode
  split
  · exact ⟨n, rfl, h⟩
  · unfold startCoreServices
    split
    · exact ⟨_, rfl, h.keyed, h.world, h.finalized⟩
    · dsimp only
      rw [DedupService.loadTxHashes_eq hmax]
      exact ⟨_, rfl, h.keyed, h.world, h.finalized⟩

/-- **A block of the sync stream is taken**, whatever it is. -/
theorem Bounded.onSyncResponseReceived {n : Node} (h : n.Bounded) (cfg : Config)
    (blk : BroadcastedBlock) (clock : ℕ → UInt64) :
    ∃ n', n.onSyncResponseReceived cfg (some blk) clock = some n' ∧ n'.Bounded := by
  unfold Node.onSyncResponseReceived
  dsimp only
  obtain ⟨-, hadd⟩ | ⟨-, c, -, htakes, hadd⟩ :=
    addBlockToOrderingQueue_cases h.keyed h.world cfg blk clock
  · rw [hadd]
    exact ⟨n, rfl, h⟩
  · rw [hadd]
    have hafter : Bounded { n with
        toCore := c.processed.foldl Core.sync n.toCore
        blockOrderingQueue := c.queue
        nextExpectedSlot := c.next } := by
      refine ⟨htakes.keyed (h.keyed.insert blk), h.world, ?_⟩
      refine Core.latestFinalized_foldl_sync (fun b hb => ?_) h.finalized
      exact UInt64.lt_of_le_of_lt (htakes.bounded b hb) h.world
    cases c.processed.getLast? with
    | none => exact ⟨_, rfl, hafter⟩
    | some latest =>
      dsimp only
      split
      · exact hafter.enableFullMode cfg latest
      · exact ⟨_, rfl, hafter⟩

theorem Bounded.handleBlocks {n : Node} (h : n.Bounded) (cfg : Config)
    (clock : ℕ → ℕ → UInt64) (totalBlocks : ℕ)
    (blocks : List (Option BroadcastedBlock)) :
    ∃ n' total, n.handleBlocks cfg clock totalBlocks blocks = some (n', total) ∧
      n'.Bounded := by
  induction blocks generalizing n totalBlocks with
  | nil => exact ⟨n, totalBlocks, rfl, h⟩
  | cons blk blocks ih =>
    cases blk with
    | none => exact ih h totalBlocks
    | some blk =>
      obtain ⟨n', hstep, h'⟩ := h.onSyncResponseReceived cfg blk (clock totalBlocks)
      unfold Node.handleBlocks
      rw [hstep]
      exact ih h' (totalBlocks + 1)

/-- **A sequence of batches stops the process** exactly if the slots of one
of them cannot be read. -/
theorem Bounded.handleBatches_eq_none_iff {n : Node} (h : n.Bounded) (cfg : Config)
    (clock : ℕ → ℕ → UInt64) (totalBlocks : ℕ)
    (batches : List (List (Option BroadcastedBlock))) :
    n.handleBatches cfg clock totalBlocks batches = none ↔
      ∃ blocks ∈ batches, slotsOfBatch blocks = none := by
  induction batches generalizing n totalBlocks with
  | nil => simp [Node.handleBatches]
  | cons blocks batches ih =>
    unfold Node.handleBatches
    rw [List.exists_mem_cons_iff]
    cases hslots : slotsOfBatch blocks with
    | none => simp
    | some slots =>
      obtain ⟨n', total, hblocks, h'⟩ := h.handleBlocks cfg clock totalBlocks blocks
      dsimp only
      rw [hblocks]
      simpa using ih h' total

end Node

omit [Primitives] in
/-- The slots of a batch cannot be read if it is empty or has null at one of
its ends. -/
theorem slotsOfBatch_eq_none_iff {blocks : List (Option BroadcastedBlock)} :
    slotsOfBatch blocks = none ↔
      blocks = [] ∨ blocks.head? = some none ∨ blocks.getLast? = some none := by
  cases blocks with
  | nil => simp [slotsOfBatch]
  | cons first rest =>
    obtain ⟨last, hlast⟩ : ∃ last, (first :: rest).getLast? = some last :=
      ⟨_, List.getLast?_cons⟩
    unfold slotsOfBatch
    rw [hlast, List.head?_cons]
    cases first <;> cases last <;> simp

/-- **Which messages of peers stop a node.** A live block does exactly if
its slot is free, its leader, signature and transactions pass, and one of
its transactions is null. A sync stream does exactly if it is read and one
of its batches is empty or begins or ends with null, as long as slot numbers
do not run out. -/
theorem peer_blocks_stop_iff (cfg : Config) (n : Node) (blk : BroadcastedBlock)
    {net : SyncNetwork} (hbounded : net.node.Bounded) (s : PeerStream)
    (clock : ℕ → ℕ → UInt64) :
    (n.onBlockReceived cfg blk = none ↔
        blk.slot ∉ n.store.blocks ∧
        cfg.leaderSchedule.isLeaderAt blk.slot blk.leaderID = true ∧
          blk.verifySignature = true ∧ verifyBlockTransactions blk = .ok () ∧
          none ∈ blk.allTxs) ∧
      (net.handleBlockSyncRequestStream cfg s clock = none ↔
        net.Reads s ∧ ∃ blocks ∈ s.batches,
          blocks = [] ∨ blocks.head? = some none ∨ blocks.getLast? = some none) := by
  refine ⟨Node.onBlockReceived_eq_none_iff, ?_⟩
  simp only [← slotsOfBatch_eq_none_iff]
  rw [← hbounded.handleBatches_eq_none_iff cfg clock 0]
  unfold SyncNetwork.handleBlockSyncRequestStream SyncNetwork.Reads
  cases s.request with
  | none => simp
  | some req =>
    unfold SyncRequestTracker.activatePeer
    dsimp only
    cases hactive : (net.tracker req).isActive with
    | true => simp [hactive]
    | false =>
      cases net.node.handleBatches cfg clock 0 s.batches with
      | none => simp [hactive]
      | some r => simp [hactive]

end

section Sample

attribute [local instance] Sample.primitives

namespace Sample

/-- The first of four validators, at the start. -/
def fresh : SyncNetwork := ⟨behind 3, ∅, ∅⟩

/-- A stream of batches, for a request nobody has made. -/
def streamOf (batches : List (List (Option BroadcastedBlock))) : PeerStream :=
  ⟨7, keyID 2, some ⟨"r", 1, 3⟩, batches⟩

theorem bounded_fresh : fresh.node.Bounded := ⟨keyed_behind 3, by decide, by decide⟩

/-- A block of the second validator whose only transaction is null. -/
def nullTxBlock : BroadcastedBlock :=
  (assembleBlock 2 zeroHash (keyID 2) [⟨1, zeroHash, [none], false⟩] 0).sign
    (keyBytes 2)

end Sample

open Sample

/-- A live block and a stream with null in the middle of a batch are
handled. -/
theorem sound_blocks_return :
    ((behind 3).onBlockReceived (oneOfFour false) blockTwo).isSome = true ∧
      (fresh.handleBlockSyncRequestStream (oneOfFour false)
        (streamOf [[some blockThree, none, some blockTwo], [some blockOne]])
        fun _ _ => 20).isSome = true := by
  obtain ⟨hlive, hstream⟩ :=
    peer_blocks_stop_iff (oneOfFour false) (behind 3) blockTwo
    bounded_fresh (streamOf [[some blockThree, none, some blockTwo], [some blockOne]])
    fun _ _ => 20
  constructor
  · refine Option.isSome_iff_ne_none.mpr fun hnone => ?_
    have hnull : none ∉ blockTwo.allTxs := by decide +kernel
    exact hnull (hlive.mp hnone).2.2.2.2
  · refine Option.isSome_iff_ne_none.mpr fun hnone => ?_
    obtain ⟨-, hbatch⟩ := hstream.mp hnone
    simp [streamOf] at hbatch

/-- **The node stops** at a signed block with a null transaction, at an
empty batch, and at a batch of a null block. -/
theorem null_and_empty_stop :
    (behind 3).onBlockReceived (oneOfFour false) nullTxBlock = none ∧
      fresh.handleBlockSyncRequestStream (oneOfFour false) (streamOf [[]])
        (fun _ _ => 20) = none ∧
      fresh.handleBlockSyncRequestStream (oneOfFour false) (streamOf [[none]])
        (fun _ _ => 20) = none := by
  have hlive : ((behind 3).onBlockReceived (oneOfFour false) nullTxBlock).isNone
      = true := by
    decide +kernel
  exact ⟨Option.isNone_iff_eq_none.mp hlive, rfl, rfl⟩

end Sample

end Mmn
