import Mmn.Consensus
import Mmn.Mempool
import Mmn.Recorder

/-!
# The state of a node

A node is its stores and collector together with the working state of its
services: the mempool and the dedup cache, the recorder, the buffers of the
validator, the queue of the block sync. The handlers of messages
(`Mmn.Network`) and the leader's loops (`Mmn.Validator`) are functions on
it.

A handler runs to its end, changes the node and answers; the answer is an
error or not, and most callers only log it. `none` is a process that
stopped: a handler that hits a nil pointer or divides by zero takes the
whole node down, so there is no state after it.

The node also carries its *history*: which blocks it stored, which it
applied and on what grounds, which votes it signed. The code has no such
record, and no function reads it. It is what the safety properties are
stated over.
-/

namespace Mmn

variable [Primitives]

/-- The configured pace of the hash clock. A node with other values stops
when it starts: at construction of the engine, or at the first division by
`ticksPerSlot`. -/
structure PohConfig where
  hashesPerTick : UInt64
  ticksPerSlot : UInt64
  one_lt_hashesPerTick : 1 < hashesPerTick
  ticksPerSlot_pos : 0 < ticksPerSlot

/-- **The configuration of a node.** The public key is computed from the
private key when the node starts, so what the node signs verifies under it. -/
structure Config where
  leaderSchedule : LeaderSchedule
  selfPubKey : String
  selfPrivKey : Bytes
  pohCfg : PohConfig
  isListener : Bool
  batchSize : ℕ
  /-- How many transactions may wait. -/
  maxTxs : ℕ
  keyPair : ∃ pub, getPublicKeyFromLeaderID selfPubKey = .ok pub ∧
    ∀ msg, (ed25519Sign selfPrivKey msg).length = 64 ∧
      ed25519Verify pub msg (ed25519Sign selfPrivKey msg) = true

/-- **What a node has done**, as far as safety is concerned. -/
inductive Event where
  /-- A block was stored, in the given store. -/
  | stored (before : Store) (b : BroadcastedBlock)
  /-- A stored block was applied because enough votes were held for its
  slot. -/
  | committed (before : Store) (slot : UInt64) (b : Block) (votes : SlotVotes slot)
  /-- A block of the sync stream was applied. -/
  | synced (before : Store) (b : Block)
  | voted (v : Vote)

/-- The block an event applied, with the store it was applied to. -/
def Event.applied : Event → Option (Store × Block)
  | .committed before _ b _ => some (before, b)
  | .synced before b => some (before, b)
  | .stored _ _ => none
  | .voted _ => none

/-- The calls of `applyTx` made by an event. -/
def Event.applyCalls (e : Event) : List ApplyCall :=
  match e.applied with
  | some (before, b) => before.applyCalls b
  | none => []

/-- The part of a node the safety properties are about. -/
structure Core where
  store : Store
  collector : Collector
  /-- What the node has done, oldest first. -/
  history : List Event

/-- **A node.** -/
structure Node extends Core where
  tracker : TransactionTracker
  /-- Transactions waiting. -/
  mempool : Mempool
  dedup : DedupService
  /-- The proof-of-history recorder. -/
  recorder : PohRecorder
  /-- The slot the current leader term began at; `noSlot` outside a term. -/
  leaderStartAtSlot : UInt64
  /-- The slot whose predecessor the role loop is waiting for. -/
  waitingFor : Option UInt64
  collectedEntries : List Entry
  pendingTxs : List Transaction
  flushing : Option (List Entry)
  outbox : List BroadcastedBlock
  /-- Blocks of the sync stream waiting for their turn. -/
  blockOrderingQueue : AList (fun _ : UInt64 => BroadcastedBlock)
  nextExpectedSlot : UInt64
  worldLatestSlot : UInt64
  worldLatestPohSlot : UInt64
  ready : Bool
  fullModeEnabled : Bool

/-- The value that stands for no slot. -/
abbrev noSlot : UInt64 := 0 - 1

/-- The answer of a handler: the node after it, and whether it failed. No
answer is a process that stopped. -/
abbrev Answer : Type := Option (Node × Except String Unit)

namespace Node

/-- **A node that starts on a database.** -/
def new (cfg : Config) (store : Store) : Node :=
  { store := store
    collector := Collector.new cfg.leaderSchedule.len
    history := []
    tracker := TransactionTracker.new
    mempool := Mempool.new cfg.maxTxs
    dedup := DedupService.new
    recorder := PohRecorder.new (Poh.new [] cfg.pohCfg.hashesPerTick)
      cfg.pohCfg.ticksPerSlot store.latestFinalized
    leaderStartAtSlot := noSlot
    waitingFor := none
    collectedEntries := []
    pendingTxs := []
    flushing := none
    outbox := []
    blockOrderingQueue := ∅
    nextExpectedSlot := store.latestFinalized + 1
    worldLatestSlot := 0
    worldLatestPohSlot := 0
    ready := false
    fullModeEnabled := false }

/-- Add to the history. -/
def log (n : Node) (e : Event) : Node := { n with history := n.history ++ [e] }

/-- Is the node the leader of the slot? -/
def isLeader (cfg : Config) (slot : UInt64) : Bool :=
  cfg.leaderSchedule.isLeaderAt slot cfg.selfPubKey

/-- Store a block as pending. -/
def addBlockPending (n : Node) (b : BroadcastedBlock) : Node × Except String Unit :=
  match n.store.addBlockPending b with
  | .error err => (n, .error err)
  | .ok s => (({ n with store := s } : Node).log (.stored n.store b), .ok ())

/-- Apply a block to the ledger. What was really applied is noted. -/
def finalizeBlock (cfg : Config) (n : Node) (b : Block) (note : Event) : Answer :=
  match Ledger.finalizeBlock n.store n.tracker b cfg.isListener with
  | none => none
  | some (s, t, .error err) => some ({ n with store := s, tracker := t }, .error err)
  | some (s, t, .ok ()) =>
    let n := { n with store := s, tracker := t }
    some (if b.invalidPoH then n else n.log note, .ok ())

/-- **Apply the block stored at a committed slot**, unless the slot is
already marked. -/
def applyDataToBlock (cfg : Config) (n : Node) (slot : UInt64) : Answer :=
  if n.store.isApplied slot then some (n, .ok ())
  else match n.store.block slot with
    | none => some (n, .error s!"block not found for slot {slot}")
    | some b =>
      let n := { n with mempool := n.mempool.setCurrentSlot slot }
      match n.finalizeBlock cfg b
          (.committed n.store slot b (n.collector.votesForSlot slot)) with
      | none => none
      | some (n, .error err) =>
        some (n, .error (s!"failed to finalize block at slot {b.slot}: " ++ err))
      | some (n, .ok ()) => some (n, .ok ())

/-- **Count a vote**, and apply the slot's block when it is stored and the
count says so. -/
def processVote (cfg : Config) (n : Node) (vote : Vote) : Answer :=
  match n.collector.addVote vote with
  | .error err => some (n, .error err)
  | .ok (collector, committed, needApply) =>
    let n := { n with collector := collector }
    if !n.store.hasCompleteBlock vote.slot then some (n, .ok ())
    else if committed && needApply then n.applyDataToBlock cfg vote.slot
    else some (n, .ok ())

/-- Sign a vote for a block and count it. -/
def castVote (cfg : Config) (n : Node) (slot : UInt64) (blockHash : Hash) : Answer :=
  let vote := Vote.sign ⟨slot, blockHash, cfg.selfPubKey, []⟩ cfg.selfPrivKey
  (n.log (.voted vote)).processVote cfg vote

end Node

/-- The checks on a block's transactions, one after the other. Null
transactions are skipped. -/
def verifyTxs : List (Option Transaction) → Except String Unit
  | [] => .ok ()
  | none :: txs => verifyTxs txs
  | some tx :: txs =>
    if tx.verify then verifyTxs txs
    else .error ("transaction verification failed for tx hash: "
      ++ Transaction.hash (some tx))

/-- **Did the senders of all of a block's transactions agree to them?** -/
def verifyBlockTransactions (b : BroadcastedBlock) : Except String Unit :=
  verifyTxs b.allTxs

theorem verify_of_verifyTxs {txs : List (Option Transaction)}
    (h : verifyTxs txs = .ok ()) {tx : Transaction} (hmem : some tx ∈ txs) :
    tx.verify = true := by
  induction txs with
  | nil => cases hmem
  | cons t txs ih =>
    cases t with
    | none =>
      obtain heq | hmem := List.mem_cons.mp hmem
      · cases heq
      · exact ih h hmem
    | some t =>
      unfold verifyTxs at h
      split at h
      · next hv =>
        obtain heq | hmem := List.mem_cons.mp hmem
        · cases heq
          exact hv
        · exact ih h hmem
      · cases h

/-- **A block that passes both checks has no transactions**: those that
verify are too large for an entry. -/
theorem BroadcastedBlock.allTxs_eq_nil {blk : BroadcastedBlock}
    (hpoh : blk.verifyPoH = .ok ()) (htxs : verifyBlockTransactions blk = .ok ()) :
    blk.allTxs = [] := by
  refine List.eq_nil_iff_forall_not_mem.mpr fun tx hmem => ?_
  obtain ⟨e, he, htx⟩ := List.mem_flatMap.mp hmem
  obtain ⟨t, rfl, hnot⟩ := not_verify_of_verifyEntries hpoh he htx
  exact hnot (verify_of_verifyTxs htxs hmem)

/-! ## Blocks that apply nothing -/

/-- The block has no transactions to apply, or is flagged. -/
def Block.Idle (b : Block) : Prop := b.invalidPoH = true ∨ b.txHashes = []

omit [Primitives] in
theorem Store.txsInBlock_eq_nil {b : Block} (h : b.txHashes = []) (s : Store) :
    s.txsInBlock b = [] := by
  unfold txsInBlock
  rw [h]
  rfl

omit [Primitives] in
theorem Block.Idle.applyCalls {b : Block} (h : b.Idle) (s : Store) :
    s.applyCalls b = [] := by
  unfold Store.applyCalls
  obtain hpoh | hnone := h
  · rw [if_pos hpoh]
  · rw [Store.txsInBlock_eq_nil hnone]
    split <;> rfl

/-- A block without transactions stores no transaction hashes. -/
theorem txHashes_broadcastedBlockToBlock {b : BroadcastedBlock} (h : b.allTxs = []) :
    (broadcastedBlockToBlock b).txHashes = [] := by
  refine List.flatMap_eq_nil_iff.mpr fun e he => ?_
  obtain ⟨e', he', rfl⟩ := List.mem_map.mp (List.mem_of_mem_filter he)
  show e'.transactions.map Transaction.hash = []
  rw [List.flatMap_eq_nil_iff.mp h e' he']
  rfl

/-- **A checked block is idle once its flag is set**: what passes the check
of its transactions does not pass the check of its entries, unless it has no
transactions. -/
theorem idle_of_verifyBlockTransactions {blk : BroadcastedBlock}
    (h : verifyBlockTransactions blk = .ok ()) :
    (broadcastedBlockToBlock blk.markPoH).Idle := by
  cases hpoh : blk.verifyPoH with
  | ok =>
    have hmark : blk.markPoH.allTxs = blk.allTxs := by
      unfold BroadcastedBlock.markPoH
      split <;> rfl
    exact Or.inr (txHashes_broadcastedBlockToBlock
      (hmark.trans (BroadcastedBlock.allTxs_eq_nil hpoh h)))
  | error err =>
    refine Or.inl ?_
    show blk.markPoH.invalidPoH = true
    unfold BroadcastedBlock.markPoH
    rw [hpoh]

end Mmn
