import Mmn.Node

/-!
# The handlers of peer messages

Blocks reach a node on three ways, and each makes its own checks.

* `onBlockReceived` takes a live block: the leader of the slot, the
  signature, the transactions, their nonces and novelty. A block whose
  entries do not follow is kept, with a flag.
* `onEmptyBlockReceived` takes blocks that are supposed to be empty, and
  stores them as they are.
* `onSyncResponseReceived` takes a block of the sync stream: it waits in a
  queue until the slots before it are done, is checked for signature and
  transactions, stored, and applied at once. Slots the node itself led and
  has no block for are filled with blocks it makes up.

Votes are counted by `Node.processVote`; a transaction goes to the mempool.
-/

namespace Mmn

variable [Primitives]

namespace Node

/-! ## Live blocks -/

/-- Follow the leader's clock, unless the node leads the current slot or the
block's. -/
def handleResetPohFromLeader (cfg : Config) (n : Node) (seedHash : Hash)
    (slot : UInt64) : Node :=
  if !isLeader cfg n.recorder.currentSlot && !isLeader cfg slot then
    { n with recorder := n.recorder.reset seedHash slot }
  else n

/-- What a validator does with a block it has stored: remember and clean up
its transactions if its entries follow, and vote for it. -/
def voteForReceived (cfg : Config) (n : Node) (blk : BroadcastedBlock)
    (txs : List Transaction) : Answer :=
  if blk.invalidPoH then n.castVote cfg blk.slot blk.hash
  else
    let n := { n with dedup := n.dedup.add (txs.map Transaction.dedupHash) }
    match n.mempool.blockCleanup (txs.map (fun tx => Transaction.hash (some tx))) with
    | none => none
    | some mempool =>
      ({ n with mempool := mempool } : Node).castVote cfg blk.slot blk.hash

/-- **A live block.** The transactions of all entries are checked, those of
tick entries too; computing the dedup hash of a null transaction stops the
process. -/
def onBlockReceived (cfg : Config) (n : Node) (blk : BroadcastedBlock) : Answer :=
  if (n.store.block blk.slot).isSome then some (n, .ok ())
  else if !cfg.leaderSchedule.isLeaderAt blk.slot blk.leaderID then
    some (n, .error "invalid leader")
  else if !blk.verifySignature then some (n, .error "invalid signature")
  else match verifyBlockTransactions blk with
    | .error err => some (n, .error ("transaction verification failed: " ++ err))
    | .ok () =>
      if blk.allTxs.any Option.isNone then none
      else
        let txs := blk.allTxs.reduceOption
        match n.mempool.verifyBlockTransactions n.dedup txs with
        | .error err =>
          some (n, .error ("block transaction validation failed: " ++ err))
        | .ok () =>
          let blk := blk.markPoH
          match n.addBlockPending blk with
          | (n, .error err) => some (n, .error err)
          | (n, .ok ()) =>
            let n := if blk.slot > n.store.latestStore then
                n.handleResetPohFromLeader cfg blk.lastEntryHash blk.slot
              else n
            if cfg.isListener then some (n, .ok ())
            else n.voteForReceived cfg blk txs

/-! ## Empty blocks -/

/-- One block of an empty-block message. -/
def storeEmptyBlock (n : Node) (blk : Option BroadcastedBlock) : Node :=
  match blk with
  | none => n
  | some blk =>
    if n.store.hasCompleteBlock blk.slot then n else (n.addBlockPending blk).1

/-- **An empty-block message.** Nothing is checked but that the slot is
free. -/
def onEmptyBlockReceived (n : Node) (blocks : List (Option BroadcastedBlock)) :
    Node :=
  blocks.foldl storeEmptyBlock n

/-! ## The sync stream -/

/-- What the loop over the ordering queue accumulates. -/
structure Consecutive where
  queue : AList (fun _ : UInt64 => BroadcastedBlock)
  next : UInt64
  /-- The blocks to process, in slot order. -/
  processed : List BroadcastedBlock

/-- The hash the block of a slot continues from: the last entry of the block
before it, among those being processed or else in the store. -/
def getPrevHashForSlot (s : Store) (slot : UInt64)
    (processed : List BroadcastedBlock) :
    Hash :=
  let prevSlot := slot - 1
  if prevSlot = 0 then zeroHash
  else match processed.getLast? with
    | some last => if last.slot = prevSlot then last.lastEntryHash else zeroHash
    | none =>
      match s.block prevSlot with
      | some b => b.lastEntryHash
      | none => zeroHash

/-- The block a node makes up for a slot it led. -/
def emptyBlock (cfg : Config) (slot : UInt64) (prevHash : Hash) (now : UInt64) :
    BroadcastedBlock :=
  (assembleBlock slot prevHash cfg.selfPubKey
    (generateTickOnlyEntries prevHash cfg.pohCfg.ticksPerSlot.toInt64.toInt
      cfg.pohCfg.hashesPerTick) now).sign cfg.selfPrivKey

/-- The loop that takes consecutive blocks off the queue. `clock` is the
time at which the next block is made up; running out of `fuel` is a loop
that does not end. -/
def takeConsecutive (cfg : Config) (s : Store) (worldLatestSlot : UInt64)
    (clock : ℕ → UInt64) : ℕ → Consecutive → Option Consecutive
  | 0, _ => none
  | fuel + 1, c =>
    if c.next > worldLatestSlot then some c
    else match c.queue.lookup c.next with
      | some blk =>
        takeConsecutive cfg s worldLatestSlot clock fuel
          { queue := c.queue.erase c.next, next := c.next + 1,
            processed := c.processed ++ [blk] }
      | none =>
        if isLeader cfg c.next then
          let prevHash := getPrevHashForSlot s c.next c.processed
          takeConsecutive cfg s worldLatestSlot clock fuel
            { c with
              next := c.next + 1
              processed := c.processed
                ++ [emptyBlock cfg c.next prevHash (clock c.processed.length)] }
        else some c

/-- More rounds than the loop can make before it comes back to a slot it has
already passed: the queue empties in one turn of the slot counter. -/
abbrev consecutiveFuel : ℕ := 2 ^ 65 + 1

/-- **Process one block of the sync stream**: check it, store it, apply it. -/
def processBlock (cfg : Config) (n : Node) (blk : BroadcastedBlock) : Answer :=
  if !blk.verifySignature then some (n, .error "invalid signature")
  else match verifyBlockTransactions blk with
    | .error err => some (n, .error ("transaction verification failed: " ++ err))
    | .ok () =>
      let blk := blk.markPoH
      match n.addBlockPending blk with
      | (n, .error err) => some (n, .error ("add pending block error: " ++ err))
      | (n, .ok ()) =>
        let b := broadcastedBlockToBlock blk
        match n.finalizeBlock cfg b (.synced n.store b) with
        | none => none
        | some (n, .error err) =>
          some (n, .error (s!"failed to finalize block at slot {blk.slot}: " ++ err))
        | some (n, .ok ()) => some (n, .ok ())

/-- Process blocks in order. A block that fails is logged and passed over. -/
def processBlocks (cfg : Config) : Node → List BroadcastedBlock → Option Node
  | n, [] => some n
  | n, blk :: blks =>
    match n.processBlock cfg blk with
    | none => none
    | some (n, _) => processBlocks cfg n blks

/-- Process the blocks that are next in line. The answer is the last of
them. -/
def processConsecutiveBlocks (cfg : Config) (n : Node) (clock : ℕ → UInt64) :
    Option (Node × Option BroadcastedBlock) :=
  match takeConsecutive cfg n.store n.worldLatestSlot clock consecutiveFuel
      { queue := n.blockOrderingQueue, next := n.nextExpectedSlot, processed := [] }
        with
  | none => none
  | some c =>
    let n := { n with blockOrderingQueue := c.queue, nextExpectedSlot := c.next }
    (n.processBlocks cfg c.processed).map (fun n => (n, c.processed.getLast?))

/-- Put a block into the ordering queue, unless one is stored for its slot. -/
def addBlockToOrderingQueue (cfg : Config) (n : Node) (blk : BroadcastedBlock)
    (clock : ℕ → UInt64) : Option (Node × Option BroadcastedBlock) :=
  if n.store.hasCompleteBlock blk.slot then some (n, none)
  else
    let n := { n with blockOrderingQueue := n.blockOrderingQueue.insert blk.slot blk }
    n.processConsecutiveBlocks cfg clock

/-- Start the services of a full node. A listener loads no dedup hashes. -/
def startCoreServices (cfg : Config) (n : Node) : Option Node :=
  if cfg.isListener then some { n with ready := true }
  else match n.dedup.loadTxHashes n.store n.store.latestFinalized with
    | none => none
    | some dedup => some { n with
        dedup := dedup
        mempool := n.mempool.setCurrentSlot n.store.latestFinalized
        ready := true }

/-- Switch to full mode at a block, the first time only. -/
def enableFullMode (cfg : Config) (n : Node) (latest : BroadcastedBlock) :
    Option Node :=
  if n.fullModeEnabled then some n
  else
    ({ n with
      recorder := n.recorder.reset latest.lastEntryHash latest.slot
      fullModeEnabled := true } : Node).startCoreServices cfg

/-- **A block of the sync stream.** A node that has caught up with its peers
switches to full mode. -/
def onSyncResponseReceived (cfg : Config) (n : Node) (blk : Option BroadcastedBlock)
    (clock : ℕ → UInt64) : Option Node :=
  match blk with
  | none => some n
  | some blk =>
    match n.addBlockToOrderingQueue cfg blk clock with
    | none => none
    | some (n, none) => some n
    | some (n, some latest) =>
      if !n.ready && !decide (n.worldLatestSlot > latest.slot) then
        n.enableFullMode cfg latest
      else some n

/-! ## Transactions and slot reports -/

/-- A transaction from a peer. -/
def onTransactionReceived (n : Node) (tx : Transaction) : Node :=
  { n with mempool := (n.mempool.addTx n.dedup n.store tx).1 }

/-- A peer's report of its latest slots. -/
def onLatestSlotReceived (n : Node) (latestSlot latestPohSlot : UInt64) : Node :=
  { n with
    worldLatestSlot := if n.worldLatestSlot < latestSlot then latestSlot
      else n.worldLatestSlot
    worldLatestPohSlot := if n.worldLatestPohSlot < latestPohSlot then latestPohSlot
      else n.worldLatestPohSlot }

end Node

end Mmn
