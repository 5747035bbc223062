import Mathlib.Data.List.ReduceOption
import Mmn.Network
import Mmn.Validator
import Mmn.Runs

/-!
# A node as a machine

The inputs of a node are the messages of its peers, with any content, and
the rounds of its own loops, in any order. `Node.step` is the node after one
of them; its runs begin at a node that starts on a genesis database.
-/

namespace Mmn

variable [Primitives]

/-! ## Genesis -/

/-- The leader named by the genesis block. -/
abbrev zeroAddress : String :=
  "0000000000000000000000000000000000000000000000000000000000000000"

/-- The block of slot zero: one tick, ending in the zero hash. It is not
signed. -/
def genesisBlock (now : UInt64) : BroadcastedBlock :=
  assembleBlock 0 zeroHash zeroAddress [newTickEntry 1 zeroHash] now

/-- **The database of a new node**: the genesis accounts, and the genesis
block stored and marked as finalized. -/
def initializeBlockchain (alloc : List Ledger.Address) (now : UInt64) :
    Except String Store :=
  match Ledger.createAccountsFromGenesis Store.empty alloc with
  | .error err => .error err
  | .ok s =>
    match s.addBlockPending (genesisBlock now) with
    | .error err => .error err
    | .ok s => s.finalizeBlock (broadcastedBlockToBlock (genesisBlock now)) ∅ ∅ ∅

omit [Primitives] in
/-- Creating accounts changes nothing but the accounts. -/
theorem createAccountsFromGenesis_frame {alloc : List Ledger.Address} {s s' : Store}
    (h : Ledger.createAccountsFromGenesis s alloc = .ok s') :
    s' = { s with accounts := s'.accounts } := by
  induction alloc generalizing s with
  | nil =>
    cases h
    rfl
  | cons a alloc ih =>
    unfold Ledger.createAccountsFromGenesis Ledger.createAccountWithoutLocking at h
    split at h
    · cases h
    · next s₁ hnew =>
      split at hnew
      · cases hnew
      · cases hnew
        have hframe := ih h
        exact hframe

/-- **What a new database holds** when it is opened: the genesis block,
marked as finalized, and no transactions. -/
structure IsGenesis (now : UInt64) (s : Store) : Prop where
  /-- The only block is that of slot zero. -/
  block : ∀ slot, s.block slot
    = if slot = 0 then
        some { broadcastedBlockToBlock (genesisBlock now) with status := .finalized }
      else none
  /-- The only slot marked is slot zero. -/
  finalized : s.finalized = {0}
  /-- There are no transactions. -/
  txs : s.txs = ∅

omit [Primitives] in
/-- Opening a database changes nothing that is stored. -/
theorem Store.reopen_frame (s : Store) :
    s.reopen = { s with
      latestFinalized := s.reopen.latestFinalized
      latestStore := s.reopen.latestStore } := by
  unfold reopen
  split <;> rfl

/-- A new database has its accounts, and the genesis block, finalized. -/
theorem exists_of_initializeBlockchain {alloc : List Ledger.Address} {now : UInt64}
    {s : Store} (h : initializeBlockchain alloc now = .ok s) :
    ∃ s₀, Ledger.createAccountsFromGenesis Store.empty alloc = .ok s₀ ∧
      s = (s₀.addBlock (genesisBlock now)).putFinalized
        (broadcastedBlockToBlock (genesisBlock now)) ∅ ∅ ∅ := by
  unfold initializeBlockchain at h
  split at h
  · cases h
  next s₀ hcreate =>
  split at h
  · cases h
  next s₁ hadd =>
  obtain ⟨-, rfl⟩ := Store.addBlockPending_eq_ok.mp hadd
  obtain ⟨-, -, rfl⟩ := Store.finalizeBlock_eq_ok.mp h
  exact ⟨s₀, hcreate, rfl⟩

theorem isGenesis_of_initializeBlockchain {alloc : List Ledger.Address} {now : UInt64}
    {s : Store} (h : initializeBlockchain alloc now = .ok s) :
    IsGenesis now s.reopen := by
  obtain ⟨s₀, hcreate, rfl⟩ := exists_of_initializeBlockchain h
  have hs₀ := createAccountsFromGenesis_frame hcreate
  rw [Store.reopen_frame]
  refine ⟨fun slot => ?_, ?_, ?_⟩
  · show ((s₀.addBlock (genesisBlock now)).putFinalized
      (broadcastedBlockToBlock (genesisBlock now)) ∅ ∅ ∅).block slot = _
    rw [Store.block_putFinalized]
    split
    · next hslot => rw [if_pos (show slot = 0 from hslot)]
    · next hslot =>
      rw [Store.block_addBlock,
        if_neg (show ¬ slot = (genesisBlock now).slot from hslot),
        hs₀, if_neg (show ¬ slot = 0 from hslot)]
      rfl
  · show insert 0 (s₀.addBlock (genesisBlock now)).finalized = {0}
    rw [Store.finalized_addBlock, hs₀]
    rfl
  · show s₀.txs = ∅
    rw [hs₀]
    rfl

/-! ## Inputs and steps -/

/-- What can happen to a node. -/
inductive Input where
  /-- A block on the live topic. -/
  | block (blk : BroadcastedBlock)
  /-- A message on the empty-block topic. -/
  | emptyBlocks (blocks : List (Option BroadcastedBlock))
  /-- A vote. -/
  | vote (v : Vote)
  /-- A transaction. -/
  | transaction (tx : Transaction)
  /-- A block of the sync stream, and the clock while it is handled. -/
  | syncResponse (blk : Option BroadcastedBlock) (clock : ℕ → UInt64)
  /-- A peer's report of its latest slots. -/
  | latestSlot (latestSlot latestPohSlot : UInt64)
  /-- A step of the hash engine. -/
  | autoHash
  /-- A round of the batch loop. -/
  | leaderBatch
  /-- The first half of a flush. -/
  | drainEntries
  /-- The second half of a flush, at a time. -/
  | tickAndFlush (now : UInt64)
  /-- A round of the role loop. -/
  | roleMonitor
  /-- A round of the wait for the slot before. -/
  | leaderWait (deadline : Bool)
  /-- The broadcast of an assembled block, which succeeds or not. -/
  | broadcast (i : ℕ) (published : Bool)
  /-- The periodic cleanup of votes. -/
  | cleanupVotes
  /-- The expiry of dedup hashes. -/
  | expireDedup (hashes : Finset String)

/-- The blocks of a message on the empty-block topic. -/
def Input.emptyTopic : Input → List BroadcastedBlock
  | .emptyBlocks blocks => blocks.reduceOption
  | _ => []

/-- **One step of a node.** -/
def Node.step (cfg : Config) (n : Node) : Input → Option Node
  | .block blk => (n.onBlockReceived cfg blk).map Prod.fst
  | .emptyBlocks blocks => some (n.onEmptyBlockReceived blocks)
  | .vote v => (n.processVote cfg v).map Prod.fst
  | .transaction tx => some (n.onTransactionReceived tx)
  | .syncResponse blk clock => n.onSyncResponseReceived cfg blk clock
  | .latestSlot slot pohSlot => some (n.onLatestSlotReceived slot pohSlot)
  | .autoHash => some { n with recorder := n.recorder.autoHash }
  | .leaderBatch => n.leaderBatch cfg
  | .drainEntries => some n.drainEntries
  | .tickAndFlush now => some (n.tickAndFlush cfg now)
  | .roleMonitor => some (n.roleMonitor cfg)
  | .leaderWait deadline => some (n.leaderWait deadline)
  | .broadcast i published => n.broadcastTask cfg i published
  | .cleanupVotes => some { n with collector := n.collector.periodicCleanup }
  | .expireDedup hashes =>
    some { n with dedup := { cache := n.dedup.cache \ hashes } }

/-- **The runs of a node** whose steps all meet a condition, from a database
of genesis. -/
def NodeRun (cfg : Config) (C : Node → Input → Prop) (n : Node) : Prop :=
  ∃ alloc now s, initializeBlockchain alloc now = .ok s ∧
    Machine.Run (Node.step cfg) C (Node.new cfg s.reopen) n

/-- **A machine of nodes by evaluation**: from a genesis database, the node
after a list of inputs passes a test. -/
theorem exists_run_of_genesis {ι : Type} (cfg : Config)
    (step : Node → ι → Option Node) (C : Node → ι → Prop) [∀ n i, Decidable (C n i)]
    (p : Node → Bool) (alloc : List Ledger.Address) (now : UInt64) (inputs : List ι)
    (h : (initializeBlockchain alloc now).toOption.any (fun s =>
      (Machine.exec step C (Node.new cfg s.reopen) inputs).any p) = true) :
    ∃ n, (∃ alloc now s, initializeBlockchain alloc now = .ok s ∧
      Machine.Run step C (Node.new cfg s.reopen) n) ∧ p n = true := by
  cases hinit : initializeBlockchain alloc now with
  | error err =>
    rw [hinit] at h
    cases h
  | ok s =>
    rw [hinit] at h
    obtain ⟨n, hrun, hn⟩ := Machine.exists_run_of_exec (C := C) h
    exact ⟨n, ⟨alloc, now, s, hinit, hrun⟩, hn⟩

/-- A run of a node by evaluation. -/
theorem exists_nodeRun (cfg : Config) (C : Node → Input → Prop)
    [∀ n i, Decidable (C n i)] (p : Node → Bool)
    (alloc : List Ledger.Address) (now : UInt64) (inputs : List Input)
    (h : (initializeBlockchain alloc now).toOption.any (fun s =>
      (Machine.exec (Node.step cfg) C (Node.new cfg s.reopen) inputs).any p) = true) :
    ∃ n, NodeRun cfg C n ∧ p n = true :=
  exists_run_of_genesis cfg (Node.step cfg) C p alloc now inputs h

end Mmn
