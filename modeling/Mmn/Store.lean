import Mmn.Block
import Mmn.Table

/-!
# The stores

The node keeps its data in one key–value database under seven prefix-free
groups of keys, which are the tables here: blocks, markers of finalized
slots, transactions, transaction metas, accounts, and the latest version of
each piece of user content; the last group holds two slot numbers.

An account record, a transaction meta and a block repeat their own key. The
first two types are therefore indexed by it, and a block is stored with the
proof that the key is its slot: an `Account a` can only be stored under the
address `a`, so that reading an address never gives another account's
record.

`Store.addBlockPending` puts a block and its transactions, and refuses a
slot that has one. `Store.finalizeBlock` puts the effects of applying a
block and marks its slot. Neither ever removes anything.
-/

namespace Mmn

variable [Primitives]

/-! ## Records -/

/-- The record of the account at an address. -/
structure Account (address : String) where
  balance : BitVec 256
  nonce : UInt64
deriving DecidableEq

/-- What became of a transaction. -/
inductive TxStatus where
  | failed
  | success
  | processed
deriving DecidableEq

/-- The meta record of the transaction with a hash. -/
structure TransactionMeta (txHash : String) where
  slot : UInt64
  /-- The hash of that block, as text. -/
  blockHash : String
  status : TxStatus
  error : String
deriving DecidableEq

/-- The meta record of a transaction. -/
def newTxMeta (tx : Option Transaction) (slot : UInt64) (blockHash : String)
    (status : TxStatus) (err : String) : TransactionMeta (Transaction.hash tx) :=
  { slot := slot, blockHash := blockHash, status := status, error := err }

/-- The end of a slot and the hash it ended in. -/
structure SlotBoundary where
  slot : UInt64
  hash : Hash

/-- A block of the given slot. -/
abbrev SlotBlock (slot : UInt64) : Type := { b : Block // b.slot = slot }

/-- **The database**, with the two slot numbers the process keeps in memory. -/
structure Store where
  blocks : AList SlotBlock
  finalized : Finset UInt64
  /-- The transactions by hash. A null transaction is stored as JSON null. -/
  txs : AList (fun _ : String => Option Transaction)
  txMetas : AList TransactionMeta
  accounts : AList Account
  /-- The hash of the latest version of each piece of content, by the hash
  of its first version. -/
  latestVersions : AList (fun _ : String => Bytes)
  /-- The recorded latest finalized slot. -/
  latestFinalizedMeta : Option UInt64
  /-- The recorded latest stored slot. -/
  latestStoreMeta : Option UInt64
  /-- The slot finalized last, in memory. -/
  latestFinalized : UInt64
  /-- The latest stored slot, in memory. -/
  latestStore : UInt64

namespace Store

/-- The database before anything is stored. -/
def empty : Store :=
  { blocks := ∅, finalized := ∅, txs := ∅, txMetas := ∅, accounts := ∅,
    latestVersions := ∅, latestFinalizedMeta := none, latestStoreMeta := none,
    latestFinalized := 0, latestStore := 0 }

/-! ## Reads -/

/-- The block of a slot. -/
def block (s : Store) (slot : UInt64) : Option Block :=
  (s.blocks.lookup slot).map Subtype.val

/-- Is there a block at the slot? -/
def hasCompleteBlock (s : Store) (slot : UInt64) : Bool := slot ∈ s.blocks

/-- Is the slot marked as finalized? -/
def isApplied (s : Store) (slot : UInt64) : Bool := slot ∈ s.finalized

/-- The end of a slot's block; zeros when there is no block. -/
def lastEntryInfoAtSlot (s : Store) (slot : UInt64) : SlotBoundary :=
  match s.block slot with
  | some b => { slot := slot, hash := b.lastEntryHash }
  | none => { slot := 0, hash := zeroHash }

/-- The transaction with a hash. Stored JSON null reads as the zero
transaction. -/
def getTxByHash (s : Store) (txHash : String) : Option Transaction :=
  (s.txs.lookup txHash).map (fun tx => tx.getD Transaction.zero)

/-- The transactions with the hashes of a list, in its order. Hashes that
are not stored are skipped. -/
def getTxBatch (s : Store) (txHashes : List String) : List Transaction :=
  txHashes.filterMap s.getTxByHash

/-- The accounts at the addresses of a list. -/
def getAccountBatch (s : Store) (addrs : List String) : AList Account :=
  AList.loadAll addrs s.accounts.lookup

/-- The hash of the latest version of a piece of content, as text. No record
reads as the empty text. -/
def getLatestVersionContentHash (s : Store) (rootHash : String) : String :=
  match s.latestVersions.lookup rootHash with
  | some h => hexEncode h
  | none => ""

/-- The latest versions of several pieces of content; those without a record
are left out. -/
def getBatchLatestVersionContentHash (s : Store) (rootHashes : List String) :
    AList (fun _ : String => String) :=
  AList.loadAll rootHashes (fun r => (s.latestVersions.lookup r).map hexEncode)

/-- **Opening an existing database**: the two slot numbers are read back,
and the second only if there is a first. -/
def reopen (s : Store) : Store :=
  match s.latestFinalizedMeta with
  | none => { s with latestFinalized := 0, latestStore := 0 }
  | some f => { s with latestFinalized := f, latestStore := s.latestStoreMeta.getD 0 }

omit [Primitives] in
/-- A block is read under its own slot. -/
theorem slot_of_block {s : Store} {slot : UInt64} {b : Block}
    (h : s.block slot = some b) :
    b.slot = slot := by
  obtain ⟨b', -, rfl⟩ := Option.map_eq_some_iff.mp h
  exact b'.2

omit [Primitives] in
theorem hasCompleteBlock_iff {s : Store} {slot : UInt64} :
    s.hasCompleteBlock slot = true ↔ slot ∈ s.blocks :=
  decide_eq_true_iff

omit [Primitives] in
theorem mem_blocks_iff {s : Store} {slot : UInt64} :
    slot ∈ s.blocks ↔ ∃ b, s.block slot = some b := by
  rw [← AList.lookup_isSome, Option.isSome_iff_exists]
  unfold block
  refine ⟨fun ⟨b, hb⟩ => ⟨b.1, by rw [hb]; rfl⟩, fun ⟨b, hb⟩ => ?_⟩
  obtain ⟨b', hb', -⟩ := Option.map_eq_some_iff.mp hb
  exact ⟨b', hb'⟩

/-! ## Storing a block -/

/-- Put a transaction of a block, and its meta record. -/
def putTx (slot : UInt64) (blockHash : String) (s : Store) (tx : Option Transaction) :
    Store :=
  { s with
    txs := s.txs.insert (Transaction.hash tx) tx
    txMetas := s.txMetas.insert (Transaction.hash tx)
      (newTxMeta tx slot blockHash .processed "") }

/-- What storing a block writes. -/
def addBlock (s : Store) (b : BroadcastedBlock) : Store :=
  b.blockTxs.foldl (putTx b.slot b.hashString)
    { s with
      blocks := s.blocks.insert b.slot ⟨broadcastedBlockToBlock b, rfl⟩
      latestStore := if b.slot > s.latestStore then b.slot else s.latestStore
      latestStoreMeta :=
        if b.slot > s.latestStore then some b.slot else s.latestStoreMeta }

/-- **Store a block as pending**, unless its slot has one. -/
def addBlockPending (s : Store) (b : BroadcastedBlock) : Except String Store :=
  if b.slot ∈ s.blocks then .error s!"block at slot {b.slot} already exists"
  else .ok (s.addBlock b)

theorem addBlockPending_eq_ok {s s' : Store} {b : BroadcastedBlock} :
    s.addBlockPending b = .ok s' ↔ b.slot ∉ s.blocks ∧ s' = s.addBlock b := by
  unfold addBlockPending
  split
  · next h => simp [h]
  · next h =>
    rw [Except.ok.injEq]
    exact ⟨fun heq => ⟨h, heq.symm⟩, fun heq => heq.2.symm⟩

/-- The loop over a block's transactions changes the two transaction tables
only. -/
theorem foldl_putTx_frame (slot : UInt64) (bh : String)
    (txs : List (Option Transaction)) (s : Store) :
    txs.foldl (putTx slot bh) s
      = { s with txs := (txs.foldl (putTx slot bh) s).txs
                 txMetas := (txs.foldl (putTx slot bh) s).txMetas } := by
  induction txs generalizing s with
  | nil => rfl
  | cons tx txs ih =>
    rw [List.foldl_cons, ih]
    rfl

section addBlock

variable (s : Store) (b : BroadcastedBlock)

@[simp] theorem blocks_addBlock :
    (s.addBlock b).blocks = s.blocks.insert b.slot
      ⟨broadcastedBlockToBlock b, rfl⟩ := by
  rw [addBlock, foldl_putTx_frame]

theorem mem_blocks_addBlock (slot : UInt64) :
    slot ∈ (s.addBlock b).blocks ↔ slot = b.slot ∨ slot ∈ s.blocks := by
  rw [blocks_addBlock]
  exact AList.mem_insert _

/-- **The blocks after storing one**: the stored block at its slot, and
every other slot's block as before. -/
theorem block_addBlock (slot : UInt64) :
    (s.addBlock b).block slot
      = if slot = b.slot then some (broadcastedBlockToBlock b) else s.block slot := by
  unfold block
  rw [blocks_addBlock]
  by_cases h : slot = b.slot
  · subst h
    rw [if_pos rfl, AList.lookup_insert]
    rfl
  · rw [if_neg h, AList.lookup_insert_ne h]

/-- A stored block stays when another is stored at a free slot. -/
theorem block_addBlock_of_block {slot : UInt64} {b' : Block}
    (hfree : b.slot ∉ s.blocks) (hb : s.block slot = some b') :
    (s.addBlock b).block slot = some b' := by
  have hne : ¬slot = b.slot := by
    rintro rfl
    exact hfree (mem_blocks_iff.mpr ⟨b', hb⟩)
  rw [block_addBlock, if_neg hne, hb]

@[simp] theorem finalized_addBlock : (s.addBlock b).finalized = s.finalized := by
  rw [addBlock, foldl_putTx_frame]

@[simp] theorem accounts_addBlock : (s.addBlock b).accounts = s.accounts := by
  rw [addBlock, foldl_putTx_frame]

/-- After a block is stored its slot is not beyond the latest stored one. -/
theorem slot_le_latestStore_addBlock : b.slot ≤ (s.addBlock b).latestStore := by
  rw [addBlock, foldl_putTx_frame]
  show b.slot ≤ if b.slot > s.latestStore then b.slot else s.latestStore
  split
  · exact UInt64.le_refl _
  · next h => exact UInt64.not_lt.mp h

@[simp] theorem latestVersions_addBlock :
    (s.addBlock b).latestVersions = s.latestVersions := by
  rw [addBlock, foldl_putTx_frame]

end addBlock

/-- What the transaction table holds after the loop: a transaction of the
list under its own hash, or what was there. -/
theorem lookup_txs_foldl_putTx (slot : UInt64) (bh : String)
    (txs : List (Option Transaction)) (s : Store) (h : String) :
    (∃ tx ∈ txs, Transaction.hash tx = h ∧
        (txs.foldl (putTx slot bh) s).txs.lookup h = some tx) ∨
      (∀ tx ∈ txs, Transaction.hash tx ≠ h) ∧
        (txs.foldl (putTx slot bh) s).txs.lookup h = s.txs.lookup h := by
  induction txs generalizing s with
  | nil => exact Or.inr ⟨by simp, rfl⟩
  | cons tx txs ih =>
    rw [List.foldl_cons]
    rcases ih (putTx slot bh s tx) with ⟨tx', hmem, hhash, hlook⟩ | ⟨hne, hlook⟩
    · exact Or.inl ⟨tx', List.mem_cons_of_mem tx hmem, hhash, hlook⟩
    · by_cases htx : Transaction.hash tx = h
      · refine Or.inl ⟨tx, List.mem_cons_self, htx, ?_⟩
        rw [hlook, ← htx]
        exact AList.lookup_insert _
      · refine Or.inr ⟨?_, ?_⟩
        · intro tx' hmem
          rcases List.mem_cons.mp hmem with rfl | hmem
          · exact htx
          · exact hne tx' hmem
        · rw [hlook]
          exact AList.lookup_insert_ne (Ne.symm htx)

/-- **The transaction table after storing a block**: a transaction of the
block under its own hash, or what was there. -/
theorem lookup_txs_addBlock (s : Store) (b : BroadcastedBlock) (h : String) :
    (∃ tx ∈ b.blockTxs, Transaction.hash tx = h ∧
        (s.addBlock b).txs.lookup h = some tx) ∨
      (∀ tx ∈ b.blockTxs, Transaction.hash tx ≠ h) ∧
        (s.addBlock b).txs.lookup h = s.txs.lookup h :=
  lookup_txs_foldl_putTx b.slot b.hashString b.blockTxs _ h

/-- **Every stored transaction is under its own hash.** -/
def Named (s : Store) : Prop :=
  ∀ h tx, s.txs.lookup h = some tx → Transaction.hash tx = h

theorem Named.empty : Store.empty.Named := fun _ _ hlook => by cases hlook

/-- Storing a block puts its transactions under their own hashes, null ones
too. -/
theorem Named.addBlock {s : Store} (h : s.Named) (b : BroadcastedBlock) :
    (s.addBlock b).Named := by
  intro k tx hlook
  obtain ⟨tx', -, hhash, hnew⟩ | ⟨-, hsame⟩ := s.lookup_txs_addBlock b k
  · rw [hnew] at hlook
    cases hlook
    exact hhash
  · rw [hsame] at hlook
    exact h k tx hlook

/-! ## Finalizing a block -/

/-- What finalizing a block writes. -/
def putFinalized (s : Store) (blk : Block) (txMetas : AList TransactionMeta)
    (addrAccount : AList Account) (latest : AList (fun _ : String => String)) :
    Store :=
  { s with
    blocks := s.blocks.insert blk.slot ⟨{ blk with status := .finalized }, rfl⟩
    txMetas := AList.writeAll (fun _ m => m) txMetas s.txMetas
    accounts := AList.writeAll (fun _ a => a) addrAccount s.accounts
    latestVersions :=
      AList.writeAll (fun _ h => (hexDecode h).getD []) latest s.latestVersions
    finalized := insert blk.slot s.finalized
    latestFinalizedMeta :=
      if blk.slot > s.latestFinalized then some blk.slot else s.latestFinalizedMeta
    latestFinalized := blk.slot }

/-- **Put the effects of a block and mark its slot**, in one write. The
latest versions must be hexadecimal texts. -/
def finalizeBlock (s : Store) (blk : Block) (txMetas : AList TransactionMeta)
    (addrAccount : AList Account) (latest : AList (fun _ : String => String)) :
    Except String Store :=
  if blk.slot ∉ s.blocks then .error s!"block at slot {blk.slot} does not exist"
  else match latest.entries.find? (fun e => (hexDecode e.2).isNone) with
    | some e => .error ("failed to decode txHash " ++ e.2)
    | none => .ok (s.putFinalized blk txMetas addrAccount latest)

omit [Primitives] in
/-- Finalizing succeeds on a stored slot when the latest versions decode. -/
theorem finalizeBlock_eq_ok {s s' : Store} {blk : Block}
    {txMetas : AList TransactionMeta} {addrAccount : AList Account}
    {latest : AList (fun _ : String => String)} :
    s.finalizeBlock blk txMetas addrAccount latest = .ok s' ↔
      blk.slot ∈ s.blocks ∧ (∀ e ∈ latest.entries, (hexDecode e.2).isSome) ∧
        s' = s.putFinalized blk txMetas addrAccount latest := by
  unfold finalizeBlock
  split
  · next h => simp [h]
  · next h =>
    split
    · next e he =>
      have hfail := List.find?_some he
      have hmem := List.mem_of_find?_eq_some he
      simp only [reduceCtorEq, false_iff, not_and]
      intro _ hall _
      have := hall e hmem
      simp_all
    · next hnone =>
      rw [List.find?_eq_none] at hnone
      rw [Except.ok.injEq]
      refine ⟨fun heq => ⟨not_not.mp h, fun e he => ?_, heq.symm⟩,
        fun heq => heq.2.2.symm⟩
      simpa [Option.isSome_iff_ne_none] using hnone e he

omit [Primitives] in
/-- Finalizing a stored block puts no block at another slot. -/
theorem mem_blocks_putFinalized {s : Store} {blk : Block} (h : blk.slot ∈ s.blocks)
    (txMetas : AList TransactionMeta) (addrAccount : AList Account)
    (latest : AList (fun _ : String => String)) (slot : UInt64) :
    slot ∈ (s.putFinalized blk txMetas addrAccount latest).blocks ↔
      slot ∈ s.blocks := by
  unfold putFinalized
  rw [AList.mem_insert]
  exact ⟨fun hor => hor.elim (fun heq => heq ▸ h) id, Or.inr⟩

omit [Primitives] in
/-- **The blocks after finalizing one**: the finalized block at its slot,
and every other slot's block as before. -/
theorem block_putFinalized (s : Store) (blk : Block) (txMetas : AList TransactionMeta)
    (addrAccount : AList Account) (latest : AList (fun _ : String => String))
    (slot : UInt64) :
    (s.putFinalized blk txMetas addrAccount latest).block slot
      = if slot = blk.slot then some { blk with status := .finalized }
        else s.block slot := by
  unfold block putFinalized
  by_cases h : slot = blk.slot
  · subst h
    rw [if_pos rfl, AList.lookup_insert]
    rfl
  · rw [if_neg h, AList.lookup_insert_ne h]

end Store

end Mmn
