import Mmn.Highest

/-!
# From a message to the store and back

To store a block, its transactions are taken out and kept under their
hashes, in a table that all blocks share; to send it in the sync stream,
they are looked up again (`convertBlockToBroadcastedBlock`). Hashes that are
not found are skipped without an error.

The message that comes out is the one that went in, up to the status, if
none of its transactions is null (`broadcast_of_stored_iff`). A null
transaction is stored as JSON null, under the hash of that text. It is read
back into a transaction and not into a pointer, and so comes out as the
transaction with all fields empty (`null_transaction_lost`).

What keeps the rest in place (`Holds`) is that a record of the table changes
only to a transaction with the same hash, and the record of a block only in
its status.
-/

namespace Mmn

section

variable [Primitives]

namespace Store

/-! ## Sending a stored block -/

/-- An entry as it is sent: its transactions are looked up. -/
def loadEntry (s : Store) (e : PersistentEntry) : Entry :=
  { numHashes := e.numHashes
    hash := e.hash
    transactions := (s.getTxBatch e.txHashes).map some
    tick := e.tick }

/-- **The message a stored block is sent as.** -/
def convertBlockToBroadcastedBlock (s : Store) :
    Option Block → Option BroadcastedBlock
  | none => none
  | some blk => some { blk.toBlockCore with entries := blk.entries.map s.loadEntry }

/-- The transactions a call puts into the store. -/
def Call.txs : Call → List (Option Transaction)
  | .addBlockPending (some b) _ => b.blockTxs
  | _ => []

/-- **The call finalizes no other block in the place of `b`**: what it
finalizes at the slot of `b` is the block stored for `b`. -/
def Call.Respects (b : BroadcastedBlock) : Call → Prop
  | .finalizeBlock blk _ _ _ =>
    blk.slot = b.slot → { blk with status := .pending } = broadcastedBlockToBlock b
  | _ => True

/-! ## What the store holds of a block -/

/-- **The store holds the block**: its record, in some status, and its
transactions. -/
structure Holds (b : BroadcastedBlock) (s : Store) : Prop where
  block : ∃ status, s.block b.slot
    = some { broadcastedBlockToBlock b with status := status }
  txs : ∀ tx ∈ b.blockTxs, s.txs.lookup (Transaction.hash tx) = some tx

variable {b : BroadcastedBlock} {s : Store}

/-- No other transaction of a list has the hash of one of the block's. -/
def HashesApart (b : BroadcastedBlock) (txs : List (Option Transaction)) : Prop :=
  ∀ tx ∈ b.blockTxs, ∀ tx' ∈ txs, Transaction.hash tx = Transaction.hash tx' →
    tx = tx'

/-- A transaction of the block is found under its hash after another block
was stored, if it was before or is in that block too. -/
theorem lookup_txs_addBlock_of_hashesApart {b' : BroadcastedBlock}
    (hapart : HashesApart b b'.blockTxs) {tx : Option Transaction}
    (htx : tx ∈ b.blockTxs)
    (h : tx ∈ b'.blockTxs ∨ s.txs.lookup (Transaction.hash tx) = some tx) :
    (s.addBlock b').txs.lookup (Transaction.hash tx) = some tx := by
  obtain ⟨tx', htx', hhash, hlook⟩ | ⟨hne, hlook⟩ :=
    s.lookup_txs_addBlock b' (Transaction.hash tx)
  · rw [hlook, hapart tx htx tx' htx' hhash.symm]
  · rw [hlook]
    exact h.resolve_left fun hmem => hne tx hmem rfl

/-- A block that was just stored is held. -/
theorem Holds.addBlock (s : Store) (hapart : HashesApart b b.blockTxs) :
    Holds b (s.addBlock b) where
  block := ⟨.pending, by rw [block_addBlock, if_pos rfl]; rfl⟩
  txs _ htx := lookup_txs_addBlock_of_hashesApart hapart htx (Or.inl htx)

/-- **No call lets go of a block**, unless it puts another block or
transaction in its place. -/
theorem Holds.call (h : Holds b s) {c : Call} (hrespects : c.Respects b)
    (hapart : HashesApart b c.txs) : Holds b (s.call c).1 := by
  obtain ⟨⟨status, hblock⟩, htxs⟩ := h
  cases c with
  | addBlockPending b' failure =>
    show Holds b (s.addBlockPendingOr b' failure).1
    obtain ⟨err, hadd, -⟩ | ⟨blk, rfl, hfree, ⟨-, hadd⟩ | ⟨f, -, -, hadd⟩⟩ :=
      s.addBlockPendingOr_cases b' failure
    · rw [hadd]
      exact ⟨⟨status, hblock⟩, htxs⟩
    · rw [hadd]
      exact ⟨⟨status, block_addBlock_of_block s blk hfree hblock⟩, fun tx htx =>
        lookup_txs_addBlock_of_hashesApart hapart htx (Or.inr (htxs tx htx))⟩
    · rw [hadd]
      exact ⟨⟨status, hblock⟩, htxs⟩
  | finalizeBlock blk txMetas addrAccount latest =>
    unfold Store.call
    dsimp only
    split
    · exact ⟨⟨status, hblock⟩, htxs⟩
    · next s' hfin =>
      obtain ⟨-, -, rfl⟩ := finalizeBlock_eq_ok.mp hfin
      refine ⟨?_, htxs⟩
      rw [block_putFinalized]
      split
      · next hslot =>
        exact ⟨.finalized, congrArg (fun b' => some { b' with status := .finalized })
          (hrespects hslot.symm)⟩
      · exact ⟨status, hblock⟩
  | restart =>
    show Holds b s.reopen
    unfold reopen
    split <;> exact ⟨⟨status, hblock⟩, htxs⟩

/-- **A block stays held through all calls.** -/
theorem Holds.callAll (h : Holds b s) {calls : List Call}
    (hrespects : ∀ c ∈ calls, c.Respects b)
    (hapart : HashesApart b (calls.flatMap Call.txs)) :
    Holds b (s.callAll calls) := by
  induction calls generalizing s with
  | nil => exact h
  | cons c calls ih =>
    refine ih (h.call (hrespects c List.mem_cons_self) fun tx htx tx' htx' => ?_)
      (fun c' hc' => hrespects c' (List.mem_cons_of_mem c hc')) fun tx htx tx' htx' =>
        ?_
    · exact hapart tx htx tx' (List.mem_append_left _ htx')
    · exact hapart tx htx tx' (List.mem_append_right _ htx')

/-! ## Reading it back -/

/-- The transactions of an entry are found, null ones as empty ones. -/
theorem Holds.getTxBatch (h : Holds b s) {txs : List (Option Transaction)}
    (htxs : ∀ tx ∈ txs, tx ∈ b.blockTxs) :
    s.getTxBatch (txs.map Transaction.hash) = txs.map fun tx =>
      tx.getD Transaction.zero := by
  induction txs with
  | nil => rfl
  | cons tx txs ih =>
    have hread : s.getTxByHash (Transaction.hash tx)
        = some (tx.getD Transaction.zero) := by
      unfold getTxByHash
      rw [h.txs tx (htxs tx List.mem_cons_self)]
      rfl
    rw [List.map_cons, List.map_cons, ← ih fun tx' htx' =>
      htxs tx' (List.mem_cons_of_mem tx htx')]
    exact List.filterMap_cons_some hread

/-- **An entry is read back**, with empty transactions for null ones. -/
theorem Holds.loadEntry (h : Holds b s)
    (htick : ∀ e ∈ b.entries, e.tick = true → e.transactions = []) {e : Entry}
    (he : e ∈ b.entries) :
    s.loadEntry e.toPersistent
      = { e with transactions :=
        e.transactions.map fun tx => some (tx.getD Transaction.zero) } := by
  have htxs : ∀ tx ∈ e.transactions, tx ∈ b.blockTxs := by
    intro tx htx
    refine List.mem_flatMap.mpr ⟨e, List.mem_filter.mpr ⟨he, ?_⟩, htx⟩
    cases hmark : e.tick with
    | false => rfl
    | true =>
      rw [htick e he hmark] at htx
      cases htx
  unfold Store.loadEntry Entry.toPersistent
  dsimp only
  rw [h.getTxBatch htxs, List.map_map]
  rfl

/-- The message with its null transactions replaced by empty ones. -/
def denulled (b : BroadcastedBlock) : BroadcastedBlock :=
  { b with entries := b.entries.map fun e => { e with
      transactions := e.transactions.map fun tx => some (tx.getD Transaction.zero) } }

/-- **What a held block is sent as.** -/
theorem Holds.convert (h : Holds b s)
    (htick : ∀ e ∈ b.entries, e.tick = true → e.transactions = []) :
    ∃ status, s.convertBlockToBroadcastedBlock (s.block b.slot)
      = some { denulled b with status := status } := by
  obtain ⟨status, hblock⟩ := h.block
  refine ⟨status, ?_⟩
  rw [hblock]
  have hentries : (b.entries.map Entry.toPersistent).map s.loadEntry
      = (denulled b).entries := by
    rw [List.map_map]
    exact List.map_congr_left fun e he => h.loadEntry htick he
  unfold convertBlockToBroadcastedBlock
  dsimp only [broadcastedBlockToBlock]
  rw [hentries]
  rfl

omit [Primitives] in
/-- Nothing is replaced exactly if nothing is null. -/
theorem denulled_eq_iff : denulled b = b ↔ none ∉ b.allTxs := by
  have htx : ∀ tx : Option Transaction, some (tx.getD Transaction.zero) = tx ↔
      tx ≠ none := by
    intro tx
    cases tx <;> simp
  have hentry : ∀ e : Entry, { e with
      transactions := e.transactions.map fun tx =>
        some (tx.getD Transaction.zero) } = e ↔
      none ∉ e.transactions := by
    intro e
    have hmap : (e.transactions.map fun tx => some (tx.getD Transaction.zero)) =
      e.transactions ↔
        none ∉ e.transactions := by
      conv_lhs => rw [← List.map_id e.transactions, List.map_map, List.map_inj_left]
      simp only [Function.comp_apply, id_eq, htx]
      exact ⟨fun h hmem => h none hmem rfl, fun h tx hmem heq => h (heq ▸ hmem)⟩
    rw [← hmap]
    exact ⟨fun h => congrArg Entry.transactions h, fun h => by rw [h]⟩
  have hentries : (denulled b).entries = b.entries ↔ none ∉ b.allTxs := by
    unfold denulled BroadcastedBlock.allTxs
    dsimp only
    conv_lhs => rw [← List.map_id b.entries, List.map_map, List.map_inj_left]
    simp only [Function.comp_apply, id_eq, hentry, List.mem_flatMap,
      not_exists, not_and]
  rw [← hentries]
  exact ⟨fun h => congrArg BroadcastedBlock.entries h, fun h => by
    show { b with entries := (denulled b).entries } = b
    rw [h]⟩

/-- **A stored block survives the round trip exactly if it has no null
transaction.** A block whose tick entries carry no transactions is stored;
after any calls that store and finalize blocks it is sent. As long as no two
different transactions with the same hash meet, the message is the block
that was stored, up to the status, exactly if none of its transactions is
null; then the receiver comes to the same verdicts. -/
theorem broadcast_of_stored_iff {s₁ : Store}
    (htick : ∀ e ∈ b.entries, e.tick = true → e.transactions = [])
    (hadd : s.addBlockPending b = .ok s₁) {calls : List Call}
    (hrespects : ∀ c ∈ calls, c.Respects b)
    (hapart : HashesApart b (b.blockTxs ++ calls.flatMap Call.txs)) :
    ∃ b', (s₁.callAll calls).convertBlockToBroadcastedBlock
      ((s₁.callAll calls).block b.slot)
        = some b' ∧
      ({ b' with status := b.status } = b ↔ none ∉ b.allTxs) ∧
      (none ∉ b.allTxs →
        b'.verifySignature = b.verifySignature ∧ b'.verifyPoH = b.verifyPoH) := by
  obtain ⟨-, rfl⟩ := addBlockPending_eq_ok.mp hadd
  have hstored : Holds b (s.addBlock b) := .addBlock s fun tx htx tx' htx' =>
    hapart tx htx tx' (List.mem_append_left _ htx')
  have hholds : Holds b ((s.addBlock b).callAll calls) := hstored.callAll hrespects
    fun tx htx tx' htx' => hapart tx htx tx' (List.mem_append_right _ htx')
  obtain ⟨status, hconvert⟩ := hholds.convert htick
  refine ⟨_, hconvert, denulled_eq_iff, fun hnull => ?_⟩
  rw [denulled_eq_iff.mpr hnull]
  exact ⟨rfl, rfl⟩

end Store

end

/-! ## Examples -/

section Sample

attribute [local instance] Sample.primitives

namespace Sample

/-- A block with a null transaction. -/
def nullBlock : BroadcastedBlock :=
  (assembleBlock 1 zeroHash (keyID 1)
    [{ entryAfter zeroHash [] with transactions := [none] }] 0).sign (keyBytes 1)

/-- A block with a transfer. -/
def sentBlock : BroadcastedBlock := blockWith 1 1 0 [transfer 1 2 10 1 0]

/-- The transfer again, with another one, in the block after it. -/
def laterBlock : BroadcastedBlock :=
  blockWith 2 2 0 [transfer 1 2 10 1 0, transfer 2 1 5 1 0]

/-- Both blocks are stored, and the first is finalized. -/
def laterCalls : List Store.Call :=
  [.addBlockPending (some laterBlock) none,
    .finalizeBlock (broadcastedBlockToBlock sentBlock) ∅ ∅ ∅, .restart]

end Sample

open Sample

/-- **A null transaction is lost**: the block comes back with an empty
transaction in its place. -/
theorem null_transaction_lost :
    (∀ e ∈ nullBlock.entries, e.tick = true → e.transactions = []) ∧
    ∃ s₁ b', Store.empty.addBlockPending nullBlock = .ok s₁ ∧
      s₁.convertBlockToBroadcastedBlock (s₁.block nullBlock.slot) = some b' ∧
      nullBlock.entries.map Entry.transactions = [[none]] ∧
      b'.entries.map Entry.transactions = [[some Transaction.zero]] ∧
      { b' with status := nullBlock.status } ≠ nullBlock := by
  refine ⟨by decide +kernel, Store.empty.addBlock nullBlock, _,
    Store.addBlockPending_eq_ok.mpr ⟨by decide, rfl⟩, rfl, ?_⟩
  decide +kernel

/-- A block with a transfer that a later block repeats comes back as it was. -/
theorem sent_block_comes_back :
    ∃ b',
      ((Store.empty.addBlock sentBlock).callAll
        laterCalls).convertBlockToBroadcastedBlock
        (((Store.empty.addBlock sentBlock).callAll laterCalls).block sentBlock.slot)
          = some b' ∧
      ({ b' with status := sentBlock.status } = sentBlock ↔ none ∉ sentBlock.allTxs) ∧
      (none ∉ sentBlock.allTxs →
        b'.verifySignature = sentBlock.verifySignature ∧
        b'.verifyPoH = sentBlock.verifyPoH) :=
  Store.broadcast_of_stored_iff (s := Store.empty) (by decide +kernel)
    (Store.addBlockPending_eq_ok.mpr ⟨by decide, rfl⟩)
    (by
      intro c hc
      simp only [laterCalls, List.mem_cons, List.not_mem_nil, or_false] at hc
      obtain rfl | rfl | rfl := hc
      · trivial
      · exact fun _ => rfl
      · trivial)
    (by
      unfold Store.HashesApart
      decide +kernel)

end Sample

end Mmn
