import Mmn.Queries
import Mmn.Receipts

/-!
# What clients are told about transactions

A client asks for a transaction by its hash. The service looks for it where
transactions are, in the order in which they pass through the node: in the
mempool, among those the leader has pulled, and in the database. A
transaction found in one of the first two places is pending, and nothing
else is said about it. One found in the database is reported with its
receipt.

A report from the database is true whatever the node has done and whatever
messages it has received (`getTxByHash_exact`): the block it names is the
block of its slot, that block holds the transaction, and the status is
*confirmed* as long as the block is not marked as finalized and *finalized*
or *failed* from then on. The one thing the status does not tell is which
block: a transaction that is in several blocks has one receipt, the one that
was written last.
-/

namespace Mmn

section

variable [Primitives]

/-! ## The answers -/

/-- What a client is told about a transaction. -/
structure TxInfo where
  sender : String
  recipient : String
  /-- The amount, as text. -/
  amount : String
  timestamp : UInt64
  textData : String
  nonce : UInt64
  slot : UInt64
  blockhash : String
  status : TransactionStatus
  errMsg : String
  extraInfo : String
  txHash : String
deriving DecidableEq

/-- The answer to a hash. -/
structure GetTxByHashResponse where
  tx : TxInfo
  decimals : UInt32
deriving DecidableEq

omit [Primitives] in
/-- What is told about a transaction, with its place and status. -/
def Transaction.info (tx : Transaction) (txHash : String) (slot : UInt64)
    (blockhash : String) (status : TransactionStatus) (errMsg : String) : TxInfo :=
  { sender := tx.sender, recipient := tx.recipient,
    amount := uint256ToString tx.amount,
    timestamp := tx.timestamp, textData := tx.textData, nonce := tx.nonce, slot :=
      slot,
    blockhash := blockhash, status := status, errMsg := errMsg, extraInfo :=
      tx.extraInfo,
    txHash := txHash }

namespace TxService

/-- **Look for a transaction**: in the mempool, in the tracker, in the
database. The three are given apart because they are read one after the
other, and the node goes on in between. -/
def getTxByHash (mempool : Mempool) (tracker : TransactionTracker) (store : Store)
    (decimals : UInt8) (txHash : String) : Except QueryError GetTxByHashResponse :=
  match mempool.txs.lookup txHash with
  | some tx => .ok ⟨tx.info txHash 0 "" .pending "", decimals.toUInt32⟩
  | none =>
    match tracker.processingTxs.lookup txHash with
    | some tx => .ok ⟨tx.info txHash 0 "" .pending "", decimals.toUInt32⟩
    | none =>
      match store.getTxByHash txHash, store.txMetas.lookup txHash with
      | some tx, some m =>
        .ok ⟨tx.info txHash m.slot m.blockHash
          (txMetaStatusToProtoTxStatus m.status.toInt32) m.error, decimals.toUInt32⟩
      | _, _ =>
        .error (.network "transaction_not_found" "Transaction could not be found")

variable {mempool : Mempool} {tracker : TransactionTracker} {store : Store}
  {decimals : UInt8} {txHash : String}

omit [Primitives] in
/-- The hash is in one of the three places. -/
theorem getTxByHash_isOk_iff :
    (getTxByHash mempool tracker store decimals txHash).isOk = true ↔
      txHash ∈ mempool.txs ∨ txHash ∈ tracker.processingTxs ∨
      store.Records txHash := by
  unfold getTxByHash Store.Records Store.getTxByHash
  rw [← AList.lookup_isSome, ← AList.lookup_isSome, ← AList.lookup_isSome,
    ← AList.lookup_isSome]
  cases mempool.txs.lookup txHash with
  | some tx => simp [Except.isOk, Except.toBool]
  | none =>
    cases tracker.processingTxs.lookup txHash with
    | some tx => simp [Except.isOk, Except.toBool]
    | none =>
      cases store.txs.lookup txHash with
      | none => simp [Except.isOk, Except.toBool]
      | some t =>
        cases store.txMetas.lookup txHash <;> simp [Except.isOk, Except.toBool]

omit [Primitives] in
/-- **Where an answer comes from**: the transaction is pending, or the
answer is its receipt. -/
theorem getTxByHash_cases {r : GetTxByHashResponse}
    (h : getTxByHash mempool tracker store decimals txHash = .ok r) :
    (∃ tx, (mempool.txs.lookup txHash = some tx ∨
      tracker.processingTxs.lookup txHash = some tx) ∧
        r.tx = tx.info txHash 0 "" .pending "") ∨
      ∃ t m, store.txs.lookup txHash = some t ∧ store.txMetas.lookup txHash = some m ∧
        r.tx = (t.getD Transaction.zero).info txHash m.slot m.blockHash
          (txMetaStatusToProtoTxStatus m.status.toInt32) m.error := by
  unfold getTxByHash at h
  split at h
  · next tx hlook =>
    cases h
    exact Or.inl ⟨tx, Or.inl hlook, rfl⟩
  split at h
  · next tx hlook =>
    cases h
    exact Or.inl ⟨tx, Or.inr hlook, rfl⟩
  split at h
  · next tx m hget hm =>
    cases h
    obtain ⟨t, ht, rfl⟩ := Option.map_eq_some_iff.mp hget
    exact Or.inr ⟨t, m, ht, hm, rfl⟩
  · cases h

end TxService

/-- The answer of a node that does nothing in between. -/
def Node.getTxByHash (n : Node) (decimals : UInt8) (txHash : String) :
    Except QueryError GetTxByHashResponse :=
  TxService.getTxByHash n.mempool n.tracker n.store decimals txHash

/-! ## The answers are true -/

omit [Primitives] in
/-- The status a client sees of a receipt. -/
theorem txMetaStatus_eq_confirmed_iff (status : TxStatus) :
    txMetaStatusToProtoTxStatus status.toInt32 = .confirmed ↔
      status = .processed := by
  cases status <;> decide

omit [Primitives] in
theorem txMetaStatus_ne_pending (status : TxStatus) :
    txMetaStatusToProtoTxStatus status.toInt32 ≠ .pending := by
  cases status <;> decide

/-- **A transaction is reported as it is.** The node is in any state that
its operations reach from genesis (`Operated`), and the hash asked for is
neither that of the null transaction nor that of the zero transaction, as
which a null one is read back.

An answer then says that the transaction is pending, and the node has it in
the mempool or in flight; or it shows the transaction that is stored under
the hash, which is its own, and names the block of a slot, which holds the
transaction, and says that it is confirmed exactly if that slot is not
marked as finalized. -/
theorem Node.getTxByHash_exact {cfg : Config} {n : Node} (h : Operated cfg n)
    {decimals : UInt8} {txHash : String} (hnull : txHash ≠ Transaction.hash none)
    (hzero : txHash ≠ Transaction.hash (some Transaction.zero))
    {r : GetTxByHashResponse} (hget : n.getTxByHash decimals txHash = .ok r) :
    (r.tx.status = .pending ∧ r.tx.slot = 0 ∧ r.tx.blockhash = "" ∧
        (txHash ∈ n.mempool.txs ∨ txHash ∈ n.tracker.processingTxs)) ∨
      ∃ tx b, n.store.getTxByHash txHash = some tx ∧
      Transaction.hash (some tx) = txHash ∧
        n.store.block r.tx.slot = some b ∧ r.tx.blockhash = b.hashString ∧
        txHash ∈ b.txHashes ∧
        r.tx = tx.info txHash r.tx.slot r.tx.blockhash r.tx.status r.tx.errMsg ∧
        r.tx.status ≠ .pending ∧
        (r.tx.status = .confirmed ↔ n.store.isApplied r.tx.slot = false) := by
  obtain ⟨tx, hplace, hr⟩ | ⟨t, m, ht, hm, hr⟩ := TxService.getTxByHash_cases hget
  · rw [hr]
    refine Or.inl ⟨rfl, rfl, rfl, ?_⟩
    exact hplace.imp (fun hlook => AList.lookup_isSome.mp (by rw [hlook]; rfl))
      (fun hlook => AList.lookup_isSome.mp (by rw [hlook]; rfl))
  · have hreceipts := h.receipts
    obtain ⟨b, hb, hhash, hmem⟩ := hreceipts.issued txHash m hm
    have hmem : txHash ∈ b.txHashes :=
      hmem.resolve_right (fun hother => hzero hother.2.2)
    have hname := hreceipts.named txHash t ht
    have hstatus : m.status = .processed ↔ m.slot ∉ n.store.finalized := by
      refine ⟨fun hs hslot => hreceipts.settled txHash m hm hnull hslot hs,
        fun hslot => ?_⟩
      by_contra hs
      exact hslot (hreceipts.final txHash m hm hs)
    cases t with
    | none => exact absurd hname.symm hnull
    | some tx =>
      rw [hr]
      refine Or.inr ⟨tx, b, ?_, hname, hb, hhash, hmem, rfl,
        txMetaStatus_ne_pending _, ?_⟩
      · unfold Store.getTxByHash
        rw [ht]
        rfl
      · show txMetaStatusToProtoTxStatus m.status.toInt32 = .confirmed ↔
          n.store.isApplied m.slot = false
        rw [txMetaStatus_eq_confirmed_iff, hstatus, Store.isApplied,
          decide_eq_false_iff_not]

end

/-! ## Examples -/

section Sample

attribute [local instance] Sample.primitives

open Sample

/-- A transfer in two blocks of which the first is applied: the client is
told of the second, and that the transfer is confirmed. -/
theorem getTxByHash_exact_twice :
    ∃ n r, Operated alone n ∧
      n.getTxByHash 6 (Transaction.hash (some (transfer 2 1 30 1 0))) = .ok r ∧
      n.store.isApplied 1 = true ∧ r.tx.slot = 2 ∧
      ∃ b, n.store.block r.tx.slot = some b ∧ r.tx.blockhash = b.hashString ∧
        (r.tx.status = .confirmed ↔ n.store.isApplied r.tx.slot = false) := by
  obtain ⟨n, hn, htest⟩ := exists_operated alone
    (fun n => n.store.isApplied 1 &&
      (n.getTxByHash 6 (Transaction.hash (some (transfer 2 1 30 1 0)))).toOption.any
        (fun r : GetTxByHashResponse =>
          decide (r.tx.slot = 2 ∧ r.tx.status ≠ .pending)))
    [] 0 [.processBlockBeforeBroadcast (blockWith 1 1 0 [transfer 2 1 30 1 0]),
      .applyDataToBlock 1,
      .processBlockBeforeBroadcast (blockWith 1 2 0 [transfer 2 1 30 1 0])]
    (by decide +kernel)
  rw [Bool.and_eq_true] at htest
  obtain ⟨happlied, htest⟩ := htest
  cases hget : n.getTxByHash 6 (Transaction.hash (some (transfer 2 1 30 1 0))) with
  | error err =>
    rw [hget] at htest
    cases htest
  | ok r =>
    rw [hget] at htest
    have hr : r.tx.slot = 2 ∧ r.tx.status ≠ .pending := of_decide_eq_true htest
    obtain ⟨hpending, -⟩ | ⟨tx, b, -, -, hb, hhash, -, -, -, hstatus⟩ :=
      Node.getTxByHash_exact hn (by decide +kernel) (by decide +kernel) hget
    · exact absurd hpending hr.2
    · exact ⟨n, r, hn, hget, happlied, hr.1, b, hb, hhash, hstatus⟩

end Sample

end Mmn
