import Mmn.Ledger

/-!
# The mempool

Transactions wait in the mempool, in order of arrival, until the node leads
a slot and pulls them. Two memories guard against taking one twice: the
mempool's own set of dedup hashes, for what is waiting, and the dedup cache,
for what was pulled or seen in a block. The cache expires.

The mempool also keeps, for each sender, the total amount of the transfers
that wait. The totals are machine words; a total that reaches zero is
deleted. A pulled or cleaned-up transaction without an amount stops the
process when its sender has a total.
-/

namespace Mmn

variable [Primitives]

/-- The text of a standardized error: its code and message as JSON. -/
def networkError (code message : String) : String :=
  "\x7b\"code\":\"" ++ code ++ "\",\"message\":\"" ++ message ++ "\"\x7d"

/-! ## The dedup service -/

/-- How many slots a restart loads dedup hashes from. -/
abbrev dedupSlotGap : UInt64 := 200

/-- The cache of dedup hashes. -/
structure DedupService where
  /-- The hashes that have not expired. -/
  cache : Finset String

namespace DedupService

/-- The cache of a fresh process. -/
def new : DedupService := { cache := ∅ }

/-- Is the hash known? -/
def isDuplicate (ds : DedupService) (txDedupHash : String) : Bool :=
  txDedupHash ∈ ds.cache

/-- Remember hashes. -/
def add (ds : DedupService) (txDedupHashes : List String) : DedupService :=
  { cache := txDedupHashes.foldl (fun c h => insert h c) ds.cache }

/-- The hashes of the transactions in the last blocks of the store. The loop
over the slots does not end at the largest slot there is. -/
def loadTxHashes (ds : DedupService) (s : Store) (latestSlot : UInt64) :
    Option DedupService :=
  if latestSlot < 1 then some ds
  else if latestSlot + 1 = 0 then none
  else
    let startSlot := if latestSlot > dedupSlotGap then latestSlot - dedupSlotGap
      + 1 else 1
    let loadSlots := (List.range (latestSlot - startSlot + 1).toNat).map
      (fun i => startSlot + UInt64.ofNat i)
    let blocks := loadSlots.filterMap s.block
    let txs := blocks.flatMap
      (fun b => s.getTxBatch (b.entries.flatMap PersistentEntry.txHashes))
    some (ds.add (txs.map Transaction.dedupHash))

end DedupService

/-! ## The pool -/

/-- The longest memo, in bytes. -/
abbrev maxMemoCharacters : ℕ := 512

/-- How many slots back a nonce may be. -/
abbrev nonceWindow : UInt64 := 150

/-- The pool of waiting transactions. -/
structure Mempool where
  txs : AList (fun _ : String => Transaction)
  /-- Their hashes in order of arrival. -/
  txOrder : List String
  dedupTxHashSet : Finset String
  /-- The total amount waiting, by sender. -/
  senderTotalAmount : AList (fun _ : String => BitVec 256)
  /-- The most transactions that may wait. -/
  max : ℕ
  netCurrentSlot : UInt64

namespace Mempool

/-- The pool of a fresh process. -/
def new (maxSize : ℕ) : Mempool :=
  { txs := ∅, txOrder := [], dedupTxHashSet := ∅, senderTotalAmount := ∅,
    max := maxSize, netCurrentSlot := 0 }

/-- Can the sender pay, on top of what already waits? A transfer to oneself
is not checked, and the subtraction of what waits is in machine words. -/
def validateBalance (mp : Mempool) (s : Store) (tx : Transaction) :
    Except String Unit :=
  if tx.sender = tx.recipient then .ok ()
  else match s.accounts.lookup tx.sender with
    | none => .error (networkError "account_not_found" "Account does not exist")
    | some acc =>
      let available := match mp.senderTotalAmount.lookup tx.sender with
        | some total => acc.balance - total
        | none => acc.balance
      -- the amount is there: a transfer without one was refused before
      if available < tx.amount.getD 0 then
        .error (networkError "insufficient_funds" "Not enough balance in your wallet")
      else .ok ()

/-- Are the nonces in the window? -/
def validateNonce (mp : Mempool) : List Transaction → Except String Unit
  | [] => .ok ()
  | tx :: txs =>
    let minNonce :=
      if mp.netCurrentSlot > nonceWindow then mp.netCurrentSlot - nonceWindow else 1
    if tx.nonce < minNonce then
      .error (networkError "nonce_too_low" "Transaction nonce is too low")
    else if tx.nonce > mp.netCurrentSlot then
      .error (networkError "nonce_too_high" "Transaction nonce is too high")
    else mp.validateNonce txs

/-- Are all the transactions new to the dedup cache? -/
def validateDuplicateTxs (ds : DedupService) : List Transaction → Except String Unit
  | [] => .ok ()
  | tx :: txs =>
    if ds.isDuplicate tx.dedupHash then
      .error (networkError "duplicate_transaction" "This transaction already exists")
    else validateDuplicateTxs ds txs

/-- The check of user content at admission. -/
def validateUserContent (s : Store) (tx : Transaction) : Except String Unit :=
  let invalid :=
    .error (networkError "invalid_request" "User content data is invalid")
  match unmarshalUserContent tx.extraInfo with
  | none => invalid
  | some content =>
    if isBlank content.type || isBlank content.title
      || isBlank content.description then
      .error
        (networkError "invalid_request" "User content required fields are missing")
    else if shouldValidateAddress content.type && !validateTxAddress tx.recipient then
      .error (networkError "invalid_request" "Transaction address is invalid")
    else if content.referenceTxHashes.length > maxReferenceTxs then invalid
    else if (s.getTxBatch content.referenceTxHashes).length
        ≠ content.referenceTxHashes.length then invalid
    else if content.parentHash = "" ∧ content.rootHash = "" then .ok ()
    else if content.parentHash = "" ∨ content.rootHash = "" then invalid
    else match s.getTxByHash content.parentHash with
      | none =>
        .error (networkError "invalid_request" "Parent user content not found")
      | some parent =>
        if parent.type ≠ txTypeUserContent ∨ parent.sender ≠ tx.sender
            ∨ parent.recipient ≠ tx.recipient then invalid
        else if s.getLatestVersionContentHash content.rootHash
          ≠ content.parentHash then
          .error (networkError "invalid_request"
            "Parent user content is not the latest version")
        else .ok ()

/-- The checks made before the pool is locked; the signature is the last. -/
def cheapValidateTransaction (mp : Mempool) (tx : Transaction) : Except String Unit :=
  let size := tx.textData.utf8ByteSize
  if (tx.amount = none ∨ tx.amount = some 0) ∧ tx.type ≠ txTypeUserContent then
    .error (networkError "invalid_amount" "Amount is invalid or zero")
  else if size > maxMemoCharacters then
    .error s!"memo too long: max {maxMemoCharacters} chars, got {size}"
  else if mp.txs.entries.length ≥ mp.max then
    .error (networkError "mempool_full" "Network is busy, please try again")
  else match mp.validateNonce [tx] with
    | .error err => .error err
    | .ok () =>
      if !tx.verify then
        .error (networkError "invalid_signature" "Transaction signature is invalid")
      else .ok ()

/-- The checks made with the pool locked. -/
def validateTransaction (mp : Mempool) (ds : DedupService) (s : Store)
    (tx : Transaction) : Except String Unit :=
  if tx.dedupHash ∈ mp.dedupTxHashSet then
    .error (networkError "duplicate_transaction" "This transaction already exists")
  else match validateDuplicateTxs ds [tx] with
    | .error err => .error err
    | .ok () =>
      if tx.type = txTypeUserContent then validateUserContent s tx
      else mp.validateBalance s tx

/-- The pool with a transaction put at the end. -/
def put (mp : Mempool) (tx : Transaction) : Mempool :=
  let txHash := Transaction.hash (some tx)
  let mp := { mp with
    txs := mp.txs.insert txHash tx
    txOrder := mp.txOrder ++ [txHash]
    dedupTxHashSet := insert tx.dedupHash mp.dedupTxHashSet }
  if tx.type = txTypeUserContent then mp
  else
    let total := (mp.senderTotalAmount.lookup tx.sender).getD 0
    { mp with
      senderTotalAmount := mp.senderTotalAmount.insert tx.sender
        (total + tx.amount.getD 0) }

/-- **Admit a transaction.** The answer is its hash. -/
def addTx (mp : Mempool) (ds : DedupService) (s : Store) (tx : Transaction) :
    Mempool × Except String String :=
  match mp.cheapValidateTransaction tx with
  | .error err => (mp, .error err)
  | .ok () =>
    match mp.validateTransaction ds s tx with
    | .error err => (mp, .error err)
    | .ok () => (mp.put tx, .ok (Transaction.hash (some tx)))

/-- What passes the checks without the lock verifies. -/
theorem verify_of_cheapValidateTransaction {mp : Mempool} {tx : Transaction}
    (h : mp.cheapValidateTransaction tx = .ok ()) : tx.verify = true := by
  unfold cheapValidateTransaction at h
  dsimp only at h
  split at h
  · cases h
  split at h
  · cases h
  split at h
  · cases h
  split at h
  · cases h
  split at h
  · cases h
  · next hverify => simpa using hverify

/-- **Admission** changes nothing and answers with an error, or puts a
transaction that verifies and answers with its hash. -/
theorem addTx_cases (mp : Mempool) (ds : DedupService) (s : Store)
    (tx : Transaction) :
    (∃ err, mp.addTx ds s tx = (mp, .error err)) ∨
      (tx.verify = true ∧
        mp.addTx ds s tx = (mp.put tx, .ok (Transaction.hash (some tx)))) := by
  unfold addTx
  split
  · exact Or.inl ⟨_, rfl⟩
  · next hcheap =>
    split
    · exact Or.inl ⟨_, rfl⟩
    · exact Or.inr ⟨verify_of_cheapValidateTransaction hcheap, rfl⟩

/-- Take a transaction out of the pool's maps. A total without an amount to
subtract stops the process. -/
def drop (mp : Mempool) (txHash : String) (tx : Transaction) : Option Mempool :=
  let mp' := { mp with
    txs := mp.txs.erase txHash
    dedupTxHashSet := mp.dedupTxHashSet.erase tx.dedupHash }
  match mp.senderTotalAmount.lookup tx.sender, tx.amount with
  | none, _ => some mp'
  | some _, none => none
  | some total, some amount =>
    if total - amount = 0 then
      some { mp' with senderTotalAmount := mp.senderTotalAmount.erase tx.sender }
    else some { mp' with
      senderTotalAmount := mp.senderTotalAmount.insert tx.sender (total - amount) }

/-- Take the transactions with the hashes of a list out of the maps,
skipping hashes that are not there. -/
def dropAll : Mempool → List String → Option (Mempool × List Transaction)
  | mp, [] => some (mp, [])
  | mp, h :: hs =>
    match mp.txs.lookup h with
    | none => mp.dropAll hs
    | some tx =>
      match mp.drop h tx with
      | none => none
      | some mp => (mp.dropAll hs).map (fun r => (r.1, tx :: r.2))

/-- Track the transactions of a list. -/
def trackAll : TransactionTracker → List Transaction → Option TransactionTracker
  | t, [] => some t
  | t, tx :: txs =>
    match t.trackProcessingTransaction tx with
    | none => none
    | some t => trackAll t txs

/-- **Pull the next transactions**, remember their dedup hashes and track
them. -/
def pullBatch (mp : Mempool) (ds : DedupService) (t : TransactionTracker)
    (batchSize : ℕ) :
    Option (Mempool × DedupService × TransactionTracker × List Transaction) :=
  let selected := mp.txOrder.take batchSize
  let mp := { mp with txOrder := mp.txOrder.drop batchSize }
  match mp.dropAll selected with
  | none => none
  | some (mp, result) =>
    match trackAll t result with
    | none => none
    | some t => some (mp, ds.add (result.map Transaction.dedupHash), t, result)

/-- Move the slot nonces are compared with, forward only. -/
def setCurrentSlot (mp : Mempool) (slot : UInt64) : Mempool :=
  if slot ≤ mp.netCurrentSlot then mp else { mp with netCurrentSlot := slot }

/-- The checks on the transactions of a received block. -/
def verifyBlockTransactions (mp : Mempool) (ds : DedupService)
    (txs : List Transaction) :
    Except String Unit :=
  match mp.validateNonce txs with
  | .error err => .error err
  | .ok () => validateDuplicateTxs ds txs

/-- Take the transactions of a received block out of the pool. -/
def blockCleanup (mp : Mempool) (txHashSet : List String) : Option Mempool :=
  match mp.dropAll txHashSet with
  | none => none
  | some (mp, _) => some { mp with
      txOrder := mp.txOrder.filter (fun h => decide (h ∉ txHashSet)) }

end Mempool

end Mmn
