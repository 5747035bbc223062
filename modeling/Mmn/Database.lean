import Mmn.ContentChecks
import Mmn.KeySpace

/-!
# Applying a block, down to the database

`Store` has a table for each kind of record and nothing that fails. Below it
is one database of bytes under keys of bytes, reads and a batch write that
can fail, and records that say themselves where they belong. This file
follows `Ledger.finalizeBlock` down to that level.

* The keys are a tag and a text or a number (`Key.bytes`). The tags are
  separated, so keys of different records are different
  (`Key.bytes_injective`).
* The bytes under them are JSON made and read by a library that is not part
  of the repository (`Codec`). An account record carries its address, and is
  put under *that* address and not under the one it was loaded from.
* What the code does not decide is an `Environment`: which of its reads and
  writes fail, and in which order the maps it has filled are walked.

`Raw.finalizeBlock` is the function, step by step as the code takes them;
the tracker is told of each transaction while the loop runs, between the
reads that can fail. `Raw.finalizeBlock_cases` says how a call ends.
-/

namespace Mmn

/-! ## Keys -/

/-- The kinds of keys. -/
inductive KeyFamily where
  | account
  | blockMeta
  | block
  | blockFinalized
  | tx
  | txMeta
  | latestVersionContent
deriving DecidableEq

/-- The text that the keys of a kind begin with. -/
def KeyFamily.text : KeyFamily → String
  | .account => "account:"
  | .blockMeta => "blk_meta:"
  | .block => "blk:"
  | .blockFinalized => "blk_finalized:"
  | .tx => "tx:"
  | .txMeta => "tx_meta:"
  | .latestVersionContent => "latest_version_content:"

theorem KeyFamily.separated :
    KeySpace.Separated (fun f : KeyFamily => textBytes f.text) := by
  intro f g h
  cases f <;> cases g <;> first | rfl | exact absurd h (by decide +kernel)

/-- **The records of the database.** -/
inductive Key where
  | account (addr : String)
  | latestFinalized
  | latestStore
  | block (slot : UInt64)
  | finalized (slot : UInt64)
  | tx (txHash : String)
  | txMeta (txHash : String)
  | latestVersionContent (rootHash : String)
deriving DecidableEq

namespace Key

/-- The kind of a record. -/
def family : Key → KeyFamily
  | account _ => .account
  | latestFinalized => .blockMeta
  | latestStore => .blockMeta
  | block _ => .block
  | finalized _ => .blockFinalized
  | tx _ => .tx
  | txMeta _ => .txMeta
  | latestVersionContent _ => .latestVersionContent

/-- What follows the tag. -/
def rest : Key → Bytes
  | account addr => textBytes addr
  | latestFinalized => textBytes "latest_finalized"
  | latestStore => textBytes "latest_store"
  | block slot => putUint64 slot
  | finalized slot => putUint64 slot
  | tx txHash => textBytes txHash
  | txMeta txHash => textBytes txHash
  | latestVersionContent rootHash => textBytes rootHash

/-- **The key of a record.** -/
def bytes (k : Key) : Bytes := textBytes k.family.text ++ k.rest

/-- **Different records have different keys**, whatever their addresses and
hashes are. -/
theorem bytes_injective : Function.Injective bytes := by
  intro k k' h
  obtain ⟨hfamily, hrest⟩ := KeyFamily.separated.append_inj h
  have hmeta : textBytes "latest_finalized" ≠ textBytes "latest_store" := by
    decide +kernel
  cases k <;> cases k' <;>
    first
    | rfl
    | exact KeyFamily.noConfusion hfamily
    | exact congrArg _ (textBytes_injective hrest)
    | exact congrArg _ (putUint64_injective hrest)
    | exact absurd hrest hmeta
    | exact absurd hrest.symm hmeta

end Key

/-- **The database**: what is under each key. -/
abbrev Database : Type := Bytes → Option Bytes

/-! ## Records -/

/-- **An account as it is stored**: it carries its address. The balance of a
record without one is a null pointer. -/
structure AccountRecord where
  address : String
  balance : Option (BitVec 256)
  nonce : UInt64
deriving DecidableEq

/-- **The encoding of records as JSON.** Null is read as the zero value of
its type; what does not read is `none`. -/
class Codec where
  marshalBlock : Block → Bytes
  marshalTxMeta : ∀ txHash, TransactionMeta txHash → Bytes
  marshalAccount : AccountRecord → Bytes
  unmarshalTransaction : Bytes → Option Transaction
  unmarshalAccount : Bytes → Option AccountRecord

/-- The calls of the database that can fail while a block is applied. -/
inductive DbCall where
  | blockTxs
  | accounts
  /-- Reading the transactions its contents refer to. -/
  | relatedTxs
  | latestVersions
  | hasBlock
  | write
deriving DecidableEq

/-- **What the code does not decide.** -/
structure Environment where
  /-- The error a call of the database ends in, if it fails. -/
  error : DbCall → Option String
  /-- The order in which the puts of the batch are made. -/
  arrange : List (Bytes × Bytes) → List (Bytes × Bytes)
  perm : ∀ puts, (arrange puts).Perm puts

section

variable [Primitives] [Codec]

/-! ## Reads -/

namespace Database

/-- The transaction under a hash. -/
def tx (db : Database) (txHash : String) : Option Transaction :=
  (db (Key.tx txHash).bytes).bind Codec.unmarshalTransaction

/-- The account under an address. -/
def account (db : Database) (addr : String) : Option AccountRecord :=
  (db (Key.account addr).bytes).bind Codec.unmarshalAccount

/-- The latest version of a content, as text. -/
def latestVersion (db : Database) (rootHash : String) : Option String :=
  (db (Key.latestVersionContent rootHash).bytes).map hexEncode

/-- The transactions of a block that are in the database and read. -/
def txsInBlock (db : Database) (b : Block) : List Transaction :=
  b.txHashes.filterMap db.tx

end Database

/-- The accounts loaded for a block, by the address they were loaded from. -/
abbrev Accounts : Type := AList (fun _ : String => AccountRecord)

namespace Raw

/-- A batch read of transactions. Nothing is read for an empty list. -/
def getTxBatch (env : Environment) (call : DbCall) (db : Database)
    (txHashes : List String) :
    Except String (List Transaction) :=
  if txHashes = [] then .ok []
  else match env.error call with
    | some err => .error ("failed to batch get transactions: " ++ err)
    | none => .ok (txHashes.filterMap db.tx)

/-- A batch read of accounts. -/
def getAccountBatch (env : Environment) (db : Database) (addrs : List String) :
    Except String Accounts :=
  if addrs = [] then .ok ∅
  else match env.error .accounts with
    | some err => .error ("failed to batch get accounts: " ++ err)
    | none => .ok (AList.loadAll addrs db.account)

/-- A batch read of latest versions. -/
def getBatchLatestVersionContentHash (env : Environment) (db : Database)
    (rootHashes : List String) : Except String LatestVersions :=
  if rootHashes = [] then .ok ∅
  else match env.error .latestVersions with
    | some err =>
      .error ("failed to batch get latest version content hashes: " ++ err)
    | none => .ok (AList.loadAll rootHashes db.latestVersion)

/-! ## The loop over the transactions -/

end Raw

namespace Accounts

/-- Create the account of an address unless it is there. -/
def touch (state : Accounts) (addr : String) : Accounts :=
  if addr ∈ state then state
  else state.insert addr { address := addr, balance := some 0, nonce := 0 }

/-- Change the account that was loaded from an address. -/
def change (state : Accounts) (addr : String) (f : AccountRecord → AccountRecord) :
    Accounts :=
  match state.lookup addr with
  | some r => state.insert addr (f r)
  | none => state

/-- The balance of the account loaded from an address; none is a null
pointer. -/
def balance (state : Accounts) (addr : String) : Option (BitVec 256) :=
  (state.lookup addr).bind AccountRecord.balance

/-- Set a balance. -/
def setBalance (state : Accounts) (addr : String) (balance : BitVec 256) : Accounts :=
  state.change addr (fun r => { r with balance := some balance })

/-- Set a nonce. -/
def setNonce (state : Accounts) (addr : String) (nonce : UInt64) : Accounts :=
  state.change addr (fun r => { r with nonce := nonce })

end Accounts

/-- What the loop over a block's transactions accumulates, with the tracker
it talks to. -/
structure Progress where
  state : Accounts
  txMetas : AList TransactionMeta
  txContents : List Transaction
  relatedContentHashes : List String
  rootContentHashes : List String
  tracker : TransactionTracker

/-- Before the first transaction. -/
def Progress.start (state : Accounts) (tracker : TransactionTracker) : Progress :=
  { state := state, txMetas := ∅, txContents := [], relatedContentHashes := [],
    rootContentHashes := [], tracker := tracker }

namespace Raw

/-- **Apply one transfer** to the loaded accounts. A record without a
balance stops the process. -/
def applyTx (state : Accounts) (tx : Transaction) :
    Option (Accounts × Except String Unit) :=
  match tx.amount with
  | none => some (state, .error "transaction amount cannot be nil")
  | some amount =>
    let state := (state.touch tx.sender).touch tx.recipient
    match state.balance tx.sender with
    | none => none
    | some balance =>
      if balance < amount then some (state, .error "insufficient balance")
      else
        let state := state.setBalance tx.sender (balance - amount)
        match state.balance tx.recipient with
        | none => none
        | some balance =>
          let state := state.setBalance tx.recipient (balance + amount)
          some (state.setNonce tx.sender tx.nonce, .ok ())

/-- One transaction of a block, before the tracker is told. -/
def applyOne (b : Block) (r : Progress) (tx : Transaction) : Option Progress :=
  let note (status : TxStatus) (err : String) : AList TransactionMeta :=
    r.txMetas.insert (Transaction.hash (some tx))
      (newTxMeta (some tx) b.slot b.hashString status err)
  if tx.type = txTypeUserContent then
    match unmarshalUserContent tx.extraInfo with
    | none => some { r with txMetas := note .failed "User content data is invalid" }
    | some content => some { r with
        txContents := r.txContents ++ [tx]
        relatedContentHashes := content.referenceTxHashes.foldl addOnce
          (if content.parentHash = "" then r.relatedContentHashes
            else addOnce r.relatedContentHashes content.parentHash)
        rootContentHashes := if content.rootHash = "" then r.rootContentHashes
          else addOnce r.rootContentHashes content.rootHash }
  else match applyTx r.state tx with
    | none => none
    | some (state, .error err) =>
      some { r with state := state, txMetas := note .failed err }
    | some (state, .ok ()) =>
      some { r with state := state, txMetas := note .success "" }

/-- **One transaction of a block.** A listener tells the tracker nothing. -/
def runTx (b : Block) (isListener : Bool) (r : Progress) (tx : Transaction) :
    Option Progress :=
  match applyOne b r tx with
  | none => none
  | some r =>
    if isListener then some r
    else (r.tracker.removeTransaction (Transaction.hash (some tx))).map
      (fun tracker => { r with tracker := tracker })

/-- The loop over the transactions. -/
def runTxs (b : Block) (isListener : Bool) :
    Progress → List Transaction → Option Progress
  | r, [] => some r
  | r, tx :: txs =>
    match runTx b isListener r tx with
    | none => none
    | some r => runTxs b isListener r txs

/-! ## The function -/

end Raw

/-- **The process**: the database, the slot finalized last and the tracker. -/
structure Process where
  db : Database
  latestFinalized : UInt64
  tracker : TransactionTracker

namespace Raw

/-- The puts of a finalized block. A meta record is put under the hash it
was filed under, an account under the address it carries. -/
def finalizedPuts (p : Process) (blk : Block) (txMetas : AList TransactionMeta)
    (addrAccount : Accounts) (latest : LatestVersions) : List (Bytes × Bytes) :=
  [((Key.block blk.slot).bytes, Codec.marshalBlock { blk with status := .finalized })]
    ++ txMetas.entries.map
      (fun e => ((Key.txMeta e.1).bytes, Codec.marshalTxMeta e.1 e.2))
    ++ addrAccount.entries.map
        (fun e => ((Key.account e.2.address).bytes, Codec.marshalAccount e.2))
    ++ latest.entries.map
        (fun e => ((Key.latestVersionContent e.1).bytes, (hexDecode e.2).getD []))
    ++ [((Key.finalized blk.slot).bytes, [1])]
    ++ (if blk.slot > p.latestFinalized then
          [(Key.latestFinalized.bytes, putUint64 blk.slot)] else [])

/-- **Put the effects of a block and mark its slot**, in one batch. -/
def storeFinalizeBlock (env : Environment) (p : Process) (blk : Block)
    (txMetas : AList TransactionMeta) (addrAccount : Accounts)
    (latest : LatestVersions) :
    Except String Process :=
  if (env.error .hasBlock).isSome || (p.db (Key.block blk.slot).bytes).isNone then
    .error s!"block at slot {blk.slot} does not exist"
  else match latest.entries.find? (fun e => (hexDecode e.2).isNone) with
    | some e => .error ("failed to decode txHash " ++ e.2)
    | none =>
      match env.error .write with
      | some err => .error ("failed to write batch: " ++ err)
      | none => .ok { p with
          db := KeySpace.writeBatch p.db
            (env.arrange (finalizedPuts p blk txMetas addrAccount latest))
          latestFinalized := blk.slot }

/-- **Apply a block.** `none` is a process that stopped. -/
def finalizeBlock (env : Environment) (p : Process) (b : Block) (isListener : Bool) :
    Option (Process × Except String Unit) :=
  if b.invalidPoH then some (p, .ok ())
  else match getTxBatch env .blockTxs p.db b.txHashes with
  | .error err =>
    some (p, .error (s!"failed to get transactions for block {b.slot}: " ++ err))
  | .ok txs =>
    match getAccountBatch env p.db (accAddrs txs) with
    | .error err =>
      some (p, .error (s!"failed to get accounts for block {b.slot}: " ++ err))
    | .ok state =>
      match runTxs b isListener (.start state p.tracker) txs with
      | none => none
      | some r =>
        let p := { p with tracker := r.tracker }
        match getTxBatch env .relatedTxs p.db r.relatedContentHashes with
        | .error err => some (p, .error
            (s!"failed to get parent transaction contents for block {b.slot}: "
              ++ err))
        | .ok relatedTxs =>
          match getBatchLatestVersionContentHash env p.db r.rootContentHashes with
          | .error err => some (p, .error
              (s!"failed to get latest version content hashes for block {b.slot}: "
                ++ err))
          | .ok latest =>
            let contents := r.txContents.foldl (runContent b (indexByHash relatedTxs))
              (r.txMetas, latest)
            match storeFinalizeBlock env p b contents.1 r.state contents.2 with
            | .error err => some (p, .error ("finalized block error: " ++ err))
            | .ok p => some (p, .ok ())

/-! ## How a call ends -/

section

variable {env : Environment} {p p' : Process} {b : Block} {isListener : Bool}

omit [Primitives] in
/-- A batch read of transactions fails, or reads what is there. -/
theorem getTxBatch_eq (env : Environment) (call : DbCall) (db : Database)
    (txHashes : List String) :
    (∃ err, txHashes ≠ [] ∧ (env.error call).isSome = true ∧
        getTxBatch env call db txHashes = .error err) ∨
      (¬(txHashes ≠ [] ∧ (env.error call).isSome = true) ∧
        getTxBatch env call db txHashes = .ok (txHashes.filterMap db.tx)) := by
  unfold getTxBatch
  split
  · next hnil => exact Or.inr ⟨fun h => h.1 hnil, by rw [hnil, List.filterMap_nil]⟩
  next hne =>
  cases env.error call with
  | some err => exact Or.inl ⟨_, hne, rfl, rfl⟩
  | none => exact Or.inr ⟨fun h => Bool.false_ne_true h.2, rfl⟩

omit [Primitives] in
theorem getAccountBatch_eq (env : Environment) (db : Database) (addrs : List String) :
    (∃ err, addrs ≠ [] ∧ (env.error .accounts).isSome = true ∧
        getAccountBatch env db addrs = .error err) ∨
      (¬(addrs ≠ [] ∧ (env.error .accounts).isSome = true) ∧
        getAccountBatch env db addrs = .ok (AList.loadAll addrs db.account)) := by
  unfold getAccountBatch
  split
  · next hnil => exact Or.inr ⟨fun h => h.1 hnil, by rw [hnil]; rfl⟩
  next hne =>
  cases env.error .accounts with
  | some err => exact Or.inl ⟨_, hne, rfl, rfl⟩
  | none => exact Or.inr ⟨fun h => Bool.false_ne_true h.2, rfl⟩

omit [Primitives] [Codec] in
theorem getBatchLatestVersionContentHash_eq_ok {env : Environment} {db : Database}
    {rootHashes : List String} {latest : LatestVersions}
    (h : getBatchLatestVersionContentHash env db rootHashes = .ok latest) :
    latest = AList.loadAll rootHashes db.latestVersion := by
  unfold getBatchLatestVersionContentHash at h
  split at h
  · next hnil =>
    cases h
    rw [hnil]
    rfl
  split at h
  · cases h
  · cases h
    rfl

omit [Primitives] in
/-- The batch is written whole, or not at all. -/
theorem storeFinalizeBlock_eq_ok {txMetas : AList TransactionMeta}
    {accounts : Accounts} {latest : LatestVersions}
    (h : storeFinalizeBlock env p b txMetas accounts latest = .ok p') :
    p' = { p with
      db := KeySpace.writeBatch p.db
        (env.arrange (finalizedPuts p b txMetas accounts latest))
      latestFinalized := b.slot } := by
  unfold storeFinalizeBlock at h
  split at h
  · cases h
  split at h
  · cases h
  split at h
  · cases h
  · cases h
    rfl

/-- **One of the two reads before the loop fails.** -/
def FailsEarly (env : Environment) (db : Database) (b : Block) : Prop :=
  (b.txHashes ≠ [] ∧ (env.error .blockTxs).isSome = true) ∨
    (accAddrs (db.txsInBlock b) ≠ [] ∧ (env.error .accounts).isSome = true)

/-- The loop over the transactions of a block, from the accounts it loads. -/
def blockRun (p : Process) (b : Block) (isListener : Bool) : Option Progress :=
  runTxs b isListener
    (.start (AList.loadAll (accAddrs (p.db.txsInBlock b)) p.db.account) p.tracker)
    (p.db.txsInBlock b)

/-- The meta records and latest versions once the contents are checked. -/
def checkContents (db : Database) (b : Block) (r : Progress) :
    AList TransactionMeta × LatestVersions :=
  r.txContents.foldl
    (runContent b (indexByHash (r.relatedContentHashes.filterMap db.tx)))
    (r.txMetas, AList.loadAll r.rootContentHashes db.latestVersion)

/-- **How a call ends**: the block is skipped, it fails before the loop and
nothing is done, or the loop runs and the tracker is told; then it fails, or
one batch is written. -/
theorem finalizeBlock_cases {res : Except String Unit}
    (h : finalizeBlock env p b isListener = some (p', res)) :
    (p' = p ∧ res = .ok ()) ∨
      (FailsEarly env p.db b ∧ p' = p ∧ ∃ err, res = .error err) ∨
      (¬FailsEarly env p.db b ∧ ∃ r, blockRun p b isListener = some r ∧
        ((p' = { p with tracker := r.tracker } ∧ ∃ err, res = .error err) ∨
          (p' = { db := KeySpace.writeBatch p.db (env.arrange (finalizedPuts p b
                    (checkContents p.db b r).1 r.state (checkContents p.db b r).2))
                  latestFinalized := b.slot
                  tracker := r.tracker } ∧ res = .ok ()))) := by
  unfold finalizeBlock at h
  split at h
  · cases h
    exact Or.inl ⟨rfl, rfl⟩
  obtain ⟨err, hne, hfails, herr⟩ | ⟨htxs, hok⟩ :=
    getTxBatch_eq env .blockTxs p.db b.txHashes
  · rw [herr] at h
    cases h
    exact Or.inr (Or.inl ⟨Or.inl ⟨hne, hfails⟩, rfl, _, rfl⟩)
  rw [hok] at h
  dsimp only at h
  obtain ⟨err, hne, hfails, herr⟩ | ⟨haccounts, hok⟩ :=
    getAccountBatch_eq env p.db (accAddrs (p.db.txsInBlock b))
  · unfold Database.txsInBlock at herr
    rw [herr] at h
    cases h
    exact Or.inr (Or.inl ⟨Or.inr ⟨hne, hfails⟩, rfl, _, rfl⟩)
  refine Or.inr (Or.inr ⟨fun hearly => hearly.elim htxs haccounts, ?_⟩)
  unfold Database.txsInBlock at hok
  rw [hok] at h
  dsimp only at h
  split at h
  · cases h
  next r hrun =>
  refine ⟨r, hrun, ?_⟩
  obtain ⟨err, -, -, herr⟩ | ⟨-, hok⟩ :=
    getTxBatch_eq env .relatedTxs p.db r.relatedContentHashes
  · rw [herr] at h
    cases h
    exact Or.inl ⟨rfl, _, rfl⟩
  rw [hok] at h
  dsimp only at h
  split at h
  · cases h
    exact Or.inl ⟨rfl, _, rfl⟩
  next latest hlatest =>
  rw [getBatchLatestVersionContentHash_eq_ok hlatest] at h
  split at h
  · cases h
    exact Or.inl ⟨rfl, _, rfl⟩
  next p₂ hstore =>
  cases h
  exact Or.inr ⟨storeFinalizeBlock_eq_ok hstore, rfl⟩

end

end Raw

end

end Mmn
