import Mmn.Store

/-!
# The ledger

`Ledger.finalizeBlock` applies a block: it reads the block's transactions
from the store by hash, loads the accounts they touch, runs the transfers
one after the other on the loaded accounts, checks the user content, and
writes everything back in one batch together with the marker of the slot.

A failing transfer does not stop the block. It leaves a meta record that
says why, and it may still have created the accounts it names. Running the
transactions (`executeBlock`) reads the store only through the transactions
of the block, the accounts of its transfers and the latest versions of its
contents; that is what makes two blocks independent when these are disjoint.
-/

namespace Mmn

variable [Primitives]

/-! ## Applying one transfer -/

/-- The accounts loaded for a block, by address. -/
abbrev LedgerState : Type := AList Account

namespace LedgerState

/-- The account of an address; an empty one when there is none. -/
def account (state : LedgerState) (addr : String) : Account addr :=
  (state.lookup addr).getD { balance := 0, nonce := 0 }

/-- The balance of an address. -/
def balance (state : LedgerState) (addr : String) : BitVec 256 :=
  (state.account addr).balance

/-- Create the account of an address unless it is there. -/
def touch (state : LedgerState) (addr : String) : LedgerState :=
  if addr ∈ state then state else state.insert addr { balance := 0, nonce := 0 }

/-- Take an amount from an account, in machine words. -/
def debit (state : LedgerState) (addr : String) (amount : BitVec 256) : LedgerState :=
  state.insert addr { state.account addr with balance := state.balance addr - amount }

/-- Give an amount to an account, in machine words. -/
def credit (state : LedgerState) (addr : String) (amount : BitVec 256) :
    LedgerState :=
  state.insert addr { state.account addr with balance := state.balance addr + amount }

/-- Set the nonce of an account. -/
def setNonce (state : LedgerState) (addr : String) (nonce : UInt64) : LedgerState :=
  state.insert addr { state.account addr with nonce := nonce }

end LedgerState

/-- **Apply one transfer to the loaded accounts.** Missing accounts are
created before the balance is checked. The sender and the recipient may be
the same account; the credit then finds the debited balance. -/
def applyTx (state : LedgerState) (tx : Transaction) :
    LedgerState × Except String Unit :=
  match tx.amount with
  | none => (state, .error "transaction amount cannot be nil")
  | some amount =>
    let state := (state.touch tx.sender).touch tx.recipient
    if state.balance tx.sender < amount then (state, .error "insufficient balance")
    else
      let state := state.debit tx.sender amount
      let state := state.credit tx.recipient amount
      (state.setNonce tx.sender tx.nonce, .ok ())

/-- A call of `applyTx`: the accounts it finds and the transfer. -/
structure ApplyCall where
  state : LedgerState
  tx : Transaction

namespace ApplyCall

/-- The accounts after the call. -/
def after (c : ApplyCall) : LedgerState := (applyTx c.state c.tx).1

/-- Did the transfer go through? -/
def succeeds (c : ApplyCall) : Bool := (applyTx c.state c.tx).2.isOk

/-- Did the call decrease some account's balance? -/
def Debits (c : ApplyCall) : Prop :=
  ∃ addr, c.after.balance addr < c.state.balance addr

end ApplyCall

/-! ## User content -/

/-- Is the character white space? -/
def isSpace (c : Char) : Bool :=
  c.toNat ∈ [0x09, 0x0A, 0x0B, 0x0C, 0x0D, 0x20, 0x85, 0xA0, 0x1680, 0x2028, 0x2029,
    0x202F, 0x205F, 0x3000] || (0x2000 ≤ c.toNat && c.toNat ≤ 0x200A)

/-- Is the text empty once white space is trimmed? -/
def isBlank (s : String) : Bool := s.toList.all isSpace

/-- The most transactions a piece of content may refer to. -/
abbrev maxReferenceTxs : ℕ := 10

/-- Does the recipient of content of this type have to be an address? -/
def shouldValidateAddress (extraInfoType : String) : Bool :=
  extraInfoType = "donation-campaign-feed"

/-- Is the text the base58 form of a curve point? -/
def validateTxAddress (addr : String) : Bool :=
  match base58ToEd25519 addr with
  | some pubKey => edwards25519Point pubKey
  | none => false

/-- The map from the root of a piece of content to its latest version. -/
abbrev LatestVersions : Type := AList (fun _ : String => String)

/-- **Check a piece of user content** against the transactions it refers to
and the latest versions, and record it as the latest version of its root. -/
def validateUserContent (tx : Transaction)
    (hashRelatedContentTx : AList (fun _ : String => Transaction))
    (latest : LatestVersions) : LatestVersions × Except String Unit :=
  let content := (unmarshalUserContent tx.extraInfo).getD UserContent.empty
  let txHash := Transaction.hash (some tx)
  if isBlank content.type || isBlank content.title || isBlank content.description then
    (latest, .error "user content required fields are missing")
  else if shouldValidateAddress content.type && !validateTxAddress tx.recipient then
    (latest, .error "transaction address is invalid")
  else if content.referenceTxHashes.length > maxReferenceTxs then
    (latest, .error "user content data is invalid")
  else if !content.referenceTxHashes.all (fun h => decide (h ∈ hashRelatedContentTx))
    then
    (latest, .error "user content data is invalid")
  else if content.parentHash = "" ∧ content.rootHash = "" then
    (latest.insert txHash txHash, .ok ())
  else if content.parentHash = "" ∨ content.rootHash = "" then
    (latest, .error "user content data is invalid")
  else match hashRelatedContentTx.lookup content.parentHash with
    | none => (latest, .error "parent user content not found")
    | some parent =>
      if parent.type ≠ txTypeUserContent ∨ parent.sender ≠ tx.sender
          ∨ parent.recipient ≠ tx.recipient then
        (latest, .error "user content data is invalid")
      else match latest.lookup content.rootHash with
        | none => (latest, .error "latest version user content not found")
        | some latestHash =>
          if latestHash ≠ content.parentHash then
            (latest, .error "parent user content is not the latest version")
          else (latest.insert content.rootHash txHash, .ok ())

/-! ## Running the transactions of a block -/

/-- Add an element to a list unless it is there. -/
def addOnce (l : List String) (a : String) : List String :=
  if a ∈ l then l else l ++ [a]

/-- The hashes of the transactions of a stored block that are applied: those
of the entries that are not marked as ticks. -/
def Block.txHashes (b : Block) : List String :=
  (b.entries.filter (fun e => !e.tick)).flatMap PersistentEntry.txHashes

/-- The transactions of a stored block, as the store has them. -/
def Store.txsInBlock (s : Store) (b : Block) : List Transaction :=
  s.getTxBatch b.txHashes

/-- The addresses the transfers of a list name, each once. -/
def accAddrs (txs : List Transaction) : List String :=
  txs.foldl (fun addrs tx =>
    if tx.type = txTypeUserContent then addrs
    else addOnce (addOnce addrs tx.sender) tx.recipient) []

/-- What the loop over a block's transactions accumulates. -/
structure BlockRun where
  state : LedgerState
  txMetas : AList TransactionMeta
  txContents : List Transaction
  relatedContentHashes : List String
  rootContentHashes : List String

/-- **One transaction of a block.** A transfer is applied at once; a piece
of content is only set aside, with what it refers to. -/
def runTx (b : Block) (r : BlockRun) (tx : Transaction) : BlockRun :=
  let note (status : TxStatus) (err : String) : AList TransactionMeta :=
    r.txMetas.insert (Transaction.hash (some tx))
      (newTxMeta (some tx) b.slot b.hashString status err)
  if tx.type = txTypeUserContent then
    match unmarshalUserContent tx.extraInfo with
    | none => { r with txMetas := note .failed "User content data is invalid" }
    | some content => { r with
        txContents := r.txContents ++ [tx]
        relatedContentHashes := content.referenceTxHashes.foldl addOnce
          (if content.parentHash = "" then r.relatedContentHashes
            else addOnce r.relatedContentHashes content.parentHash)
        rootContentHashes := if content.rootHash = "" then r.rootContentHashes
          else addOnce r.rootContentHashes content.rootHash }
  else match applyTx r.state tx with
    | (state, .error err) => { r with state := state, txMetas := note .failed err }
    | (state, .ok ()) => { r with state := state, txMetas := note .success "" }

/-- The loop over the transactions, from the accounts loaded for them. -/
def runTxs (b : Block) (state : LedgerState) (txs : List Transaction) : BlockRun :=
  txs.foldl (runTx b)
    { state := state, txMetas := ∅, txContents := [], relatedContentHashes := [],
      rootContentHashes := [] }

/-- One piece of content, after the loop. -/
def runContent (b : Block) (related : AList (fun _ : String => Transaction))
    (r : AList TransactionMeta × LatestVersions) (tx : Transaction) :
    AList TransactionMeta × LatestVersions :=
  let note (status : TxStatus) (err : String) : AList TransactionMeta :=
    r.1.insert (Transaction.hash (some tx))
      (newTxMeta (some tx) b.slot b.hashString status err)
  match validateUserContent tx related r.2 with
  | (latest, .error err) => (note .failed err, latest)
  | (latest, .ok ()) => (note .success "", latest)

/-- Transactions under their own hashes. -/
def indexByHash (txs : List Transaction) : AList (fun _ : String => Transaction) :=
  txs.foldl (fun m tx => m.insert (Transaction.hash (some tx)) tx) ∅

/-- What applying a block writes. -/
structure BlockEffects where
  txMetas : AList TransactionMeta
  state : LedgerState
  latest : LatestVersions

/-- **Run a block's transactions** on what the store holds. -/
def Store.executeBlock (s : Store) (b : Block) : BlockEffects :=
  let txs := s.txsInBlock b
  let r := runTxs b (s.getAccountBatch (accAddrs txs)) txs
  let related := indexByHash (s.getTxBatch r.relatedContentHashes)
  let latest := s.getBatchLatestVersionContentHash r.rootContentHashes
  let contents := r.txContents.foldl (runContent b related) (r.txMetas, latest)
  { txMetas := contents.1, state := r.state, latest := contents.2 }

/-- The calls of `applyTx` made for a list of transactions, in order. -/
def applyCallsFrom : LedgerState → List Transaction → List ApplyCall
  | _, [] => []
  | state, tx :: txs =>
    if tx.type = txTypeUserContent then applyCallsFrom state txs
    else ⟨state, tx⟩ :: applyCallsFrom (applyTx state tx).1 txs

/-- The calls of `applyTx` made when a block is applied to the store. -/
def Store.applyCalls (s : Store) (b : Block) : List ApplyCall :=
  if b.invalidPoH then []
  else applyCallsFrom (s.getAccountBatch (accAddrs (s.txsInBlock b))) (s.txsInBlock b)

/-! ## The ledger -/

namespace Ledger

/-- A genesis allocation. The source holds the amount by a pointer; an
allocation without an amount is not modelled. -/
structure Address where
  address : String
  amount : BitVec 256

/-- Create an account, unless it exists. -/
def createAccountWithoutLocking (s : Store) (addr : String) (balance : BitVec 256) :
    Except String Store :=
  if addr ∈ s.accounts then .error "account existed"
  else .ok
    { s with accounts := s.accounts.insert addr { balance := balance, nonce := 0 } }

/-- **Create the genesis accounts**, stopping at the first that exists. -/
def createAccountsFromGenesis : Store → List Address → Except String Store
  | s, [] => .ok s
  | s, a :: addrs =>
    match createAccountWithoutLocking s a.address a.amount with
    | .error err =>
      .error ("could not create genesis account " ++ a.address ++ ": " ++ err)
    | .ok s => createAccountsFromGenesis s addrs

/-- Take the transactions of a list off the tracker. -/
def removeTransactions :
    TransactionTracker → List Transaction → Option TransactionTracker
  | t, [] => some t
  | t, tx :: txs =>
    match t.removeTransaction (Transaction.hash (some tx)) with
    | none => none
    | some t => removeTransactions t txs

/-- **Apply a block.** A block whose entries did not follow is skipped
without an error. The tracker is told of every transaction, also when the
final write then fails; `none` is a process that stopped. -/
def finalizeBlock (s : Store) (t : TransactionTracker) (b : Block)
    (isListener : Bool) :
    Option (Store × TransactionTracker × Except String Unit) :=
  if b.invalidPoH then some (s, t, .ok ())
  else
    let e := s.executeBlock b
    match (if isListener then some t else removeTransactions t (s.txsInBlock b)) with
    | none => none
    | some t =>
      match s.finalizeBlock b e.txMetas e.state e.latest with
      | .error err => some (s, t, .error ("finalized block error: " ++ err))
      | .ok s => some (s, t, .ok ())

end Ledger

end Mmn
