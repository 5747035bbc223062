import Mmn.Encoding
import Mathlib.Data.List.AList

/-!
# Transactions

A transaction moves an amount between two accounts or publishes a piece of
user content. It reaches a node in a peer's message, so nothing in it can be
relied on: amounts may be missing, texts may be anything, and what makes a
transaction one its sender agreed to is `Transaction.verify` alone.

A transaction has two identities. `Transaction.hash` covers every field and
names the transaction in the stores; `Transaction.dedupHash` covers only the
signed fields and is what replays are recognised by. Two transactions can
share the second and differ in the first – a timestamp, a signature or a
proof is enough.

The library functions the node takes as given are collected in the class
`Primitives`: SHA-256, ed25519, the zero-knowledge verifier and the parsers
of JSON. What is assumed of them is about lengths – a signature has
sixty-four bytes, decoded bytes are not longer than the JSON they were in –
and nothing about security; a result that needs more says so where it is
stated.
-/

namespace Mmn

/-- A 32-byte digest. -/
abbrev Hash : Type := List.Vector UInt8 32

/-- The digest of zeros, which stands for "no hash". -/
def zeroHash : Hash := List.Vector.replicate 32 0

/-- The kind of a transaction on the wire. -/
abbrev txTypeTransferByZk : Int32 := 0

@[inherit_doc txTypeTransferByZk]
abbrev txTypeTransferByKey : Int32 := 1

@[inherit_doc txTypeTransferByZk]
abbrev txTypeUserContent : Int32 := 2

/-- A transaction, as decoded from a message or from the store. -/
structure Transaction where
  /-- One of the three transaction types; any other value is handled as a
  transfer by zero-knowledge proof. -/
  type : Int32
  /-- The account debited. -/
  sender : String
  /-- The account credited. -/
  recipient : String
  /-- The amount moved. A message may leave it out. -/
  amount : Option (BitVec 256)
  /-- Unix milliseconds, not signed. -/
  timestamp : UInt64
  /-- The memo. -/
  textData : String
  /-- The slot the transaction was made for. -/
  nonce : UInt64
  /-- Base58 text of the signature. -/
  signature : String
  /-- Free-form data; the content of a user-content transaction. -/
  extraInfo : String
  /-- Base64 text of the zero-knowledge proof. -/
  zkProof : String
  /-- Base64 text of the proof's public input. -/
  zkPub : String
deriving DecidableEq

/-- The transaction with every field absent, which is what a stored JSON
`null` reads back as. -/
def Transaction.zero : Transaction :=
  { type := 0, sender := "", recipient := "", amount := none, timestamp := 0,
    textData := "", nonce := 0, signature := "", extraInfo := "", zkProof := "",
    zkPub := "" }

/-- The signature of a zero-knowledge transfer: an ephemeral key and a
signature by it. -/
structure UserSig where
  /-- The ephemeral public key. -/
  pubKey : Bytes
  /-- The signature by that key. -/
  sig : Bytes

/-- The content of a user-content transaction. -/
structure UserContent where
  /-- What the content is. -/
  type : String
  /-- Its title. -/
  title : String
  /-- Its description. -/
  description : String
  /-- The hash of the version it replaces; empty for a first version. -/
  parentHash : String
  /-- The hash of the first version; empty for a first version. -/
  rootHash : String
  /-- The transactions it refers to. -/
  referenceTxHashes : List String

/-- What an undecodable text reads as where the error is ignored. -/
def UserContent.empty : UserContent :=
  { type := "", title := "", description := "", parentHash := "", rootHash := "",
    referenceTxHashes := [] }

/-- **The library functions the node takes as given.** -/
class Primitives where
  /-- SHA-256. -/
  sha256 : Bytes → Hash
  /-- Does a public key accept a signature of a message? -/
  ed25519Verify : Bytes → Bytes → Bytes → Bool
  /-- The signature of a message by a private key. -/
  ed25519Sign : Bytes → Bytes → Bytes
  /-- The zero-knowledge verifier, on sender, public key, proof and public
  input. -/
  zkVerify : String → String → String → String → Bool
  /-- Do 32 bytes encode a point of the curve? -/
  edwards25519Point : Bytes → Bool
  /-- JSON of what a vote signs: slot, block hash and voter. -/
  marshalVote : UInt64 → Hash → String → Bytes
  /-- The signature of a zero-knowledge transfer, from its JSON. -/
  unmarshalUserSig : Bytes → Option UserSig
  /-- User content, from its JSON. -/
  unmarshalUserContent : String → Option UserContent
  /-- What is accepted as a signature has sixty-four bytes. -/
  ed25519Verify_length : ∀ pub msg sig, ed25519Verify pub msg sig = true →
    sig.length = 64
  /-- The two byte strings of a signature are written out in its JSON. -/
  unmarshalUserSig_length : ∀ bs userSig, unmarshalUserSig bs = some userSig →
    userSig.pubKey.length + userSig.sig.length ≤ bs.length

export Primitives (sha256 ed25519Verify ed25519Sign zkVerify edwards25519Point
  marshalVote unmarshalUserSig unmarshalUserContent)

variable [Primitives]

/-- The key a base58 identifier stands for: thirty-two bytes. -/
def base58ToEd25519 (addr : String) : Option Bytes :=
  match Base58.decode addr with
  | some b => if b.length = 32 then some b else none
  | none => none

namespace Transaction

/-- The longest signature text accepted. -/
abbrev maxSignatureBase58Len : ℕ := 2048

/-- The longest decoded signature accepted. -/
abbrev maxSignatureDecodedLen : ℕ := 4096

/-- The longest proof text accepted. -/
abbrev maxZkProofLen : ℕ := 1024

/-- The longest public-input text accepted. -/
abbrev maxZkPubLen : ℕ := 1024

/-- The amount as text; a missing amount reads as zero. -/
def uint256ToString (value : Option (BitVec 256)) : String :=
  match value with
  | none => "0"
  | some v => toString v.toNat

/-- **The signed bytes**: seven of the fields, joined by bars. -/
def serialize (tx : Transaction) : Bytes :=
  textBytes (toString tx.type.toInt ++ "|" ++ tx.sender ++ "|" ++ tx.recipient
    ++ "|" ++ uint256ToString tx.amount ++ "|" ++ tx.textData ++ "|"
    ++ toString tx.nonce.toNat ++ "|" ++ tx.extraInfo)

/-- **Did the sender agree to this transaction?** A transfer by key carries
its sender's signature. Every other transaction carries a signature by an
ephemeral key and a proof that the sender's identity goes with that key. -/
def verify (tx : Transaction) : Bool :=
  if tx.signature = "" then false
  else if tx.signature.utf8ByteSize > maxSignatureBase58Len then false
  else match Base58.decode tx.signature with
    | none => false
    | some signature =>
      if signature.length > maxSignatureDecodedLen then false
      else if tx.type = txTypeTransferByKey then
        match base58ToEd25519 tx.sender with
        | none => false
        | some pub => ed25519Verify pub tx.serialize signature
      else if tx.zkProof = "" ∨ tx.zkPub = "" then false
      else if tx.zkProof.utf8ByteSize > maxZkProofLen
          ∨ tx.zkPub.utf8ByteSize > maxZkPubLen then false
      else match unmarshalUserSig signature with
        | none => false
        | some userSig =>
          if userSig.pubKey.length = 0 ∨ userSig.sig.length = 0 then false
          else if userSig.pubKey.length ≠ 32 then false
          else if !ed25519Verify userSig.pubKey tx.serialize userSig.sig then false
          else zkVerify tx.sender (Base58.encode userSig.pubKey) tx.zkProof tx.zkPub

/-- JSON of an amount: decimal digits in quotes. -/
def amountJson (amount : Option (BitVec 256)) : String :=
  match amount with
  | none => "null"
  | some v => "\"" ++ toString v.toNat ++ "\""

/-- The members of a transaction's JSON that are always there. -/
def jsonRequired (tx : Transaction) : List (String × String) :=
  [("type", toString tx.type.toInt), ("sender", Json.string tx.sender),
    ("recipient", Json.string tx.recipient), ("amount", amountJson tx.amount),
    ("timestamp", toString tx.timestamp.toNat),
    ("text_data", Json.string tx.textData)]

/-- The members that are left out when they are empty. -/
def jsonOptional (tx : Transaction) : List (String × String) :=
  (if tx.nonce = 0 then [] else [("nonce", toString tx.nonce.toNat)])
    ++ Json.omitEmpty "signature" tx.signature ++ Json.omitEmpty "extra_info"
      tx.extraInfo
    ++ Json.omitEmpty "zk_proof" tx.zkProof ++ Json.omitEmpty "zk_pub" tx.zkPub

/-- JSON of a transaction. -/
def json (tx : Transaction) :
    String := Json.object (tx.jsonRequired ++ tx.jsonOptional)

/-- JSON of a transaction pointer; a null pointer has JSON too. -/
def bytes (tx : Option Transaction) : Bytes :=
  match tx with
  | none => textBytes "null"
  | some tx => textBytes tx.json

/-- **The name of a transaction in the stores.** It is defined on pointers:
a null transaction has a hash too. -/
def hash (tx : Option Transaction) : String :=
  hexEncode (sha256 (bytes tx)).toList

/-- **What replays are recognised by**: the hash of the signed bytes. -/
def dedupHash (tx : Transaction) : String :=
  Base58.encode (sha256 tx.serialize).toList

/-! ### The size of a transaction -/

omit [Primitives] in
/-- The JSON of a signed transaction holds its sender and its signature, and
eighty bytes of other text at least. -/
theorem length_json {tx : Transaction} (h : tx.signature ≠ "") :
    80 + tx.sender.utf8ByteSize + tx.signature.utf8ByteSize
      ≤ tx.json.utf8ByteSize := by
  have hobject := Json.utf8ByteSize_object (tx.jsonRequired ++ tx.jsonOptional)
  rw [List.map_append, List.sum_append] at hobject
  have hrequired : 67 + tx.sender.utf8ByteSize
      ≤ (tx.jsonRequired.map
        (fun m => m.1.utf8ByteSize + m.2.utf8ByteSize + 3)).sum := by
    have hsender := Json.utf8ByteSize_string tx.sender
    have hrecipient := Json.utf8ByteSize_string tx.recipient
    have htext := Json.utf8ByteSize_string tx.textData
    have hnames : "type".utf8ByteSize = 4 ∧ "sender".utf8ByteSize = 6 ∧
        "recipient".utf8ByteSize = 9 ∧ "amount".utf8ByteSize = 6 ∧
        "timestamp".utf8ByteSize = 9 ∧ "text_data".utf8ByteSize = 9 := by
          decide +kernel
    unfold jsonRequired
    simp only [List.map_cons, List.map_nil, List.sum_cons, List.sum_nil, hnames]
    omega
  have hoptional : 14 + tx.signature.utf8ByteSize
      ≤ (tx.jsonOptional.map
        (fun m => m.1.utf8ByteSize + m.2.utf8ByteSize + 3)).sum := by
    have hsignature := Json.utf8ByteSize_string tx.signature
    have hname : "signature".utf8ByteSize = 9 := by decide +kernel
    have hmember : Json.omitEmpty "signature" tx.signature
        = [("signature", Json.string tx.signature)] := if_neg h
    unfold jsonOptional
    simp only [hmember, List.map_append, List.sum_append, List.map_cons, List.map_nil,
      List.sum_cons, List.sum_nil, hname]
    omega
  exact le_trans (by omega) hobject

omit [Primitives] in
/-- A text is no shorter than the bytes it stands for. -/
theorem length_le_of_decode {s : String} {bs : Bytes}
    (h : Base58.decode s = some bs) :
    bs.length ≤ s.utf8ByteSize := by
  have hlength := (Base58.length_of_decode h).1
  rwa [length_textBytes] at hlength

omit [Primitives] in
/-- A text that names a key has thirty-two bytes at least. -/
theorem size_of_base58ToEd25519 {s : String} {pub : Bytes}
    (h : base58ToEd25519 s = some pub) :
    32 ≤ s.utf8ByteSize := by
  unfold base58ToEd25519 at h
  split at h
  · next b hdecode =>
    split at h
    · next h32 => exact h32 ▸ length_le_of_decode hdecode
    · cases h
  · cases h

/-- **A transaction that verifies is large**: whoever signed it, its JSON
has more than 174 bytes. A transfer by key names a key of thirty-two bytes
and carries a signature of sixty-four; every other transaction carries both
in its signature. -/
theorem length_of_verify {tx : Transaction} (h : tx.verify = true) :
    174 < (bytes (some tx)).length := by
  unfold verify at h
  split at h
  · cases h
  next hne =>
  have hjson := length_json hne
  have hbytes : (bytes (some tx)).length = tx.json.utf8ByteSize :=
    length_textBytes tx.json
  rw [hbytes]
  split at h
  · cases h
  split at h
  · cases h
  next signature hdec =>
  have hsig := length_le_of_decode hdec
  split at h
  · cases h
  split at h
  · split at h
    · cases h
    · next pub hpub =>
      have h64 := Primitives.ed25519Verify_length _ _ _ h
      have hsender := size_of_base58ToEd25519 hpub
      omega
  · split at h
    · cases h
    split at h
    · cases h
    split at h
    · cases h
    next userSig husig =>
    have hparts := Primitives.unmarshalUserSig_length _ _ husig
    split at h
    · cases h
    split at h
    · cases h
    next hpub =>
    split at h
    · cases h
    next hverify =>
    have h64 := Primitives.ed25519Verify_length _ _ _ (by simpa using hverify)
    omega

end Transaction

/-! ## The tracker of transactions in flight -/

/-- Transactions between the mempool and the ledger: pulled by the leader,
not yet applied. -/
structure TransactionTracker where
  /-- The transactions in flight, by hash. -/
  processingTxs : AList (fun _ : String => Transaction)
  /-- How many there are. -/
  processingCount : ℤ
  /-- Hashes removed before they were tracked. -/
  removedTxCache : Finset String

namespace TransactionTracker

/-- The tracker of a fresh process. -/
def new : TransactionTracker :=
  { processingTxs := ∅, processingCount := 0, removedTxCache := ∅ }

/-- The first eight bytes of the sender go to the log; a shorter sender
makes the process stop. -/
def logsSender (tx : Transaction) : Bool := 8 ≤ tx.sender.utf8ByteSize

/-- Start tracking a transaction. A hash that was removed first is only
taken off the removed cache. -/
def trackProcessingTransaction (t : TransactionTracker) (tx : Transaction) :
    Option TransactionTracker :=
  let txHash := Transaction.hash (some tx)
  if txHash ∈ t.removedTxCache then
    some { t with removedTxCache := t.removedTxCache.erase txHash }
  else if logsSender tx then
    match t.processingTxs.lookup txHash with
    | some _ => some t
    | none => some { t with
        processingTxs := t.processingTxs.insert txHash tx
        processingCount := t.processingCount + 1 }
  else none

/-- Stop tracking a transaction. -/
def removeTransaction (t : TransactionTracker) (txHash : String) :
    Option TransactionTracker :=
  match t.processingTxs.lookup txHash with
  | none => some { t with removedTxCache := insert txHash t.removedTxCache }
  | some tx =>
    if logsSender tx then
      some { t with
        processingTxs := t.processingTxs.erase txHash
        processingCount := t.processingCount - 1 }
    else none

end TransactionTracker

end Mmn
