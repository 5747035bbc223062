import Mmn.Poh

/-!
# Blocks

A block travels as a `BroadcastedBlock`, with its transactions, and is
stored as a `Block`, with their hashes. Both carry the same `BlockCore`: the
slot, the leader, the hash the block continues from, its own hash and the
leader's signature.

Three functions meet in a block's hash. `assembleBlock` computes it from the
slot, the previous hash, the leader, the time and the entry hashes;
`BroadcastedBlock.sign` signs it; `BroadcastedBlock.verifySignature` checks
the signature against the hash *the message carries*.
-/

namespace Mmn

/-- Has a stored block been applied? -/
inductive BlockStatus where
  | pending
  | finalized
deriving DecidableEq

/-- What both forms of a block have. -/
structure BlockCore where
  slot : UInt64
  /-- Hash of the last entry in the previous block, as the block declares
  it. -/
  prevHash : Hash
  leaderID : String
  /-- Unix nanoseconds. -/
  timestamp : UInt64
  hash : Hash
  signature : Bytes
  status : BlockStatus
  /-- Were the entries found not to follow from the previous hash? A message
  carries the flag too. -/
  invalidPoH : Bool
deriving DecidableEq

/-- A block as it is stored. -/
structure Block extends BlockCore where
  entries : List PersistentEntry
deriving DecidableEq

/-- A block as it is broadcast. -/
structure BroadcastedBlock extends BlockCore where
  entries : List Entry
deriving DecidableEq

/-- The block's hash as text. -/
def BlockCore.hashString (b : BlockCore) : String := hexEncode b.hash.toList

/-- The hash of a stored block's last entry; zeros when it has none. -/
def Block.lastEntryHash (b : Block) : Hash :=
  match b.entries.getLast? with
  | some e => e.hash
  | none => zeroHash

/-- The public key an identifier stands for: thirty-two bytes in base58. The
name of the identifier goes into the errors. -/
def getPublicKeyFromID (name id : String) : Except String Bytes :=
  if id = "" then .error (name ++ " cannot be empty")
  else match Base58.decode id with
    | none =>
      .error ("failed to decode " ++ name ++ ": failed to decode base58 string: "
        ++ Base58.decodeError id)
    | some b =>
      if b.length ≠ 32 then
        .error ("invalid " ++ name ++ " length: expected 32, got "
          ++ toString b.length)
      else .ok b

/-- The public key of a leader. -/
def getPublicKeyFromLeaderID (leaderID : String) : Except String Bytes :=
  getPublicKeyFromID "leader ID" leaderID

/-- An identifier with a public key decodes to thirty-two bytes. -/
theorem decode_of_getPublicKeyFromID {name id : String} {key : Bytes}
    (h : getPublicKeyFromID name id = .ok key) :
    Base58.decode id = some key ∧ key.length = 32 := by
  unfold getPublicKeyFromID at h
  split at h
  · cases h
  · split at h
    · cases h
    · next b hdec =>
      split at h
      · cases h
      · next hlen =>
        cases h
        exact ⟨hdec, not_not.mp hlen⟩

variable [Primitives]

namespace BroadcastedBlock

/-- The hash of a block's last entry; zeros when it has none. -/
def lastEntryHash (b : BroadcastedBlock) : Hash :=
  match b.entries.getLast? with
  | some e => e.hash
  | none => zeroHash

/-- **The bytes a block's hash is taken of**: slot, previous hash, leader
and time, then the number of hashes and the hash of each entry. -/
def hashPreimage (b : BroadcastedBlock) : Bytes :=
  putUint64 b.slot ++ b.prevHash.toList ++ textBytes b.leaderID
    ++ putUint64 b.timestamp
    ++ b.entries.flatMap (fun e => putUint64 e.numHashes ++ e.hash.toList)

/-- The hash of a block's content. -/
def computeHash (b : BroadcastedBlock) : Hash := sha256 b.hashPreimage

/-- Put the leader's signature of the block's hash. -/
def sign (b : BroadcastedBlock) (privKey : Bytes) : BroadcastedBlock :=
  { b with signature := ed25519Sign privKey b.hash.toList }

/-- **Is the block's hash signed by the leader it names?** The hash is the
one the block carries; it is not computed again. -/
def verifySignature (b : BroadcastedBlock) : Bool :=
  match getPublicKeyFromLeaderID b.leaderID with
  | .error _ => false
  | .ok pubKey =>
    if b.signature.length ≠ 64 then false
    else ed25519Verify pubKey b.hash.toList b.signature

theorem verifySignature_iff {b : BroadcastedBlock} :
    b.verifySignature = true ↔ ∃ pubKey,
      getPublicKeyFromLeaderID b.leaderID = .ok pubKey ∧
      b.signature.length = 64 ∧
      ed25519Verify pubKey b.hash.toList b.signature = true := by
  unfold verifySignature
  cases getPublicKeyFromLeaderID b.leaderID with
  | error err => simp
  | ok pubKey => simp

/-- Do the entries follow from the previous hash the block declares? -/
def verifyPoH (b : BroadcastedBlock) : Except String Unit :=
  verifyEntries b.prevHash b.entries b.slot

/-- The block with its flag set if its entries do not follow. A flag that is
already set stays. -/
def markPoH (b : BroadcastedBlock) : BroadcastedBlock :=
  match b.verifyPoH with
  | .error _ => { b with invalidPoH := true }
  | .ok () => b

/-- The transactions of the block, those of tick entries too. -/
def allTxs (b : BroadcastedBlock) : List (Option Transaction) :=
  b.entries.flatMap Entry.transactions

/-- The transactions of the block that are stored and applied: those of the
entries that are not marked as ticks. -/
def blockTxs (b : BroadcastedBlock) : List (Option Transaction) :=
  (b.entries.filter (fun e => !e.tick)).flatMap Entry.transactions

end BroadcastedBlock

/-- **A block built by its leader**, at a time read from the clock. It is
not signed yet. -/
def assembleBlock (slot : UInt64) (prevHash : Hash) (leaderID : String)
    (entries : List Entry) (now : UInt64) : BroadcastedBlock :=
  let b : BroadcastedBlock :=
    { slot := slot, prevHash := prevHash, leaderID := leaderID, timestamp := now,
      hash := zeroHash, signature := [], status := .pending, invalidPoH := false,
      entries := entries }
  { b with hash := b.computeHash }

/-- The stored form of an entry. -/
def Entry.toPersistent (e : Entry) : PersistentEntry :=
  { numHashes := e.numHashes, hash := e.hash,
    txHashes := e.transactions.map Transaction.hash, tick := e.tick }

/-- **The stored form of a block.** -/
def broadcastedBlockToBlock (b : BroadcastedBlock) : Block :=
  { b.toBlockCore with
    status := .pending
    entries := b.entries.map Entry.toPersistent }

end Mmn
