import Mmn.System

/-!
# Computable primitives

The model takes hashing, signatures and JSON as given. To run it on concrete
inputs the class `Primitives` needs an instance, and this file has one that
evaluates: a polynomial digest, and a signature scheme in which a key signs
by hashing itself with the message – so that the public key is the private
key.

None of it is secure, and nothing is proved of it but that its signatures
verify. It accepts exactly what its own signing makes, it distinguishes the
few messages a sample run has, and it is therefore enough to exhibit a run
of the model. The file ends with the parts such runs are made of: keys,
schedules, signed transfers, blocks and votes.
-/

namespace Mmn.Sample

/-- The modulus of the digest, a prime. -/
def modulus : ℕ := 2 ^ 61 - 1

/-- The digest as a number. -/
def digestNat (bs : Bytes) : ℕ :=
  bs.foldl (fun acc b => (acc * 1000003 + b.toNat + 1) % modulus) 7

/-- The digest of a byte string: zeros and the eight bytes of its number.
Few of the bytes differ from zero, which keeps base58 texts cheap to
evaluate. -/
def digest (bs : Bytes) : Hash :=
  ⟨List.replicate 24 0 ++ putUint64 (UInt64.ofNat (digestNat bs)), rfl⟩

/-- The signature of a message by a key. -/
def signWith (key msg : Bytes) : Bytes :=
  List.replicate 32 0 ++ (digest (key ++ msg)).toList

theorem length_signWith (key msg : Bytes) : (signWith key msg).length = 64 := by
  unfold signWith
  rw [List.length_append, List.Vector.toList_length, List.length_replicate]

/-- **Primitives that evaluate.** User content and proofs are never
accepted. -/
@[reducible] def primitives : Primitives where
  sha256 := digest
  ed25519Verify pub msg sig := sig = signWith pub msg
  ed25519Sign := signWith
  zkVerify _ _ _ _ := false
  edwards25519Point _ := true
  marshalVote slot blockHash voterID :=
    putUint64 slot ++ blockHash.toList ++ textBytes voterID
  unmarshalUserSig _ := none
  unmarshalUserContent _ := none
  ed25519Verify_length pub msg sig h := by
    rw [of_decide_eq_true h]
    exact length_signWith pub msg
  unmarshalUserSig_length _ _ h := by cases h

/-- The key with a number: its last byte. -/
def keyBytes (i : ℕ) : Bytes := List.replicate 31 0 ++ [UInt8.ofNat i]

/-- The key's identifier. -/
def keyID (i : ℕ) : String := Base58.encode (keyBytes i)

attribute [local instance] primitives

/-- A validator with a numbered key. -/
def config (ls : LeaderSchedule) (i : ℕ) (isListener : Bool)
    (hkey : getPublicKeyFromLeaderID (keyID i) = .ok (keyBytes i)) : Config where
  leaderSchedule := ls
  selfPubKey := keyID i
  selfPrivKey := keyBytes i
  pohCfg := ⟨2, 1, by decide, by decide⟩
  isListener := isListener
  batchSize := 10
  maxTxs := 10
  keyPair := ⟨keyBytes i, hkey, fun msg =>
    ⟨length_signWith (keyBytes i) msg, decide_eq_true rfl⟩⟩

/-- The schedule of a validator that is alone. -/
def aloneSchedule : LeaderSchedule where
  entries := [⟨1, 9, keyID 1⟩]
  maxSlot := 9
  ordered := by decide +kernel
  maxSlot_eq := ⟨_, rfl, rfl⟩
  maxSlot_ne_zero := by decide

theorem key_one : getPublicKeyFromLeaderID (keyID 1) = .ok (keyBytes 1) := by
  decide +kernel

/-- A validator that is alone. -/
def alone : Config := config aloneSchedule 1 false key_one

/-- The schedule of four validators, of one slot each. -/
def fourSchedule : LeaderSchedule where
  entries := [⟨1, 1, keyID 1⟩, ⟨2, 2, keyID 2⟩, ⟨3, 3, keyID 3⟩, ⟨4, 4, keyID 4⟩]
  maxSlot := 4
  ordered := by decide +kernel
  maxSlot_eq := ⟨_, rfl, rfl⟩
  maxSlot_ne_zero := by decide

/-- The first of four validators, as a listener or not. -/
def oneOfFour (isListener : Bool) : Config := config fourSchedule 1 isListener key_one

/-- A transfer by key, signed by its sender. -/
def transfer (sender recipient : ℕ) (amount : BitVec 256) (nonce timestamp : UInt64) :
    Transaction :=
  let tx : Transaction :=
    { Transaction.zero with
      type := txTypeTransferByKey
      sender := keyID sender
      recipient := keyID recipient
      amount := some amount
      nonce := nonce
      timestamp := timestamp }
  { tx with signature := Base58.encode (signWith (keyBytes sender) tx.serialize) }

/-- The entry with some transactions that follows a hash. -/
def entryAfter (prev : Hash) (txs : List Transaction) : Entry :=
  { newTxEntry 1 zeroHash txs
    with hash := entryHash prev (newTxEntry 1 zeroHash txs) }

/-- A block of one entry, made at a time and signed by its leader. -/
def blockWith (leader : ℕ) (slot now : UInt64) (txs : List Transaction) :
    BroadcastedBlock :=
  (assembleBlock slot zeroHash (keyID leader) [entryAfter zeroHash txs] now).sign
    (keyBytes leader)

/-- A signed vote. -/
def voteOf (voter : ℕ) (slot : UInt64) (blockHash : Hash) : Vote :=
  Vote.sign ⟨slot, blockHash, keyID voter, []⟩ (keyBytes voter)

end Mmn.Sample
