import Mmn.Sample

/-!
# The client

A transaction is signed in another program than the one that checks the
signature. The client has its own type of transactions, its own serializer
and its own conversions; between it and the node there is a message on the
wire, in which the amount is decimal text. A signature is worth something
only if both programs mean the same bytes.

They do: whatever a client transaction has in its fields, the node has the
client's signed bytes when it has read the message, and if the transaction
is a transfer by key from the account of the seed, the node accepts the
signature. The timestamp is not among the signed bytes, so that the node is
free to set its own (`signed_tx_accepted`). The amount survives because
decimal text is read back as the number it was written from, for all numbers
of 256 bits; the type survives because it fits the wire, which is narrower
than the client's integers.

What is assumed is that a key made from a seed signs what its public key
accepts.
-/

namespace Mmn.Client

/-! ## The client's transactions -/

/-- A transaction of the client. -/
structure Tx where
  type : Int64
  sender : String
  recipient : String
  /-- The amount, which may be nil. -/
  amount : Option (BitVec 256)
  timestamp : UInt64
  textData : String
  nonce : UInt64
  extraInfo : String
  zkProof : String
  zkPub : String

/-- A transaction with its signature. -/
structure SignedTx where
  tx : Tx
  /-- Base58 text of the signature. -/
  sig : String

/-- A transfer by key, as the client numbers the types. -/
abbrev txTypeTransferByKey : Int64 := 1

/-- **The bytes the client signs.** A nil amount cannot be written. -/
def Tx.serialize (tx : Tx) : Option Bytes :=
  tx.amount.map fun amount =>
    textBytes (toString tx.type.toInt ++ "|" ++ tx.sender ++ "|"
      ++ tx.recipient ++ "|"
      ++ toString amount.toNat ++ "|" ++ tx.textData ++ "|"
        ++ toString tx.nonce.toNat ++ "|"
      ++ tx.extraInfo)

/-! ## Signing -/

section

variable [Primitives]

/-- **Keys made from seeds**: the public key of a seed has thirty-two bytes
and accepts what the private key signs. -/
structure SeedKeys where
  newKeyFromSeed : Bytes → Bytes
  publicKey : Bytes → Bytes
  length_publicKey : ∀ seed, seed.length = 32 → (publicKey seed).length = 32
  verify_sign : ∀ seed msg, seed.length = 32 →
    ed25519Verify (publicKey seed) msg (ed25519Sign (newKeyFromSeed seed) msg) = true

end

/-- JSON of a byte string, which may be nil. -/
def jsonBytes : Option Bytes → String
  | none => "null"
  | some bs => "\"" ++ Base64.encode bs ++ "\""

/-- JSON of a key and a signature by it. -/
def marshalUserSig (pubKey : Option Bytes) (sig : Bytes) : String :=
  Json.object [("PubKey", jsonBytes pubKey), ("Sig", jsonBytes (some sig))]

/-- Why nothing is signed. -/
inductive SignFailure where
  | error (message : String)
  /-- The amount is nil, and the program ends. -/
  | panic

/-- **Sign a transaction** with the key of a seed. Only a transfer by key
carries the bare signature. -/
def signTx [Primitives] (keys : SeedKeys) (tx : Tx) (pubKey : Option Bytes)
    (privKey : Bytes) :
    Except SignFailure SignedTx :=
  if privKey.length = 32 then
    match tx.serialize with
    | none => .error .panic
    | some txHash =>
      let signature := ed25519Sign (keys.newKeyFromSeed privKey) txHash
      if tx.type = txTypeTransferByKey
        then .ok { tx := tx, sig := Base58.encode signature }
      else .ok
        { tx := tx,
          sig := Base58.encode (textBytes (marshalUserSig pubKey signature)) }
  else .error (.error "crypto: unsupported private key length")

/-! ## On the wire -/

/-- A transaction on the wire. -/
structure TxMsg where
  type : Int32
  sender : String
  recipient : String
  /-- The amount, as text. -/
  amount : String
  nonce : UInt64
  textData : String
  timestamp : UInt64
  extraInfo : String
  zkProof : String
  zkPub : String

/-- A signed transaction on the wire. -/
structure SignedTxMsg where
  txMsg : TxMsg
  signature : String

/-- A transaction to the wire. The type is cut to the width of the wire. -/
def toProtoTx (tx : Tx) : TxMsg :=
  { type := tx.type.toInt32, sender := tx.sender, recipient := tx.recipient,
    amount := Transaction.uint256ToString tx.amount, nonce := tx.nonce, textData :=
      tx.textData,
    timestamp := tx.timestamp, extraInfo := tx.extraInfo, zkProof :=
      tx.zkProof, zkPub := tx.zkPub }

/-- A signed transaction to the wire. -/
def toProtoSigTx (tx : SignedTx) : SignedTxMsg :=
  { txMsg := toProtoTx tx.tx, signature := tx.sig }

/-! ## The node's reading -/

/-- What comes after a plus sign, if there is one. -/
def afterPlus : List Char → List Char
  | [] => []
  | c :: cs => if c = '+' then cs else c :: cs

/-- The number of a decimal text, which may begin with a plus sign. It must
fit 256 bits. -/
def uint256FromDecimal (s : String) : Option (BitVec 256) :=
  let digits := afterPlus s.toList
  if digits ≠ [] ∧ digits.all Char.isDigit = true ∧
    Nat.ofDigitChars 10 digits 0 < 2 ^ 256 then
    some (BitVec.ofNat 256 (Nat.ofDigitChars 10 digits 0))
  else none

/-- **A transaction from the wire.** A text for the amount that is empty
stands for zero. -/
def fromProtoSignedTx (pbTx : SignedTxMsg) : Option Transaction :=
  let amount := if pbTx.txMsg.amount = "" then some 0
    else uint256FromDecimal pbTx.txMsg.amount
  amount.map fun amount =>
    { type := pbTx.txMsg.type, sender := pbTx.txMsg.sender,
      recipient := pbTx.txMsg.recipient,
      amount := some amount, timestamp := pbTx.txMsg.timestamp, textData :=
        pbTx.txMsg.textData,
      nonce := pbTx.txMsg.nonce, signature := pbTx.signature, extraInfo :=
        pbTx.txMsg.extraInfo,
      zkProof := pbTx.txMsg.zkProof, zkPub := pbTx.txMsg.zkPub }

/-! ## The same bytes -/

theorem afterPlus_eq_self {cs : List Char} (h : ∀ c ∈ cs, c.isDigit = true) :
    afterPlus cs = cs := by
  cases cs with
  | nil => rfl
  | cons c cs =>
    rw [afterPlus, if_neg]
    rintro rfl
    exact absurd (h '+' List.mem_cons_self) (by decide)

/-- **Every amount is read back from its text.** -/
theorem uint256FromDecimal_toString (v : BitVec 256) :
    uint256FromDecimal (toString v.toNat)
      = some v := by
  have hlist : (toString v.toNat).toList = Nat.toDigits 10 v.toNat := by
    rw [Nat.toString_eq_ofList_toDigits, String.toList_ofList]
  have hdigit : ∀ c ∈ Nat.toDigits 10 v.toNat, c.isDigit = true := fun c hc =>
    Nat.isDigit_of_mem_toDigits (by decide) (by decide) hc
  have hvalue : Nat.ofDigitChars 10 (Nat.toDigits 10 v.toNat) 0 = v.toNat :=
    Nat.ofDigitChars_ten_toDigits
  unfold uint256FromDecimal
  rw [hlist, afterPlus_eq_self hdigit]
  dsimp only
  rw [hvalue, if_pos ⟨Nat.toDigits_ne_nil, List.all_eq_true.mpr hdigit, v.isLt⟩,
    BitVec.ofNat_toNat, BitVec.setWidth_eq]

theorem toString_ne_empty (n : ℕ) : toString n ≠ "" := by
  intro h
  have hlist := congrArg String.toList h
  rw [Nat.toString_eq_ofList_toDigits, String.toList_ofList] at hlist
  exact Nat.toDigits_ne_nil hlist

/-- The transaction of the node for a transaction of the client: all fields
as they are, but for the narrower type and an amount that is never nil. -/
def SignedTx.received (signed : SignedTx) : Transaction :=
  { type := signed.tx.type.toInt32, sender := signed.tx.sender,
    recipient := signed.tx.recipient,
    amount := some (signed.tx.amount.getD 0), timestamp := signed.tx.timestamp,
    textData := signed.tx.textData, nonce := signed.tx.nonce, signature := signed.sig,
    extraInfo := signed.tx.extraInfo, zkProof := signed.tx.zkProof, zkPub :=
      signed.tx.zkPub }

/-- **Through the wire**: the node receives what the client has sent, a nil
amount as zero. -/
theorem fromProtoSignedTx_toProtoSigTx (signed : SignedTx) :
    fromProtoSignedTx (toProtoSigTx signed) = some signed.received := by
  have hamount : Transaction.uint256ToString signed.tx.amount
      = toString (signed.tx.amount.getD 0).toNat := by
    cases signed.tx.amount <;> rfl
  unfold fromProtoSignedTx toProtoSigTx toProtoTx SignedTx.received
  dsimp only
  rw [hamount, if_neg (toString_ne_empty _), uint256FromDecimal_toString]
  rfl

/-- A type that fits the wire is not changed by it. -/
theorem toInt_toInt32 {type : Int64} (hlow : -2 ^ 31 ≤ type.toInt)
    (hhigh : type.toInt < 2 ^ 31) :
    type.toInt32.toInt = type.toInt := by
  rw [Int64.toInt_toInt32]
  exact Int.bmod_eq_of_le (by omega) (by omega)

/-- **The node has the bytes the client has signed**, whatever timestamp it
assigns. -/
theorem serialize_received {signed : SignedTx} (hlow : -2 ^ 31 ≤ signed.tx.type.toInt)
    (hhigh : signed.tx.type.toInt < 2 ^ 31) {bytes : Bytes}
    (h : signed.tx.serialize = some bytes) (timestamp : UInt64) :
    { signed.received with timestamp := timestamp }.serialize = bytes := by
  obtain ⟨amount, hamount, rfl⟩ := Option.map_eq_some_iff.mp h
  unfold Transaction.serialize SignedTx.received
  dsimp only
  rw [toInt_toInt32 hlow hhigh, hamount]
  rfl

/-- The identifier of a public key stands for the key. -/
theorem base58ToEd25519_encode [Primitives] {pub : Bytes} (h : pub.length = 32) :
    base58ToEd25519 (Base58.encode pub) = some pub := by
  have hne : pub ≠ [] := by
    rintro rfl
    cases h
  unfold base58ToEd25519
  rw [Base58.decode_encode hne]
  exact if_pos h

/-- **A transfer with a signature its sender's key accepts is accepted**:
the text of the signature is short enough. -/
theorem verify_of_signature [Primitives] {tx : Transaction} {pub sig : Bytes}
    (htype : tx.type = Mmn.txTypeTransferByKey) (hpub : pub.length = 32)
    (hsender : tx.sender = Base58.encode pub)
    (hsig : tx.signature = Base58.encode sig)
    (haccept : ed25519Verify pub tx.serialize sig = true) : tx.verify = true := by
  have hlength : sig.length = 64 := Primitives.ed25519Verify_length _ _ _ haccept
  have hne : sig ≠ [] := by
    rintro rfl
    cases hlength
  have hdecode := Base58.decode_encode hne
  have hempty : Base58.encode sig ≠ "" := by
    intro h
    rw [h] at hdecode
    cases hdecode
  -- the text has no more characters than sixty-four bytes can take
  have htext : (Base58.encode sig).utf8ByteSize
      ≤ Transaction.maxSignatureBase58Len := by
    have hsize := (Base58.length_of_decode hdecode).2
    rw [length_textBytes, hlength] at hsize
    exact hsize.trans (by decide)
  have hbytes : sig.length ≤ Transaction.maxSignatureDecodedLen :=
    hlength.trans_le (by decide)
  unfold Transaction.verify
  rw [hsig, if_neg hempty, if_neg (Nat.not_lt.mpr htext), hdecode]
  dsimp only
  rw [if_neg (Nat.not_lt.mpr hbytes), if_pos htype, hsender,
    base58ToEd25519_encode hpub]
  exact haccept

/-- **Client and node sign and check the same bytes.** Whatever is in a
transaction of the client, if its amount is not nil and its type fits the
wire, it is signed with any seed, the node reads it from the wire, and has
the bytes that the client has signed; if it is a transfer by key from the
account of the seed, the node accepts it. Both hold for every timestamp that
the node may assign. -/
theorem signed_tx_accepted [Primitives] (keys : SeedKeys) (tx : Tx)
    (hamount : tx.amount ≠ none) (hlow : -2 ^ 31 ≤ tx.type.toInt)
    (hhigh : tx.type.toInt < 2 ^ 31) (pubKey : Option Bytes) {seed : Bytes}
    (hseed : seed.length = 32) :
    ∃ signed t, signTx keys tx pubKey seed = .ok signed ∧
      fromProtoSignedTx (toProtoSigTx signed) = some t ∧
      ∀ timestamp : UInt64, tx.serialize = some
        { t with timestamp := timestamp }.serialize ∧
        (tx.type = txTypeTransferByKey →
          tx.sender = Base58.encode (keys.publicKey seed) →
          { t with timestamp := timestamp }.verify = true) := by
  obtain ⟨amount, hsome⟩ := Option.ne_none_iff_exists'.mp hamount
  obtain ⟨bytes, hbytes⟩ : ∃ bytes, tx.serialize = some bytes :=
    ⟨_, congrArg (Option.map _) hsome⟩
  obtain ⟨signed, hsign, htx, hsig⟩ : ∃ signed,
    signTx keys tx pubKey seed = .ok signed ∧
      signed.tx = tx ∧ (tx.type = txTypeTransferByKey →
        signed.sig = Base58.encode
            (ed25519Sign (keys.newKeyFromSeed seed) bytes)) := by
    unfold signTx
    rw [if_pos hseed, hbytes]
    dsimp only
    split
    · exact ⟨_, rfl, rfl, fun _ => rfl⟩
    · next hother => exact ⟨_, rfl, rfl, fun h => absurd h hother⟩
  subst htx
  refine ⟨signed, signed.received, hsign, fromProtoSignedTx_toProtoSigTx signed,
    fun timestamp =>
    ?_⟩
  have hsame := serialize_received hlow hhigh hbytes timestamp
  refine ⟨by rw [hbytes, hsame], fun htype hsender => ?_⟩
  have hwire : signed.received.type = Mmn.txTypeTransferByKey :=
    congrArg Int64.toInt32 htype
  refine verify_of_signature hwire (keys.length_publicKey seed hseed) hsender
    (hsig htype) ?_
  rw [hsame]
  exact keys.verify_sign seed bytes hseed

section

attribute [local instance] Sample.primitives

/-- Keys of the sample: a seed is its own key. -/
def Sample.seedKeys : SeedKeys where
  newKeyFromSeed seed := seed
  publicKey seed := seed
  length_publicKey _ h := h
  verify_sign _ _ _ := decide_eq_true rfl

/-- A transfer of the largest amount there is. -/
def Sample.clientTx : Tx :=
  { type := 1, sender := Sample.keyID 1, recipient := Sample.keyID 2,
    amount := some (BitVec.allOnes 256),
    timestamp := 7, textData := "memo", nonce := 3, extraInfo := "", zkProof :=
      "", zkPub := "" }

/-- A transfer of the largest amount is accepted by a node that sets its own
timestamp. -/
theorem signed_tx_accepted_largest :
    ∃ signed t, signTx Sample.seedKeys Sample.clientTx none (Mmn.Sample.keyBytes 1) =
      .ok signed ∧ fromProtoSignedTx (toProtoSigTx signed) = some t ∧
      { t with timestamp := 99 }.verify = true := by
  obtain ⟨signed, t, hsign, hread, haccept⟩ :=
    signed_tx_accepted Sample.seedKeys Sample.clientTx
    (by decide) (by decide) (by decide) none
      (show (Mmn.Sample.keyBytes 1).length = 32 from rfl)
  exact ⟨signed, t, hsign, hread, (haccept 99).2 rfl rfl⟩

end

end Mmn.Client
