import Mmn.EncodedReads
import Mmn.Finalization
import Mmn.Queries

/-!
# Reads one by one and in batches

The four stores read a record by its key, and many at a time. The second way
is longer: the keys are encoded, the provider reads them into a map of
bytes, and the store goes from the map back to what it was asked for. Two
stores walk through the list of the request for that, two walk through the
map and find the key of each record again; and each of them has its own way
with records that are missing or do not decode.

They agree with single reads all the same, for every content of the database
and every list with repetitions (`batch_reads_agree`): transactions come in
the order of the request and as often as they are asked for, the other three
are maps with exactly the records that are found. Different keys have
different encodings, and a record that is missing is read as no bytes at
all, which do not decode (`RecordReader`).

These are also the batches that applying a block reads
(`GenericTxStore.getBatch_eq_raw`, `GenericAccountStore.lookup_getBatch`).
-/

namespace Mmn

/-! ## The provider -/

/-- A meta record as it is stored: it carries the hash of its transaction,
and a status that is a number. -/
structure TxMetaRecord where
  txHash : String
  slot : UInt64
  /-- The hash of that block, as text. -/
  blockHash : String
  status : Int32
  error : String
deriving DecidableEq

/-- **The reader of records.** No record is read from no bytes. -/
class RecordReader extends Codec where
  unmarshalBlock : Bytes → Option Block
  unmarshalTxMeta : Bytes → Option TxMetaRecord
  unmarshalError : Bytes → String
  unmarshalTransaction_nil : unmarshalTransaction [] = none
  unmarshalTxMeta_nil : unmarshalTxMeta [] = none

/-- **The provider**: the database, and the errors of reading it. -/
structure LevelDBProvider where
  db : Database
  /-- The error that reading a key ends in, if it fails. -/
  readError : Bytes → Option String

namespace LevelDBProvider

/-- Read a key. A key that is not there reads as nil. -/
def get (p : LevelDBProvider) (key : Bytes) : Except String (Option Bytes) :=
  match p.readError key with
  | some err => .error err
  | none => .ok (p.db key)

/-- The loop of a batch read. -/
def getBatchLoop (p : LevelDBProvider) :
    AList (fun _ : Bytes => Bytes) → List Bytes →
      Except String (AList fun _ : Bytes => Bytes)
  | result, [] => .ok result
  | result, key :: keys =>
    match p.get key with
    | .error err => .error err
    | .ok none => p.getBatchLoop result keys
    | .ok (some value) => p.getBatchLoop (result.insert key value) keys

/-- **Read some keys.** Those that are not there are left out. -/
def getBatch (p : LevelDBProvider) (keys : List Bytes) :
    Except String (AList fun _ : Bytes => Bytes) :=
  if keys.length = 0 then .ok ∅ else p.getBatchLoop ∅ keys

variable {p : LevelDBProvider}

theorem get_eq (h : ∀ key, p.readError key = none) (key : Bytes) :
    p.get key = .ok (p.db key) := by
  unfold get
  rw [h key]

/-- The loop over the keys: what is found is put beside what was found
before. -/
theorem getBatchLoop_eq (h : ∀ key, p.readError key = none) (keys : List Bytes)
    (result : AList fun _ : Bytes => Bytes) :
    p.getBatchLoop result keys
      = .ok (keys.foldl (fun acc key => (p.db key).elim acc (acc.insert key))
        result) := by
  induction keys generalizing result with
  | nil => rfl
  | cons key keys ih =>
    unfold getBatchLoop
    rw [get_eq h, List.foldl_cons]
    cases p.db key with
    | none => exact ih result
    | some value => exact ih (result.insert key value)

/-- **A batch of keys** is read whole if no read fails. -/
theorem getBatch_eq (h : ∀ key, p.readError key = none) (keys : List Bytes) :
    p.getBatch keys = .ok (AList.loadAll keys p.db) := by
  unfold getBatch
  split
  · next hnil =>
    rw [List.length_eq_zero_iff.mp hnil]
    rfl
  · rw [getBatchLoop_eq h]
    unfold AList.loadAll
    refine congrArg Except.ok (List.foldl_ext _ _ _ fun result key _ => ?_)
    cases p.db key <;> rfl

/-- What a batch has for a key that was asked for. -/
theorem lookup_batch {κ : Type} (key : κ → Bytes) {keys : List κ} {k : κ}
    (hmem : k ∈ keys) :
    (AList.loadAll (keys.map key) p.db).lookup (key k) = p.db (key k) := by
  rw [AList.lookup_loadAll, if_pos (List.mem_map_of_mem hmem)]

end LevelDBProvider

/-- **The order in which a map is walked**: any. -/
structure MapOrder where
  arrange : List (Sigma fun _ : Bytes => Bytes) → List (Sigma fun _ : Bytes => Bytes)
  perm : ∀ entries, (arrange entries).Perm entries

section

variable [RecordReader]

/-! ## Two ways of reading -/

/-- **Read a record that must be there.** One that is missing is handed to
the reader as no bytes. -/
def getRecord {ν : Type} (p : LevelDBProvider) (what : String)
    (unmarshal : Bytes → Option ν) (key : Bytes) (name : String) : Except String ν :=
  match p.get key with
  | .error err =>
    .error ("could not get " ++ what ++ " " ++ name ++ " from db: " ++ err)
  | .ok data =>
    match unmarshal (data.getD []) with
    | none => .error ("failed to unmarshal " ++ what ++ " " ++ name ++ ": "
        ++ RecordReader.unmarshalError (data.getD []))
    | some record => .ok record

/-- **Read records by walking through the map** of what was read. -/
def getByWalk {κ ν : Type} [DecidableEq κ] (p : LevelDBProvider) (order : MapOrder)
    (what : String) (key : κ → Bytes) (zero : κ) (unmarshal : Bytes → Option ν)
    (keys : List κ) :
    Except String (AList fun _ : κ => ν) :=
  if keys.length = 0 then .ok ∅
  else match p.getBatch (keys.map key) with
    | .error err => .error ("failed to batch get " ++ what ++ ": " ++ err)
    | .ok dataMap =>
      .ok (EncodedReads.decodeAll (EncodedReads.origins key keys) zero unmarshal
        (order.arrange dataMap.entries))

variable {p : LevelDBProvider}

/-- A record that must be there is read if it is there and decodes. -/
theorem getRecord_eq_ok_iff {ν : Type} (h : ∀ key, p.readError key = none)
    {what name : String} {unmarshal : Bytes → Option ν} (hnil : unmarshal [] = none)
    {key : Bytes} {record : ν} :
    getRecord p what unmarshal key name = .ok record ↔
      (p.db key).bind unmarshal = some record := by
  unfold getRecord
  rw [LevelDBProvider.get_eq h]
  dsimp only
  cases p.db key with
  | none =>
    -- A missing record is read as no bytes, from which nothing is read.
    rw [Option.getD_none, hnil]
    exact iff_of_false nofun nofun
  | some data =>
    rw [Option.getD_some, Option.bind_some]
    cases unmarshal data with
    | none => exact iff_of_false nofun nofun
    | some record' => simp

omit [RecordReader] in
/-- **Walking through the map finds what single reads find.** -/
theorem getByWalk_eq {κ ν : Type} [DecidableEq κ] (h : ∀ key, p.readError key = none)
    (order : MapOrder) (what : String) {key : κ → Bytes}
    (hkey : Function.Injective key) (zero : κ) (unmarshal : Bytes → Option ν)
    (keys : List κ) :
    ∃ m, getByWalk p order what key zero unmarshal keys = .ok m ∧
      ∀ k, m.lookup k = if k ∈ keys then (p.db (key k)).bind unmarshal else none := by
  unfold getByWalk
  split
  · next hnil =>
    refine ⟨∅, rfl, fun k => ?_⟩
    rw [List.length_eq_zero_iff.mp hnil]
    rfl
  · rw [LevelDBProvider.getBatch_eq h]
    exact ⟨_, rfl, EncodedReads.lookup_decodeAll hkey zero unmarshal (order.perm _)⟩

/-! ## The stores -/

namespace GenericTxStore

/-- The key of a transaction. -/
def getDBKey (txHash : String) : Bytes := (Key.tx txHash).bytes

/-- The transaction with a hash. -/
def getByHash (p : LevelDBProvider) (txHash : String) : Except String Transaction :=
  getRecord p "transaction" Codec.unmarshalTransaction (getDBKey txHash) txHash

/-- **The transactions with some hashes**, in the order of the list. -/
def getBatch (p : LevelDBProvider) (txHashes : List String) :
    Except String (List Transaction) :=
  if txHashes.length = 0 then .ok []
  else match p.getBatch (txHashes.map getDBKey) with
    | .error err => .error ("failed to batch get transactions: " ++ err)
    | .ok dataMap => .ok (txHashes.filterMap fun txHash =>
        (dataMap.lookup (getDBKey txHash)).bind Codec.unmarshalTransaction)

/-- A transaction is read if it is in the database. -/
theorem toOption_getByHash (h : ∀ key, p.readError key = none) (txHash : String) :
    (getByHash p txHash).toOption = p.db.tx txHash := by
  refine Option.ext fun tx => ?_
  have hread : getByHash p txHash = .ok tx ↔ p.db.tx txHash = some tx :=
    getRecord_eq_ok_iff h RecordReader.unmarshalTransaction_nil
  rw [← hread]
  cases getByHash p txHash with
  | error err => exact iff_of_false nofun nofun
  | ok tx' => simp [Except.toOption]

theorem getBatch_eq (h : ∀ key, p.readError key = none) (txHashes : List String) :
    getBatch p txHashes = .ok (txHashes.filterMap p.db.tx) := by
  unfold getBatch
  split
  · next hnil =>
    rw [List.length_eq_zero_iff.mp hnil]
    rfl
  · rw [LevelDBProvider.getBatch_eq h]
    refine congrArg Except.ok (List.filterMap_congr fun txHash hmem => ?_)
    rw [LevelDBProvider.lookup_batch getDBKey hmem]
    rfl

/-- **The transactions of a block are read this way.** -/
theorem getBatch_eq_raw (h : ∀ key, p.readError key = none) {env : Environment}
    {call : DbCall} (henv : env.error call = none) (txHashes : List String) :
    getBatch p txHashes = Raw.getTxBatch env call p.db txHashes := by
  unfold Raw.getTxBatch
  rw [getBatch_eq h, henv]
  split
  · next hnil =>
    rw [hnil]
    rfl
  · rfl

end GenericTxStore

namespace GenericTxMetaStore

/-- The key of a meta record. -/
def getDBKey (txHash : String) : Bytes := (Key.txMeta txHash).bytes

/-- The meta record of a transaction. -/
def getByHash (p : LevelDBProvider) (txHash : String) : Except String TxMetaRecord :=
  getRecord p "transaction meta" RecordReader.unmarshalTxMeta (getDBKey txHash) txHash

/-- **The meta records of some transactions.** The loop is over the list. -/
def getBatch (p : LevelDBProvider) (txHashes : List String) :
    Except String (AList fun _ : String => TxMetaRecord) :=
  if txHashes.length = 0 then .ok ∅
  else match p.getBatch (txHashes.map getDBKey) with
    | .error err => .error ("failed to batch get transaction metas: " ++ err)
    | .ok dataMap => .ok (AList.loadAll txHashes fun txHash =>
        (dataMap.lookup (getDBKey txHash)).bind RecordReader.unmarshalTxMeta)

theorem getBatch_eq (h : ∀ key, p.readError key = none) (txHashes : List String) :
    getBatch p txHashes = .ok (AList.loadAll txHashes fun txHash =>
      (p.db (getDBKey txHash)).bind RecordReader.unmarshalTxMeta) := by
  unfold getBatch
  split
  · next hnil =>
    rw [List.length_eq_zero_iff.mp hnil]
    rfl
  · rw [LevelDBProvider.getBatch_eq h]
    refine congrArg Except.ok (AList.loadAll_congr fun txHash hmem => ?_)
    rw [LevelDBProvider.lookup_batch getDBKey hmem]

end GenericTxMetaStore

namespace GenericBlockStore

/-- The key of a block. -/
def slotToBlockKey (slot : UInt64) : Bytes := (Key.block slot).bytes

omit [RecordReader] in
theorem slotToBlockKey_injective : Function.Injective slotToBlockKey :=
  fun _ _ h => Key.block.inj (Key.bytes_injective h)

/-- The block of a slot. Every failure is no block. -/
def block (p : LevelDBProvider) (slot : UInt64) : Option Block :=
  match p.get (slotToBlockKey slot) with
  | .error _ => none
  | .ok none => none
  | .ok (some value) => RecordReader.unmarshalBlock value

/-- **The blocks of some slots.** -/
def getBatch (p : LevelDBProvider) (order : MapOrder) (slots : List UInt64) :
    Except String (AList fun _ : UInt64 => Block) :=
  getByWalk p order "blocks" slotToBlockKey 0 RecordReader.unmarshalBlock slots

theorem block_eq (h : ∀ key, p.readError key = none) (slot : UInt64) :
    block p slot = (p.db (slotToBlockKey slot)).bind RecordReader.unmarshalBlock := by
  unfold block
  rw [LevelDBProvider.get_eq h]
  cases p.db (slotToBlockKey slot) <;> rfl

end GenericBlockStore

namespace GenericAccountStore

/-- The key of an account. -/
def getDBKey (addr : String) : Bytes := (Key.account addr).bytes

omit [RecordReader] in
theorem getDBKey_injective : Function.Injective getDBKey :=
  fun _ _ h => Key.account.inj (Key.bytes_injective h)

/-- The account at an address. There may be none; a record that does not
decode is an error. -/
def getByAddr (p : LevelDBProvider) (addr : String) :
    Except QueryError (Option AccountRecord) :=
  match p.get (getDBKey addr) with
  | .error _ => .error (.network "internal_error" "Server error, please try again")
  | .ok none => .ok none
  | .ok (some data) =>
    match Codec.unmarshalAccount data with
    | none => .error (.network "internal_error" "Server error, please try again")
    | some acc => .ok (some acc)

/-- **The accounts at some addresses.** -/
def getBatch (p : LevelDBProvider) (order : MapOrder) (addrs : List String) :
    Except String (AList fun _ : String => AccountRecord) :=
  getByWalk p order "accounts" getDBKey "" Codec.unmarshalAccount addrs

/-- An account is returned if it is in the database. -/
theorem getByAddr_eq_ok_iff (h : ∀ key, p.readError key = none) {addr : String}
    {acc : AccountRecord} :
    getByAddr p addr = .ok (some acc) ↔ p.db.account addr = some acc := by
  unfold getByAddr Database.account
  rw [LevelDBProvider.get_eq h]
  show _ ↔ (p.db (getDBKey addr)).bind Codec.unmarshalAccount = some acc
  cases p.db (getDBKey addr) with
  | none => exact iff_of_false nofun nofun
  | some data =>
    dsimp only
    rw [Option.bind_some]
    cases Codec.unmarshalAccount data with
    | none => exact iff_of_false nofun nofun
    | some acc' => simp

/-- **The accounts of a block are read this way.** -/
theorem lookup_getBatch (h : ∀ key, p.readError key = none) (order : MapOrder)
    (addrs : List String) :
    ∃ m, getBatch p order addrs = .ok m ∧
      ∀ addr, m.lookup addr = (AList.loadAll addrs p.db.account).lookup addr := by
  obtain ⟨m, hm, hlookup⟩ := getByWalk_eq h order "accounts" getDBKey_injective ""
    Codec.unmarshalAccount addrs
  refine ⟨m, hm, fun addr => ?_⟩
  rw [hlookup, AList.lookup_loadAll]
  rfl

end GenericAccountStore

/-! ## They agree -/

/-- **Batch reads agree with single reads**, for every content of the
database, as long as the provider has no read error, and in whatever order
maps are walked. Transactions come in the order of the request, with
repetitions kept, those being left out that are not read singly; a map of
blocks, accounts or meta records has a record under a key exactly if the key
is asked for and the single read returns that record. -/
theorem batch_reads_agree (h : ∀ key, p.readError key = none) (order : MapOrder) :
    (∀ txHashes, GenericTxStore.getBatch p txHashes
      = .ok (txHashes.filterMap fun txHash =>
        (GenericTxStore.getByHash p txHash).toOption)) ∧
    (∀ slots, ∃ m, GenericBlockStore.getBatch p order slots = .ok m ∧
      ∀ slot b, m.lookup slot = some b ↔ slot ∈ slots ∧
      GenericBlockStore.block p slot = some b) ∧
    (∀ addrs, ∃ m, GenericAccountStore.getBatch p order addrs = .ok m ∧
      ∀ addr acc, m.lookup addr = some acc ↔
        addr ∈ addrs ∧ GenericAccountStore.getByAddr p addr = .ok (some acc)) ∧
    ∀ txHashes, ∃ m, GenericTxMetaStore.getBatch p txHashes = .ok m ∧
      ∀ txHash record, m.lookup txHash = some record ↔
        txHash ∈ txHashes ∧ GenericTxMetaStore.getByHash p txHash = .ok record := by
  refine ⟨fun txHashes => ?_, fun slots => ?_, fun addrs => ?_, fun txHashes => ?_⟩
  · rw [GenericTxStore.getBatch_eq h]
    exact congrArg Except.ok
      (List.filterMap_congr fun txHash _ =>
        (GenericTxStore.toOption_getByHash h txHash).symm)
  · obtain ⟨m, hm, hlookup⟩ := getByWalk_eq h order "blocks"
      GenericBlockStore.slotToBlockKey_injective 0 RecordReader.unmarshalBlock slots
    refine ⟨m, hm, fun slot b => ?_⟩
    rw [hlookup, GenericBlockStore.block_eq h, Option.ite_none_right_eq_some]
  · obtain ⟨m, hm, hlookup⟩ := GenericAccountStore.lookup_getBatch h order addrs
    refine ⟨m, hm, fun addr acc => ?_⟩
    rw [hlookup, AList.lookup_loadAll, GenericAccountStore.getByAddr_eq_ok_iff h,
      Option.ite_none_right_eq_some]
  · refine ⟨_, GenericTxMetaStore.getBatch_eq h txHashes, fun txHash record => ?_⟩
    rw [AList.lookup_loadAll, Option.ite_none_right_eq_some]
    exact and_congr_right fun _ =>
      (getRecord_eq_ok_iff h RecordReader.unmarshalTxMeta_nil).symm

end

section

attribute [local instance] Sample.primitives

/-- A reader that reads the payment, its block and its meta record, and the
account of its sender. -/
@[reducible] def Sample.recordReader : RecordReader where
  toCodec := Sample.codec
  unmarshalBlock bs := if bs = putUint64 1 then some Sample.paid else none
  unmarshalTxMeta bs :=
    if bs = textBytes "meta"
      then some { txHash := "", slot := 1, blockHash := "", status := 1, error := "" }
    else none
  unmarshalError _ := "unexpected end of JSON input"
  unmarshalTransaction_nil := by decide +kernel
  unmarshalTxMeta_nil := by decide +kernel

attribute [local instance] Sample.recordReader

/-- A provider of the database with the payment. -/
def Sample.provider : LevelDBProvider where
  db := (Sample.holding (Sample.aliceAs "alicekey")).db
  readError _ := none

/-- Maps are walked backwards. -/
def Sample.backwards : MapOrder where
  arrange := List.reverse
  perm := List.reverse_perm

/-- A transaction that is asked for twice comes twice, one that is missing
is left out; and of two slots with one block, one is found. -/
theorem batch_reads_agree_paid :
    GenericTxStore.getBatch Sample.provider
      [Transaction.hash (some Sample.payment), "missing",
        Transaction.hash (some Sample.payment)] = .ok [Sample.payment,
        Sample.payment] ∧
      ∃ m, GenericBlockStore.getBatch Sample.provider Sample.backwards
        [2, 1, 1] = .ok m ∧ m.lookup 1 = some Sample.paid ∧ m.lookup 2 = none := by
  obtain ⟨htxs, hblocks, -, -⟩ :=
    batch_reads_agree (p := Sample.provider) (fun _ => rfl) Sample.backwards
  refine ⟨by rw [htxs]; decide +kernel, ?_⟩
  obtain ⟨m, hm, hlookup⟩ := hblocks [2, 1, 1]
  refine ⟨m, hm, (hlookup 1 Sample.paid).mpr ⟨by decide, by decide +kernel⟩, ?_⟩
  refine Option.eq_none_iff_forall_ne_some.mpr fun b hb => ?_
  have hnone : GenericBlockStore.block Sample.provider 2 = none := by decide +kernel
  rw [((hlookup 2 b).mp hb).2] at hnone
  cases hnone

end

end Mmn
