import Mmn.Sample
import Mmn.Traversals

/-!
# Queries for blocks

A client asks for blocks by a list of slots or by a range. The two handlers
do the same in different words: they read the blocks in one batch, collect
the hashes of all transactions in them, read the transactions and their
results in two more batches, and put it all together again. Transactions are
found by the hash that is computed from what was read, results by the hash
that was asked for. The first handler fails at the first record that is
missing; the second one goes on and reports.

On every range of at most five hundred slots the handlers agree, whatever
the store holds (`queries_agree`): where the first succeeds the second gives
the same blocks and reports nothing, and where the first misses a record the
second reports one. This is a matter of the two policies alone
(`Traversal.SameOk`).

Before all that, the second handler lists the slots of the range. It first
refuses ranges that are too large, but the size is computed in machine
words, and the loop ends when its slot has passed the last one. If the last
slot is the largest there is, no slot has passed it, and the loop goes on
until memory is exhausted – for all slots together, whose number wraps to
zero, and for the last five hundred and fewer (`range_bounded_iff`,
`range_of_all_slots`).
-/

namespace Mmn

/-! ## What is asked and answered -/

/-- The status codes of an answer that is refused. -/
inductive StatusCode where
  | invalidArgument
  | internal
  | notFound
deriving DecidableEq

/-- An answer that is refused. -/
inductive QueryError where
  | status (code : StatusCode) (message : String)
  /-- An error of the node's own, with its code and message. -/
  | network (code message : String)
deriving DecidableEq

/-- A record is missing: a block, a transaction or its result. -/
def QueryError.Missing : QueryError → Prop
  | .status .notFound _ => True
  | .network _ _ => True
  | _ => False

/-- The status of a transaction as clients see it. -/
inductive TransactionStatus where
  | pending
  | confirmed
  | finalized
  | failed
deriving DecidableEq

/-- The status of a stored result, which is a number on disk. -/
def txMetaStatusToProtoTxStatus (status : Int32) : TransactionStatus :=
  if status = 0 then .failed
  else if status = 1 then .finalized
  else if status = 2 then .confirmed
  else .pending

/-- A transaction of an answer. -/
structure TransactionData where
  txHash : String
  sender : String
  recipient : String
  /-- The amount, as text. -/
  amount : String
  nonce : UInt64
  timestamp : UInt64
  status : TransactionStatus
  textData : String
  extraInfo : String
  transactionType : Int32
deriving DecidableEq

/-- A block of an answer to a range. -/
structure BlockInfo where
  slot : UInt64
  prevHash : Bytes
  leaderID : String
  timestamp : UInt64
  hash : Bytes
  signature : Bytes
  transactionData : List TransactionData
deriving DecidableEq

/-- A block of an answer to a list of slots. -/
structure ProtoBlock extends BlockInfo where
  entries : List Entry
deriving DecidableEq

/-- The answer to a list of slots. -/
structure BlockByNumberResponse where
  blocks : List ProtoBlock
  decimals : UInt32
deriving DecidableEq

/-- The answer to a range. -/
structure BlockByRangeResponse where
  blocks : List BlockInfo
  totalBlocks : UInt32
  decimals : UInt32
  errors : List String
deriving DecidableEq

/-! ## What is read -/

/-- The three batches that are read. -/
inductive BatchRead where
  | blocks
  | txs
  | txMetas

/-- **The content of a store, as the handlers read it**: what the record of
a key decodes to, if there is one and it decodes. Nothing relates a record
to its key. -/
structure QueryServer where
  block : UInt64 → Option Block
  tx : String → Option Transaction
  txMeta : String → Option Int32
  failure : BatchRead → Option String
  decimals : UInt8

/-- The number a status is stored as. -/
def TxStatus.toInt32 : TxStatus → Int32
  | .failed => 0
  | .success => 1
  | .processed => 2

/-- The node's own database, as the handlers read it. -/
def Store.queryServer (s : Store) (decimals : UInt8) : QueryServer where
  block := s.block
  tx := s.getTxByHash
  txMeta txHash := (s.txMetas.lookup txHash).map (fun m => m.status.toInt32)
  failure _ := none
  decimals := decimals

/-- The hashes of all transactions of a block, those of ticks included. -/
def Block.allTxHashes (b : Block) :
    List String := b.entries.flatMap PersistentEntry.txHashes

namespace QueryServer

/-! ## The slots of a range -/

/-- The most slots of a range. -/
abbrev maxRange : UInt64 := 500

/-- The checks on a range. The size of the range is a machine word. -/
def checkRange (fromSlot toSlot : UInt64) : Except QueryError Unit :=
  let totalBlocks := toSlot - fromSlot + 1
  if fromSlot > toSlot then
    .error (.status .invalidArgument
      s!"from_slot ({fromSlot}) cannot be greater than to_slot ({toSlot})")
  else if totalBlocks > maxRange then
    .error (.status .invalidArgument
      s!"range too large: {totalBlocks} blocks requested, maximum allowed: {maxRange}")
  else .ok ()

/-- **The loop that lists the slots of a range.** It ends when the slot has
passed the last one; `none` is a loop that has not ended yet. -/
def slotLoop (toSlot : UInt64) : ℕ → UInt64 → List UInt64 → Option (List UInt64)
  | 0, _, _ => none
  | fuel + 1, slot, slots =>
    if slot ≤ toSlot then slotLoop toSlot fuel (slot + 1) (slots ++ [slot])
      else some slots

/-- The slots from one to another, ends included. -/
def slotsIn (fromSlot toSlot : UInt64) : List UInt64 :=
  (List.range' fromSlot.toNat (toSlot.toNat + 1 - fromSlot.toNat)).map UInt64.ofNat

theorem length_slotsIn (fromSlot toSlot : UInt64) :
    (slotsIn fromSlot toSlot).length = toSlot.toNat + 1 - fromSlot.toNat := by
  unfold slotsIn
  rw [List.length_map, List.length_range']

/-- **The loop lists the slots of the range** if there is a slot beyond the
last one. -/
theorem slotLoop_eq {toSlot : UInt64} (htop : toSlot.toNat + 1 < 2 ^ 64) {fuel : ℕ}
    {slot : UInt64} (hslot : slot.toNat ≤ toSlot.toNat + 1)
    (hfuel : toSlot.toNat + 1 < slot.toNat + fuel) (slots : List UInt64) :
    slotLoop toSlot fuel slot slots = some (slots ++ slotsIn slot toSlot) := by
  induction fuel generalizing slot slots with
  | zero => omega
  | succ fuel ih =>
    unfold slotLoop slotsIn
    by_cases hle : slot ≤ toSlot
    · have hnat : slot.toNat ≤ toSlot.toNat := UInt64.le_iff_toNat_le.mp hle
      have hnext : (slot + 1).toNat = slot.toNat + 1 :=
        UInt64.toNat_succ_of_lt (by omega)
      have hcount : toSlot.toNat + 1 - slot.toNat
          = toSlot.toNat + 1 - (slot.toNat + 1) + 1 := by
        omega
      rw [if_pos hle, ih (by omega) (by omega), slotsIn, hnext, hcount,
        List.range'_succ,
        List.map_cons, UInt64.ofNat_toNat, List.append_assoc, List.singleton_append]
    · have hnat : toSlot.toNat < slot.toNat :=
        Nat.lt_of_not_le fun h => hle (UInt64.le_iff_toNat_le.mpr h)
      have hnone : toSlot.toNat + 1 - slot.toNat = 0 := by omega
      rw [if_neg hle, hnone]
      simp

/-- **The loop does not end** if the last slot is the largest there is. -/
theorem slotLoop_eq_none {toSlot : UInt64} (htop : toSlot.toNat = 2 ^ 64 - 1)
    (fuel : ℕ) (slot : UInt64) (slots : List UInt64) :
    slotLoop toSlot fuel slot slots = none := by
  induction fuel generalizing slot slots with
  | zero => rfl
  | succ fuel ih =>
    have hle : slot ≤ toSlot := by
      have hlt := slot.toNat_lt
      exact UInt64.le_iff_toNat_le.mpr (by omega)
    unfold slotLoop
    rw [if_pos hle]
    exact ih _ _

/-- A range passes the checks if its ends are in order and its size, as a
machine word, is small. -/
theorem checkRange_eq_ok_iff {fromSlot toSlot : UInt64} :
    checkRange fromSlot toSlot = .ok () ↔
      fromSlot ≤ toSlot ∧ (toSlot.toNat - fromSlot.toNat + 1) % 2 ^ 64 ≤ 500 := by
  have hsize : ∀ h : fromSlot ≤ toSlot,
      (toSlot - fromSlot + 1).toNat = (toSlot.toNat - fromSlot.toNat + 1) % 2
          ^ 64 := by
    intro h
    rw [UInt64.toNat_add, UInt64.toNat_sub_of_le _ _ h, UInt64.toNat_one]
  unfold checkRange
  dsimp only
  by_cases hle : fromSlot ≤ toSlot
  · rw [if_neg (UInt64.not_lt.mpr hle), ← hsize hle]
    by_cases hbig : toSlot - fromSlot + 1 > maxRange
    · rw [if_pos hbig]
      exact iff_of_false nofun fun h =>
        absurd (UInt64.lt_iff_toNat_lt.mp hbig) (Nat.not_lt.mpr h.2)
    · rw [if_neg hbig]
      exact iff_of_true rfl ⟨hle, UInt64.le_iff_toNat_le.mp (UInt64.not_lt.mp hbig)⟩
  · rw [if_pos (UInt64.not_le.mp hle)]
    simp [hle]

/-- **A range is bounded** – it is refused, or the loop lists its slots and
these are five hundred at most – exactly if its last slot is not the largest
there is, or it is refused for its size. -/
theorem range_bounded_iff (fromSlot toSlot : UInt64) :
    ((∃ err, checkRange fromSlot toSlot = .error err) ∨
      ∃ fuel, slotLoop toSlot fuel fromSlot [] = some (slotsIn fromSlot toSlot) ∧
        (slotsIn fromSlot toSlot).length ≤ 500) ↔
    toSlot.toNat < 2 ^ 64 - 1 ∨
    (1 ≤ fromSlot.toNat ∧ fromSlot.toNat < 2 ^ 64 - 500) := by
  have hto := toSlot.toNat_lt
  have hfrom := fromSlot.toNat_lt
  constructor
  · intro h
    by_contra hcond
    have htop : toSlot.toNat = 2 ^ 64 - 1 := by omega
    -- the size is five hundred at most, or it is that of all slots and
    -- wraps to zero
    have hpass : checkRange fromSlot toSlot = .ok () :=
      checkRange_eq_ok_iff.mpr ⟨UInt64.le_iff_toNat_le.mpr (by omega), by omega⟩
    obtain ⟨err, herr⟩ | ⟨fuel, hloop, -⟩ := h
    · rw [hpass] at herr
      cases herr
    · rw [slotLoop_eq_none htop] at hloop
      cases hloop
  · intro hcond
    cases hcheck : checkRange fromSlot toSlot with
    | error err => exact Or.inl ⟨err, rfl⟩
    | ok _ =>
      obtain ⟨hle, hsize⟩ := checkRange_eq_ok_iff.mp hcheck
      have hnat := UInt64.le_iff_toNat_le.mp hle
      have htop : toSlot.toNat < 2 ^ 64 - 1 := by omega
      refine Or.inr ⟨toSlot.toNat + 2, ?_, ?_⟩
      · exact slotLoop_eq (by omega) (by omega) (by omega) []
      · rw [length_slotsIn]
        omega

/-- **All slots are listed for good**: the range of all slots has size zero,
as a machine word, and passes the checks; the loop does not end. -/
theorem range_of_all_slots :
    checkRange 0 18446744073709551615 = .ok () ∧
      ∀ fuel, slotLoop 18446744073709551615 fuel 0 [] = none :=
  ⟨by decide, fun fuel => slotLoop_eq_none (by decide) fuel 0 []⟩

/-! ## Reading in batches -/

variable {srv : QueryServer}

/-- Read blocks. -/
def getBatch (srv : QueryServer) (slots : List UInt64) :
    Except String (AList (fun _ : UInt64 => Block)) :=
  if slots.length = 0 then .ok ∅
  else match srv.failure .blocks with
    | some err => .error ("failed to batch get blocks: " ++ err)
    | none => .ok (AList.loadAll slots srv.block)

/-- Read transactions and results. Transactions that are missing are left
out. -/
def getTxBatch (srv : QueryServer) (hashes : List String) :
    Except String (List Transaction × AList (fun _ : String => Int32)) :=
  if hashes.length = 0 then .ok ([], ∅)
  else match srv.failure .txs, srv.failure .txMetas with
    | some err, _ =>
      .error ("failed to batch get transactions: failed to batch get transactions: "
        ++ err)
    | none, some err =>
      .error
        ("failed to batch get transaction metas: failed to batch get transaction metas: "
        ++ err)
    | none, none => .ok (hashes.filterMap srv.tx, AList.loadAll hashes srv.txMeta)

/-- The transactions of a batch by the hash that is computed from each, with
the results. -/
structure TxLookup where
  txMap : AList (fun _ : String => Transaction)
  txMetaMap : AList (fun _ : String => Int32)

/-- Index a batch. -/
def TxLookup.new [Primitives] (txs : List Transaction)
    (metas : AList (fun _ : String => Int32)) :
    TxLookup :=
  { txMap := txs.foldl (fun m tx => m.insert (Transaction.hash (some tx)) tx) ∅,
    txMetaMap := metas }

/-- A transaction of an answer, if it and its result are there. -/
def TxLookup.transactionData (batch : TxLookup) (txHash : String) :
    Option TransactionData :=
  match batch.txMap.lookup txHash, batch.txMetaMap.lookup txHash with
  | some tx, some status => some
      { txHash := txHash
        sender := tx.sender
        recipient := tx.recipient
        amount := Transaction.uint256ToString tx.amount
        nonce := tx.nonce
        timestamp := tx.timestamp
        status := txMetaStatusToProtoTxStatus status
        textData := tx.textData
        extraInfo := tx.extraInfo
        transactionType := tx.type }
  | _, _ => none

/-- A block of an answer. -/
def blockInfo (b : Block) (txs : List TransactionData) : BlockInfo :=
  { slot := b.slot, prevHash := b.prevHash.toList, leaderID := b.leaderID,
    timestamp := b.timestamp, hash := b.hash.toList, signature := b.signature,
    transactionData := txs }

/-! ## By a list of slots -/

/-- The block of a slot, which must be there. -/
def requireBlock (blockMap : AList (fun _ : UInt64 => Block)) (slot : UInt64) :
    Except QueryError (UInt64 × Block) :=
  match blockMap.lookup slot with
  | none => .error (.status .notFound s!"block {slot} not found")
  | some b => .ok (slot, b)

/-- A transaction, which must be there with its result. -/
def requireTx (batch : TxLookup) (txHash : String) :
    Except QueryError TransactionData :=
  match batch.transactionData txHash with
  | none => .error (.network "transaction_not_found" "Transaction could not be found")
  | some data => .ok data

/-- A block of the answer: all its transactions must be there. -/
def requireTxs (batch : TxLookup) (found : UInt64 × Block) :
    Except QueryError ProtoBlock :=
  match found.2.allTxHashes.mapM (requireTx batch) with
  | .error err => .error err
  | .ok txs => .ok { blockInfo found.2 txs with entries := [] }

/-- **The blocks of a list of slots.** What the two loops over the slots
look up twice in the same map is looked up once here. -/
def getBlockByNumber [Primitives] (srv : QueryServer) (blockNumbers : List UInt64) :
    Except QueryError BlockByNumberResponse :=
  if blockNumbers.length
    = 0 then .ok { blocks := [], decimals := srv.decimals.toUInt32 }
  else match srv.getBatch blockNumbers with
    | .error err => .error (.status .internal ("failed to batch get blocks: " ++ err))
    | .ok blockMap =>
      match blockNumbers.mapM (requireBlock blockMap) with
      | .error err => .error err
      | .ok found =>
        let allTxHashes := found.flatMap (fun fb => fb.2.allTxHashes)
        match if allTxHashes.length > 0 then srv.getTxBatch allTxHashes
          else .ok ([], ∅) with
        | .error err =>
          .error (.status .internal ("failed to batch get transactions: " ++ err))
        | .ok (txs, txMetas) =>
          match found.mapM (requireTxs (.new txs txMetas)) with
          | .error err => .error err
          | .ok blocks => .ok { blocks := blocks, decimals := srv.decimals.toUInt32 }

/-! ## By a range -/

/-- The block of a slot; one that is missing is reported. -/
def reportBlock (blockMap : AList (fun _ : UInt64 => Block)) (slot : UInt64) :
    Except String (UInt64 × Block) :=
  match blockMap.lookup slot with
  | none => .error s!"Block {slot} not found, skipping"
  | some b => .ok (slot, b)

/-- A transaction of the block of a slot; one that is missing is reported. -/
def reportTx (batch : TxLookup) (slot : UInt64) (txHash : String) :
    Except String TransactionData :=
  match batch.transactionData txHash with
  | none => .error s!"Transaction or meta not found for tx {txHash} in block {slot}"
  | some data => .ok data

/-- A block of the answer, with the reports of its transactions. -/
def reportTxs (batch : TxLookup) (found : UInt64 × Block) : BlockInfo × List String :=
  let txs := Traversal.skipReport (reportTx batch found.1) found.2.allTxHashes
  (blockInfo found.2 txs.1, txs.2)

/-- The answer to a range whose slots are listed. -/
def answerRange [Primitives] (srv : QueryServer) (slots : List UInt64) :
    Except QueryError BlockByRangeResponse :=
  match srv.getBatch slots with
  | .error err => .error (.status .internal ("failed to batch get blocks: " ++ err))
  | .ok blockMap =>
    let (found, errs) := Traversal.skipReport (reportBlock blockMap) slots
    match srv.getTxBatch (found.flatMap (fun fb => fb.2.allTxHashes)) with
    | .error err =>
      .error (.status .internal ("failed to batch get all transactions: " ++ err))
    | .ok (txs, txMetas) =>
      let blocks := found.map (reportTxs (.new txs txMetas))
      .ok
        { blocks := blocks.map Prod.fst
          totalBlocks := UInt32.ofNat blocks.length
          decimals := srv.decimals.toUInt32
          errors := errs ++ blocks.flatMap Prod.snd }

/-- **The blocks of a range.** -/
def getBlockByRange [Primitives] (srv : QueryServer) (fromSlot toSlot : UInt64)
    (fuel : ℕ) :
    Option (Except QueryError BlockByRangeResponse) :=
  match checkRange fromSlot toSlot with
  | .error err => some (.error err)
  | .ok () => (slotLoop toSlot fuel fromSlot []).map srv.answerRange

/-! ## The handlers agree -/

variable {blockMap : AList (fun _ : UInt64 => Block)} {batch : TxLookup}
  {found : UInt64 × Block}

theorem sameOk_block (blockMap : AList (fun _ : UInt64 => Block)) :
    Traversal.SameOk (requireBlock blockMap) (reportBlock blockMap) := by
  intro slot fb
  unfold requireBlock reportBlock
  cases blockMap.lookup slot <;> simp

theorem sameOk_tx (batch : TxLookup) (slot : UInt64) :
    Traversal.SameOk (requireTx batch) (reportTx batch slot) := by
  intro txHash data
  unfold requireTx reportTx
  cases batch.transactionData txHash <;> simp

theorem reportTxs_of_ok {b : ProtoBlock} (h : requireTxs batch found = .ok b) :
    reportTxs batch found = (b.toBlockInfo, []) := by
  unfold requireTxs at h
  cases htxs : found.2.allTxHashes.mapM (requireTx batch) with
  | error err =>
    rw [htxs] at h
    cases h
  | ok txs =>
    rw [htxs] at h
    cases h
    unfold reportTxs
    rw [Traversal.skipReport_of_mapM_eq_ok (sameOk_tx batch found.1) htxs]

/-- A block with a transaction that is missing. -/
theorem reportTxs_of_error {err : QueryError}
    (h : requireTxs batch found = .error err) :
    (reportTxs batch found).2 ≠ [] := by
  unfold requireTxs at h
  cases htxs : found.2.allTxHashes.mapM (requireTx batch) with
  | error err' =>
    exact Traversal.reports_of_mapM_eq_error (sameOk_tx batch found.1) htxs
  | ok txs =>
    rw [htxs] at h
    cases h

/-- Transactions are read by both handlers alike, whether there are any or
not. -/
theorem getTxBatch_guard (srv : QueryServer) (hashes : List String) :
    (if hashes.length > 0 then srv.getTxBatch hashes else .ok ([], ∅))
      = srv.getTxBatch hashes := by
  split
  · rfl
  · next hnone =>
    unfold getTxBatch
    rw [if_pos (Nat.eq_zero_of_not_pos hnone)]

/-- Transactions are read unless a batch cannot be. -/
theorem getTxBatch_cases (srv : QueryServer) (hashes : List String) :
    (∃ txs txMetas, srv.getTxBatch hashes = .ok (txs, txMetas)) ∨
      ((∃ read cause, srv.failure read = some cause) ∧
        ∃ err, srv.getTxBatch hashes = .error err) := by
  unfold getTxBatch
  split
  · exact Or.inl ⟨_, _, rfl⟩
  cases htxs : srv.failure .txs with
  | some cause => exact Or.inr ⟨⟨.txs, cause, htxs⟩, _, rfl⟩
  | none =>
    cases hmetas : srv.failure .txMetas with
    | some cause => exact Or.inr ⟨⟨.txMetas, cause, hmetas⟩, _, rfl⟩
    | none => exact Or.inl ⟨_, _, rfl⟩

section

variable [Primitives]

/-- What the first handler has read and found when it succeeds. -/
theorem getBlockByNumber_eq_ok {slots : List UInt64} {resp : BlockByNumberResponse}
    (h : srv.getBlockByNumber slots = .ok resp) :
    resp.decimals = srv.decimals.toUInt32 ∧ ∃ blockMap found txs txMetas,
      srv.getBatch slots = .ok blockMap ∧
      slots.mapM (requireBlock blockMap) = .ok found ∧
      srv.getTxBatch (found.flatMap (fun fb => fb.2.allTxHashes)) = .ok
        (txs, txMetas) ∧
      found.mapM (requireTxs (.new txs txMetas)) = .ok resp.blocks := by
  unfold getBlockByNumber at h
  split at h
  · next hnone =>
    cases h
    obtain rfl := List.length_eq_zero_iff.mp hnone
    exact ⟨rfl, ∅, [], [], ∅, rfl, rfl, rfl, rfl⟩
  split at h
  · cases h
  next blockMap hbatch =>
  split at h
  · cases h
  next found hfound =>
  dsimp only at h
  rw [getTxBatch_guard] at h
  split at h
  · cases h
  next txs txMetas htxs =>
  split at h
  · cases h
  next blocks hblocks =>
  cases h
  exact ⟨rfl, blockMap, found, txs, txMetas, hbatch, hfound, htxs, hblocks⟩

/-- Where the first handler misses a record: a block, or a transaction of
the blocks it has found. -/
theorem getBlockByNumber_eq_error {slots : List UInt64} {err : QueryError}
    (h : srv.getBlockByNumber slots = .error err) (hmissing : err.Missing) :
    ∃ blockMap, srv.getBatch slots = .ok blockMap ∧
      (slots.mapM (requireBlock blockMap) = .error err ∨
        ∃ found txs txMetas, slots.mapM (requireBlock blockMap) = .ok found ∧
          srv.getTxBatch (found.flatMap (fun fb => fb.2.allTxHashes)) = .ok
            (txs, txMetas) ∧
          found.mapM (requireTxs (.new txs txMetas)) = .error err) := by
  unfold getBlockByNumber at h
  split at h
  · cases h
  split at h
  · cases h
    exact hmissing.elim
  next blockMap hbatch =>
  refine ⟨blockMap, hbatch, ?_⟩
  split at h
  · next hfound =>
    cases h
    exact Or.inl hfound
  next found hfound =>
  dsimp only at h
  rw [getTxBatch_guard] at h
  split at h
  · cases h
    exact hmissing.elim
  next txs txMetas htxs =>
  split at h
  · next hblocks =>
    cases h
    exact Or.inr ⟨found, txs, txMetas, hfound, htxs, hblocks⟩
  · cases h

/-- **Where the first handler succeeds**, the second gives the same blocks
and reports nothing. -/
theorem answerRange_of_ok {slots : List UInt64} {resp : BlockByNumberResponse}
    (h : srv.getBlockByNumber slots = .ok resp) :
    ∃ resp', srv.answerRange slots = .ok resp' ∧ resp'.errors = [] ∧
      resp'.blocks = resp.blocks.map ProtoBlock.toBlockInfo ∧
      resp'.decimals = resp.decimals := by
  obtain ⟨hdecimals, blockMap, found, txs, txMetas, hbatch, hfound, htxs, hblocks⟩ :=
    getBlockByNumber_eq_ok h
  have hreported := Traversal.map_eq_of_mapM_eq_ok
    (fun _ _ => reportTxs_of_ok) hblocks
  unfold answerRange
  rw [hbatch]
  dsimp only
  rw [Traversal.skipReport_of_mapM_eq_ok (sameOk_block blockMap) hfound]
  dsimp only
  rw [htxs]
  dsimp only
  rw [hreported]
  refine ⟨_, rfl, ?_, ?_, hdecimals.symm⟩
  · simp
  · simp

/-- **Where the first handler misses a record**, the second reports one, or
fails for a batch that the first did not come to read. -/
theorem answerRange_of_missing {slots : List UInt64} {err : QueryError}
    (h : srv.getBlockByNumber slots = .error err) (hmissing : err.Missing) :
    (∃ resp', srv.answerRange slots = .ok resp' ∧ resp'.errors ≠ []) ∨
      ((∃ read cause, srv.failure read = some cause) ∧
        ∃ err', srv.answerRange slots = .error err') := by
  obtain ⟨blockMap, hbatch, hfound | ⟨found, txs, txMetas, hfound, htxs, hblocks⟩⟩ :=
    getBlockByNumber_eq_error h hmissing
  · -- a block is missing: the second handler goes on to read transactions,
    -- which may fail
    have herrs := Traversal.reports_of_mapM_eq_error (sameOk_block blockMap) hfound
    unfold answerRange
    rw [hbatch]
    dsimp only
    obtain ⟨txs, txMetas, htxs⟩ | ⟨hfailure, cause, htxs⟩ := getTxBatch_cases srv
      ((Traversal.skipReport (reportBlock blockMap) slots).1.flatMap fun fb =>
        fb.2.allTxHashes)
    · rw [htxs]
      exact Or.inl ⟨_, rfl, fun hnil => herrs (List.append_eq_nil_iff.mp hnil).1⟩
    · rw [htxs]
      exact Or.inr ⟨hfailure, _, rfl⟩
  · -- all blocks are there, so that both handlers have read the same transactions
    obtain ⟨fb, hmem, hfb⟩ := Traversal.exists_mem_of_mapM_eq_error hblocks
    have herrs := reportTxs_of_error hfb
    unfold answerRange
    rw [hbatch]
    dsimp only
    rw [Traversal.skipReport_of_mapM_eq_ok (sameOk_block blockMap) hfound]
    dsimp only
    rw [htxs]
    refine Or.inl ⟨_, rfl, fun hnil => herrs ?_⟩
    have hall := List.flatMap_eq_nil_iff.mp (List.append_eq_nil_iff.mp hnil).2
    exact hall _ (List.mem_map_of_mem hmem)

/-- **The two queries agree** on every range of at most five hundred slots
below the largest, whatever the store holds. If the query by slots succeeds,
so does the one by range, with the same blocks in the same order and no
errors. If it fails because a record is missing, the one by range reports an
error; should a batch be unreadable that the first query did not come to
read, it fails with that error. -/
theorem queries_agree (srv : QueryServer) {fromSlot toSlot : UInt64}
    (hle : fromSlot ≤ toSlot) (hsize : toSlot.toNat - fromSlot.toNat + 1 ≤ 500)
    (htop : toSlot.toNat < 2 ^ 64 - 1) {fuel : ℕ} (hfuel : 500 < fuel) :
    (∀ resp, srv.getBlockByNumber (slotsIn fromSlot toSlot) = .ok resp →
      ∃ resp', srv.getBlockByRange fromSlot toSlot fuel = some (.ok resp') ∧
      resp'.errors = [] ∧
        resp'.blocks = resp.blocks.map ProtoBlock.toBlockInfo) ∧
    (∀ err, srv.getBlockByNumber (slotsIn fromSlot toSlot) = .error err →
      err.Missing →
      (∃ resp', srv.getBlockByRange fromSlot toSlot fuel = some (.ok resp') ∧
        resp'.errors ≠ []) ∨
      ((∃ read cause, srv.failure read = some cause) ∧
        ∃ err', srv.getBlockByRange fromSlot toSlot fuel = some (.error err'))) := by
  have hnat := UInt64.le_iff_toNat_le.mp hle
  have hrange : srv.getBlockByRange fromSlot toSlot fuel
      = some (srv.answerRange (slotsIn fromSlot toSlot)) := by
    unfold getBlockByRange
    rw [checkRange_eq_ok_iff.mpr ⟨hle, by omega⟩]
    dsimp only
    rw [slotLoop_eq (by omega) (by omega) (by omega), List.nil_append,
      Option.map_some]
  simp only [hrange, Option.some.injEq]
  constructor
  · intro resp hresp
    obtain ⟨resp', hanswer, herrors, hblocks, -⟩ := answerRange_of_ok hresp
    exact ⟨resp', hanswer, herrors, hblocks⟩
  · intro err herr hmissing
    exact answerRange_of_missing herr hmissing

end

end QueryServer

section

attribute [local instance] Sample.primitives

/-- A database with a block of one transfer and its result, and no block at
the slot after it. -/
def Sample.oneServer : QueryServer :=
  let tx := Sample.transfer 1 2 10 1 0
  let stored := Store.empty.addBlock (Sample.blockWith 1 1 0 [tx])
  { stored with txMetas :=
    stored.txMetas.insert _ (newTxMeta (some tx) 1 "" .success "") }.queryServer 6

/-- The block of slot one is answered with its transfer. For slots one and
two the first query fails, and the second reports an error. -/
theorem queries_agree_one :
    (∃ resp', Sample.oneServer.getBlockByRange 1 1 501 = some (.ok resp') ∧
      resp'.errors = [] ∧
      resp'.blocks.map (fun b => (b.slot, b.transactionData.length)) = [(1, 1)]) ∧
    ∃ resp', Sample.oneServer.getBlockByRange 1 2 501 = some (.ok resp') ∧
    resp'.errors ≠ [] := by
  constructor
  · have hfirst : (Sample.oneServer.getBlockByNumber
      (QueryServer.slotsIn 1 1)).toOption.map
        (fun resp => resp.blocks.map fun b => (b.slot, b.transactionData.length))
        = some [(1, 1)] := by
      decide +kernel
    cases hresp : Sample.oneServer.getBlockByNumber (QueryServer.slotsIn 1 1) with
    | error err =>
      rw [hresp] at hfirst
      cases hfirst
    | ok resp =>
      rw [hresp] at hfirst
      obtain ⟨resp', hanswer, herrors, hblocks⟩ :=
        (QueryServer.queries_agree Sample.oneServer
        (show (1 : UInt64) ≤ 1 by decide) (by decide) (by decide)
          (show 500 < 501 by decide)).1 resp hresp
      refine ⟨resp', hanswer, herrors, ?_⟩
      rw [hblocks, List.map_map]
      exact Option.some.inj hfirst
  · have hfirst : Sample.oneServer.getBlockByNumber (QueryServer.slotsIn 1 2)
        = .error (.status .notFound "block 2 not found") := by
      decide +kernel
    obtain hanswer | ⟨⟨read, cause, hcause⟩, -⟩ :=
      (QueryServer.queries_agree Sample.oneServer
      (show (1 : UInt64) ≤ 2 by decide) (by decide) (by decide)
      (show 500 < 501 by decide)).2 _ hfirst trivial
    · exact hanswer
    · cases hcause

end

end Mmn
