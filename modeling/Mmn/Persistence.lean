import Mmn.Finalization

/-!
# The tables are what the database holds

`Store` and `Ledger.finalizeBlock` are written over tables;
`Raw.finalizeBlock` is written over keys and bytes. This file says when a
database holds the tables of a store (`Process.Holds`) and proves that the
two functions then do the same (`Raw.finalizeBlock_holds`): as long as no
call of the database fails, they stop together, answer the same, tell the
tracker the same, and the database again holds the tables afterwards, in
whatever order the puts of the batch were made.

Three facts carry this. The loops run in step, since every account record
that is loaded carries its balance and its address (`Accounts.Hold`). A key
names one record, so the batch leaves under it what the tables have there
(`Raw.mem_finalizedPuts_iff`). And a record that is read back is the one
that was written, which is the one thing asked of the encoding
(`LawfulCodec`).
-/

namespace Mmn

/-! ## The loaded accounts -/

/-- The record of an account. -/
def Account.record {addr : String} (a : Account addr) : AccountRecord :=
  { address := addr, balance := some a.balance, nonce := a.nonce }

/-- **Loaded records that are those of a ledger state.** -/
def Accounts.Hold (accounts : Accounts) (state : LedgerState) : Prop :=
  ∀ a, accounts.lookup a = (state.lookup a).map Account.record

namespace Accounts.Hold

variable {accounts : Accounts} {state : LedgerState}

theorem mem_iff (h : accounts.Hold state) (a : String) :
    a ∈ accounts ↔ a ∈ state := by
  rw [← AList.lookup_isSome, ← AList.lookup_isSome, h a, Option.isSome_map]

theorem insert (h : accounts.Hold state) {addr : String} (acc : Account addr) :
    Accounts.Hold (accounts.insert addr acc.record) (state.insert addr acc) := by
  intro a
  by_cases ha : a = addr
  · subst ha
    rw [AList.lookup_insert, AList.lookup_insert]
    rfl
  · rw [AList.lookup_insert_ne ha, AList.lookup_insert_ne ha]
    exact h a

theorem touch (h : accounts.Hold state) (addr : String) :
    (accounts.touch addr).Hold (state.touch addr) := by
  unfold Accounts.touch LedgerState.touch
  by_cases hmem : addr ∈ state
  · rw [if_pos ((h.mem_iff addr).mpr hmem), if_pos hmem]
    exact h
  · rw [if_neg (mt (h.mem_iff addr).mp hmem), if_neg hmem]
    exact h.insert { balance := 0, nonce := 0 }

/-- The record of an account that is there. -/
theorem lookup_of_mem (h : accounts.Hold state) {addr : String}
    (hmem : addr ∈ state) :
    accounts.lookup addr = some (state.account addr).record := by
  obtain ⟨acc, hacc⟩ := Option.isSome_iff_exists.mp (AList.lookup_isSome.mpr hmem)
  rw [h addr]
  unfold LedgerState.account
  rw [hacc]
  rfl

theorem balance_of_mem (h : accounts.Hold state) {addr : String}
    (hmem : addr ∈ state) :
    accounts.balance addr = some (state.balance addr) := by
  unfold Accounts.balance
  rw [h.lookup_of_mem hmem]
  rfl

/-- Changing the record of an account that is there. -/
theorem change (h : accounts.Hold state) {addr : String} (hmem : addr ∈ state)
    {f : AccountRecord → AccountRecord} {acc : Account addr}
    (hf : f (state.account addr).record = acc.record) :
    (accounts.change addr f).Hold (state.insert addr acc) := by
  unfold Accounts.change
  rw [h.lookup_of_mem hmem]
  dsimp only
  rw [hf]
  exact h.insert acc

theorem setBalance (h : accounts.Hold state) {addr : String} (hmem : addr ∈ state)
    (balance : BitVec 256) :
    (accounts.setBalance addr balance).Hold
      (state.insert addr { state.account addr with balance := balance }) :=
  h.change hmem rfl

/-- **A transfer does the same to both.** The accounts it changes are there,
since it has created those that were not. -/
theorem applyTx (h : accounts.Hold state) (tx : Transaction) :
    ∃ accounts', Raw.applyTx accounts tx = some
      (accounts', (Mmn.applyTx state tx).2) ∧
      accounts'.Hold (Mmn.applyTx state tx).1 := by
  unfold Raw.applyTx Mmn.applyTx
  cases tx.amount with
  | none => exact ⟨accounts, rfl, h⟩
  | some amount =>
    dsimp only
    have htouched := (h.touch tx.sender).touch tx.recipient
    have hsender : tx.sender ∈ (state.touch tx.sender).touch tx.recipient := by simp
    have hrecipient : tx.recipient ∈
        ((state.touch tx.sender).touch tx.recipient).debit tx.sender amount := by simp
    rw [htouched.balance_of_mem hsender]
    dsimp only
    split
    · exact ⟨_, rfl, htouched⟩
    have hdebited := htouched.setBalance hsender
      (((state.touch tx.sender).touch tx.recipient).balance tx.sender - amount)
    rw [hdebited.balance_of_mem hrecipient]
    refine ⟨_, rfl, (hdebited.setBalance hrecipient _).change ?_ rfl⟩
    show tx.sender
      ∈ (((state.touch tx.sender).touch tx.recipient).debit tx.sender amount).credit
      tx.recipient amount
    simp

end Accounts.Hold

section

variable [Primitives]

/-! ## The loops -/

/-- The tracker once it is told of some transactions. A listener tells it
nothing. -/
def Ledger.told (isListener : Bool) (t : TransactionTracker)
    (txs : List Transaction) :
    Option TransactionTracker :=
  if isListener then some t else removeTransactions t txs

/-- **The two loops are in step.** -/
structure Progress.InStep (r : Progress) (run : BlockRun) : Prop where
  state : r.state.Hold run.state
  txMetas : r.txMetas = run.txMetas
  txContents : r.txContents = run.txContents
  relatedContentHashes : r.relatedContentHashes = run.relatedContentHashes
  rootContentHashes : r.rootContentHashes = run.rootContentHashes

namespace Progress.InStep

variable {r : Progress} {run : BlockRun}

theorem applyOne (h : r.InStep run) (b : Block) (tx : Transaction) :
    ∃ r', Raw.applyOne b r tx = some r' ∧ r'.tracker = r.tracker ∧
      r'.InStep (runTx b run tx) := by
  unfold Raw.applyOne runTx
  dsimp only
  rw [h.txMetas, h.txContents, h.relatedContentHashes, h.rootContentHashes]
  split
  · cases unmarshalUserContent tx.extraInfo with
    | none => exact ⟨_, rfl, rfl, h.state, rfl, rfl, rfl, rfl⟩
    | some content => exact ⟨_, rfl, rfl, h.state, rfl, rfl, rfl, rfl⟩
  · obtain ⟨state', happly, hstate⟩ := h.state.applyTx tx
    rw [happly]
    cases hres : applyTx run.state tx with
    | mk state res =>
      rw [hres] at hstate
      cases res with
      | error err => exact ⟨_, rfl, rfl, hstate, rfl, rfl, rfl, rfl⟩
      | ok => exact ⟨_, rfl, rfl, hstate, rfl, rfl, rfl, rfl⟩

/-- **The loops stop together, or end in step** with the tracker told. -/
theorem runTxs (h : r.InStep run) (b : Block) (isListener : Bool)
    (txs : List Transaction) :
    (Raw.runTxs b isListener r txs = none ∧
      Ledger.told isListener r.tracker txs = none) ∨
      ∃ r', Raw.runTxs b isListener r txs = some r' ∧
        Ledger.told isListener r.tracker txs = some r'.tracker ∧
        r'.InStep (txs.foldl (runTx b) run) := by
  induction txs generalizing r run with
  | nil =>
    refine Or.inr ⟨r, rfl, ?_, h⟩
    cases isListener <;> rfl
  | cons tx txs ih =>
    obtain ⟨r₁, hone, htracker, hstep⟩ := h.applyOne b tx
    unfold Raw.runTxs Raw.runTx
    rw [hone, List.foldl_cons]
    cases isListener with
    | true =>
      have hrest := ih hstep
      rw [htracker] at hrest
      exact hrest
    | false =>
      have htold : Ledger.told false r.tracker (tx :: txs)
          = (r₁.tracker.removeTransaction (Transaction.hash (some tx))).bind
            (fun t => Ledger.told false t txs) := by
        rw [htracker]
        show Ledger.removeTransactions r.tracker (tx :: txs) = _
        unfold Ledger.removeTransactions
        cases r.tracker.removeTransaction (Transaction.hash (some tx)) <;> rfl
      rw [htold]
      dsimp only
      rw [if_neg Bool.false_ne_true]
      cases r₁.tracker.removeTransaction (Transaction.hash (some tx)) with
      | none => exact Or.inl ⟨rfl, rfl⟩
      | some t =>
        exact ih (r := { r₁ with tracker := t })
          ⟨hstep.state, hstep.txMetas, hstep.txContents,
          hstep.relatedContentHashes, hstep.rootContentHashes⟩

end Progress.InStep

end

section

variable [Codec]

/-! ## The tables -/

/-- **An account that is written is read back.** -/
class LawfulCodec : Prop where
  unmarshal_marshal : ∀ r : AccountRecord,
    Codec.unmarshalAccount (Codec.marshalAccount r) = some r

/-- **The database holds the tables of a store.** -/
structure Process.Holds (p : Process) (s : Store) : Prop where
  txs : ∀ h, p.db.tx h = s.getTxByHash h
  accounts : ∀ a, p.db.account a = (s.accounts.lookup a).map Account.record
  versions : ∀ root, p.db (Key.latestVersionContent root).bytes
    = s.latestVersions.lookup root
  metas : ∀ h, p.db (Key.txMeta h).bytes
    = (s.txMetas.lookup h).map (Codec.marshalTxMeta h)
  blocks : ∀ slot, p.db (Key.block slot).bytes = (s.block slot).map Codec.marshalBlock
  finalized : ∀ slot,
    p.db (Key.finalized slot).bytes = if slot ∈ s.finalized then some [1] else none
  /-- The recorded latest finalized slot. -/
  latestFinalizedMeta : p.db Key.latestFinalized.bytes
    = s.latestFinalizedMeta.map putUint64
  /-- The recorded latest stored slot. -/
  latestStoreMeta : p.db Key.latestStore.bytes = s.latestStoreMeta.map putUint64
  /-- The slot finalized last, in memory. -/
  latestFinalized : p.latestFinalized = s.latestFinalized

/-- What is put under a key when a block is finalized. -/
def effectAt (latestFinalized : UInt64) (blk : Block)
    (txMetas : AList TransactionMeta) (state : LedgerState)
    (latest : LatestVersions) : Key → Option Bytes
  | .account a => (state.lookup a).map (fun acc => Codec.marshalAccount acc.record)
  | .latestFinalized =>
    if blk.slot > latestFinalized then some (putUint64 blk.slot) else none
  | .latestStore => none
  | .block slot =>
    if slot = blk.slot then some
      (Codec.marshalBlock { blk with status := .finalized }) else none
  | .finalized slot => if slot = blk.slot then some [1] else none
  | .tx _ => none
  | .txMeta h => (txMetas.lookup h).map (Codec.marshalTxMeta h)
  | .latestVersionContent root =>
    (latest.lookup root).map (fun h => (hexDecode h).getD [])

namespace Process.Holds

variable {p : Process} {s : Store}

theorem empty (tracker : TransactionTracker) :
    Process.Holds ⟨fun _ => none, 0, tracker⟩ Store.empty where
  txs _ := rfl
  accounts _ := rfl
  versions _ := rfl
  metas _ := rfl
  blocks _ := rfl
  finalized _ := rfl
  latestFinalizedMeta := rfl
  latestStoreMeta := rfl
  latestFinalized := rfl

theorem setTracker (h : p.Holds s) (tracker : TransactionTracker) :
    Process.Holds { p with tracker := tracker } s :=
  ⟨h.txs, h.accounts, h.versions, h.metas, h.blocks, h.finalized,
    h.latestFinalizedMeta, h.latestStoreMeta, h.latestFinalized⟩

theorem hold_loadAll (h : p.Holds s) (addrs : List String) :
    Accounts.Hold (AList.loadAll addrs p.db.account) (s.getAccountBatch addrs) := by
  intro a
  unfold Store.getAccountBatch
  rw [AList.lookup_loadAll, AList.lookup_loadAll]
  split
  · exact h.accounts a
  · rfl

theorem filterMap_tx (h : p.Holds s) (txHashes : List String) :
    txHashes.filterMap p.db.tx = s.getTxBatch txHashes :=
  List.filterMap_congr fun k _ => h.txs k

theorem loadAll_latestVersion (h : p.Holds s) (roots : List String) :
    AList.loadAll roots p.db.latestVersion
      = s.getBatchLatestVersionContentHash roots :=
  AList.loadAll_congr fun root _ => congrArg (Option.map hexEncode) (h.versions root)

theorem isNone_block_iff (h : p.Holds s) (slot : UInt64) :
    (p.db (Key.block slot).bytes).isNone = true ↔ slot ∉ s.blocks := by
  rw [h.blocks, Option.isNone_map, Store.mem_blocks_iff, Option.isNone_iff_eq_none,
    Option.eq_none_iff_forall_ne_some, not_exists]

/-- **The effects of a block, written to both.** -/
theorem putFinalized [LawfulCodec] (h : p.Holds s) {db : Database} {blk : Block}
    {txMetas : AList TransactionMeta} {state : LedgerState} {latest : LatestVersions}
    (hdb : ∀ k : Key, db k.bytes
      = (effectAt p.latestFinalized blk txMetas state latest k).or (p.db k.bytes))
    (tracker : TransactionTracker) :
    Process.Holds ⟨db, blk.slot, tracker⟩
      (s.putFinalized blk txMetas state latest) where
  txs k := by
    refine Eq.trans ?_ (h.txs k)
    show (db (Key.tx k).bytes).bind _ = (p.db (Key.tx k).bytes).bind _
    rw [hdb]
    rfl
  accounts a := by
    show (db (Key.account a).bytes).bind _
      = ((AList.writeAll (fun _ acc => acc) state s.accounts).lookup a).map _
    rw [hdb, AList.lookup_writeAll, Option.map_id']
    dsimp only [effectAt]
    cases state.lookup a with
    | none => exact h.accounts a
    | some acc => exact LawfulCodec.unmarshal_marshal acc.record
  versions root := by
    show db (Key.latestVersionContent root).bytes
      = (AList.writeAll (fun _ h => (hexDecode h).getD []) latest
        s.latestVersions).lookup root
    rw [hdb, AList.lookup_writeAll, h.versions]
    rfl
  metas k := by
    show db (Key.txMeta k).bytes
      = ((AList.writeAll (fun _ m => m) txMetas s.txMetas).lookup k).map _
    rw [hdb, AList.lookup_writeAll, h.metas, Option.map_id']
    dsimp only [effectAt]
    cases txMetas.lookup k <;> rfl
  blocks slot := by
    show db (Key.block slot).bytes = _
    rw [hdb, h.blocks, Store.block_putFinalized]
    dsimp only [effectAt]
    split <;> rfl
  finalized slot := by
    show db (Key.finalized slot).bytes = if slot ∈ insert blk.slot s.finalized
      then _ else _
    rw [hdb, h.finalized]
    dsimp only [effectAt]
    by_cases hslot : slot = blk.slot
    · rw [if_pos hslot, if_pos (Finset.mem_insert.mpr (Or.inl hslot))]
      rfl
    · rw [if_neg hslot, Option.none_or]
      simp only [Finset.mem_insert, hslot, false_or]
  latestFinalizedMeta := by
    show db Key.latestFinalized.bytes
      = (if blk.slot > s.latestFinalized then some blk.slot
        else s.latestFinalizedMeta).map _
    rw [hdb, h.latestFinalizedMeta, ← h.latestFinalized]
    dsimp only [effectAt]
    split <;> rfl
  latestStoreMeta := by
    show db Key.latestStore.bytes = s.latestStoreMeta.map putUint64
    rw [hdb, h.latestStoreMeta]
    rfl
  latestFinalized := rfl

end Process.Holds

/-! ## The batch -/

namespace Raw

variable {env : Environment} {p : Process} {s : Store}

/-- **What the batch puts under a key.** -/
theorem mem_finalizedPuts_iff {accounts : Accounts} {state : LedgerState}
    (h : accounts.Hold state) (blk : Block) (txMetas : AList TransactionMeta)
    (latest : LatestVersions) (k : Key) (v : Bytes) :
    (k.bytes, v) ∈ finalizedPuts p blk txMetas accounts latest ↔
      effectAt p.latestFinalized blk txMetas state latest k = some v := by
  unfold finalizedPuts
  simp only [List.mem_append, List.mem_map, List.mem_singleton,
    List.mem_ite_nil_right,
    Prod.mk.injEq, Key.bytes_injective.eq_iff, Sigma.exists, ← AList.mem_lookup_iff]
  cases k with
  | account a =>
    -- a record carries the address it is filed under
    suffices (∃ a' r, accounts.lookup a' = some r ∧ r.address = a ∧
      Codec.marshalAccount r = v) ↔
        ∃ acc, state.lookup a = some acc ∧ Codec.marshalAccount acc.record = v by
      simpa [effectAt] using this
    refine ⟨fun ⟨a', r, hr, haddr, hv⟩ => ?_, fun ⟨acc, hacc, hv⟩ => ?_⟩
    · rw [h a'] at hr
      obtain ⟨acc, hacc, rfl⟩ := Option.map_eq_some_iff.mp hr
      obtain rfl : a' = a := haddr
      exact ⟨acc, hacc, hv⟩
    · exact ⟨a, acc.record, by rw [h a, hacc]; rfl, rfl, hv⟩
  | txMeta k =>
    suffices (∃ k' m, txMetas.lookup k' = some m ∧ k' = k ∧
      Codec.marshalTxMeta k' m = v) ↔
        ∃ m, txMetas.lookup k = some m ∧ Codec.marshalTxMeta k m = v by
      simpa [effectAt] using this
    refine ⟨fun ⟨k', m, hm, hk, hv⟩ => ?_, fun ⟨m, hm, hv⟩ => ⟨k, m, hm, rfl, hv⟩⟩
    subst hk
    exact ⟨m, hm, hv⟩
  | latestFinalized => simpa [effectAt] using fun _ => eq_comm
  | block slot => simpa [effectAt] using fun _ => eq_comm
  | finalized slot => simpa [effectAt] using fun _ => eq_comm
  | latestStore => simp [effectAt]
  | tx k => simp [effectAt]
  | latestVersionContent root => simp [effectAt]

/-- **What the batch leaves under a key.** -/
theorem writeBatch_finalizedPuts {accounts : Accounts} {state : LedgerState}
    (h : accounts.Hold state) (env : Environment) (blk : Block)
    (txMetas : AList TransactionMeta) (latest : LatestVersions) (k : Key) :
    KeySpace.writeBatch p.db
      (env.arrange (finalizedPuts p blk txMetas accounts latest)) k.bytes
      = (effectAt p.latestFinalized blk txMetas state latest k).or (p.db k.bytes) :=
  KeySpace.writeBatch_eq_or fun v =>
    (env.perm _).mem_iff.trans (mem_finalizedPuts_iff h blk txMetas latest k v)

/-- **The final write does the same to both.** -/
theorem storeFinalizeBlock_holds [LawfulCodec] (henv : ∀ call, env.error call = none)
    (h : p.Holds s) {accounts : Accounts} {state : LedgerState}
    (hstate : accounts.Hold state) (blk : Block) (txMetas : AList TransactionMeta)
    (latest : LatestVersions) :
    (∃ err, storeFinalizeBlock env p blk txMetas accounts latest = .error err ∧
        s.finalizeBlock blk txMetas state latest = .error err) ∨
      ∃ p' s', storeFinalizeBlock env p blk txMetas accounts latest = .ok p' ∧
        s.finalizeBlock blk txMetas state latest = .ok s' ∧ p'.tracker = p.tracker ∧
        p'.Holds s' := by
  unfold storeFinalizeBlock Store.finalizeBlock
  rw [henv, henv]
  by_cases hslot : blk.slot ∈ s.blocks
  swap
  · rw [if_pos hslot, (h.isNone_block_iff blk.slot).mpr hslot]
    exact Or.inl ⟨_, rfl, rfl⟩
  rw [if_neg (not_not.mpr hslot),
    Bool.eq_false_iff.mpr (mt (h.isNone_block_iff blk.slot).mp (not_not.mpr hslot))]
  cases latest.entries.find? (fun e => (hexDecode e.2).isNone) with
  | some e => exact Or.inl ⟨_, rfl, rfl⟩
  | none =>
    exact Or.inr ⟨_, _, rfl, rfl, rfl,
      h.putFinalized (fun k => writeBatch_finalizedPuts hstate env blk txMetas latest
        k) p.tracker⟩

/-! ## The function -/

theorem getTxBatch_eq_ok (henv : ∀ call, env.error call = none) (h : p.Holds s)
    (call : DbCall) (txHashes : List String) :
    getTxBatch env call p.db txHashes = .ok (s.getTxBatch txHashes) := by
  obtain ⟨_, -, hfails, -⟩ | ⟨-, hok⟩ := getTxBatch_eq env call p.db txHashes
  · rw [henv] at hfails
    cases hfails
  · rw [hok, h.filterMap_tx]

theorem getAccountBatch_eq_ok (henv : ∀ call, env.error call = none) (db : Database)
    (addrs : List String) : getAccountBatch env db addrs
      = .ok (AList.loadAll addrs db.account) := by
  obtain ⟨_, -, hfails, -⟩ | ⟨-, hok⟩ := getAccountBatch_eq env db addrs
  · rw [henv] at hfails
    cases hfails
  · exact hok

theorem getBatchLatestVersionContentHash_eq (henv : ∀ call, env.error call = none)
    (h : p.Holds s) (roots : List String) :
    getBatchLatestVersionContentHash env p.db roots
      = .ok (s.getBatchLatestVersionContentHash roots) := by
  rw [← h.loadAll_latestVersion]
  unfold getBatchLatestVersionContentHash
  rw [henv]
  split
  · next hnil =>
    rw [hnil]
    rfl
  · rfl

variable [Primitives]

/-- **Running a block's transactions does the same to both**, up to the
check of its contents. -/
theorem executeBlock_inStep (h : p.Holds s) (b : Block) (isListener : Bool) :
    (runTxs b isListener
      (.start (AList.loadAll (accAddrs (s.txsInBlock b)) p.db.account) p.tracker)
        (s.txsInBlock b) = none ∧
        Ledger.told isListener p.tracker (s.txsInBlock b) = none) ∨
      ∃ r, runTxs b isListener
          (.start (AList.loadAll (accAddrs (s.txsInBlock b)) p.db.account) p.tracker)
          (s.txsInBlock b) = some r ∧
        Ledger.told isListener p.tracker (s.txsInBlock b) = some r.tracker ∧
        r.state.Hold (s.executeBlock b).state ∧
        r.txContents.foldl
          (runContent b (indexByHash (s.getTxBatch r.relatedContentHashes)))
            (r.txMetas, s.getBatchLatestVersionContentHash r.rootContentHashes)
          = ((s.executeBlock b).txMetas, (s.executeBlock b).latest) := by
  have hstart :
    (Progress.start (AList.loadAll (accAddrs (s.txsInBlock b)) p.db.account)
      p.tracker).InStep ⟨s.getAccountBatch (accAddrs (s.txsInBlock b)), ∅, [],
      [], []⟩ :=
    ⟨h.hold_loadAll _, rfl, rfl, rfl, rfl⟩
  obtain hstops | ⟨r, hrun, htold, hstep⟩ :=
    hstart.runTxs b isListener (s.txsInBlock b)
  · exact Or.inl hstops
  · refine Or.inr ⟨r, hrun, htold, hstep.state, ?_⟩
    rw [hstep.txContents, hstep.txMetas, hstep.relatedContentHashes,
      hstep.rootContentHashes]
    rfl

/-- **Applying a block is the same over the database and over the tables.**
As long as no call of the database fails, both stop or both answer, with the
same answer and the same tracker, and the database holds the tables again. -/
theorem finalizeBlock_holds [LawfulCodec] (henv : ∀ call, env.error call = none)
    (h : p.Holds s) (b : Block) (isListener : Bool) :
    (finalizeBlock env p b isListener = none ∧
        Ledger.finalizeBlock s p.tracker b isListener = none) ∨
      ∃ p' s' res, finalizeBlock env p b isListener = some (p', res) ∧
        Ledger.finalizeBlock s p.tracker b isListener = some (s', p'.tracker, res) ∧
        p'.Holds s' := by
  unfold finalizeBlock Ledger.finalizeBlock
  by_cases hinvalid : b.invalidPoH = true
  · rw [if_pos hinvalid, if_pos hinvalid]
    exact Or.inr ⟨p, s, _, rfl, rfl, h⟩
  have htxs : s.getTxBatch b.txHashes = s.txsInBlock b := rfl
  rw [if_neg hinvalid, if_neg hinvalid, getTxBatch_eq_ok henv h, htxs]
  dsimp only
  rw [getAccountBatch_eq_ok henv]
  dsimp only
  obtain ⟨hrun, htold⟩ | ⟨r, hrun, htold, hstate, hcontents⟩ :=
    executeBlock_inStep h b isListener
  · unfold Ledger.told at htold
    rw [hrun, htold]
    exact Or.inl ⟨rfl, rfl⟩
  unfold Ledger.told at htold
  rw [hrun, htold]
  dsimp only
  have htracked := h.setTracker r.tracker
  rw [getTxBatch_eq_ok henv htracked]
  dsimp only
  rw [getBatchLatestVersionContentHash_eq henv htracked]
  dsimp only
  rw [hcontents]
  dsimp only
  obtain ⟨err, hraw, hstore⟩ | ⟨p', s', hraw, hstore, htracker, hholds⟩ :=
    storeFinalizeBlock_holds henv htracked hstate b (s.executeBlock b).txMetas
      (s.executeBlock b).latest
  · rw [hraw, hstore]
    exact Or.inr ⟨_, s, _, rfl, rfl, htracked⟩
  · rw [hraw, hstore]
    exact Or.inr ⟨p', s', _, rfl, by rw [htracker], hholds⟩

end Raw

end

end Mmn
