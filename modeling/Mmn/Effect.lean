import Mmn.Operations

/-!
# What becomes of a stored transaction

Three loops walk the entries of a block. The handler of live blocks
remembers and cleans up the transactions of all entries; `AddBlockPending`
stores those of the entries that are not marked as ticks; `FinalizeBlock`
runs, in the entries that are not marked as ticks, what the transaction
store has under their hashes. The mark is part of the message, and neither
the hash chain nor the block's hash covers it.

What the last two loops do is general. Every transaction of a stored block
that is not in a tick entry is in the transaction store under its hash
(`Core.Recorded`), and whenever the block is applied it gets a meta record
that says how it ended (`Core.Effective`). The only exception is a hash that
also names the null transaction, which the store reads back as the zero
transaction.

The first loop meets the other two because `VerifyPoH` refuses what could
tell them apart: a block that passes it, and whose transactions verify, has
none in a tick entry. It has none in any other entry either, because the
bound on the size of a transaction in an entry is smaller than any signed
transaction (`not_verify_of_verifyEntries`). That is the only place where
the size matters; everything else would stand if the bound were larger.
-/

namespace Mmn

section

variable [Primitives]

/-! ## Meta records -/

omit [Primitives] in
/-- **A transaction is settled**: its meta record says how it ended. -/
def Settled (txMetas : AList TransactionMeta) (txHash : String) : Prop :=
  ∃ m, txMetas.lookup txHash = some m ∧ (m.status = .success ∨ m.status = .failed)

omit [Primitives] in
/-- A final record settles its transaction, and unsettles none. -/
theorem Settled.insert {txMetas : AList TransactionMeta} {txHash h : String}
    {m : TransactionMeta txHash} (hm : m.status = .success ∨ m.status = .failed)
    (hs : h = txHash ∨ Settled txMetas h) : Settled (txMetas.insert txHash m) h := by
  by_cases heq : h = txHash
  · subst heq
    exact ⟨m, AList.lookup_insert _, hm⟩
  · obtain ⟨m', hlook, hm'⟩ := hs.resolve_left heq
    exact ⟨m', by rw [AList.lookup_insert_ne heq, hlook], hm'⟩

/-- The loop over a block's transactions has dealt with one: it is settled,
or set aside. -/
def BlockRun.Handled (r : BlockRun) (tx : Transaction) : Prop :=
  Settled r.txMetas (Transaction.hash (some tx)) ∨ tx ∈ r.txContents

/-- **One transaction of a block** is dealt with, and so are those before
it. -/
theorem handled_runTx (b : Block) {r : BlockRun} {tx tx' : Transaction}
    (h : tx' = tx ∨ r.Handled tx') : (runTx b r tx).Handled tx' := by
  have hnote : ∀ {st : LedgerState} {status : TxStatus} {err : String},
      status = .success ∨ status = .failed →
      BlockRun.Handled { r with
        state := st
        txMetas := r.txMetas.insert _ (b.txMeta tx status err) } tx' := by
    intro st status err hstatus
    obtain rfl | hsettled | hcontent := h
    · exact Or.inl (.insert hstatus (Or.inl rfl))
    · exact Or.inl (.insert hstatus (Or.inr hsettled))
    · exact Or.inr hcontent
  obtain ⟨-, -, heq⟩ | ⟨-, -, _, _, heq⟩ | ⟨-, status, err, hstatus, heq⟩ :=
    runTx_cases b r tx <;>
    rw [heq]
  · exact hnote (Or.inr rfl)
  · obtain rfl | hsettled | hcontent := h
    · exact Or.inr (List.mem_append_right _ (List.mem_singleton_self _))
    · exact Or.inl hsettled
    · exact Or.inr (List.mem_append_left _ hcontent)
  · exact hnote (hstatus.imp And.left And.left)

theorem handled_foldl_runTx (b : Block) {txs : List Transaction} {r : BlockRun}
    {tx : Transaction} (h : tx ∈ txs ∨ r.Handled tx) :
    (txs.foldl (runTx b) r).Handled tx := by
  induction txs generalizing r with
  | nil => exact h.resolve_left List.not_mem_nil
  | cons tx' txs ih =>
    rw [List.foldl_cons]
    rw [List.mem_cons, or_right_comm] at h
    exact ih (h.symm.imp_right (handled_runTx b))

/-- **One piece of content** is settled, and so are those before it. -/
theorem settled_runContent (b : Block)
    (related : AList (fun _ : String => Transaction))
    {r : AList TransactionMeta × LatestVersions} {tx : Transaction} {h : String}
    (hs : h = Transaction.hash (some tx) ∨ Settled r.1 h) :
    Settled (runContent b related r tx).1 h := by
  obtain ⟨_, _, hstatus, heq⟩ := runContent_cases b related r tx
  rw [heq]
  exact .insert hstatus hs

theorem settled_foldl_runContent (b : Block)
    (related : AList (fun _ : String => Transaction)) {txs : List Transaction}
    {r : AList TransactionMeta × LatestVersions} {tx : Transaction}
    (h : tx ∈ txs ∨ Settled r.1 (Transaction.hash (some tx))) :
    Settled (txs.foldl (runContent b related) r).1 (Transaction.hash (some tx)) := by
  induction txs generalizing r with
  | nil => exact h.resolve_left List.not_mem_nil
  | cons tx' txs ih =>
    rw [List.foldl_cons]
    rw [List.mem_cons, or_right_comm] at h
    refine ih (h.symm.imp_right fun hs => settled_runContent b related ?_)
    exact hs.imp_left (fun heq => by rw [heq])

/-- **Running a block settles its transactions.** -/
theorem settled_executeBlock {s : Store} {b : Block} {tx : Transaction}
    (h : tx ∈ s.txsInBlock b) :
    Settled (s.executeBlock b).txMetas (Transaction.hash (some tx)) := by
  unfold Store.executeBlock
  refine settled_foldl_runContent b _ (Or.symm ?_)
  exact handled_foldl_runTx b (Or.inl h)

/-- **Applying a block settles every transaction the store has for it.** -/
theorem settled_applyBlock {s : Store} {b : Block} {h : String} {tx : Transaction}
    (hmem : h ∈ b.txHashes) (hlook : s.txs.lookup h = some (some tx))
    (hhash : Transaction.hash (some tx) = h) :
    Settled (s.applyBlock b).txMetas h := by
  subst hhash
  have htx : tx ∈ s.txsInBlock b := by
    refine List.mem_filterMap.mpr ⟨_, hmem, ?_⟩
    unfold Store.getTxByHash
    rw [hlook]
    rfl
  obtain ⟨m, hm, hstatus⟩ := settled_executeBlock htx
  refine ⟨m, ?_, hstatus⟩
  show (AList.writeAll (fun _ m => m) (s.executeBlock b).txMetas s.txMetas).lookup
    _ = some m
  rw [AList.lookup_writeAll, hm]
  rfl

/-! ## What a stored block leaves -/

/-- The hashes of a stored block that are run. -/
theorem txHashes_eq_map (blk : BroadcastedBlock) :
    (broadcastedBlockToBlock blk).txHashes = blk.blockTxs.map Transaction.hash := by
  unfold Block.txHashes BroadcastedBlock.blockTxs
  rw [List.map_flatMap]
  show ((blk.entries.map Entry.toPersistent).filter _).flatMap _ = _
  rw [List.filter_map, List.flatMap_map]
  rfl

theorem entries_flatMap_txHashes (blk : BroadcastedBlock) :
    (broadcastedBlockToBlock blk).entries.flatMap PersistentEntry.txHashes
      = blk.allTxs.map Transaction.hash := by
  unfold BroadcastedBlock.allTxs
  rw [List.map_flatMap]
  show (blk.entries.map Entry.toPersistent).flatMap _ = _
  rw [List.flatMap_map]
  rfl

omit [Primitives] in
theorem mem_entries_of_mem_txHashes {b : Block} {h : String} (hmem : h ∈ b.txHashes) :
    h ∈ b.entries.flatMap PersistentEntry.txHashes := by
  obtain ⟨e, he, hh⟩ := List.mem_flatMap.mp hmem
  exact List.mem_flatMap.mpr ⟨e, List.mem_of_mem_filter he, hh⟩

namespace Store

omit [Primitives] in
/-- **The block of a slot, whatever its status**: the block as it was
stored. -/
def content (s : Store) (slot : UInt64) : Option Block :=
  (s.block slot).map (fun b => { b with status := .pending })

omit [Primitives] in
theorem content_of_block {s : Store} {slot : UInt64} {b : Block}
    (h : s.block slot = some b) :
    s.content slot = some { b with status := .pending } := by
  unfold content
  rw [h]
  rfl

theorem content_addBlock (s : Store) (blk : BroadcastedBlock) (slot : UInt64) :
    (s.addBlock blk).content slot
      = if slot = blk.slot then some (broadcastedBlockToBlock blk)
        else s.content slot := by
  unfold content
  rw [block_addBlock]
  split <;> rfl

theorem content_applyBlock {s : Store} {b : Block} (hb : s.block b.slot = some b)
    (slot : UInt64) : (s.applyBlock b).content slot = s.content slot := by
  unfold content
  rw [block_applyBlock hb, Option.map_map]
  congr 1
  funext b'
  rw [Function.comp_apply]
  split <;> rfl

omit [Primitives] in
theorem mem_blocks_of_content {s : Store} {slot : UInt64} {b : Block}
    (h : s.content slot = some b) : slot ∈ s.blocks := by
  obtain ⟨b', hb', -⟩ := Option.map_eq_some_iff.mp h
  exact mem_blocks_iff.mpr ⟨b', hb'⟩

end Store

namespace Core

/-- The node has stored the block. -/
def Stored (c : Core) (blk : BroadcastedBlock) : Prop :=
  ∃ before, Event.stored before blk ∈ c.history

/-- The blocks the node has stored, oldest first. -/
def storedBlocks (c : Core) : List BroadcastedBlock :=
  c.history.filterMap (fun e => match e with
    | .stored _ blk => some blk
    | _ => none)

variable {c c' : Core}

theorem stored_iff_mem_storedBlocks {blk : BroadcastedBlock} :
    c.Stored blk ↔ blk ∈ c.storedBlocks := by
  unfold Stored storedBlocks
  rw [List.mem_filterMap]
  constructor
  · rintro ⟨before, hmem⟩
    exact ⟨_, hmem, rfl⟩
  · rintro ⟨e, hmem, he⟩
    cases e with
    | stored before b =>
      cases he
      exact ⟨before, hmem⟩
    | committed => cases he
    | synced => cases he
    | voted => cases he

/-- An event that is not a block stored adds no stored block. -/
theorem stored_append_iff {events : List Event}
    (hevents : ∀ before blk, Event.stored before blk ∉ events)
    (hhistory : c'.history = c.history ++ events) (blk : BroadcastedBlock) :
    c'.Stored blk ↔ c.Stored blk := by
  unfold Stored
  rw [hhistory]
  refine exists_congr fun before => ?_
  rw [List.mem_append]
  exact ⟨fun h => h.resolve_right (hevents before blk), Or.inl⟩

/-- **A change stores one block and nothing else, or keeps the contents of
all blocks.** -/
theorem Change.stored_cases (h : Change c c') :
    (∃ b, b.slot ∉ c.store.blocks ∧ c'.store = c.store.addBlock b ∧
        ∀ blk, c'.Stored blk ↔ c.Stored blk ∨ blk = b) ∨
      ((∀ slot, c'.store.content slot = c.store.content slot) ∧
        c'.store.txs = c.store.txs ∧ ∀ blk, c'.Stored blk ↔ c.Stored blk) := by
  cases h with
  | add b hfree hstore hhistory =>
    refine Or.inl ⟨b, hfree, hstore, fun blk => ?_⟩
    unfold Stored
    rw [hhistory]
    simp only [List.mem_append, List.mem_singleton, Event.stored.injEq, exists_or,
      exists_eq_left]
  | apply b note hb _ hnote hstore hhistory =>
    refine Or.inr ⟨?_, ?_, stored_append_iff ?_ hhistory⟩
    · rw [hstore]
      exact Store.content_applyBlock hb
    · rw [hstore]
      rfl
    · intro before blk hmem
      rw [← List.mem_singleton.mp hmem] at hnote
      cases hnote
  | keep votes hstore hhistory =>
    refine Or.inr ⟨?_, hstore.txs, stored_append_iff ?_ hhistory⟩
    · intro slot
      unfold Store.content
      rw [hstore.block]
    · intro before blk hmem
      obtain ⟨v, -, heq⟩ := List.mem_map.mp hmem
      cases heq

/-- A change keeps the content of every slot that has one. -/
theorem Change.content_of_content (h : Change c c') {slot : UInt64} {b : Block}
    (hb : c.store.content slot = some b) : c'.store.content slot = some b := by
  obtain ⟨blk, hfree, hstore, -⟩ | ⟨hcontent, -⟩ := h.stored_cases
  · have hne : ¬slot = blk.slot := by
      rintro rfl
      exact hfree (Store.mem_blocks_of_content hb)
    rw [hstore, Store.content_addBlock, if_neg hne, hb]
  · rw [hcontent, hb]

theorem Changes.stored (h : Changes c c') {blk : BroadcastedBlock}
    (hblk : c.Stored blk) :
    c'.Stored blk := by
  induction h with
  | refl => exact hblk
  | tail _ hlast ih =>
    obtain ⟨b, -, -, hstored⟩ | ⟨-, -, hstored⟩ := hlast.stored_cases
    · exact (hstored blk).mpr (Or.inl ih)
    · exact (hstored blk).mpr ih

/-- **An event that applied a block** is old, or applied the block of a slot
to the store before the change. -/
theorem Change.applied_cases (h : Change c c') {e : Event} {before : Store}
    {b : Block} (he : e ∈ c'.history) (happ : e.applied = some (before, b)) :
    e ∈ c.history ∨ (before = c.store ∧ c.store.block b.slot = some b) := by
  cases h with
  | add blk _ _ hhistory =>
    rw [hhistory, List.mem_append, List.mem_singleton] at he
    obtain hold | rfl := he
    · exact Or.inl hold
    · cases happ
  | apply b' note hb _ hnote _ hhistory =>
    rw [hhistory, List.mem_append, List.mem_singleton] at he
    obtain hold | rfl := he
    · exact Or.inl hold
    · rw [hnote] at happ
      cases happ
      exact Or.inr ⟨rfl, hb⟩
  | keep votes _ hhistory =>
    rw [hhistory, List.mem_append] at he
    obtain hold | hvote := he
    · exact Or.inl hold
    · obtain ⟨v, -, rfl⟩ := List.mem_map.mp hvote
      cases happ

/-- **The store records what was stored.** -/
structure Recorded (c : Core) : Prop where
  kept : ∀ blk, c.Stored blk →
    c.store.content blk.slot = some (broadcastedBlockToBlock blk)
  origin : ∀ slot b, c.store.content slot = some b →
    (∃ blk, c.Stored blk ∧ b = broadcastedBlockToBlock blk) ∨
      b.entries.flatMap PersistentEntry.txHashes = []
  named : ∀ h t, c.store.txs.lookup h = some t → Transaction.hash t = h
  /-- The transactions of a stored block are there, except those of tick
  entries. -/
  written : ∀ blk, c.Stored blk → ∀ t ∈ blk.blockTxs,
    ∃ t', c.store.txs.lookup (Transaction.hash t) = some t'

namespace Recorded

theorem of_isGenesis {cfg : Config} {now : UInt64} {s : Store} (h : IsGenesis now s) :
    Recorded (Node.new cfg s).toCore where
  kept := by
    rintro blk ⟨before, hmem⟩
    cases hmem
  origin := by
    intro slot b hb
    refine Or.inr ?_
    have hb' : (s.block slot).map _ = some b := hb
    rw [h.block] at hb'
    split at hb'
    · cases hb'
      rfl
    · cases hb'
  named := by
    intro tx t hlook
    have hlook' : s.txs.lookup tx = some t := hlook
    rw [h.txs] at hlook'
    cases hlook'
  written := by
    rintro blk ⟨before, hmem⟩
    cases hmem

theorem add (hc : Recorded c) {b : BroadcastedBlock} (hchange : Change c c')
    (hstore : c'.store = c.store.addBlock b)
    (hstored : ∀ blk, c'.Stored blk ↔ c.Stored blk ∨ blk = b) : Recorded c' where
  kept := by
    intro blk hblk
    obtain hold | rfl := (hstored blk).mp hblk
    · exact hchange.content_of_content (hc.kept blk hold)
    · rw [hstore, Store.content_addBlock, if_pos rfl]
  origin := by
    intro slot b' hb'
    rw [hstore, Store.content_addBlock] at hb'
    split at hb'
    · cases hb'
      exact Or.inl ⟨b, (hstored b).mpr (Or.inr rfl), rfl⟩
    · refine (hc.origin slot b' hb').imp_left ?_
      rintro ⟨blk, hblk, rfl⟩
      exact ⟨blk, (hstored blk).mpr (Or.inl hblk), rfl⟩
  named := by
    rw [hstore]
    exact Store.Named.addBlock hc.named b
  written := by
    intro blk hblk t ht
    rw [hstore]
    obtain ⟨t', -, -, hnew⟩ | ⟨hne, hsame⟩ :=
      Store.lookup_txs_addBlock c.store b (Transaction.hash t)
    · exact ⟨t', hnew⟩
    · obtain hold | rfl := (hstored blk).mp hblk
      · rw [hsame]
        exact hc.written blk hold t ht
      · exact absurd rfl (hne t ht)

theorem change (hc : Recorded c) (h : Change c c') : Recorded c' := by
  obtain ⟨b, -, hstore, hstored⟩ | ⟨hcontent, htxs, hstored⟩ := h.stored_cases
  · exact hc.add h hstore hstored
  · refine ⟨?_, ?_, ?_, ?_⟩
    · intro blk hblk
      rw [hcontent]
      exact hc.kept blk ((hstored blk).mp hblk)
    · intro slot b hb
      rw [hcontent] at hb
      refine (hc.origin slot b hb).imp_left ?_
      rintro ⟨blk, hblk, rfl⟩
      exact ⟨blk, (hstored blk).mpr hblk, rfl⟩
    · rw [htxs]
      exact hc.named
    · intro blk hblk
      rw [htxs]
      exact hc.written blk ((hstored blk).mp hblk)

/-- **The transactions a stored block runs are in the store**, each under
its own hash. -/
theorem exists_tx (hc : Recorded c) {slot : UInt64} {b : Block} {h : String}
    (hb : c.store.block slot = some b) (hmem : h ∈ b.txHashes) :
    ∃ t, c.store.txs.lookup h = some t ∧ Transaction.hash t = h := by
  obtain ⟨blk, hblk, heq⟩ | hnone := hc.origin slot _ (Store.content_of_block hb)
  · have hhashes : b.txHashes = blk.blockTxs.map Transaction.hash := by
      rw [← txHashes_eq_map, ← heq]
      rfl
    rw [hhashes] at hmem
    obtain ⟨t, ht, rfl⟩ := List.mem_map.mp hmem
    obtain ⟨t', hlook⟩ := hc.written blk hblk t ht
    exact ⟨t', hlook, hc.named _ t' hlook⟩
  · have hentries := mem_entries_of_mem_txHashes hmem
    rw [show b.entries.flatMap PersistentEntry.txHashes = [] from hnone] at hentries
    cases hentries

end Recorded

/-- **Every applied block took effect**: it is the block of its slot, and
its transactions were settled when it was applied. -/
structure Effective (c : Core) : Prop extends Recorded c where
  stored : ∀ e ∈ c.history, ∀ before b, e.applied = some (before, b) →
    c.store.content b.slot = some { b with status := .pending }
  /-- Its transactions are settled, unless one has the hash of the null
  transaction. -/
  settled : ∀ e ∈ c.history, ∀ before b, e.applied = some (before, b) →
    ∀ h ∈ b.txHashes, Transaction.hash none ≠ h →
    Settled (before.applyBlock b).txMetas h

namespace Effective

theorem of_isGenesis {cfg : Config} {now : UInt64} {s : Store} (h : IsGenesis now s) :
    Effective (Node.new cfg s).toCore where
  toRecorded := .of_isGenesis h
  stored := by
    intro e he
    cases he
  settled := by
    intro e he
    cases he

theorem change (hc : Effective c) (h : Change c c') : Effective c' where
  toRecorded := hc.toRecorded.change h
  stored := by
    intro e he before b happ
    obtain hold | ⟨-, hb⟩ := h.applied_cases he happ
    · exact h.content_of_content (hc.stored e hold before b happ)
    · exact h.content_of_content (Store.content_of_block hb)
  settled := by
    intro e he before b happ txHash hmem hnull
    obtain hold | ⟨rfl, hb⟩ := h.applied_cases he happ
    · exact hc.settled e hold before b happ txHash hmem hnull
    · obtain ⟨t, hlook, hhash⟩ := hc.exists_tx hb hmem
      cases t with
      | none => exact absurd hhash hnull
      | some tx => exact settled_applyBlock hmem hlook hhash

end Effective

end Core

theorem Operated.effective {cfg : Config} {n : Node} (h : Operated cfg n) :
    n.toCore.Effective :=
  h.invariant (fun _ _ hgenesis => .of_isGenesis hgenesis)
    (fun _ _ hc hchange => hc.change hchange)

/-! ## Live blocks -/

/-- **A block that passes both checks hides no transaction from the store**:
none is in a tick entry, and none can be taken for the null transaction –
because it has none. -/
theorem BroadcastedBlock.carried {blk : BroadcastedBlock}
    (hpoh : blk.verifyPoH = .ok ()) (htxs : verifyBlockTransactions blk = .ok ())
    {tx : Transaction} (htx : some tx ∈ blk.allTxs) :
    some tx ∈ blk.blockTxs ∧ Transaction.hash none ≠ Transaction.hash (some tx) := by
  rw [allTxs_eq_nil hpoh htxs] at htx
  cases htx

/-- **Every accepted transaction takes effect.** Let a live block be stored.
Each of its transactions, if the block passes `VerifyPoH` – or else if the
transaction is not in a tick entry and cannot be taken for null – is in the
transaction store under its hash, and whenever a block of the slot is
applied, then or later, it gets a final meta record. -/
theorem Node.accepted_takes_effect {cfg : Config} {n n' : Node}
    {blk : BroadcastedBlock} {r : Except String Unit} {tx : Transaction}
    (h : Operated cfg n) (hstep : n.onBlockReceived cfg blk = some (n', r))
    (hfree : n.store.block blk.slot = none) (hstored : n'.store.block blk.slot ≠ none)
    (htx : some tx ∈ blk.allTxs) (hseen : blk.verifyPoH = .ok () ∨
      (some tx ∈ blk.blockTxs ∧ Transaction.hash none ≠ Transaction.hash (some tx))) :
    (∃ t, n'.store.getTxByHash (Transaction.hash (some tx)) = some t ∧
        Transaction.hash (some t) = Transaction.hash (some tx)) ∧
      ∀ n'', Node.Later cfg n' n'' → ∀ e ∈ n''.history, ∀ before b,
        e.applied = some (before, b) → b.slot = blk.slot →
        Settled (before.applyBlock b).txMetas (Transaction.hash (some tx)) := by
  have hop : n.operate cfg (.onBlockReceived blk) = some n' := by
    show (n.onBlockReceived cfg blk).map Prod.fst = some n'
    rw [hstep]
    rfl
  obtain rfl | ⟨htxs, -, hchanges⟩ := Node.changes_of_fromPeer rfl hop
  · exact absurd hfree hstored
  obtain ⟨hcarried, hnull⟩ : some tx ∈ blk.blockTxs ∧
      Transaction.hash none ≠ Transaction.hash (some tx) :=
    hseen.elim (fun hpoh => BroadcastedBlock.carried hpoh htxs htx) id
  rw [← BroadcastedBlock.blockTxs_markPoH] at hcarried
  have hblk : n'.toCore.Stored blk.markPoH :=
    hchanges.stored ⟨n.store, List.mem_append_right _ (List.mem_singleton_self _)⟩
  have hn' : Operated cfg n' := h.later (.single ⟨_, trivial, hop⟩)
  refine ⟨?_, fun n'' hlater e he before b happ hslot => ?_⟩
  · obtain ⟨t, hlook⟩ := hn'.effective.written _ hblk _ hcarried
    have hhash := hn'.effective.named _ t hlook
    cases t with
    | none => exact absurd hhash hnull
    | some t =>
      refine ⟨t, ?_, hhash⟩
      unfold Store.getTxByHash
      rw [hlook]
      rfl
  · have heffective := (hn'.later hlater).effective
    refine heffective.settled e he before b happ _ ?_ hnull
    -- the block that was applied is the one that was stored
    have hkept := heffective.kept _ (hlater.changes.stored hblk)
    rw [BroadcastedBlock.slot_markPoH, ← hslot, heffective.stored e he before b happ]
      at hkept
    have hhashes : b.txHashes = blk.markPoH.blockTxs.map Transaction.hash := by
      rw [← txHashes_eq_map, ← Option.some.inj hkept]
      rfl
    rw [hhashes]
    exact List.mem_map_of_mem hcarried

end

/-! ## Examples -/

section Sample

attribute [local instance] Sample.primitives

open Sample

/-- A transfer in a live block, in an entry that is not a tick: it is in the
transaction store, whatever becomes of the block. -/
theorem accepted_takes_effect_transfer :
    ∃ n n' r, Operated alone n ∧
      n.onBlockReceived alone (blockWith 1 2 0 [transfer 2 1 30 1 0]) = some (n', r) ∧
      (∃ t, n'.store.getTxByHash (Transaction.hash (some (transfer 2 1 30 1 0)))
        = some t ∧
        Transaction.hash (some t) = Transaction.hash (some (transfer 2 1 30 1 0))) ∧
      ∀ n'', Node.Later alone n' n'' → ∀ e ∈ n''.history, ∀ before b,
        e.applied = some (before, b) → b.slot = 2 →
        Settled (before.applyBlock b).txMetas
          (Transaction.hash (some (transfer 2 1 30 1 0))) := by
  obtain ⟨n, hn, htest⟩ := exists_operated alone
    (fun n => decide (n.store.block 2 = none) &&
      (n.onBlockReceived alone (blockWith 1 2 0 [transfer 2 1 30 1 0])).any
        (fun r : Node × Except String Unit => decide (r.1.store.block 2 ≠ none)))
    [] 0 [.processBlockBeforeBroadcast (blockWith 1 1 0 []), .applyDataToBlock 1]
    (by decide +kernel)
  rw [Bool.and_eq_true, Option.any_eq_true, decide_eq_true_iff] at htest
  obtain ⟨hfree, ⟨n', r⟩, hstep, hstored⟩ := htest
  exact ⟨n, n', r, hn, hstep, Node.accepted_takes_effect hn hstep hfree
    (of_decide_eq_true hstored) (by decide +kernel) (Or.inr (by decide +kernel))⟩

end Sample

end Mmn
