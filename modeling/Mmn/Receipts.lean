import Mmn.Effect

/-!
# Receipts

The meta record of a transaction is its receipt: the slot and the hash of a
block, and what became of the transaction there. Two loops write receipts
and neither looks at what is there. Storing a block writes one for each of
its transactions and says *processed*; applying a block writes one for each
transaction it runs and says how it went. A transaction may be in several
blocks, and each of them overwrites the receipt of the one before.

What a receipt says is nevertheless always true of the store
(`Store.Receipts`): the slot has a block, it is the block with that hash, it
holds the transaction, and the receipt says *processed* exactly as long as
the block is not marked as finalized. The last part needs that applying a
block runs everything that storing it wrote receipts for, which is where the
null transaction gets in the way: it is stored under the hash of null and
run as the zero transaction, so the receipt under the hash of null says
*processed* for good, and the one of the zero transaction comes out of
nowhere.

It is kept by every write of the store (`Store.Update`), hence by every
operation of a node and by restarts.
-/

namespace Mmn

section

variable [Primitives]

/-! ## The writes of the store -/

namespace Store

/-- **What a node does to its database**: it stores a block at a free slot,
applies the block of a slot, or opens the database again. -/
inductive Update : Store → Store → Prop where
  | add {s : Store} {b : BroadcastedBlock} (hfree : b.slot ∉ s.blocks) : Update s
    (s.addBlock b)
  /-- The block of a slot is applied. -/
  | apply {s : Store} {b : Block} (hb : s.block b.slot = some b) : Update s
    (s.applyBlock b)
  | reopen {s : Store} : Update s s.reopen

/-- A chain of writes. -/
abbrev Updates : Store → Store → Prop := Relation.ReflTransGen Update

namespace Updates

/-- The moves of a node's core write to the store in this way only. -/
theorem move {cfg : Config} {A : Core → BroadcastedBlock → Prop}
    {V : Core → Vote → Prop} {c c' : Core} (h : Core.Move cfg A V c c') :
    Updates c.store c'.store := by
  cases h with
  | addBlock _ hfree => exact .single (.add hfree)
  | @sync b _ hfree _ =>
    refine .tail (.single (.add hfree)) (.apply ?_)
    show (c.store.addBlock b).block b.slot = some (broadcastedBlockToBlock b)
    rw [block_addBlock, if_pos rfl]
  | cast => exact .refl
  | count => exact .refl
  | @commit v b _ _ _ _ hb _ _ =>
    have hb' : c.store.block b.slot = some b := by rwa [slot_of_block hb]
    exact .single (.apply hb')
  | cleanup => exact .refl

theorem moves {cfg : Config} {A : Core → BroadcastedBlock → Prop}
    {V : Core → Vote → Prop} {c c' : Core} (h : Core.Moves cfg A V c c') :
    Updates c.store c'.store := by
  induction h with
  | refl => exact .refl
  | tail _ hmove ih => exact ih.trans (move hmove)

/-- What every write keeps, every chain of writes keeps. -/
theorem invariant {I : Store → Prop} {s s' : Store} (h : Updates s s') (hs : I s)
    (hI : ∀ s s', I s → Update s s' → I s') : I s' := by
  induction h with
  | refl => exact hs
  | tail _ hlast ih => exact hI _ _ ih hlast

end Updates

end Store

namespace Node

variable {cfg : Config}

/-- **An operation of a node is a chain of writes.** -/
theorem updates_of_operate {n n' : Node} {op : Operation}
    (h : n.operate cfg op = some n') :
    Store.Updates n.store n'.store := by
  obtain ⟨A, V, hmoves⟩ | ⟨b, -, hb, -, -, hstore, -⟩ | rfl := operate_cases h
  · exact .moves hmoves
  · rw [hstore]
    exact .single (.apply hb)
  · exact .single .reopen

theorem Later.updates {n n' : Node} (h : Later cfg n n') :
    Store.Updates n.store n'.store := by
  induction h with
  | refl => exact .refl
  | tail _ hlast ih =>
    obtain ⟨op, -, hop⟩ := hlast
    exact ih.trans (updates_of_operate hop)

end Node

/-! ## What the two loops write -/

/-- **The receipts after storing a block**: a fresh one for each of its
transactions. -/
theorem Store.lookup_txMetas_addBlock (s : Store) (b : BroadcastedBlock)
    (h : String) :
    (h ∈ b.blockTxs.map Transaction.hash ∧
        (s.addBlock b).txMetas.lookup h
          = some ⟨b.slot, b.hashString, .processed, ""⟩) ∨
      (h ∉ b.blockTxs.map Transaction.hash ∧
        (s.addBlock b).txMetas.lookup h = s.txMetas.lookup h) := by
  have hloop : ∀ (txs : List (Option Transaction)) (s : Store),
      (h ∈ txs.map Transaction.hash ∧
        (txs.foldl (putTx b.slot b.hashString) s).txMetas.lookup h
          = some ⟨b.slot, b.hashString, .processed, ""⟩) ∨
        (h ∉ txs.map Transaction.hash ∧
          (txs.foldl (putTx b.slot b.hashString) s).txMetas.lookup h
              = s.txMetas.lookup h) := by
    intro txs
    induction txs with
    | nil => exact fun s => Or.inr ⟨List.not_mem_nil, rfl⟩
    | cons tx txs ih =>
      intro s
      rw [List.foldl_cons, List.map_cons, List.mem_cons]
      obtain ⟨hmem, hlook⟩ | ⟨hnot, hlook⟩ := ih (putTx b.slot b.hashString s tx)
      · exact Or.inl ⟨Or.inr hmem, hlook⟩
      · rw [hlook]
        by_cases htx : h = Transaction.hash tx
        · subst htx
          exact Or.inl ⟨Or.inl rfl, AList.lookup_insert _⟩
        · exact Or.inr ⟨not_or.mpr ⟨htx, hnot⟩, AList.lookup_insert_ne htx⟩
  exact hloop b.blockTxs _

omit [Primitives] in
theorem TxStatus.ne_processed {status : TxStatus}
    (h : status = .success ∨ status = .failed) :
    status ≠ .processed := by
  obtain rfl | rfl := h <;> exact nofun

/-- The receipts after a block is applied: its own, and those that were
there. -/
theorem Store.lookup_txMetas_applyBlock (s : Store) (b : Block) (h : String) :
    (s.applyBlock b).txMetas.lookup h
      = ((s.executeBlock b).txMetas.lookup h).or (s.txMetas.lookup h) := by
  show (AList.writeAll (fun _ m => m) (s.executeBlock b).txMetas s.txMetas).lookup h
    = _
  rw [AList.lookup_writeAll, Option.map_id']

/-! ## The invariant -/

namespace Store

/-- The transaction with a hash is in the store, and so is its receipt. -/
def Records (s : Store) (h : String) : Prop := h ∈ s.txs ∧ h ∈ s.txMetas

/-- **What receipts say is true.** -/
structure Receipts (s : Store) : Prop where
  named : s.Named
  marked : ∀ slot ∈ s.finalized, slot ∈ s.blocks
  /-- The transactions of a stored block are there with their receipts. -/
  kept : ∀ slot b, s.block slot = some b → ∀ h ∈ b.txHashes, s.Records h
  /-- A receipt names a stored block, which holds the transaction. The one
  of the zero transaction may be of a block that holds the null transaction. -/
  issued : ∀ h m, s.txMetas.lookup h = some m →
    ∃ b, s.block m.slot = some b ∧ m.blockHash = b.hashString ∧
      (h ∈ b.txHashes ∨ (m.status ≠ .processed ∧ Transaction.hash none ∈ b.txHashes ∧
        h = Transaction.hash (some Transaction.zero)))
  /-- It says how the transaction ended only if the block is marked as
  finalized. -/
  final : ∀ h m, s.txMetas.lookup h = some m → m.status ≠ .processed →
    m.slot ∈ s.finalized
  /-- Once the block is marked it does say so, unless the transaction is
  null. -/
  settled : ∀ h m, s.txMetas.lookup h = some m → h ≠ Transaction.hash none →
    m.slot ∈ s.finalized → m.status ≠ .processed

namespace Records

variable {s s' : Store} {h : String}

theorem addBlock (hr : s.Records h) (b : BroadcastedBlock) :
    (s.addBlock b).Records h := by
  refine ⟨?_, ?_⟩
  · rw [← AList.lookup_isSome]
    obtain ⟨t, -, -, hnew⟩ | ⟨-, hsame⟩ := s.lookup_txs_addBlock b h
    · rw [hnew]
      rfl
    · rw [hsame, AList.lookup_isSome]
      exact hr.1
  · rw [← AList.lookup_isSome]
    obtain ⟨-, hnew⟩ | ⟨-, hsame⟩ := s.lookup_txMetas_addBlock b h
    · rw [hnew]
      rfl
    · rw [hsame, AList.lookup_isSome]
      exact hr.2

theorem applyBlock (hr : s.Records h) (b : Block) : (s.applyBlock b).Records h := by
  refine ⟨hr.1, ?_⟩
  rw [← AList.lookup_isSome, lookup_txMetas_applyBlock, Option.isSome_or,
    AList.lookup_isSome.mpr hr.2, Bool.or_true]

omit [Primitives] in
theorem reopen (hr : s.Records h) : s.reopen.Records h := by
  rw [reopen_frame]
  exact hr

theorem update (hr : s.Records h) (hu : Update s s') : s'.Records h := by
  cases hu with
  | add _ => exact hr.addBlock _
  | apply _ => exact hr.applyBlock _
  | reopen => exact hr.reopen

theorem updates (hr : s.Records h) (hu : Updates s s') : s'.Records h :=
  hu.invariant (I := fun s => s.Records h) hr (fun _ _ hr hu => hr.update hu)

end Records

namespace Receipts

variable {s : Store}

theorem of_isGenesis {now : UInt64} (h : IsGenesis now s) (hmetas : s.txMetas = ∅) :
    s.Receipts where
  named := by
    intro k t hlook
    rw [h.txs] at hlook
    cases hlook
  marked := by
    intro slot hslot
    rw [h.finalized, Finset.mem_singleton] at hslot
    exact mem_blocks_iff.mpr ⟨_, by rw [h.block, if_pos hslot]⟩
  kept := by
    intro slot b hb k hk
    rw [h.block] at hb
    split at hb
    · cases hb
      cases hk
    · cases hb
  issued := by
    intro k m hlook
    rw [hmetas] at hlook
    cases hlook
  final := by
    intro k m hlook
    rw [hmetas] at hlook
    cases hlook
  settled := by
    intro k m hlook
    rw [hmetas] at hlook
    cases hlook

/-- **Storing a block** writes receipts that name it, and its slot is not
marked. -/
theorem addBlock (h : s.Receipts) {b : BroadcastedBlock} (hfree : b.slot ∉ s.blocks) :
    (s.addBlock b).Receipts where
  named := h.named.addBlock b
  marked := by
    intro slot hslot
    rw [finalized_addBlock] at hslot
    exact (s.mem_blocks_addBlock b slot).mpr (Or.inr (h.marked slot hslot))
  kept := by
    intro slot b' hb' k hk
    rw [block_addBlock] at hb'
    split at hb'
    · cases hb'
      rw [txHashes_eq_map] at hk
      refine ⟨?_, ?_⟩
      · obtain ⟨t, -, -, hnew⟩ | ⟨hne, -⟩ := s.lookup_txs_addBlock b k
        · exact AList.lookup_isSome.mp (by rw [hnew]; rfl)
        · obtain ⟨t, ht, hhash⟩ := List.mem_map.mp hk
          exact absurd hhash (hne t ht)
      · obtain ⟨-, hnew⟩ | ⟨hnot, -⟩ := s.lookup_txMetas_addBlock b k
        · exact AList.lookup_isSome.mp (by rw [hnew]; rfl)
        · exact absurd hk hnot
    · exact (h.kept slot b' hb' k hk).addBlock b
  issued := by
    intro k m hlook
    obtain ⟨hmem, hnew⟩ | ⟨-, hsame⟩ := s.lookup_txMetas_addBlock b k
    · rw [hnew] at hlook
      cases hlook
      refine ⟨broadcastedBlockToBlock b, ?_, rfl, Or.inl ?_⟩
      · rw [block_addBlock, if_pos rfl]
      · rwa [txHashes_eq_map]
    · rw [hsame] at hlook
      obtain ⟨b', hb', hrest⟩ := h.issued k m hlook
      exact ⟨b', block_addBlock_of_block _ _ hfree hb', hrest⟩
  final := by
    intro k m hlook hstatus
    rw [finalized_addBlock]
    obtain ⟨-, hnew⟩ | ⟨-, hsame⟩ := s.lookup_txMetas_addBlock b k
    · rw [hnew] at hlook
      cases hlook
      exact absurd rfl hstatus
    · rw [hsame] at hlook
      exact h.final k m hlook hstatus
  settled := by
    intro k m hlook hnull hslot
    rw [finalized_addBlock] at hslot
    obtain ⟨-, hnew⟩ | ⟨-, hsame⟩ := s.lookup_txMetas_addBlock b k
    · rw [hnew] at hlook
      cases hlook
      exact absurd (h.marked _ hslot) hfree
    · rw [hsame] at hlook
      exact h.settled k m hlook hnull hslot

/-- What a block runs is what it holds, but for the null transaction, which
it runs as the zero transaction. -/
theorem mem_txHashes (h : s.Receipts) {b : Block} {tx : Transaction}
    (htx : tx ∈ s.txsInBlock b) :
    Transaction.hash (some tx) ∈ b.txHashes ∨
      (Transaction.hash none ∈ b.txHashes ∧ tx = Transaction.zero) := by
  obtain ⟨k, hk, hget⟩ := List.mem_filterMap.mp htx
  obtain ⟨t, hlook, rfl⟩ := Option.map_eq_some_iff.mp hget
  obtain rfl := h.named k t hlook
  cases t with
  | none => exact Or.inr ⟨hk, rfl⟩
  | some tx => exact Or.inl hk

/-- **Applying the block of a slot** writes receipts that name it, and one
for every transaction that had one of this block. -/
theorem applyBlock (h : s.Receipts) {b : Block} (hb : s.block b.slot = some b) :
    (s.applyBlock b).Receipts where
  named := h.named
  marked := by
    intro slot hslot
    refine (mem_blocks_putFinalized (mem_blocks_iff.mpr ⟨b, hb⟩) _ _ _ slot).mpr ?_
    obtain rfl | hold := Finset.mem_insert.mp hslot
    · exact mem_blocks_iff.mpr ⟨b, hb⟩
    · exact h.marked slot hold
  kept := by
    intro slot b' hb' k hk
    rw [block_applyBlock hb] at hb'
    obtain ⟨b₀, hb₀, rfl⟩ := Option.map_eq_some_iff.mp hb'
    refine (h.kept slot b₀ hb₀ k ?_).applyBlock b
    split at hk
    · exact hk
    · exact hk
  issued := by
    intro k m hlook
    rw [lookup_txMetas_applyBlock] at hlook
    cases hrun : (s.executeBlock b).txMetas.lookup k with
    | some m' =>
      rw [hrun] at hlook
      cases hlook
      obtain ⟨⟨tx, htx, rfl⟩, hslot, hhash, hstatus⟩ :=
        records_executeBlock s b k m hrun
      refine ⟨{ b with status := .finalized }, ?_, hhash, ?_⟩
      · rw [hslot, block_applyBlock hb, hb, Option.map_some, if_pos rfl]
      · obtain hmem | ⟨hnull, rfl⟩ := h.mem_txHashes htx
        · exact Or.inl hmem
        · exact Or.inr ⟨TxStatus.ne_processed hstatus, hnull, rfl⟩
    | none =>
      rw [hrun] at hlook
      obtain ⟨b', hb', hhash, hmem⟩ := h.issued k m hlook
      rw [block_applyBlock hb, hb', Option.map_some]
      refine ⟨_, rfl, ?_, ?_⟩
      · rw [hhash]
        split <;> rfl
      · split <;> exact hmem
  final := by
    intro k m hlook hstatus
    rw [lookup_txMetas_applyBlock] at hlook
    refine Finset.mem_insert.mpr ?_
    cases hrun : (s.executeBlock b).txMetas.lookup k with
    | some m' =>
      rw [hrun] at hlook
      cases hlook
      exact Or.inl (records_executeBlock s b k m hrun).2.1
    | none =>
      rw [hrun] at hlook
      exact Or.inr (h.final k m hlook hstatus)
  settled := by
    intro k m hlook hnull hslot
    have hlook' := hlook
    rw [lookup_txMetas_applyBlock] at hlook'
    cases hrun : (s.executeBlock b).txMetas.lookup k with
    | some m' =>
      rw [hrun] at hlook'
      cases hlook'
      exact TxStatus.ne_processed (records_executeBlock s b k m hrun).2.2.2
    | none =>
      rw [hrun] at hlook'
      obtain hslot | hold := Finset.mem_insert.mp hslot
      · -- an old receipt of this block: its transaction has just been run
        obtain ⟨b', hb', -, hmem | ⟨hstatus, -⟩⟩ := h.issued k m hlook'
        · rw [hslot, hb] at hb'
          cases hb'
          obtain ⟨t, ht⟩ := Option.isSome_iff_exists.mp
            (AList.lookup_isSome.mpr (h.kept b.slot b hb k hmem).1)
          have hhash := h.named k t ht
          cases t with
          | none => exact absurd hhash.symm hnull
          | some tx =>
            obtain ⟨m', hm', hstatus⟩ := settled_applyBlock hmem ht hhash
            rw [hlook] at hm'
            cases hm'
            exact TxStatus.ne_processed hstatus
        · exact hstatus
      · exact h.settled k m hlook' hnull hold

theorem reopen (h : s.Receipts) : s.reopen.Receipts := by
  rw [reopen_frame]
  exact ⟨h.named, h.marked, h.kept, h.issued, h.final, h.settled⟩

/-- **Every write keeps the receipts true.** -/
theorem update {s' : Store} (h : s.Receipts) (hu : Update s s') : s'.Receipts := by
  cases hu with
  | add hfree => exact h.addBlock hfree
  | apply hb => exact h.applyBlock hb
  | reopen => exact h.reopen

theorem updates {s' : Store} (h : s.Receipts) (hu : Updates s s') : s'.Receipts :=
  hu.invariant h (fun _ _ hs hu => hs.update hu)

end Receipts

end Store

theorem txMetas_of_initializeBlockchain {alloc : List Ledger.Address} {now : UInt64}
    {s : Store} (h : initializeBlockchain alloc now = .ok s) :
    s.reopen.txMetas = ∅ := by
  obtain ⟨s₀, hcreate, rfl⟩ := exists_of_initializeBlockchain h
  rw [Store.reopen_frame]
  -- the genesis block has no transactions
  show s₀.txMetas = ∅
  rw [createAccountsFromGenesis_frame hcreate]
  rfl

theorem receipts_of_initializeBlockchain {alloc : List Ledger.Address} {now : UInt64}
    {s : Store} (h : initializeBlockchain alloc now = .ok s) : s.reopen.Receipts :=
  .of_isGenesis (isGenesis_of_initializeBlockchain h)
    (txMetas_of_initializeBlockchain h)

/-- **The receipts of a node are true** after any operations and restarts. -/
theorem Operated.receipts {cfg : Config} {n : Node} (h : Operated cfg n) :
    n.store.Receipts := by
  obtain ⟨alloc, now, s, hinit, hlater⟩ := h
  exact (receipts_of_initializeBlockchain hinit).updates hlater.updates

end

end Mmn
