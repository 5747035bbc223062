import Mmn.Effect
import Mmn.Pool

/-!
# Replays after a restart

The cache of dedup hashes is in memory. A node that starts again fills it
from the blocks of the last `DedupSlotGap` slots up to the latest
*finalized* one, and compares nonces with that slot from then on. The range
of slots is longer than the window of nonces, and the two are still about
different things: a transaction's nonce says nothing about the slot of the
block it is in. A block can be stored above the latest finalized slot –
every block is, until its votes are in – or further below it than the range
goes. Its transactions are then still in the window, and nothing remembers
them (`replay_after_restart`).

Three things can go wrong besides. The transactions of an entry marked as a
tick are in the block and not in the transaction store, where the restart
looks for them. A null transaction is read back as the zero transaction. And
at the largest slot there is, the loop over the range never ends.
`Node.Reloads` says that none of these happens, and
`Node.restart_protects_iff` that this is exactly what the protection needs.
-/

namespace Mmn

section

/-! ## The range of slots -/

/-- The first slot a restart loads. -/
def reloadStart (latestSlot : UInt64) : UInt64 :=
  if latestSlot > dedupSlotGap then latestSlot - dedupSlotGap + 1 else 1

theorem toNat_reloadStart {f : UInt64} :
    (reloadStart f).toNat = if 200 < f.toNat then f.toNat - 199 else 1 := by
  have hgap : dedupSlotGap.toNat = 200 := rfl
  unfold reloadStart
  by_cases h : f > dedupSlotGap
  · have hlt : dedupSlotGap.toNat < f.toNat := UInt64.lt_iff_toNat_lt.mp h
    have hone : (1 : UInt64).toNat = 1 := rfl
    have hf := f.toNat_lt
    rw [if_pos h, if_pos (by omega), UInt64.toNat_add,
      UInt64.toNat_sub_of_le _ _ (UInt64.le_of_lt h), hone]
    omega
  · have hle : ¬dedupSlotGap.toNat < f.toNat :=
      fun hlt => h (UInt64.lt_iff_toNat_lt.mpr hlt)
    rw [if_neg h, if_neg (by omega)]
    rfl

/-- The slots a restart loads. -/
def loadSlots (latestSlot : UInt64) : List UInt64 :=
  (List.range (latestSlot - reloadStart latestSlot + 1).toNat).map
    (fun i => reloadStart latestSlot + UInt64.ofNat i)

/-- **They are those of a closed range**, which is empty at slot 0. -/
theorem mem_loadSlots {f slot : UInt64} :
    slot ∈ loadSlots f ↔ reloadStart f ≤ slot ∧ slot ≤ f := by
  by_cases hf : f < 1
  · obtain rfl : f = 0 := UInt64.lt_one_iff.mp hf
    refine ⟨fun h => absurd h List.not_mem_nil, fun h => ?_⟩
    exact absurd (UInt64.le_trans h.1 h.2) (by decide)
  have hone : (1 : UInt64).toNat = 1 := rfl
  have hpos : 1 ≤ f.toNat := UInt64.le_iff_toNat_le.mp (UInt64.not_lt.mp hf)
  have hlt := f.toNat_lt
  have hstart := toNat_reloadStart (f := f)
  have hle : (reloadStart f).toNat ≤ f.toNat := by split at hstart <;> omega
  have hcount : (f - reloadStart f + 1).toNat
      = f.toNat - (reloadStart f).toNat + 1 := by
    rw [UInt64.toNat_add, UInt64.toNat_sub_of_le _ _ (UInt64.le_iff_toNat_le.mpr hle),
      hone]
    split at hstart <;> omega
  unfold loadSlots
  rw [hcount, List.mem_map, UInt64.le_iff_toNat_le, UInt64.le_iff_toNat_le]
  constructor
  · rintro ⟨i, hi, rfl⟩
    rw [List.mem_range] at hi
    rw [UInt64.toNat_add, UInt64.toNat_ofNat']
    omega
  · rintro ⟨hlow, hhigh⟩
    refine ⟨slot.toNat - (reloadStart f).toNat, List.mem_range.mpr (by omega), ?_⟩
    apply UInt64.toNat_inj.mp
    rw [UInt64.toNat_add, UInt64.toNat_ofNat']
    have hslot := slot.toNat_lt
    omega

variable [Primitives]

/-! ## What a restart loads -/

/-- The transactions of the blocks of the range, as far as the store has
them. -/
def Store.loadedTxs (s : Store) (f : UInt64) : List Transaction :=
  ((loadSlots f).filterMap s.block).flatMap
    (fun b => s.getTxBatch (b.entries.flatMap PersistentEntry.txHashes))

omit [Primitives] in
/-- **A transaction is loaded** if a block of the range names it and the
store has it. -/
theorem Store.mem_loadedTxs {s : Store} {f : UInt64} {tx : Transaction} :
    tx ∈ s.loadedTxs f ↔ ∃ slot b, (reloadStart f ≤ slot ∧ slot ≤ f) ∧
      s.block slot = some b ∧
      ∃ h ∈ b.entries.flatMap PersistentEntry.txHashes, s.getTxByHash h
        = some tx := by
  unfold loadedTxs getTxBatch
  simp only [List.mem_flatMap, List.mem_filterMap, mem_loadSlots]
  constructor
  · rintro ⟨b, ⟨slot, hslot, hb⟩, hex⟩
    exact ⟨slot, b, hslot, hb, hex⟩
  · rintro ⟨slot, b, hslot, hb, hex⟩
    exact ⟨b, ⟨slot, hslot, hb⟩, hex⟩

namespace DedupService

/-- **What `LoadTxHashes` adds**, below the largest slot. -/
theorem loadTxHashes_eq {f : UInt64} (hf : f + 1 ≠ 0) (ds : DedupService)
    (s : Store) :
    ds.loadTxHashes s f = some
      (ds.add ((s.loadedTxs f).map Transaction.dedupHash)) := by
  unfold loadTxHashes
  split
  · next hzero =>
    obtain rfl : f = 0 := UInt64.lt_one_iff.mp hzero
    rfl
  · rfl

/-- At the largest slot the loop over the range does not end. -/
theorem loadTxHashes_max {f : UInt64} (hf : f + 1 = 0) (ds : DedupService)
    (s : Store) :
    ds.loadTxHashes s f = none := by
  unfold loadTxHashes
  split
  · next hzero =>
    rw [UInt64.lt_one_iff.mp hzero] at hf
    exact absurd hf (by decide)
  · rfl

end DedupService

/-! ## The restart -/

namespace Node

variable {cfg : Config} {n : Node}

/-- The latest finalized slot a restart reads. -/
def restartSlot (n : Node) : UInt64 := n.store.reopen.latestFinalized

/-- **The protection a restart keeps**: the services start, and every
transaction of a stored block whose nonce is accepted is known as a
duplicate. -/
def RestartProtects (cfg : Config) (n : Node) : Prop :=
  ∃ n', (n.restart cfg).startCoreServices cfg = some n' ∧
    ∀ blk, n.toCore.Stored blk → ∀ tx, some tx ∈ blk.allTxs →
      n'.mempool.validateNonce [tx] = .ok () →
      n'.dedup.isDuplicate tx.dedupHash = true

/-- The nonce is in the window that ends at a slot. -/
def InWindow (f : UInt64) (tx : Transaction) : Prop :=
  (if f > nonceWindow then f - nonceWindow else 1) ≤ tx.nonce ∧ tx.nonce ≤ f

/-- The range of a restart holds the transaction or a copy: a stored block
of the range has one with the same dedup hash, as the transaction store
reads it. -/
def Reloaded (n : Node) (tx : Transaction) : Prop :=
  ∃ blk, n.toCore.Stored blk ∧ reloadStart n.restartSlot ≤ blk.slot ∧
    blk.slot ≤ n.restartSlot ∧ ∃ t ∈ blk.allTxs, ∃ tx',
      n.store.getTxByHash (Transaction.hash t) = some tx' ∧
      tx'.dedupHash = tx.dedupHash

/-- **What the protection needs**: the latest finalized slot is not the
largest there is, and every transaction of a stored block that is in the
window of nonces is in the range of slots too. -/
def Reloads (n : Node) : Prop :=
  n.restartSlot + 1 ≠ 0 ∧
    ∀ blk, n.toCore.Stored blk → ∀ tx, some tx ∈ blk.allTxs →
      InWindow n.restartSlot tx → n.Reloaded tx

omit [Primitives] in
/-- After a restart nonces are compared with the latest finalized slot. -/
theorem validateNonce_restart (maxTxs : ℕ) (f : UInt64) (tx : Transaction) :
    ((Mempool.new maxTxs).setCurrentSlot f).validateNonce [tx] = .ok () ↔
      InWindow f tx := by
  have hslot : ((Mempool.new maxTxs).setCurrentSlot f).netCurrentSlot = f := by
    unfold Mempool.setCurrentSlot
    split
    · next hle => exact (UInt64.le_antisymm hle UInt64.zero_le).symm
    · rfl
  rw [Mempool.validateNonce_eq_ok, List.forall_mem_singleton]
  unfold InWindow Mempool.minNonce
  rw [hslot]

/-- The services of a node that restarts load the range. -/
theorem startCoreServices_restart (hlistener : cfg.isListener = false) :
    (n.restart cfg).startCoreServices cfg
      = (DedupService.new.loadTxHashes n.store.reopen n.restartSlot).map (fun dedup =>
          { n.restart cfg with
            dedup := dedup
            mempool := (Mempool.new cfg.maxTxs).setCurrentSlot n.restartSlot
            ready := true }) := by
  have hstore : (n.restart cfg).dedup.loadTxHashes (n.restart cfg).store
      (n.restart cfg).store.latestFinalized
      = DedupService.new.loadTxHashes n.store.reopen n.restartSlot := rfl
  unfold startCoreServices
  rw [hlistener, if_neg Bool.false_ne_true, hstore]
  cases DedupService.new.loadTxHashes n.store.reopen n.restartSlot with
  | none => rfl
  | some dedup => rfl

/-- **What is loaded are the transactions of stored blocks.** -/
theorem mem_loadedTxs_iff (h : n.toCore.Recorded) (tx : Transaction) :
    (∃ tx' ∈ n.store.reopen.loadedTxs n.restartSlot, tx'.dedupHash = tx.dedupHash)
      ↔ n.Reloaded tx := by
  have hsame := Store.SameRecords.reopen n.store
  have hget : ∀ txHash, n.store.reopen.getTxByHash txHash
      = n.store.getTxByHash txHash := by
    intro txHash
    unfold Store.getTxByHash
    rw [hsame.txs]
  simp only [Store.mem_loadedTxs, hsame.block, hget]
  constructor
  · rintro ⟨tx', ⟨slot, b, ⟨hlow, hhigh⟩, hb, txHash, hmem, htx'⟩, hdedup⟩
    obtain ⟨blk, hblk, hform⟩ | hnone := h.origin slot _ (Store.content_of_block hb)
    · have hslot : blk.slot = slot := by
        rw [← Store.slot_of_block hb]
        exact (congrArg (fun b : Block => b.slot) hform).symm
      have hentries : b.entries.flatMap PersistentEntry.txHashes
          = blk.allTxs.map Transaction.hash := by
        rw [← entries_flatMap_txHashes, ← hform]
      rw [hentries] at hmem
      obtain ⟨t, ht, rfl⟩ := List.mem_map.mp hmem
      rw [← hslot] at hlow hhigh
      exact ⟨blk, hblk, hlow, hhigh, t, ht, tx', htx', hdedup⟩
    · rw [show b.entries.flatMap PersistentEntry.txHashes = [] from hnone] at hmem
      cases hmem
  · rintro ⟨blk, hblk, hlow, hhigh, t, ht, tx', htx', hdedup⟩
    obtain ⟨b, hb, hform⟩ := Option.map_eq_some_iff.mp (h.kept blk hblk)
    refine ⟨tx', ⟨blk.slot, b, ⟨hlow, hhigh⟩, hb, Transaction.hash t, ?_, htx'⟩,
      hdedup⟩
    have hentries : b.entries.flatMap PersistentEntry.txHashes
        = blk.allTxs.map Transaction.hash := by
      rw [← entries_flatMap_txHashes, ← hform]
    rw [hentries]
    exact List.mem_map_of_mem ht

/-- **When a restart keeps the protection against replays**: exactly if
every transaction of a stored block that is in the window of nonces is
reloaded, and the loop over the slots ends. -/
theorem restart_protects_iff (hlistener : cfg.isListener = false)
    (h : Operated cfg n) :
    n.RestartProtects cfg ↔ n.Reloads := by
  unfold RestartProtects Reloads
  rw [startCoreServices_restart hlistener]
  by_cases hmax : n.restartSlot + 1 = 0
  · rw [DedupService.loadTxHashes_max hmax]
    simp [hmax]
  · rw [DedupService.loadTxHashes_eq hmax]
    simp only [Option.map_some, Option.some.injEq, exists_eq_left', ne_eq, hmax,
      not_false_iff, true_and]
    refine forall_congr' fun blk => forall_congr' fun _ => forall_congr' fun tx =>
      forall_congr' fun _ =>
        imp_congr (validateNonce_restart cfg.maxTxs n.restartSlot tx) ?_
    rw [← mem_loadedTxs_iff h.effective.toRecorded]
    unfold DedupService.isDuplicate
    rw [decide_eq_true_iff, DedupService.mem_add, List.mem_map]
    exact or_iff_left (Finset.notMem_empty _)

end Node

end

/-! ## Examples -/

section Sample

attribute [local instance] Sample.primitives

open Sample

/-- The leader's block of slot 2, with one transfer. -/
def transferBlock : BroadcastedBlock := blockWith 1 2 0 [transfer 2 1 30 1 0]

/-- **A restart forgets a transfer**: the block of slot 1 is finalized and
that of slot 2 only stored when the node restarts, and the transfer of slot
2 is admitted again. -/
theorem replay_after_restart :
    ∃ n n', Operated alone n ∧ n.toCore.Stored transferBlock ∧
      some (transfer 2 1 30 1 0) ∈ transferBlock.allTxs ∧
      (n.restart alone).startCoreServices alone = some n' ∧
      n'.mempool.validateNonce [transfer 2 1 30 1 0] = .ok () ∧
      n'.dedup.isDuplicate (transfer 2 1 30 1 0).dedupHash = false ∧
      (n'.mempool.addTx n'.dedup n'.store (transfer 2 1 30 1 0)).2
        = .ok (Transaction.hash (some (transfer 2 1 30 1 0))) := by
  obtain ⟨n, hn, htest⟩ := exists_operated alone
    (fun n => decide (transferBlock ∈ n.toCore.storedBlocks) &&
      ((n.restart alone).startCoreServices alone).any (fun n' : Node =>
        decide (n'.mempool.validateNonce [transfer 2 1 30 1 0] = .ok ()) &&
        !n'.dedup.isDuplicate (transfer 2 1 30 1 0).dedupHash &&
        decide ((n'.mempool.addTx n'.dedup n'.store (transfer 2 1 30 1 0)).2
          = .ok (Transaction.hash (some (transfer 2 1 30 1 0))))))
    [⟨keyID 2, 100⟩] 0
    [.processBlockBeforeBroadcast (blockWith 1 1 0 []), .applyDataToBlock 1,
      .processBlockBeforeBroadcast transferBlock]
    (by decide +kernel)
  rw [Bool.and_eq_true, Option.any_eq_true, decide_eq_true_iff] at htest
  obtain ⟨hstored, n', hn', htest⟩ := htest
  rw [Bool.and_eq_true, Bool.and_eq_true, decide_eq_true_iff, decide_eq_true_iff,
    Bool.not_eq_true'] at htest
  exact ⟨n, n', hn, Core.stored_iff_mem_storedBlocks.mpr hstored, by
    decide +kernel, hn', htest.1.1, htest.1.2, htest.2⟩

/-- With slot 3 finalized the transfer is in the range, and the restart
remembers it. -/
theorem restart_protects_in_range :
    ∃ n, Operated alone n ∧ n.toCore.Stored transferBlock ∧
      n.RestartProtects alone := by
  obtain ⟨n, hn, htest⟩ := exists_operated alone
    (fun n => decide (n.toCore.storedBlocks
        = [blockWith 1 1 0 [], transferBlock, blockWith 1 3 0 []]) &&
      decide (n.restartSlot = 3) &&
      decide (n.store.getTxByHash (Transaction.hash (some (transfer 2 1 30 1 0)))
        = some (transfer 2 1 30 1 0)))
    [] 0
    [.processBlockBeforeBroadcast (blockWith 1 1 0 []), .applyDataToBlock 1,
      .processBlockBeforeBroadcast transferBlock,
      .processBlockBeforeBroadcast (blockWith 1 3 0 []), .applyDataToBlock 3]
    (by decide +kernel)
  rw [Bool.and_eq_true, Bool.and_eq_true, decide_eq_true_iff, decide_eq_true_iff,
    decide_eq_true_iff] at htest
  obtain ⟨⟨hblocks, hslot⟩, hget⟩ := htest
  have hstored : n.toCore.Stored transferBlock := by
    rw [Core.stored_iff_mem_storedBlocks, hblocks]
    exact List.mem_cons_of_mem _ List.mem_cons_self
  have hreloaded : n.Reloaded (transfer 2 1 30 1 0) := by
    refine ⟨transferBlock, hstored, ?_, ?_, some (transfer 2 1 30 1 0), by
      decide +kernel, _, hget,
      rfl⟩
    · rw [hslot]
      decide
    · rw [hslot]
      decide
  refine ⟨n, hn, hstored, (Node.restart_protects_iff rfl hn).mpr
    ⟨by rw [hslot]; decide, ?_⟩⟩
  intro blk hblk tx htx _
  rw [Core.stored_iff_mem_storedBlocks, hblocks] at hblk
  have hsingle : ∀ blk ∈ [blockWith 1 1 0 [], transferBlock, blockWith 1 3 0 []],
      ∀ t ∈ blk.allTxs, t = some (transfer 2 1 30 1 0) := by decide +kernel
  cases hsingle blk hblk _ htx
  exact hreloaded

end Sample

end Mmn
