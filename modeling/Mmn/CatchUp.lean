import Mmn.Receipts
import Mmn.Sending

/-!
# Catching up with a peer

A node that is behind asks for the slots it lacks. A peer goes through its
store, looks up the transactions of every block and writes the blocks into a
stream, and the node takes them out of the stream into the queue of the
sync, from which they are checked, flagged, stored and applied. This file
puts the two ends together.

If the node leads none of the slots after the first, if the peer has a block
for each of them, and if these blocks pass the checks, then the node ends
with the blocks of the peer (`caught_up`): entry by entry, hash by hash,
with the flag of the peer's record or one of its own. What the node does not
get is what the blocks did. A block of the stream that carries transactions
is flagged, and so its transactions are not run: the accounts of the node
are at the end what they were at the start, whatever the peer's are.

That the blocks arrive as they were stored rests on three things:
transactions are stored under their own hash and never dropped
(`Store.Receipts`), a null transaction comes back as one that does not
verify, and the tick entries carry none. That the node stores them in this
order rests on nothing being made up in between, which is where the slots
the node leads itself come in.
-/

namespace Mmn

section

variable [Primitives]

/-! ## Blocks that come in order -/

namespace Node

variable {cfg : Config} {n : Node} {blk : BroadcastedBlock}
  {blks : List BroadcastedBlock}

/-- The loop over the queue takes one block, and finds none for the slot
after it. -/
theorem takeConsecutive_one {s : Store} {w : UInt64} {clock : ℕ → UInt64} (fuel : ℕ)
    {c : Consecutive} (hle : c.next ≤ w) (hlook : c.queue.lookup c.next = some blk)
    (hstop : c.next + 1 ≤ w → (c.queue.erase c.next).lookup (c.next + 1) = none ∧
      isLeader cfg (c.next + 1) = false) :
    takeConsecutive cfg s w clock (fuel + 2) c
      = some ⟨c.queue.erase c.next, c.next + 1, c.processed ++ [blk]⟩ := by
  unfold takeConsecutive
  rw [if_neg (UInt64.not_lt.mpr hle), hlook]
  dsimp only
  unfold takeConsecutive
  by_cases hnext : c.next + 1 ≤ w
  · obtain ⟨hnone, hleader⟩ := hstop hnext
    rw [if_neg (UInt64.not_lt.mpr hnext), hnone, hleader]
    rfl
  · rw [if_pos (UInt64.not_le.mp hnext)]

/-- **A node to which the blocks of a sync come in order**: it has no block
for any of the slots it lacks, none for a slot after the first waits in its
queue, and it leads none of the slots after the first. A block that waits
for the first slot does no harm, for it is replaced by the one that comes. -/
structure InOrder (cfg : Config) (n : Node) : Prop where
  next_le : n.nextExpectedSlot ≤ n.worldLatestSlot
  world : n.worldLatestSlot < noSlot
  free : ∀ slot, n.nextExpectedSlot ≤ slot → slot ≤ n.worldLatestSlot →
    slot ∉ n.store.blocks
  /-- No blocks wait. -/
  queue : ∀ slot, n.nextExpectedSlot < slot → slot ≤ n.worldLatestSlot →
    n.blockOrderingQueue.lookup slot = none
  /-- The node leads none of the slots but perhaps the first. -/
  notLed : ∀ slot, n.nextExpectedSlot < slot → slot ≤ n.worldLatestSlot →
    isLeader cfg slot = false

/-- The node after a block for the slot it expects. -/
def follow (n : Node) (blk : BroadcastedBlock) : Node :=
  { n with
    toCore := n.toCore.sync blk
    blockOrderingQueue := (n.blockOrderingQueue.insert blk.slot blk).erase blk.slot
    nextExpectedSlot := blk.slot + 1 }

theorem InOrder.lt_succ (h : InOrder cfg n) :
    n.nextExpectedSlot < n.nextExpectedSlot + 1 := by
  have hsucc := toNat_succ_of_le h.world h.next_le
  refine UInt64.lt_iff_toNat_lt.mpr ?_
  rw [hsucc]
  exact Nat.lt_succ_self _

/-- **A block for the slot the node expects is processed**, and it alone. -/
theorem InOrder.addBlockToOrderingQueue (h : InOrder cfg n)
    (hslot : blk.slot = n.nextExpectedSlot) (clock : ℕ → UInt64) :
    n.addBlockToOrderingQueue cfg blk clock
      = some (n.follow blk, some blk) := by
  have hfree : blk.slot ∉ n.store.blocks :=
    h.free blk.slot (hslot ▸ UInt64.le_refl _) (hslot ▸ h.next_le)
  have htake : takeConsecutive cfg n.store n.worldLatestSlot clock consecutiveFuel
      ⟨n.blockOrderingQueue.insert blk.slot blk, n.nextExpectedSlot, []⟩
      = some ⟨(n.blockOrderingQueue.insert blk.slot blk).erase n.nextExpectedSlot,
          n.nextExpectedSlot + 1, [] ++ [blk]⟩ := by
    refine takeConsecutive_one
      (c := ⟨n.blockOrderingQueue.insert blk.slot blk, n.nextExpectedSlot, []⟩)
      (2 ^ 65 - 1) h.next_le ?_ (fun hle => ?_)
    · show (n.blockOrderingQueue.insert blk.slot blk).lookup n.nextExpectedSlot
        = some blk
      rw [← hslot, AList.lookup_insert]
    · have hne : n.nextExpectedSlot + 1 ≠ n.nextExpectedSlot :=
        (UInt64.ne_of_lt h.lt_succ).symm
      refine ⟨?_, h.notLed _ h.lt_succ hle⟩
      show ((n.blockOrderingQueue.insert blk.slot blk).erase
        n.nextExpectedSlot).lookup _ = none
      rw [AList.lookup_erase_ne hne, hslot, AList.lookup_insert_ne hne]
      exact h.queue _ h.lt_succ hle
  rw [addBlockToOrderingQueue_eq hfree, htake, ← hslot]
  rfl

theorem InOrder.follow (h : InOrder cfg n) (hslot : blk.slot = n.nextExpectedSlot)
    (hlt : blk.slot < n.worldLatestSlot) : InOrder cfg (n.follow blk) := by
  have hsucc : (blk.slot + 1).toNat = blk.slot.toNat + 1 :=
    toNat_succ_of_le h.world (UInt64.le_of_lt hlt)
  have hstep : ∀ slot, blk.slot + 1 ≤ slot →
      n.nextExpectedSlot < slot := fun slot hle =>
    UInt64.lt_of_lt_of_le (hslot ▸ h.lt_succ) hle
  refine ⟨?_, h.world, fun slot hle hworld hmem => ?_, fun slot hle hworld => ?_,
    fun slot hle => h.notLed slot (hstep slot (UInt64.le_of_lt hle))⟩
  · show blk.slot + 1 ≤ n.worldLatestSlot
    have hlt' : blk.slot.toNat < n.worldLatestSlot.toNat :=
      UInt64.lt_iff_toNat_lt.mp hlt
    refine UInt64.le_iff_toNat_le.mpr ?_
    rw [hsucc]
    exact hlt'
  · have hpast := hstep slot hle
    obtain heq | hold := Core.mem_blocks_sync hmem
    · exact UInt64.ne_of_lt hpast (hslot.symm.trans heq.symm)
    · exact h.free slot (UInt64.le_of_lt hpast) hworld hold
  · have hpast := hstep slot (UInt64.le_of_lt hle)
    have hne : slot ≠ blk.slot := hslot ▸ (UInt64.ne_of_lt hpast).symm
    show ((n.blockOrderingQueue.insert blk.slot blk).erase blk.slot).lookup
      slot = none
    rw [AList.lookup_erase_ne hne, AList.lookup_insert_ne hne]
    exact h.queue slot hpast hworld

/-- Processing a block finalizes no slot but its own. -/
theorem latestFinalized_follow (hfinalized : n.store.latestFinalized < noSlot)
    (hslot : blk.slot < noSlot) :
    (n.follow blk).store.latestFinalized < noSlot := by
  have hone : ∀ b ∈ [blk], b.slot < noSlot := fun b hb => by
    rwa [List.mem_singleton.mp hb]
  exact Core.latestFinalized_foldl_sync hone hfinalized

theorem InOrder.receive_of_lt (h : InOrder cfg n)
    (hslot : blk.slot = n.nextExpectedSlot) (hlt : blk.slot < n.worldLatestSlot)
    (clock : ℕ → UInt64) :
    n.onSyncResponseReceived cfg (some blk) clock = some (n.follow blk) := by
  unfold onSyncResponseReceived
  dsimp only
  rw [h.addBlockToOrderingQueue hslot clock]
  have hworld : (n.follow blk).worldLatestSlot > blk.slot := hlt
  dsimp only
  rw [decide_eq_true hworld, Bool.not_true, Bool.and_false]
  rfl

/-- **What has become of a node when the blocks of a sync are through.** -/
structure CaughtUp (n : Node) (blks : List BroadcastedBlock) (last : BroadcastedBlock)
    (n' : Node) :
    Prop where
  core : n'.toCore = blks.foldl Core.sync n.toCore
  next : n'.nextExpectedSlot = n.worldLatestSlot + 1
  /-- A node that was not ready is, and its clock goes on from the last
  block. -/
  ready : n.ready = false → n.fullModeEnabled = false →
    n'.ready = true ∧ n'.recorder = n.recorder.reset last.lastEntryHash
      n.worldLatestSlot

/-- **A block for the latest slot reported** makes the node ready. -/
theorem InOrder.receive_last (h : InOrder cfg n)
    (hfinalized : n.store.latestFinalized < noSlot)
    (hslot : blk.slot = n.nextExpectedSlot) (heq : blk.slot = n.worldLatestSlot)
    (clock : ℕ → UInt64) :
    ∃ n', n.onSyncResponseReceived cfg (some blk) clock = some n' ∧
      CaughtUp n [blk] blk n' := by
  have hworld : ¬(n.follow blk).worldLatestSlot > blk.slot := by
    rw [heq]
    exact UInt64.lt_irrefl _
  have hnext : (n.follow blk).nextExpectedSlot = n.worldLatestSlot + 1 :=
    congrArg (· + 1) heq
  have hstep : n.onSyncResponseReceived cfg (some blk) clock
      = if !n.ready then (n.follow blk).enableFullMode cfg blk
          else some (n.follow blk) := by
    unfold onSyncResponseReceived
    dsimp only
    rw [h.addBlockToOrderingQueue hslot clock]
    dsimp only
    rw [decide_eq_false hworld, Bool.not_false, Bool.and_true]
    rfl
  rw [hstep]
  cases hready : n.ready with
  | true => exact ⟨_, rfl, rfl, hnext, fun hnot => by cases hready.symm.trans hnot⟩
  | false =>
    show ∃ n', (n.follow blk).enableFullMode cfg blk = some n' ∧ _
    unfold enableFullMode
    split
    · next honce =>
        exact ⟨_, rfl, rfl, hnext, fun _ hnot => by cases honce.symm.trans hnot⟩
    · have hrecorder : n.recorder.reset blk.lastEntryHash blk.slot
          = n.recorder.reset blk.lastEntryHash n.worldLatestSlot := by rw [heq]
      have hlatest : (n.follow blk).store.latestFinalized + 1 ≠ 0 := by
        have hbound := latestFinalized_follow hfinalized (heq ▸ h.world)
        intro hzero
        have hsucc := toNat_succ_of_le hbound (UInt64.le_refl _)
        rw [hzero] at hsucc
        exact absurd hsucc (Nat.zero_ne_add_one _)
      unfold startCoreServices
      split
      · exact ⟨_, rfl, rfl, hnext, fun _ _ => ⟨rfl, hrecorder⟩⟩
      · dsimp only
        rw [DedupService.loadTxHashes_eq hlatest]
        exact ⟨_, rfl, rfl, hnext, fun _ _ => ⟨rfl, hrecorder⟩⟩

/-- The blocks of a sync, each with the times at which blocks are made up
while it is received. -/
def receiveAll (cfg : Config) (n : Node)
    (calls : List (BroadcastedBlock × (ℕ → UInt64))) :
    Option Node :=
  calls.foldlM (fun n c => n.onSyncResponseReceived cfg (some c.1) c.2) n

/-- The blocks are those of the slots the node lacks, in order. -/
def Covers (n : Node) (blks : List BroadcastedBlock) : Prop :=
  blks.map (fun b => b.slot.toNat)
    = List.range' n.nextExpectedSlot.toNat
      (n.worldLatestSlot.toNat + 1 - n.nextExpectedSlot.toNat)

instance (n : Node) (blks : List BroadcastedBlock) : Decidable (n.Covers blks) :=
  inferInstanceAs (Decidable (_ = _))

theorem Covers.mem_iff (h : n.Covers blks) {slot : UInt64} :
    slot ∈ blks.map (fun b => b.slot) ↔ n.nextExpectedSlot ≤ slot ∧
      slot ≤ n.worldLatestSlot := by
  have hinj : slot ∈ blks.map (fun b => b.slot) ↔
      slot.toNat ∈ blks.map (fun b => b.slot.toNat) := by
    simp only [List.mem_map, UInt64.toNat_inj]
  rw [hinj, h, List.mem_range'_1, UInt64.le_iff_toNat_le, UInt64.le_iff_toNat_le]
  omega

theorem Covers.nodup (h : n.Covers blks) : (blks.map (fun b => b.slot)).Nodup := by
  refine List.Nodup.of_map UInt64.toNat ?_
  rw [List.map_map]
  show (blks.map (fun b => b.slot.toNat)).Nodup
  rw [h]
  exact List.nodup_range'

/-- The first of the blocks is for the slot the node expects. The others are
those of the slots after it, and there are none exactly if it is the latest
slot reported. -/
theorem InOrder.covers_cons (h : InOrder cfg n) (hcovers : n.Covers (blk :: blks)) :
    blk.slot = n.nextExpectedSlot ∧
      ((blks = [] ∧ blk.slot = n.worldLatestSlot) ∨
        (blks ≠ [] ∧ blk.slot < n.worldLatestSlot ∧ (n.follow blk).Covers blks)) := by
  have hle : n.nextExpectedSlot.toNat ≤ n.worldLatestSlot.toNat :=
    UInt64.le_iff_toNat_le.mp h.next_le
  unfold Covers at hcovers
  rw [show n.worldLatestSlot.toNat + 1 - n.nextExpectedSlot.toNat
    = (n.worldLatestSlot.toNat - n.nextExpectedSlot.toNat) + 1 by
      omega, List.map_cons,
    List.range'_succ] at hcovers
  obtain ⟨hhead, htail⟩ := List.cons.inj hcovers
  have hslot : blk.slot = n.nextExpectedSlot := UInt64.toNat_inj.mp hhead
  have hlen : blks.length = n.worldLatestSlot.toNat - n.nextExpectedSlot.toNat := by
    have := congrArg List.length htail
    rwa [List.length_map, List.length_range'] at this
  refine ⟨hslot, ?_⟩
  cases blks with
  | nil =>
    refine Or.inl ⟨rfl, hslot.trans (UInt64.toNat_inj.mp ?_)⟩
    rw [List.length_nil] at hlen
    omega
  | cons blk' blks =>
    have hlt : blk.slot < n.worldLatestSlot := by
      rw [List.length_cons] at hlen
      rw [hslot]
      exact UInt64.lt_iff_toNat_lt.mpr (by omega)
    have hsucc : (blk.slot + 1).toNat = n.nextExpectedSlot.toNat + 1 := by
      rw [hslot]
      exact toNat_succ_of_le h.world h.next_le
    refine Or.inr ⟨List.cons_ne_nil _ _, hlt, ?_⟩
    show _ = List.range' (blk.slot + 1).toNat
      (n.worldLatestSlot.toNat + 1 - (blk.slot + 1).toNat)
    rw [htail, hsucc]
    congr 1
    omega

/-- **The blocks of the slots a node lacks, in order, are all processed.** -/
theorem InOrder.receiveAll (h : InOrder cfg n)
    (hfinalized : n.store.latestFinalized < noSlot)
    {calls : List (BroadcastedBlock × (ℕ → UInt64))} {last : BroadcastedBlock}
    (hlast : (calls.map Prod.fst).getLast? = some last)
    (hcovers : n.Covers (calls.map Prod.fst)) :
    ∃ n', n.receiveAll cfg calls = some n' ∧
      CaughtUp n (calls.map Prod.fst) last n' := by
  induction calls generalizing n with
  | nil => cases hlast
  | cons c calls ih =>
    obtain ⟨hslot, ⟨hnil, heq⟩ | ⟨hne, hlt, hrest⟩⟩ := h.covers_cons hcovers
    · -- the last block, which is that of the latest slot
      obtain rfl := List.map_eq_nil_iff.mp hnil
      obtain rfl : c.1 = last := Option.some.inj hlast
      obtain ⟨n', hstep, hcaught⟩ := h.receive_last hfinalized hslot heq c.2
      refine ⟨n', ?_, hcaught⟩
      unfold Node.receiveAll
      rw [List.foldlM_cons, hstep]
      rfl
    · have hstep := h.receive_of_lt hslot hlt c.2
      have hfinalized' := latestFinalized_follow hfinalized
        (UInt64.lt_trans hlt h.world)
      have hlast' : (calls.map Prod.fst).getLast? = some last := by
        rwa [List.map_cons, List.getLast?_cons_of_ne_nil hne] at hlast
      obtain ⟨n', hrun, hcaught⟩ := ih (h.follow hslot hlt) hfinalized' hlast' hrest
      refine ⟨n', ?_, hcaught.core, hcaught.next, hcaught.ready⟩
      unfold Node.receiveAll
      rw [List.foldlM_cons, hstep]
      exact hrun

/-! ## The batches of a stream -/

/-- The blocks of a stream, with the times of their numbers in the stream. -/
def stamped (clock : ℕ → ℕ → UInt64) (totalBlocks : ℕ)
    (blks : List BroadcastedBlock) :
    List (BroadcastedBlock × (ℕ → UInt64)) :=
  (blks.zipIdx totalBlocks).map fun p => (p.1, clock p.2)

omit [Primitives] in
theorem map_fst_stamped (clock : ℕ → ℕ → UInt64) (totalBlocks : ℕ)
    (blks : List BroadcastedBlock) :
    (stamped clock totalBlocks blks).map Prod.fst = blks := by
  unfold stamped
  rw [List.map_map]
  exact List.zipIdx_map_fst totalBlocks blks

omit [Primitives] in
theorem stamped_append (clock : ℕ → ℕ → UInt64) (totalBlocks : ℕ)
    (blks blks' : List BroadcastedBlock) :
    stamped clock totalBlocks (blks ++ blks')
      = stamped clock totalBlocks blks ++ stamped clock (totalBlocks + blks.length)
        blks' := by
  unfold stamped
  rw [List.zipIdx_append, List.map_append]

theorem receiveAll_append (n : Node)
    (calls calls' : List (BroadcastedBlock × (ℕ → UInt64))) :
    n.receiveAll cfg (calls ++ calls') = (n.receiveAll cfg calls).bind fun n =>
      n.receiveAll cfg calls' :=
  List.foldlM_append

/-- The blocks of a batch are received one by one. -/
theorem handleBlocks_map_some (clock : ℕ → ℕ → UInt64) (n : Node) (totalBlocks : ℕ)
    (blks : List BroadcastedBlock) :
    n.handleBlocks cfg clock totalBlocks (blks.map some)
      = (n.receiveAll cfg (stamped clock totalBlocks blks)).map fun n =>
        (n, totalBlocks + blks.length) := by
  induction blks generalizing n totalBlocks with
  | nil => rfl
  | cons blk blks ih =>
    have hcons : stamped clock totalBlocks (blk :: blks)
        = (blk, clock totalBlocks) :: stamped clock (totalBlocks + 1) blks := rfl
    unfold Node.receiveAll
    rw [hcons, List.foldlM_cons, List.map_cons]
    unfold handleBlocks
    dsimp only
    cases n.onSyncResponseReceived cfg (some blk) (clock totalBlocks) with
    | none => rfl
    | some n' =>
      rw [List.length_cons, Nat.add_comm blks.length 1, ← Nat.add_assoc]
      exact ih n' (totalBlocks + 1)

/-- **The batches of a stream are received block by block**, if none is
empty. -/
theorem handleBatches_map_some (clock : ℕ → ℕ → UInt64) (n : Node) (totalBlocks : ℕ)
    {batches : List (List BroadcastedBlock)} (hne : ∀ batch ∈ batches, batch ≠ []) :
    n.handleBatches cfg clock totalBlocks (batches.map (List.map some))
      = (n.receiveAll cfg (stamped clock totalBlocks batches.flatten)).map
          fun n => (n, totalBlocks + batches.flatten.length) := by
  induction batches generalizing n totalBlocks with
  | nil => rfl
  | cons batch batches ih =>
    have hslots : slotsOfBatch (batch.map some) ≠ none := by
      rw [Ne, slotsOfBatch_eq_none_iff]
      simp [hne batch List.mem_cons_self]
    rw [List.map_cons, List.flatten_cons, stamped_append, receiveAll_append]
    unfold handleBatches
    cases hslot : slotsOfBatch (batch.map some) with
    | none => exact absurd hslot hslots
    | some slots =>
      dsimp only
      rw [handleBlocks_map_some]
      cases n.receiveAll cfg (stamped clock totalBlocks batch) with
      | none => rfl
      | some n' =>
        rw [List.length_append, ← Nat.add_assoc]
        exact ih n' _ fun batch' hbatch' =>
          hne batch' (List.mem_cons_of_mem batch hbatch')

end Node

/-! ## What processing blocks stores -/

namespace Core

/-- A block that passes the checks is stored with its flag, at its slot, and
no other record changes. -/
theorem block_sync {c : Core} {blk : BroadcastedBlock}
    (hsig : blk.verifySignature = true) (htxs : verifyBlockTransactions blk = .ok ())
    (hfree : blk.slot ∉ c.store.blocks) (slot : UInt64) :
    (slot = blk.slot → ∃ status, (c.sync blk).store.block slot
        = some { broadcastedBlockToBlock blk.markPoH with status := status }) ∧
      (slot ≠ blk.slot → (c.sync blk).store.block slot = c.store.block slot) := by
  have hslot : blk.markPoH.slot = blk.slot := blk.slot_markPoH
  unfold sync
  rw [if_pos ⟨hsig, htxs, hfree⟩]
  split
  · have hadd : (c.addBlock blk.markPoH).store.block slot = _ :=
      c.store.block_addBlock blk.markPoH slot
    rw [hadd]
    refine ⟨fun heq => ⟨.pending, ?_⟩, fun hne => ?_⟩
    · rw [if_pos (heq.trans hslot.symm)]
      rfl
    · rw [if_neg fun heq => hne (heq.trans hslot)]
  · have happly : ((c.addBlock blk.markPoH).applySynced
      (broadcastedBlockToBlock blk.markPoH)).store.block slot
        = _ := Store.block_putFinalized _ _ _ _ _ slot
    rw [happly]
    refine ⟨fun heq => ⟨.finalized, if_pos (heq.trans hslot.symm)⟩, fun hne => ?_⟩
    refine (if_neg fun heq => hne (heq.trans hslot)).trans ?_
    show (c.store.addBlock blk.markPoH).block slot = _
    rw [Store.block_addBlock, if_neg fun heq => hne (heq.trans hslot)]

/-- **Processing a block moves no funds**: a block that is applied has no
transactions. -/
theorem accounts_sync (c : Core) (blk : BroadcastedBlock) :
    (c.sync blk).store.accounts = c.store.accounts := by
  unfold sync
  split
  · next hchecked =>
    have hadd : (c.addBlock blk.markPoH).store.accounts = c.store.accounts :=
      Store.accounts_addBlock _ _
    split
    · exact hadd
    · next hpoh =>
      have hnone := (idle_of_verifyBlockTransactions hchecked.2.1).resolve_left hpoh
      refine Eq.trans ?_ hadd
      show AList.writeAll (fun _ a => a)
        ((c.addBlock blk.markPoH).store.executeBlock
          (broadcastedBlockToBlock blk.markPoH)).state _ = _
      unfold Store.executeBlock
      rw [Store.txsInBlock_eq_nil hnone]
      rfl
  · rfl

theorem accounts_foldl_sync (c : Core) (blks : List BroadcastedBlock) :
    (blks.foldl sync c).store.accounts = c.store.accounts := by
  induction blks generalizing c with
  | nil => rfl
  | cons blk blks ih => exact (ih _).trans (accounts_sync c blk)

/-- **Blocks of different free slots that pass the checks are all stored**,
and no other record changes. -/
theorem block_foldl_sync {c : Core} {blks : List BroadcastedBlock}
    (hsig : ∀ b ∈ blks, b.verifySignature = true)
    (htxs : ∀ b ∈ blks, verifyBlockTransactions b = .ok ())
    (hnodup : (blks.map (fun b => b.slot)).Nodup)
    (hfree : ∀ b ∈ blks, b.slot ∉ c.store.blocks) :
    (∀ b ∈ blks, ∃ status, (blks.foldl sync c).store.block b.slot
        = some { broadcastedBlockToBlock b.markPoH with status := status }) ∧
      ∀ slot, slot ∉ blks.map (fun b => b.slot) →
      (blks.foldl sync c).store.block slot = c.store.block slot := by
  induction blks generalizing c with
  | nil => exact ⟨fun b hb => absurd hb List.not_mem_nil, fun _ _ => rfl⟩
  | cons blk blks ih =>
    rw [List.forall_mem_cons] at hsig htxs hfree
    rw [List.map_cons, List.nodup_cons] at hnodup
    have hfree' : ∀ b ∈ blks, b.slot ∉ (c.sync blk).store.blocks := by
      intro b hb hmem
      obtain heq | hmem := mem_blocks_sync hmem
      · exact hnodup.1 (heq ▸ List.mem_map_of_mem hb)
      · exact hfree.2 b hb hmem
    obtain ⟨hstored, hframe⟩ := ih hsig.2 htxs.2 hnodup.2 hfree'
    have hone := block_sync hsig.1 htxs.1 hfree.1
    refine ⟨fun b hb => ?_, fun slot hslot => ?_⟩
    · obtain rfl | hb := List.mem_cons.mp hb
      · obtain ⟨status, hblock⟩ := (hone b.slot).1 rfl
        exact ⟨status, (hframe b.slot hnodup.1).trans hblock⟩
      · exact hstored b hb
    · rw [List.map_cons, List.mem_cons, not_or] at hslot
      exact (hframe slot hslot.2).trans ((hone slot).2 hslot.1)

end Core

/-- **What a node has stored when it has caught up**, if the blocks passed
the checks. -/
theorem Node.CaughtUp.block {cfg : Config} {n n' : Node}
    {blks : List BroadcastedBlock} {last : BroadcastedBlock}
    (hcaught : CaughtUp n blks last n') (h : InOrder cfg n) (hcovers : n.Covers blks)
    (hsig : ∀ b ∈ blks, b.verifySignature = true)
    (htxs : ∀ b ∈ blks, verifyBlockTransactions b = .ok ()) :
    (∀ b ∈ blks, ∃ status, n'.store.block b.slot
        = some { broadcastedBlockToBlock b.markPoH with status := status }) ∧
      ∀ slot, slot < n.nextExpectedSlot ∨ n.worldLatestSlot < slot →
        n'.store.block slot = n.store.block slot := by
  have hfree : ∀ b ∈ blks, b.slot ∉ n.store.blocks := by
    intro b hb
    obtain ⟨hnext, hworld⟩ := hcovers.mem_iff.mp (List.mem_map_of_mem hb)
    exact h.free b.slot hnext hworld
  obtain ⟨hstored, hframe⟩ :=
    Core.block_foldl_sync (c := n.toCore) hsig htxs hcovers.nodup hfree
  rw [hcaught.core]
  refine ⟨hstored, fun slot hout => hframe slot fun hmem => ?_⟩
  obtain ⟨hnext, hworld⟩ := hcovers.mem_iff.mp hmem
  obtain hlt | hlt := hout
  · exact UInt64.not_lt.mpr hnext hlt
  · exact UInt64.not_lt.mpr hworld hlt

/-! ## What the peer sends -/

namespace Store

variable {s : Store}

/-- The message of a record. -/
def sentAs (s : Store) (b : Block) : BroadcastedBlock :=
  { b.toBlockCore with entries := b.entries.map s.loadEntry }

omit [Primitives] in
theorem messageAt_of_block {slot : UInt64} {b : Block} (hb : s.block slot = some b) :
    s.messageAt slot = some (s.sentAs b) := by
  unfold messageAt
  rw [hb]
  rfl

/-- **A record that can be sent**: the message passes the checks of the
receiver, and no transaction is named by a tick entry. -/
structure Sendable (s : Store) (b : Block) : Prop where
  signature : (s.sentAs b).verifySignature = true
  txs : verifyBlockTransactions (s.sentAs b) = .ok ()
  ticks : ∀ e ∈ b.entries, e.tick = true → e.txHashes = []

/-- **The transactions of an entry are looked up and hashed again**: what
comes out are the hashes that went in, if they are all found and none is
null. -/
theorem Receipts.map_hash_getTxBatch (h : s.Receipts) {hs : List String}
    (hfound : ∀ k ∈ hs, ∃ tx, s.txs.lookup k = some (some tx)) :
    ((s.getTxBatch hs).map some).map Transaction.hash = hs := by
  induction hs with
  | nil => rfl
  | cons k hs ih =>
    rw [List.forall_mem_cons] at hfound
    obtain ⟨⟨tx, hlook⟩, hrest⟩ := hfound
    have hread : s.getTxByHash k = some tx := by
      unfold getTxByHash
      rw [hlook]
      rfl
    have hbatch : s.getTxBatch (k :: hs) = tx :: s.getTxBatch hs :=
      List.filterMap_cons_some hread
    rw [hbatch, List.map_cons, List.map_cons, ih hrest, h.named k _ hlook]

/-- A transaction that is found for a verified message is not null: a null
one comes back as one without a signature. -/
theorem Sendable.found {b : Block} (hb : s.Sendable b) (h : s.Receipts)
    {slot : UInt64} (hstored : s.block slot = some b) {e : PersistentEntry}
    (he : e ∈ b.entries) {k : String} (hk : k ∈ e.txHashes) :
    ∃ tx, s.txs.lookup k = some (some tx) := by
  have htick : e.tick = false := by
    cases hmark : e.tick with
    | false => rfl
    | true =>
      rw [hb.ticks e he hmark] at hk
      cases hk
  have hmem : k ∈ b.txHashes := by
    refine List.mem_flatMap.mpr ⟨e, List.mem_filter.mpr ⟨he, ?_⟩, hk⟩
    rw [htick]
    rfl
  obtain ⟨t, hlook⟩ := Option.isSome_iff_exists.mp
    (AList.lookup_isSome.mpr (h.kept slot b hstored k hmem).1)
  cases t with
  | some tx => exact ⟨tx, hlook⟩
  | none =>
    have hread : s.getTxByHash k = some Transaction.zero := by
      unfold getTxByHash
      rw [hlook]
      rfl
    have hsent : some Transaction.zero ∈ (s.sentAs b).allTxs := by
      refine List.mem_flatMap.mpr
        ⟨s.loadEntry e, List.mem_map_of_mem he, List.mem_map_of_mem ?_⟩
      exact List.mem_filterMap.mpr ⟨k, hk, hread⟩
    have hverify : Transaction.zero.verify = true := verify_of_verifyTxs hb.txs hsent
    have hnot : Transaction.zero.verify = false := by
      unfold Transaction.verify
      exact if_pos rfl
    cases hverify.symm.trans hnot

/-- **The receiver's record of a message is the sender's**, but for its
status and its flag. -/
theorem Sendable.received {b : Block} (hb : s.Sendable b) (h : s.Receipts)
    {slot : UInt64} (hstored : s.block slot = some b) :
    broadcastedBlockToBlock (s.sentAs b).markPoH
      = { b with status := .pending, invalidPoH :=
        (s.sentAs b).markPoH.invalidPoH } := by
  have hentries : (b.entries.map s.loadEntry).map Entry.toPersistent = b.entries := by
    rw [List.map_map]
    refine (List.map_congr_left fun e he => ?_).trans (List.map_id b.entries)
    show ({ e with txHashes :=
      ((s.getTxBatch e.txHashes).map some).map Transaction.hash } :
      PersistentEntry) = e
    rw [h.map_hash_getTxBatch fun k hk => hb.found h hstored he hk]
  have hmark : ∀ m : BroadcastedBlock, broadcastedBlockToBlock m.markPoH
      = { broadcastedBlockToBlock m with invalidPoH := m.markPoH.invalidPoH } := by
    intro m
    unfold BroadcastedBlock.markPoH
    split <;> rfl
  rw [hmark]
  show ({ b with
    status := .pending
    invalidPoH := (s.sentAs b).markPoH.invalidPoH
    entries := (b.entries.map s.loadEntry).map Entry.toPersistent } : Block) = _
  rw [hentries]

omit [Primitives] in
/-- The messages of consecutive slots that all have a block. -/
theorem slots_messagesIn {slot count : ℕ} (hbound : slot + count ≤ 2 ^ 64)
    (hblocks : ∀ k, slot ≤ k → k < slot + count →
      ∃ b, s.block (UInt64.ofNat k) = some b) :
    (s.messagesIn slot count).map (fun m => m.slot.toNat)
      = List.range' slot count := by
  induction count generalizing slot with
  | zero => rfl
  | succ count ih =>
    obtain ⟨b, hb⟩ := hblocks slot le_rfl (by omega)
    have hslot : b.slot.toNat = slot := by
      rw [slot_of_block hb]
      exact UInt64.toNat_ofNat_of_lt' (show slot < 2 ^ 64 by omega)
    rw [messagesIn_succ, messageAt_of_block hb, Option.toList_some,
      List.singleton_append, List.map_cons,
      ih (by omega) fun k hle hlt => hblocks k (by omega) (by omega),
      List.range'_succ]
    exact congrArg (· :: List.range' (slot + 1) count) hslot

omit [Primitives] in
/-- A message of some slots is that of one of their blocks. -/
theorem mem_messagesIn {slot count : ℕ} {m : BroadcastedBlock}
    (hm : m ∈ s.messagesIn slot count) :
    ∃ k b, slot ≤ k ∧ k < slot + count ∧ s.block (UInt64.ofNat k) = some b ∧
      m = s.sentAs b := by
  obtain ⟨k, hk, hat⟩ := List.mem_filterMap.mp hm
  rw [List.mem_range'_1] at hk
  unfold messageAt at hat
  cases hb : s.block (UInt64.ofNat k) with
  | none =>
    rw [hb] at hat
    cases hat
  | some b =>
    rw [hb] at hat
    exact ⟨k, b, hk.1, hk.2, hb, (Option.some.inj hat).symm⟩

omit [Primitives] in
/-- **The answer to a request from a slot that is finalized**: the stored
blocks from there on, in batches none of which is empty. -/
theorem sendBlocksOverStream_of_le (htop : s.latestFinalized.toNat < 2 ^ 64 - 101)
    {req : SyncRequest} (hreq : req.fromSlot ≤ req.toSlot)
    (hle : req.fromSlot ≤ s.latestFinalized) {fuel : ℕ}
    (hfuel : s.latestFinalized.toNat + 1 < fuel) :
    ∃ sent, s.sendBlocksOverStream req fuel = some sent ∧ sent.request = req ∧
      sent.batches.flatten = s.messagesIn req.fromSlot.toNat
        (s.latestFinalized.toNat + 1 - req.fromSlot.toNat) ∧
      ∀ batch ∈ sent.batches, batch ≠ [] := by
  obtain ⟨b, hsend, hbounded, hclosed, hcontent⟩ :=
    sendWindows_spec htop hfuel hreq (Nat.one_le_of_lt hfuel)
    (Nat.lt_of_lt_of_le hfuel (Nat.le_add_left _ _))
      (Batches.bounded_empty (by decide)) rfl
  refine ⟨⟨req, b.closed⟩, ?_, rfl, ?_, fun batch hbatch => ?_⟩
  · unfold sendBlocksOverStream
    rw [if_neg fun hbeyond => UInt64.not_lt.mpr hle hbeyond.2, hsend]
    rfl
  · unfold Batches.content at hcontent
    rwa [hclosed, List.append_nil] at hcontent
  · exact List.ne_nil_of_length_pos (hbounded.closed batch hbatch).1

/-- **The slots a peer can send**: each has a record, and it can be sent. -/
def Offers (s : Store) (fromSlot : UInt64) : Prop :=
  ∀ slot, fromSlot ≤ slot → slot ≤ s.latestFinalized → ∃ b, s.block slot = some b ∧
    s.Sendable b

/-- The records of the slots in question, by their numbers. -/
theorem Offers.block {fromSlot : UInt64} (h : s.Offers fromSlot) {k : ℕ}
    (hle : fromSlot.toNat ≤ k) (hlt : k < s.latestFinalized.toNat + 1) :
    ∃ b, s.block (UInt64.ofNat k) = some b ∧ s.Sendable b := by
  have hbound : s.latestFinalized.toNat < 2 ^ 64 := UInt64.toNat_lt _
  have hk : (UInt64.ofNat k).toNat = k :=
    UInt64.toNat_ofNat_of_lt' (show k < 2 ^ 64 by omega)
  refine h _ ?_ ?_
  · rwa [UInt64.le_iff_toNat_le, hk]
  · rw [UInt64.le_iff_toNat_le, hk]
    exact Nat.le_of_lt_succ hlt

/-- **What is sent of slots that can all be sent**: a message for each of
them, in order, which is that of its record. -/
theorem Offers.messages {fromSlot : UInt64} (h : s.Offers fromSlot)
    (hle : fromSlot ≤ s.latestFinalized)
    (htop : s.latestFinalized.toNat < 2 ^ 64 - 101) :
    (s.messagesIn fromSlot.toNat (s.latestFinalized.toNat + 1 - fromSlot.toNat)).map
      (fun m => m.slot.toNat)
        = List.range' fromSlot.toNat (s.latestFinalized.toNat + 1 - fromSlot.toNat) ∧
      ∀ m ∈ s.messagesIn fromSlot.toNat (s.latestFinalized.toNat + 1 - fromSlot.toNat),
        ∃ b, s.block m.slot = some b ∧ s.Sendable b ∧ m = s.sentAs b := by
  have hle' : fromSlot.toNat ≤ s.latestFinalized.toNat :=
    UInt64.le_iff_toNat_le.mp hle
  have hend : fromSlot.toNat + (s.latestFinalized.toNat + 1 - fromSlot.toNat)
      = s.latestFinalized.toNat + 1 := by
    omega
  refine ⟨slots_messagesIn (by omega) fun k hfrom hto => ?_, fun m hm => ?_⟩
  · obtain ⟨b, hb, -⟩ := h.block hfrom (hend ▸ hto)
    exact ⟨b, hb⟩
  · obtain ⟨k, b, hfrom, hto, hb, rfl⟩ := mem_messagesIn hm
    obtain ⟨b', hb', hsendable⟩ := h.block hfrom (hend ▸ hto)
    obtain rfl : b = b' := Option.some.inj (hb.symm.trans hb')
    refine ⟨b, ?_, hsendable, rfl⟩
    show s.block b.slot = some b
    rw [slot_of_block hb]
    exact hb

end Store

/-! ## Both ends -/

/-- The stream a peer opens to send its blocks, as the node reads it. -/
def SentStream.toPeer (sent : SentStream) (stream : ℕ) (remotePeer : String) :
    PeerStream :=
  ⟨stream, remotePeer, some sent.request, sent.batches.map (List.map some)⟩

/-- **A stream with the blocks of the slots a node lacks is read to its
end**, and the node has caught up. -/
theorem Node.InOrder.handleBlockSyncRequestStream {cfg : Config} {net : SyncNetwork}
    (h : InOrder cfg net.node) (hfinalized : net.node.store.latestFinalized < noSlot)
    {sent : SentStream} (hcovers : net.node.Covers sent.batches.flatten)
    (hne : ∀ batch ∈ sent.batches, batch ≠ [])
    (hinactive : (net.tracker sent.request).isActive = false) (stream : ℕ)
    (remotePeer : String) (clock : ℕ → ℕ → UInt64) :
    ∃ net' last, net.handleBlockSyncRequestStream cfg
      (sent.toPeer stream remotePeer) clock
      = some net' ∧ CaughtUp net.node sent.batches.flatten last net'.node := by
  have hnext := hcovers.mem_iff.mpr ⟨UInt64.le_refl _, h.next_le⟩
  obtain ⟨last, hlast⟩ : ∃ last, sent.batches.flatten.getLast? = some last :=
    ⟨_, List.getLast?_eq_some_getLast fun hnil => by rw [hnil] at hnext; cases hnext⟩
  have hcalls := map_fst_stamped clock 0 sent.batches.flatten
  rw [← hcalls] at hlast hcovers
  obtain ⟨n', hreceive, hcaught⟩ := h.receiveAll hfinalized hlast hcovers
  rw [hcalls] at hcaught
  have hbatches : net.node.handleBatches cfg clock 0
    (sent.batches.map (List.map some))
      = some (n', 0 + sent.batches.flatten.length) := by
    rw [handleBatches_map_some clock net.node 0 hne, hreceive]
    rfl
  unfold SyncNetwork.handleBlockSyncRequestStream SentStream.toPeer
  dsimp only
  unfold SyncRequestTracker.activatePeer
  rw [hinactive]
  dsimp only
  rw [hbatches]
  refine ⟨_, last, rfl, ?_⟩
  unfold SyncNetwork.finish
  dsimp only
  split <;> exact hcaught

/-- The second record is the first, but for its status and its flag. -/
def Block.Copy (b b' : Block) : Prop :=
  b' = { b with status := b'.status, invalidPoH := b'.invalidPoH }

/-- **A node catches up with a peer.** What is asked of the two:

* of the node (`Node.InOrder`), that the latest slot it has heard of is the
  latest finalized slot of the peer, that it has no block for any slot from
  the one it expects up to that one, that no block for a slot after the
  first of them waits in its queue, and that it leads none of the slots
  after the first;
* of the peer, that its state is reached by the operations of a node from
  genesis (`Operated`), and that for each of these slots it has a record
  whose message passes the checks of signature and transactions and whose
  tick entries name no transactions (`Store.Offers`);
* of the request, that it begins with the slot the node expects, that its
  range is not empty, and that no other peer is answering it;
* of the numbers, that the latest finalized slot of the node is below the
  largest number, and that of the peer 101 below it.

Then the peer's answer to the node's request ends, the node reads it to its
end, and for each of the slots it then has a copy of the peer's block. It
expects the slot after the last, and it is ready if it was not ready and had
not switched to full mode before. The other records and all accounts are
what they were, whatever the blocks carry. -/
theorem caught_up {cfg cfg' : Config} {peer : Node} (hpeer : Operated cfg' peer)
    {net : SyncNetwork} (h : Node.InOrder cfg net.node)
    (hfinalized : net.node.store.latestFinalized < noSlot)
    (hworld : net.node.worldLatestSlot = peer.store.latestFinalized)
    (htop : peer.store.latestFinalized.toNat < 2 ^ 64 - 101) {req : SyncRequest}
    (hfrom : req.fromSlot = net.node.nextExpectedSlot)
    (hreq : req.fromSlot ≤ req.toSlot) (hoffers : peer.store.Offers req.fromSlot)
    (hinactive : (net.tracker req).isActive = false) (stream : ℕ)
    (remotePeer : String) (clock : ℕ → ℕ → UInt64) {fuel : ℕ}
    (hfuel : peer.store.latestFinalized.toNat + 1 < fuel) :
    ∃ sent net', peer.store.sendBlocksOverStream req fuel = some sent ∧
      net.handleBlockSyncRequestStream cfg (sent.toPeer stream remotePeer)
        clock = some net' ∧
      (∀ slot, net.node.nextExpectedSlot ≤ slot → slot ≤ net.node.worldLatestSlot →
        ∃ b b', peer.store.block slot = some b ∧
        net'.node.store.block slot = some b' ∧ b.Copy b') ∧
      (∀ slot, slot < net.node.nextExpectedSlot ∨ net.node.worldLatestSlot < slot →
        net'.node.store.block slot = net.node.store.block slot) ∧
      net'.node.store.accounts = net.node.store.accounts ∧
      net'.node.nextExpectedSlot = net.node.worldLatestSlot + 1 ∧
      (net.node.ready = false → net.node.fullModeEnabled = false →
        net'.node.ready = true) := by
  have hle : req.fromSlot ≤ peer.store.latestFinalized := by
    rw [hfrom, ← hworld]
    exact h.next_le
  -- the peer's end
  obtain ⟨sent, hsend, rfl, hflatten, hne⟩ :=
    Store.sendBlocksOverStream_of_le htop hreq hle hfuel
  obtain ⟨hslots, hsent⟩ := hoffers.messages hle htop
  rw [← hflatten] at hslots hsent
  -- the node's end
  have hcovers : net.node.Covers sent.batches.flatten := by
    unfold Node.Covers
    rw [hslots, hfrom, hworld]
  obtain ⟨net', last, hstream, hcaught⟩ :=
    h.handleBlockSyncRequestStream hfinalized hcovers hne hinactive stream
      remotePeer clock
  have hchecked : ∀ m ∈ sent.batches.flatten,
      m.verifySignature = true ∧ verifyBlockTransactions m = .ok () := by
    intro m hm
    obtain ⟨b, -, hb, rfl⟩ := hsent m hm
    exact ⟨hb.signature, hb.txs⟩
  obtain ⟨hstored, hframe⟩ := hcaught.block h hcovers (fun m hm => (hchecked m hm).1)
    (fun m hm => (hchecked m hm).2)
  refine ⟨sent, net', hsend, hstream, fun slot hnext hslot => ?_, hframe, ?_,
    hcaught.next, fun hready honce => (hcaught.ready hready honce).1⟩
  · obtain ⟨m, hm, rfl⟩ := List.mem_map.mp (hcovers.mem_iff.mpr ⟨hnext, hslot⟩)
    obtain ⟨b, hb, hsendable, heq⟩ := hsent m hm
    obtain ⟨status, hblock⟩ := hstored m hm
    refine ⟨b, _, hb, hblock, ?_⟩
    rw [heq, hsendable.received hpeer.receipts hb]
    rfl
  · rw [hcaught.core]
    exact Core.accounts_foldl_sync _ _

end

section Sample

attribute [local instance] Sample.primitives

open Sample

/-- The record of a slot can be sent. -/
def Sample.sendable (s : Store) (slot : UInt64) : Bool :=
  (s.block slot).any fun b => (s.sentAs b).verifySignature &&
    decide (verifyBlockTransactions (s.sentAs b) = .ok ()) && b.entries.all fun e =>
      !e.tick

theorem Sample.exists_of_sendable {s : Store} {slot : UInt64}
    (h : sendable s slot = true) :
    ∃ b, s.block slot = some b ∧ s.Sendable b := by
  simp only [sendable, Option.any_eq_true, Bool.and_eq_true, decide_eq_true_eq,
    List.all_eq_true, Bool.not_eq_true'] at h
  obtain ⟨b, hb, ⟨hsig, htxs⟩, hticks⟩ := h
  exact ⟨b, hb, hsig, htxs, fun e he htick => by cases (hticks e he).symm.trans htick⟩

theorem Sample.eq_one_or_two {slot : UInt64} (hle : 1 ≤ slot) (hge : slot ≤ 2) :
    slot = 1 ∨ slot = 2 := by
  have hle' : 1 ≤ slot.toNat := hle
  have hge' : slot.toNat ≤ 2 := hge
  obtain h | h : slot.toNat = 1 ∨ slot.toNat = 2 := by omega
  · exact Or.inl (UInt64.toNat_inj.mp h)
  · exact Or.inr (UInt64.toNat_inj.mp h)

/-- A node without blocks, to which two slots have been reported, of which
it leads the first. -/
theorem Sample.inOrder_behind :
    Node.InOrder (oneOfFour false) (SyncNetwork.mk (behind 2) ∅ ∅).node where
  next_le := by decide
  world := by decide
  free slot _ _ := AList.notMem_empty slot
  queue _ _ _ := rfl
  notLed slot hlt hle := by
    obtain rfl | rfl := eq_one_or_two (UInt64.le_of_lt hlt) hle
    · exact absurd hlt (by decide)
    · decide +kernel

/-- Two slots, in the first of which thirty were paid: the node gets both
blocks, and nothing of the thirty. -/
theorem caught_up_paid :
    ∃ peer sent net', Operated alone peer ∧
      (peer.store.accounts.lookup (keyID 1)).isSome = true ∧
      peer.store.sendBlocksOverStream ⟨"r", 1, 2⟩ 4 = some sent ∧
      SyncNetwork.handleBlockSyncRequestStream (oneOfFour false) ⟨behind 2, ∅, ∅⟩
        (sent.toPeer 7 (keyID 2)) (fun _ _ => 20) = some net' ∧
      (∃ b b', peer.store.block 1 = some b ∧ net'.node.store.block 1 = some b' ∧
        b.Copy b') ∧
      (∃ b b', peer.store.block 2 = some b ∧ net'.node.store.block 2 = some b' ∧
        b.Copy b') ∧
      net'.node.store.accounts.lookup (keyID 1) = none := by
  obtain ⟨peer, hpeer, htest⟩ := exists_operated alone
    (fun n => (n.store.accounts.lookup (keyID 1)).isSome
      && decide (n.store.latestFinalized = 2) &&
      sendable n.store 1 && sendable n.store 2)
    [⟨keyID 2, 100⟩] 0
      [.processBlockBeforeBroadcast (blockWith 1 1 0 [transfer 2 1 30 1 0]),
      .applyDataToBlock 1, .processBlockBeforeBroadcast (blockWith 1 2 0 []),
      .applyDataToBlock 2]
    (by decide +kernel)
  rw [Bool.and_eq_true, Bool.and_eq_true, Bool.and_eq_true, decide_eq_true_iff]
    at htest
  obtain ⟨⟨⟨hpaid, hlatest⟩, hfirst⟩, hsecond⟩ := htest
  have hoffers : peer.store.Offers 1 := by
    intro slot hle hge
    rw [hlatest] at hge
    obtain rfl | rfl := eq_one_or_two hle hge
    · exact exists_of_sendable hfirst
    · exact exists_of_sendable hsecond
  have hinactive : ((SyncNetwork.mk (behind 2) ∅ ∅).tracker ⟨"r", 1, 2⟩).isActive
      = false := rfl
  have hfuel : peer.store.latestFinalized.toNat + 1 < 4 := by
    rw [hlatest]
    decide
  obtain ⟨sent, net', hsend, hstream, hcopies, -, haccounts, -⟩ :=
    caught_up hpeer inOrder_behind
    (by decide) hlatest.symm (by rw [hlatest]; decide) rfl (by decide) hoffers
      hinactive 7 (keyID 2)
    (fun _ _ => 20) hfuel
  refine ⟨peer, sent, net', hpeer, hpaid, hsend, hstream,
    hcopies 1 (by decide) (by decide), hcopies 2 (by decide) (by decide), ?_⟩
  rw [haccounts]
  rfl

end Sample

end Mmn
