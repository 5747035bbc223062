import Mmn.CatchUp

/-!
# Ready without a block

A node that syncs is ready when it has caught up. What
`OnSyncResponseReceived` looks at is the slot of the last block that was
taken off the queue, not what became of it. `processBlock` checks the
block's signature, its transactions and its hashes, and the loop over the
queue goes on whatever it says: the block is counted as processed, and the
slot is passed. A peer that answers a sync with blocks anybody could have
made up brings the node to the end of it all the same (`ready_of_unsigned`),
with nothing stored and a clock that continues from a hash of the peer's
choice.
-/

namespace Mmn

section

variable [Primitives]

theorem Core.foldl_sync_of_unsigned {blks : List BroadcastedBlock}
    (hsig : ∀ b ∈ blks, b.verifySignature = false) (c : Core) :
    blks.foldl sync c = c := by
  induction blks with
  | nil => rfl
  | cons blk blks ih =>
    rw [List.forall_mem_cons] at hsig
    have hblk : c.sync blk = c := by
      unfold sync
      rw [if_neg (fun hvalid => absurd (hvalid.1.symm.trans hsig.1) Bool.noConfusion)]
    rw [List.foldl_cons, hblk]
    exact ih hsig.2

namespace Node

variable {cfg : Config}

/-- Blocks of the sync among the inputs of a node. -/
theorem exec_syncResponses (n : Node)
    (calls : List (BroadcastedBlock × (ℕ → UInt64))) :
    Machine.exec (step cfg) Machine.Always n
      (calls.map fun c => .syncResponse (some c.1) c.2) = n.receiveAll cfg calls := by
  induction calls generalizing n with
  | nil => rfl
  | cons c calls ih =>
    unfold receiveAll
    rw [List.map_cons, Machine.exec_always_cons, List.foldlM_cons]
    exact congrArg (Option.bind (n.onSyncResponseReceived cfg (some c.1) c.2))
      (funext ih)

/-- **Blocks without a valid signature make a node ready.** A node syncs: it
is not ready and has not switched to full mode, it has no block for any slot
from the one it expects up to the latest slot its peers have reported, no
block for a slot after the first of them waits in its queue, and it leads
none of the slots after the first (`InOrder`). Neither the latest slot
reported nor its own latest finalized slot is the largest number.

It is given one block for each of these slots, in order, all of them without
a valid signature. It refuses them all, and stores nothing; but it takes the
hash of the last of them for its clock, starts the core services and is
ready. -/
theorem ready_of_unsigned {n : Node} (h : InOrder cfg n) (hready : n.ready = false)
    (honce : n.fullModeEnabled = false)
    (hfinalized : n.store.latestFinalized < noSlot) (clock : ℕ → UInt64)
    {blks : List BroadcastedBlock} {last : BroadcastedBlock}
    (hlast : blks.getLast? = some last) (hcovers : n.Covers blks)
    (hsig : ∀ b ∈ blks, b.verifySignature = false) :
    ∃ n', Machine.exec (step cfg) Machine.Always n
      (blks.map fun b => .syncResponse (some b) clock) = some n' ∧
      n'.ready = true ∧ n'.toCore = n.toCore ∧
      n'.nextExpectedSlot = n.worldLatestSlot + 1 ∧
      n'.recorder = n.recorder.reset last.lastEntryHash n.worldLatestSlot := by
  have hcalls : (blks.map fun b => (b, clock)).map Prod.fst = blks := by
    rw [List.map_map]
    exact List.map_id blks
  rw [← hcalls] at hlast hcovers
  obtain ⟨n', hreceive, hcaught⟩ := h.receiveAll hfinalized hlast hcovers
  rw [hcalls] at hcaught
  obtain ⟨hready', hrecorder⟩ := hcaught.ready hready honce
  refine ⟨n', ?_, hready', ?_, hcaught.next, hrecorder⟩
  · rw [← exec_syncResponses, List.map_map] at hreceive
    exact hreceive
  · rw [hcaught.core]
    exact Core.foldl_sync_of_unsigned hsig n.toCore

end Node

end

section Sample

attribute [local instance] Sample.primitives

/-- A block without its signature. -/
def Sample.unsigned (b : BroadcastedBlock) : BroadcastedBlock :=
  { b with signature := [] }

open Sample

/-- Slots 2 and 3 are to be synced; two unsigned blocks do. -/
theorem Node.ready_of_unsigned_two :
    ∃ n', Machine.exec (Node.step (oneOfFour false)) Machine.Always
      ((behind 3).setNextExpectedSlot 2)
        ([unsigned blockTwo, unsigned blockThree].map fun b =>
          .syncResponse (some b) fun _ => 20) = some n' ∧
      n'.ready = true ∧ n'.toCore = (behind 3).toCore ∧ n'.nextExpectedSlot = 3 + 1 ∧
      n'.recorder = (behind 3).recorder.reset
        (unsigned blockThree).lastEntryHash 3 := by
  have horder : Node.InOrder (oneOfFour false)
      ((behind 3).setNextExpectedSlot 2) := by
    refine ⟨by decide, by decide, fun slot _ _ => AList.notMem_empty slot,
      fun slot _ _ => rfl, fun slot hlt hle => ?_⟩
    have hlt' : 2 < slot.toNat := UInt64.lt_iff_toNat_lt.mp hlt
    have hle' : slot.toNat ≤ 3 := UInt64.le_iff_toNat_le.mp hle
    obtain rfl : slot = 3 := UInt64.toNat_inj.mp (le_antisymm hle' hlt')
    decide +kernel
  exact Node.ready_of_unsigned horder rfl rfl (by decide) _ rfl (by decide +kernel)
    (by decide +kernel)

end Sample

end Mmn
