import Mmn.BlockHash

/-!
# The clock of a follower

A node that does not lead keeps its hash clock in step with the leader's:
when a block arrives that is newer than every stored one, the recorder is to
be set to the end of that block. The handler stores the block first and
compares afterwards – with the number that storing the block has just
raised. The comparison is therefore never true
(`Store.slot_le_latestStore_addBlock`), and no live block moves the recorder
(`recorder_onBlockReceived`).
-/

namespace Mmn

section

variable [Primitives]

namespace Node

variable {cfg : Config} {n n' : Node} {r : Except String Unit}

theorem recorder_processVote {v : Vote} (h : n.processVote cfg v = some (n', r)) :
    n'.recorder = n.recorder := by
  obtain rfl | ⟨-, -, -, -, rfl | rfl | ⟨-, -, -, -, -, rfl⟩⟩ := processVote_cases h
  · rfl
  · rfl
  · rfl
  · rfl

theorem recorder_castVote {slot : UInt64} {hash : Hash}
    (h : n.castVote cfg slot hash = some (n', r)) : n'.recorder = n.recorder :=
  recorder_processVote (n := n.log _) h

/-- **A live block does not move the clock**, whether the node leads or
follows and whatever the block is. -/
theorem recorder_onBlockReceived {blk : BroadcastedBlock}
    (h : n.onBlockReceived cfg blk = some (n', r)) : n'.recorder = n.recorder := by
  obtain rfl | ⟨-, -, ⟨-, rfl⟩ | ⟨-, hvote⟩⟩ := onBlockReceived_cases h
  · rfl
  · rfl
  · obtain ⟨dedup, mempool, -, hcast⟩ := voteForReceived_cases hvote
    have hrecorder := recorder_castVote hcast
    exact hrecorder

/-- **A live block leaves the recorder at its end** exactly if the recorder
was there before: for every node and every block, the recorder is the one a
reset to the block's last hash and slot gives, or has the slot after the
block's under way, after the call if and only if so before it. -/
theorem resynchronised_iff {blk : BroadcastedBlock}
    (h : n.onBlockReceived cfg blk = some (n', r)) :
    (n'.recorder = n.recorder.reset blk.lastEntryHash blk.slot ↔
        n.recorder = n.recorder.reset blk.lastEntryHash blk.slot) ∧
      (n'.recorder.currentSlot = blk.slot + 1 ↔
        n.recorder.currentSlot = blk.slot + 1) := by
  rw [recorder_onBlockReceived h]
  exact ⟨Iff.rfl, Iff.rfl⟩

end Node

end

section Sample

attribute [local instance] Sample.primitives

open Node

theorem Sample.key_three : getPublicKeyFromLeaderID (keyID 3) = .ok (keyBytes 3) := by
  decide +kernel

/-- The third of four validators. -/
def Sample.thirdOfFour : Config := config fourSchedule 3 false key_three

/-- The node follows: it leads neither the slot under way nor the block's,
the block is newer than every stored one, and it is stored. -/
def Sample.Follows (cfg : Config) (n : Node) (blk : BroadcastedBlock) : Prop :=
  isLeader cfg n.recorder.currentSlot = false ∧ isLeader cfg blk.slot = false ∧
    n.store.latestStore < blk.slot ∧ n.Stores cfg blk

instance (cfg : Config) (n : Node) (blk : BroadcastedBlock) :
    Decidable (Sample.Follows cfg n blk) :=
  inferInstanceAs (Decidable (_ ∧ _ ∧ _ ∧ _))

/-- The block of slot one reaches a follower that is in slot two already. -/
theorem resynchronised_already :
    ∃ n n' r, NodeRun Sample.thirdOfFour Machine.Always n ∧
      Sample.Follows Sample.thirdOfFour n Sample.signedBlock ∧
      n.onBlockReceived Sample.thirdOfFour Sample.signedBlock = some (n', r) ∧
      n'.recorder.currentSlot = Sample.signedBlock.slot + 1 := by
  obtain ⟨n, hrun, htest⟩ := exists_nodeRun Sample.thirdOfFour Machine.Always
    (fun n => decide (Sample.Follows Sample.thirdOfFour n Sample.signedBlock) &&
      (n.onBlockReceived Sample.thirdOfFour Sample.signedBlock).isSome &&
      decide (n.recorder.currentSlot = Sample.signedBlock.slot + 1))
    [] 0 [.autoHash, .drainEntries, .tickAndFlush 0] (by decide +kernel)
  rw [Bool.and_eq_true, Bool.and_eq_true, decide_eq_true_iff, decide_eq_true_iff]
    at htest
  obtain ⟨⟨hfollows, hsome⟩, hslot⟩ := htest
  obtain ⟨⟨n', r⟩, hblock⟩ := Option.isSome_iff_exists.mp hsome
  exact ⟨n, n', r, hrun, hfollows, hblock, (resynchronised_iff hblock).2.mpr hslot⟩

/-- A block of the second leader, newer than every block a new node has. -/
def Sample.newerBlock : BroadcastedBlock := blockWith 2 2 0 []

/-- **A follower that stays behind.** A new node stores the block of slot
two and is still in slot one, with another hash. -/
theorem follower_stays_behind :
    ∃ n n' r, NodeRun Sample.thirdOfFour Machine.Always n ∧
      Sample.Follows Sample.thirdOfFour n Sample.newerBlock ∧
      n.onBlockReceived Sample.thirdOfFour Sample.newerBlock = some (n', r) ∧
      n'.recorder.currentSlot = 1 ∧ Sample.newerBlock.slot + 1 = 3 ∧
      n'.recorder.poh.hash ≠ Sample.newerBlock.lastEntryHash := by
  obtain ⟨n, hrun, htest⟩ := exists_nodeRun Sample.thirdOfFour Machine.Always
    (fun n => decide (Sample.Follows Sample.thirdOfFour n Sample.newerBlock) &&
      (n.onBlockReceived Sample.thirdOfFour Sample.newerBlock).any
        (fun (a : Node × Except String Unit) =>
        decide (a.1.recorder.currentSlot = 1 ∧
          a.1.recorder.poh.hash ≠ Sample.newerBlock.lastEntryHash)))
    [] 0 [] (by decide +kernel)
  rw [Bool.and_eq_true, decide_eq_true_iff, Option.any_eq_true] at htest
  obtain ⟨hfollows, ⟨n', r⟩, hblock, hclock⟩ := htest
  obtain ⟨hslot, hhash⟩ := of_decide_eq_true hclock
  exact ⟨n, n', r, hrun, hfollows, hblock, hslot, rfl, hhash⟩

end Sample

end Mmn
