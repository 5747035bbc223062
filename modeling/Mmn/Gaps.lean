import Mmn.Ordering

/-!
# Gaps after a sync

The slots applied through the ordering queue should have no gap below them.
A block that fails its checks is logged and passed over, though, and the
blocks after it are applied all the same (`gap_after_forged_block`). There
is no gap if every block that is passed on applies (`no_gap`).
-/

namespace Mmn

section

variable [Primitives]

namespace Core

/-- **A block that passes all checks is applied**, at a free slot. -/
theorem sync_of_applies {c : Core} {b : BroadcastedBlock} (h : b.Applies)
    (hfree : b.slot ∉ c.store.blocks) :
    c.sync b = (c.addBlock b).applySynced (broadcastedBlockToBlock b) := by
  obtain ⟨hsig, htxs, hpoh, hflag⟩ := h
  have hmark : b.markPoH = b := by
    unfold BroadcastedBlock.markPoH
    rw [hpoh]
  unfold sync
  rw [if_pos ⟨hsig, htxs, hfree⟩, hmark, hflag]
  rfl

/-- **Blocks that pass all checks are applied**, all of them, at free slots. -/
theorem foldl_sync_of_applies {blks : List BroadcastedBlock} {c : Core}
    (happlies : ∀ b ∈ blks, b.Applies ∧ b.slot ∉ c.store.blocks)
    (hslots : (blks.map fun b => b.slot).Nodup) :
    (blks.foldl sync c).syncedSlots = c.syncedSlots ++ blks.map (fun b => b.slot) ∧
      ∀ slot, slot ∈ (blks.foldl sync c).store.finalized ↔
        slot ∈ blks.map (fun b => b.slot) ∨ slot ∈ c.store.finalized := by
  induction blks generalizing c with
  | nil =>
    refine ⟨(List.append_nil _).symm, fun slot => ?_⟩
    rw [List.map_nil, List.foldl_nil]
    simp
  | cons b blks ih =>
    obtain ⟨hb, hfree⟩ := happlies b List.mem_cons_self
    obtain ⟨hnot, hslots⟩ := List.nodup_cons.mp hslots
    have hsync := sync_of_applies hb hfree
    have hsynced : (c.sync b).syncedSlots = c.syncedSlots ++ [b.slot] := by
      rw [hsync]
      unfold syncedSlots applySynced addBlock
      rw [List.append_assoc, List.filterMap_append]
      rfl
    have hfinalized : ∀ slot, slot ∈ (c.sync b).store.finalized ↔
        slot = b.slot ∨ slot ∈ c.store.finalized := by
      intro slot
      rw [hsync]
      show slot ∈ insert b.slot (c.store.addBlock b).finalized ↔ _
      rw [Finset.mem_insert, Store.finalized_addBlock]
    obtain ⟨hrest, hrest'⟩ :=
      ih (c := c.sync b) (fun b' hb' => ⟨(happlies b' (List.mem_cons_of_mem b hb')).1,
      fun hmem => (mem_blocks_sync hmem).elim
        (fun heq => hnot (List.mem_map.mpr ⟨b', hb', heq⟩))
        (happlies b' (List.mem_cons_of_mem b hb')).2⟩) hslots
    refine ⟨?_, fun slot => ?_⟩
    · rw [List.foldl_cons, hrest, hsynced, List.append_assoc]
      rfl
    · rw [List.foldl_cons, hrest', hfinalized, List.map_cons, List.mem_cons]
      tauto

end Core

namespace SyncQueue

variable {cfg : Config} {k : UInt64}

/-- **Every block that is passed on applies**: it passes all checks, and its
slot is free. What else happens to the node applies no block through the
queue and takes no mark back. -/
def AllApply (cfg : Config) (q : SyncQueue) (i : QueueInput) : Prop :=
  q.Allowed i ∧ match i with
    | .add none _ => True
    | .add (some blk) clock =>
      ∀ b ∈ q.node.offered cfg (.syncResponse (some blk) clock),
        b.Applies ∧ b.slot ∉ q.node.store.blocks
    | .elsewhere n => n.syncedSlots = q.node.syncedSlots ∧
        q.node.store.finalized ⊆ n.store.finalized

/-- **What is passed on is applied**: the slots applied through the queue
since the start are those passed on. -/
structure Applied (k : UInt64) (before : List UInt64) (q : SyncQueue) : Prop where
  inLine : InLine k q
  synced : q.node.syncedSlots = before ++ q.passed.map fun p => p.1.slot
  finalized : ∀ p ∈ q.passed, p.1.slot ∈ q.node.store.finalized

theorem Applied.step {before : List UInt64} {q q' : SyncQueue} {i : QueueInput}
    (h : Applied k before q) (hC : AllApply cfg q i)
    (hstep : q.step cfg i = some q') :
    Applied k before q' := by
  obtain ⟨hallowed, hC⟩ := hC
  have hline := h.inLine.step hallowed hstep
  cases i with
  | add blk clock =>
    cases blk with
    | none =>
      cases hstep
      exact h
    | some blk =>
      obtain hnone | ⟨c, blks, htake, hoffered, htakes⟩ :=
        h.inLine.add_cases cfg blk clock
      · cases hnone.symm.trans hstep
        exact h
      · cases htake.symm.trans hstep
        have hnodup : (blks.map fun b => b.slot).Nodup := by
          refine List.Nodup.of_map UInt64.toNat ?_
          rw [List.map_map]
          show (blks.map fun b => b.slot.toNat).Nodup
          rw [htakes.slots]
          exact List.nodup_range'
        have happlies : ∀ b ∈ blks, b.Applies ∧ b.slot ∉ q.node.store.blocks :=
          hoffered ▸ hC
        obtain ⟨hsynced, hfinalized⟩ := Core.foldl_sync_of_applies happlies hnodup
        refine ⟨hline, ?_, fun p hp => (hfinalized p.1.slot).mpr ?_⟩
        · refine hsynced.trans ?_
          rw [h.synced, List.append_assoc, List.map_append, List.map_map]
          rfl
        · obtain hp | hp := List.mem_append.mp hp
          · exact Or.inr (h.finalized p hp)
          · obtain ⟨b, hb, rfl⟩ := List.mem_map.mp hp
            exact Or.inl (List.mem_map_of_mem hb)
  | elsewhere n =>
    cases hstep
    exact ⟨hline, hC.1.trans h.synced, fun p hp => hC.2 (h.finalized p hp)⟩

/-- **No gaps, if every block that is passed on applies.** When a slot has
been applied through the queue since the next slot was set to `k`, all slots
from `k` up to it are applied. -/
theorem no_gap (cfg : Config) {n : Node} (hkeyed : Node.Keyed n.blockOrderingQueue)
    (hworld : n.worldLatestSlot < noSlot) (k : UInt64) {q : SyncQueue}
    (hrun : Machine.Run (step cfg) (AllApply cfg) ⟨n.setNextExpectedSlot k, []⟩ q)
    {slot : UInt64} (hnew : slot ∉ n.syncedSlots)
    (hslot : slot ∈ q.node.syncedSlots) :
    ∀ t, k ≤ t → t < slot → t ∈ q.node.store.finalized := by
  have happlied : Applied k n.syncedSlots q := hrun.invariant
    ⟨.start hkeyed hworld k, (List.append_nil _).symm, fun _ hp =>
      absurd hp List.not_mem_nil⟩
    (fun _ _ _ h hC hstep => h.step hC hstep)
  have hpassed : ∀ t : UInt64, t.toNat ∈ List.range' k.toNat q.passed.length ↔
      ∃ p ∈ q.passed, p.1.slot = t := by
    intro t
    rw [← happlied.inLine.slots, List.mem_map]
    simp only [UInt64.toNat_inj]
  intro t hk hlt
  rw [happlied.synced] at hslot
  obtain ⟨p, hp, rfl⟩ :=
    List.mem_map.mp ((List.mem_append.mp hslot).resolve_left hnew)
  have hlast := List.mem_range'_1.mp ((hpassed p.1.slot).mpr ⟨p, hp, rfl⟩)
  have hlt' : t.toNat < p.1.slot.toNat := hlt
  obtain ⟨p', hp', rfl⟩ := (hpassed t).mp (List.mem_range'_1.mpr ⟨hk, by omega⟩)
  exact happlied.finalized p' hp'

end SyncQueue

end

/-! ## Examples -/

section Sample

attribute [local instance] Sample.primitives

namespace Sample

/-- Calls that pass on nothing but blocks that apply. -/
def CallsThatApply (q : SyncQueue) : QueueInput → Prop
  | .add (some blk) clock =>
    ∀ b ∈ q.node.offered (oneOfFour false) (.syncResponse (some blk) clock),
      b.Applies ∧ b.slot ∉ q.node.store.blocks
  | _ => False

instance (q : SyncQueue) (i : QueueInput) : Decidable (CallsThatApply q i) :=
  match i with
  | .add (some blk) clock => inferInstanceAs (Decidable
      (∀ b ∈ q.node.offered (oneOfFour false) (.syncResponse (some blk) clock),
        b.Applies ∧ b.slot ∉ q.node.store.blocks))
  | .add none _ => isFalse id
  | .elsewhere _ => isFalse id

theorem allApply_of_callsThatApply (q : SyncQueue) (i : QueueInput)
    (h : CallsThatApply q i) :
    q.AllApply (oneOfFour false) i := by
  cases i with
  | add blk clock =>
    cases blk with
    | none => cases h
    | some blk => exact ⟨trivial, h⟩
  | elsewhere => cases h

end Sample

open Sample

/-- **A gap after a forged block.** The block of slot 2 has no signature,
and slot 3 is applied all the same. -/
theorem gap_after_forged_block :
    ∃ q, Machine.Run (SyncQueue.step (oneOfFour false)) SyncQueue.Allowed
      (queueFrom 3 2) q ∧
      3 ∉ (queueFrom 3 2).node.syncedSlots ∧ 3 ∈ q.node.syncedSlots ∧
      2 ∉ q.node.store.finalized := by
  have hexec : (Machine.exec (SyncQueue.step (oneOfFour false)) OnlyCalls
    (queueFrom 3 2)
      [adds { blockTwo with signature := [] }, adds blockThree]).any
      (fun q : SyncQueue => 3 ∈ q.node.syncedSlots
        && !decide (2 ∈ q.node.store.finalized))
      = true := by decide +kernel
  obtain ⟨q, hrun, htest⟩ := Machine.exists_run_of_exec hexec
  obtain ⟨hthree, htwo⟩ := Bool.and_eq_true_iff.mp htest
  refine ⟨q, hrun.mono allowed_of_onlyCalls, List.not_mem_nil,
    of_decide_eq_true hthree, ?_⟩
  simpa using htwo

/-- Slot 3 waits for slot 2; both apply, and there is no gap. -/
theorem no_gap_below_three :
    ∃ q, Machine.Run (SyncQueue.step (oneOfFour false))
      (SyncQueue.AllApply (oneOfFour false))
        (queueFrom 3 2) q ∧
      3 ∈ q.node.syncedSlots ∧ ∀ t, 2 ≤ t → t < 3 → t ∈ q.node.store.finalized := by
  have hexec : (Machine.exec (SyncQueue.step (oneOfFour false)) CallsThatApply
    (queueFrom 3 2)
      [adds blockThree, adds blockTwo]).any
      (fun q : SyncQueue => 3 ∈ q.node.syncedSlots) = true := by decide +kernel
  obtain ⟨q, hrun, hthree⟩ := Machine.exists_run_of_exec hexec
  have hrun' := hrun.mono allApply_of_callsThatApply
  exact ⟨q, hrun', of_decide_eq_true hthree, SyncQueue.no_gap (oneOfFour false)
    (keyed_behind 3) (by decide) 2 hrun' List.not_mem_nil (of_decide_eq_true hthree)⟩

end Sample

end Mmn
