import Mmn.Sample
import Mmn.Steps

/-!
# The ordering queue of the sync

Blocks of the sync stream arrive in any order. They wait in a queue, and
each call of `AddBlockToOrderingQueue` takes the blocks off it that are next
in line, up to the latest slot the peers have reported, and passes them to
`processBlock`. Where the next slot is one the node led itself and the queue
has no block for it, the node makes up an empty one.

The slots passed to `processBlock` are consecutive, from the slot that was
set at the start, whatever comes (`slots_consecutive`). What `processBlock`
then does to a node is simple: it never stops the process, since a block
that passes the checks is idle, and it changes the core alone (`Core.sync`).
-/

namespace Mmn

section

variable [Primitives]

/-! ## Processing as a function on the core -/

/-- The block passes all checks and carries no flag. -/
def BroadcastedBlock.Applies (b : BroadcastedBlock) : Prop :=
  b.verifySignature = true ∧ verifyBlockTransactions b = .ok () ∧
    b.verifyPoH = .ok () ∧ b.invalidPoH = false

instance (b : BroadcastedBlock) : Decidable b.Applies :=
  inferInstanceAs (Decidable (_ ∧ _ ∧ _ ∧ _))

namespace Core

/-- **What processing a block of the sync does.** -/
def sync (c : Core) (blk : BroadcastedBlock) : Core :=
  if blk.verifySignature = true ∧ verifyBlockTransactions blk = .ok () ∧
      blk.slot ∉ c.store.blocks then
    if blk.markPoH.invalidPoH then c.addBlock blk.markPoH
    else (c.addBlock blk.markPoH).applySynced (broadcastedBlockToBlock blk.markPoH)
  else c

/-- The slots applied through the queue. -/
def syncedSlots (c : Core) : List UInt64 :=
  c.history.filterMap fun
    | .synced _ b => some b.slot
    | _ => none

variable {c : Core} {blk : BroadcastedBlock}

/-- Processing a block changes nothing, or stores it at its slot, which was
free, and may then apply it. -/
theorem sync_cases (c : Core) (blk : BroadcastedBlock) :
    c.sync blk = c ∨ (blk.slot ∉ c.store.blocks ∧
      (c.sync blk = c.addBlock blk.markPoH ∨
        c.sync blk = (c.addBlock blk.markPoH).applySynced
          (broadcastedBlockToBlock blk.markPoH))) := by
  unfold sync
  split
  · next h =>
    split
    · exact Or.inr ⟨h.2.2, Or.inl rfl⟩
    · exact Or.inr ⟨h.2.2, Or.inr rfl⟩
  · exact Or.inl rfl

theorem mem_blocks_addBlock_markPoH (c : Core) (blk : BroadcastedBlock)
    (slot : UInt64) :
    slot ∈ (c.addBlock blk.markPoH).store.blocks ↔ slot = blk.slot ∨
      slot ∈ c.store.blocks := by
  show slot ∈ (c.store.addBlock blk.markPoH).blocks ↔ _
  rw [Store.mem_blocks_addBlock, BroadcastedBlock.slot_markPoH]

/-- Applying the block that was just stored fills no slot. -/
theorem mem_blocks_applySynced_addBlock (c : Core) (b : BroadcastedBlock)
    (slot : UInt64) :
    slot ∈ ((c.addBlock b).applySynced (broadcastedBlockToBlock b)).store.blocks ↔
      slot ∈ (c.addBlock b).store.blocks := by
  have hmem : (broadcastedBlockToBlock b).slot ∈ (c.addBlock b).store.blocks :=
    (c.store.mem_blocks_addBlock b b.slot).mpr (Or.inl rfl)
  exact Store.mem_blocks_putFinalized hmem _ _ _ slot

/-- Processing a block fills at most its own slot. -/
theorem mem_blocks_sync {slot : UInt64} (h : slot ∈ (c.sync blk).store.blocks) :
    slot = blk.slot ∨ slot ∈ c.store.blocks := by
  obtain heq | ⟨-, heq | heq⟩ := sync_cases c blk
  · rw [heq] at h
    exact Or.inr h
  · rw [heq] at h
    exact (mem_blocks_addBlock_markPoH c blk slot).mp h
  · rw [heq, mem_blocks_applySynced_addBlock] at h
    exact (mem_blocks_addBlock_markPoH c blk slot).mp h

theorem mem_blocks_sync_of_mem {slot : UInt64} (h : slot ∈ c.store.blocks) :
    slot ∈ (c.sync blk).store.blocks := by
  have hadd := (mem_blocks_addBlock_markPoH c blk slot).mpr (Or.inr h)
  obtain heq | ⟨-, heq | heq⟩ := sync_cases c blk
  · rwa [heq]
  · rwa [heq]
  · rwa [heq, mem_blocks_applySynced_addBlock]

theorem mem_blocks_foldl_sync {blks : List BroadcastedBlock} {c : Core}
    {slot : UInt64} (h : slot ∈ (blks.foldl sync c).store.blocks) :
    (∃ b ∈ blks, b.slot = slot) ∨ slot ∈ c.store.blocks := by
  induction blks generalizing c with
  | nil => exact Or.inr h
  | cons b blks ih =>
    obtain ⟨b', hb', hslot⟩ | hmem := ih h
    · exact Or.inl ⟨b', List.mem_cons_of_mem b hb', hslot⟩
    · obtain heq | hmem := mem_blocks_sync hmem
      · exact Or.inl ⟨b, List.mem_cons_self, heq.symm⟩
      · exact Or.inr hmem

theorem mem_blocks_foldl_sync_of_mem (blks : List BroadcastedBlock) {c : Core}
    {slot : UInt64} (h : slot ∈ c.store.blocks) :
    slot ∈ (blks.foldl sync c).store.blocks := by
  induction blks generalizing c with
  | nil => exact h
  | cons b blks ih => exact ih (mem_blocks_sync_of_mem h)

end Core

namespace Node

variable {cfg : Config}

/-- **Processing a block never stops the process**, and changes the core
alone. -/
theorem processBlock_eq (cfg : Config) (n : Node) (blk : BroadcastedBlock) :
    ∃ r, n.processBlock cfg blk
      = some ({ n with toCore := n.toCore.sync blk }, r) := by
  unfold processBlock Core.sync
  by_cases hsig : blk.verifySignature = true
  swap
  · rw [if_pos (by simpa using hsig), if_neg (fun h => hsig h.1)]
    exact ⟨_, rfl⟩
  rw [if_neg (by simpa using hsig)]
  cases htxs : verifyBlockTransactions blk with
  | error err =>
    rw [if_neg (fun h => by cases h.2.1)]
    exact ⟨_, rfl⟩
  | ok =>
    dsimp only
    by_cases hslot : blk.markPoH.slot ∈ n.store.blocks
    · obtain ⟨err, hadd⟩ := addBlockPending_of_mem hslot
      rw [BroadcastedBlock.slot_markPoH] at hslot
      rw [hadd, if_neg (fun h => h.2.2 hslot)]
      exact ⟨_, rfl⟩
    · rw [addBlockPending_of_notMem hslot]
      rw [BroadcastedBlock.slot_markPoH] at hslot
      rw [if_pos ⟨hsig, rfl, hslot⟩]
      dsimp only
      have hmem : (broadcastedBlockToBlock blk.markPoH).slot
          ∈ (n.toCore.addBlock blk.markPoH).store.blocks :=
        (n.store.mem_blocks_addBlock blk.markPoH blk.markPoH.slot).mpr (Or.inl rfl)
      rw [finalizeBlock_of_idle (idle_of_verifyBlockTransactions htxs) hmem]
      have hflag : (broadcastedBlockToBlock blk.markPoH).invalidPoH
          = blk.markPoH.invalidPoH := rfl
      rw [hflag]
      cases blk.markPoH.invalidPoH <;> exact ⟨_, rfl⟩

theorem processBlocks_eq (n : Node) (blks : List BroadcastedBlock) :
    n.processBlocks cfg blks
      = some { n with toCore := blks.foldl Core.sync n.toCore } := by
  induction blks generalizing n with
  | nil => rfl
  | cons blk blks ih =>
    obtain ⟨r, hblk⟩ := n.processBlock_eq cfg blk
    unfold processBlocks
    rw [hblk]
    exact ih _

/-- **A call of `AddBlockToOrderingQueue`** for a block whose slot is free. -/
theorem addBlockToOrderingQueue_eq {n : Node} {blk : BroadcastedBlock}
    (hfree : blk.slot ∉ n.store.blocks) (clock : ℕ → UInt64) :
    n.addBlockToOrderingQueue cfg blk clock
      = (takeConsecutive cfg n.store n.worldLatestSlot clock consecutiveFuel
          { queue := n.blockOrderingQueue.insert blk.slot blk,
            next := n.nextExpectedSlot, processed := [] }).map (fun c =>
        ({ n with
            toCore := c.processed.foldl Core.sync n.toCore
            blockOrderingQueue := c.queue
            nextExpectedSlot := c.next }, c.processed.getLast?)) := by
  unfold addBlockToOrderingQueue processConsecutiveBlocks
  rw [if_neg (mt Store.hasCompleteBlock_iff.mp hfree)]
  dsimp only
  split
  · next h => rw [h, Option.map_none]
  · next c h => rw [h, processBlocks_eq, Option.map_some, Option.map_some]

/-! ## The loop over the queue -/

/-- Every block of a queue waits under its own slot. -/
def Keyed (queue : AList (fun _ : UInt64 => BroadcastedBlock)) : Prop :=
  ∀ slot blk, queue.lookup slot = some blk → blk.slot = slot

omit [Primitives] in
theorem Keyed.insert {queue : AList (fun _ : UInt64 => BroadcastedBlock)}
    (h : Keyed queue) (blk : BroadcastedBlock) :
    Keyed (queue.insert blk.slot blk) := by
  intro slot b hb
  by_cases hslot : slot = blk.slot
  · rw [hslot, AList.lookup_insert] at hb
    rw [← Option.some.inj hb, hslot]
  · rw [AList.lookup_insert_ne hslot] at hb
    exact h slot b hb

/-- **What a loop over the queue has taken**: the blocks of consecutive
slots. -/
structure Takes (worldLatestSlot : UInt64) (c c' : Consecutive)
    (blks : List BroadcastedBlock) :
    Prop where
  processed : c'.processed = c.processed ++ blks
  slots : blks.map (fun b => b.slot.toNat) = List.range' c.next.toNat blks.length
  bounded : ∀ b ∈ blks, b.slot ≤ worldLatestSlot
  next : c'.next.toNat = c.next.toNat + blks.length
  /-- The queue has no blocks for their slots any more, and is as before
  elsewhere. -/
  queue : ∀ slot, c'.queue.lookup slot
    = if c.next.toNat ≤ slot.toNat ∧ slot.toNat < c.next.toNat + blks.length then none
      else c.queue.lookup slot

omit [Primitives] in
theorem Takes.keyed {w : UInt64} {c c' : Consecutive} {blks : List BroadcastedBlock}
    (h : Takes w c c' blks) (hkeyed : Keyed c.queue) : Keyed c'.queue := by
  intro slot b hb
  rw [h.queue] at hb
  split at hb
  · cases hb
  · exact hkeyed slot b hb

omit [Primitives] in
/-- The slot counter does not wrap below the latest slot reported. -/
theorem toNat_succ_of_le {next worldLatestSlot : UInt64}
    (hworld : worldLatestSlot < noSlot) (h : next ≤ worldLatestSlot) :
    (next + 1).toNat = next.toNat + 1 := by
  have hlt : next.toNat < 2 ^ 64 - 1 := lt_of_le_of_lt h hworld
  exact UInt64.toNat_succ_of_lt (by omega)

/-- **The slot counter does not wrap**: the loop stops at the largest slot
number, either because the latest slot reported is below it or because the
queue has no block for it and the node did not lead it. -/
def NoWrap (cfg : Config) (worldLatestSlot : UInt64)
    (queue : AList (fun _ : UInt64 => BroadcastedBlock)) : Prop :=
  worldLatestSlot < noSlot ∨
    queue.lookup noSlot = none ∧ isLeader cfg noSlot = false

theorem NoWrap.erase {w : UInt64}
    {queue : AList (fun _ : UInt64 => BroadcastedBlock)}
    (h : NoWrap cfg w queue) (slot : UInt64) : NoWrap cfg w (queue.erase slot) := by
  refine h.imp_right fun hlast => ⟨?_, hlast.2⟩
  by_cases heq : noSlot = slot
  · rw [heq, AList.lookup_erase]
  · rw [AList.lookup_erase_ne heq, hlast.1]

/-- Where the loop goes on, the next number is one more. -/
theorem NoWrap.toNat_succ {w next : UInt64}
    {queue : AList (fun _ : UInt64 => BroadcastedBlock)}
    (h : NoWrap cfg w queue) (hle : next ≤ w)
    (hgo : queue.lookup next ≠ none ∨ isLeader cfg next = true) :
    (next + 1).toNat = next.toNat + 1 := by
  obtain hw | ⟨hnone, hled⟩ := h
  · exact toNat_succ_of_le hw hle
  · have hne : next ≠ noSlot := by
      rintro rfl
      obtain hgo | hgo := hgo
      · exact hgo hnone
      · rw [hled] at hgo
        cases hgo
    have hlt : next.toNat < 2 ^ 64 - 1 := by
      have hmax := next.toNat_lt
      have hne' : next.toNat ≠ 2 ^ 64 - 1 := fun heq => hne (UInt64.toNat_inj.mp heq)
      omega
    exact UInt64.toNat_succ_of_lt (by omega)

omit [Primitives] in
/-- The block of the next slot, and then the rest. -/
theorem Takes.cons {w : UInt64} {c c₁ c' : Consecutive} {b : BroadcastedBlock}
    {blks : List BroadcastedBlock} (hsucc : (c.next + 1).toNat = c.next.toNat + 1)
    (hle : c.next ≤ w) (hb : b.slot = c.next)
    (hnext : c₁.next = c.next + 1) (hprocessed : c₁.processed = c.processed ++ [b])
    (hqueue : ∀ slot, c₁.queue.lookup slot
      = if slot = c.next then none else c.queue.lookup slot)
    (h : Takes w c₁ c' blks) : Takes w c c' (b :: blks) where
  processed := by rw [h.processed, hprocessed, List.append_assoc]; rfl
  slots := by
    rw [List.map_cons, h.slots, hnext, hsucc, hb]
    rfl
  bounded := by
    intro b' hb'
    obtain rfl | hb' := List.mem_cons.mp hb'
    · exact hb ▸ hle
    · exact h.bounded b' hb'
  next := by
    rw [h.next, hnext, hsucc, List.length_cons]
    omega
  queue := by
    intro slot
    have heq : slot = c.next ↔ slot.toNat = c.next.toNat := UInt64.toNat_inj.symm
    rw [h.queue, hqueue, hnext, hsucc, List.length_cons]
    simp only [heq]
    split_ifs <;> first | rfl | omega

/-- **The loop ends**, as long as the slot counter does not wrap, and takes
blocks of consecutive slots. -/
theorem exists_takes (cfg : Config) (s : Store) {w : UInt64} (clock : ℕ → UInt64) :
    ∀ (fuel : ℕ) (c : Consecutive), NoWrap cfg w c.queue →
      w.toNat + 1 - c.next.toNat < fuel → Keyed c.queue →
      ∃ c' blks, takeConsecutive cfg s w clock fuel c = some c' ∧
      Takes w c c' blks := by
  intro fuel
  have hstop : ∀ c : Consecutive, Takes w c c [] := fun c =>
    ⟨(List.append_nil _).symm, rfl, fun _ hb => absurd hb List.not_mem_nil, rfl,
      fun slot => by
      rw [List.length_nil, if_neg (by omega)]⟩
  induction fuel with
  | zero => exact fun c _ hfuel => absurd hfuel (Nat.not_lt_zero _)
  | succ fuel ih =>
    intro c hw hfuel hkeyed
    unfold takeConsecutive
    by_cases hle : c.next ≤ w
    swap
    · exact ⟨c, [], if_pos (UInt64.not_le.mp hle), hstop c⟩
    rw [if_neg (UInt64.not_lt.mpr hle)]
    have hle' : c.next.toNat ≤ w.toNat := hle
    split
    · next blk hlook =>
      have hsucc := hw.toNat_succ hle
        (Or.inl (by rw [hlook]; exact Option.some_ne_none _))
      obtain ⟨c', blks, htake, htakes⟩ := ih
        ⟨c.queue.erase c.next, c.next + 1, c.processed ++ [blk]⟩ (hw.erase _)
        (by rw [hsucc]; omega)
          (fun slot b hb => hkeyed slot b (AList.lookup_of_lookup_erase hb))
      refine ⟨c', blk :: blks, htake, htakes.cons hsucc hle (hkeyed _ _ hlook) rfl rfl
        fun slot => ?_⟩
      show (c.queue.erase c.next).lookup slot = _
      split
      · next heq => rw [heq, AList.lookup_erase]
      · next hne => rw [AList.lookup_erase_ne hne]
    · next hlook =>
      split
      · next hled =>
        have hsucc := hw.toNat_succ hle (Or.inr hled)
        dsimp only
        obtain ⟨c', blks, htake, htakes⟩ := ih
          ⟨c.queue, c.next + 1, c.processed ++ [emptyBlock cfg c.next
            (getPrevHashForSlot s c.next c.processed) (clock c.processed.length)]⟩ hw
          (by rw [hsucc]; omega) hkeyed
        refine ⟨c', _ :: blks, htake, htakes.cons hsucc hle rfl rfl rfl fun slot =>
          ?_⟩
        show c.queue.lookup slot = _
        split
        · next heq => rw [heq, hlook]
        · rfl
      · exact ⟨c, [], rfl, hstop c⟩

omit [Primitives] in
theorem lt_consecutiveFuel (w next : UInt64) :
    w.toNat + 1 - next.toNat < consecutiveFuel := by
  have hw := w.toNat_lt
  show w.toNat + 1 - next.toNat < 2 ^ 65 + 1
  omega

/-- **What a call of `AddBlockToOrderingQueue` can do**: nothing, if the
slot of the block has one; otherwise the blocks that are next in line are
taken off the queue and processed. -/
theorem addBlockToOrderingQueue_cases {n : Node} (hkeyed : Keyed n.blockOrderingQueue)
    (hworld : n.worldLatestSlot < noSlot) (cfg : Config) (blk : BroadcastedBlock)
    (clock : ℕ → UInt64) :
    (blk.slot ∈ n.store.blocks ∧ n.addBlockToOrderingQueue cfg blk clock = some
      (n, none)) ∨ (blk.slot ∉ n.store.blocks ∧ ∃ c : Consecutive,
        takeConsecutive cfg n.store n.worldLatestSlot clock consecutiveFuel
          ⟨n.blockOrderingQueue.insert blk.slot blk, n.nextExpectedSlot, []⟩
            = some c ∧
        Takes n.worldLatestSlot
          ⟨n.blockOrderingQueue.insert blk.slot blk, n.nextExpectedSlot, []⟩
          c c.processed ∧
        n.addBlockToOrderingQueue cfg blk clock = some
          ({ n with
              toCore := c.processed.foldl Core.sync n.toCore
              blockOrderingQueue := c.queue
              nextExpectedSlot := c.next }, c.processed.getLast?)) := by
  by_cases hstored : blk.slot ∈ n.store.blocks
  · refine Or.inl ⟨hstored, ?_⟩
    unfold addBlockToOrderingQueue
    rw [if_pos (Store.hasCompleteBlock_iff.mpr hstored)]
  · obtain ⟨c, blks, htake, htakes⟩ := exists_takes cfg n.store clock consecutiveFuel
      ⟨n.blockOrderingQueue.insert blk.slot blk, n.nextExpectedSlot, []⟩
        (Or.inl hworld)
      (lt_consecutiveFuel _ _) (hkeyed.insert blk)
    obtain rfl : c.processed = blks := htakes.processed
    refine Or.inr ⟨hstored, c, htake, htakes, ?_⟩
    rw [addBlockToOrderingQueue_eq hstored, htake]
    rfl

/-- The loop as it runs while peers report: before each round it reads the
latest slot anew. -/
def takeConsecutiveWatching (cfg : Config) (s : Store) (world : ℕ → UInt64)
    (clock : ℕ → UInt64) :
    ℕ → Consecutive → Option Consecutive
  | 0, _ => none
  | fuel + 1, c =>
    if c.next > world c.processed.length then some c
    else match c.queue.lookup c.next with
      | some blk =>
        takeConsecutiveWatching cfg s world clock fuel
          { queue := c.queue.erase c.next, next := c.next + 1,
            processed := c.processed ++ [blk] }
      | none =>
        if isLeader cfg c.next then
          let prevHash := getPrevHashForSlot s c.next c.processed
          takeConsecutiveWatching cfg s world clock fuel
            { c with
              next := c.next + 1
              processed := c.processed
                ++ [emptyBlock cfg c.next prevHash (clock c.processed.length)] }
        else some c

/-- **Reports during the loop might as well have come before it**: the loop
ends as if the value it read last had been there from the beginning. -/
theorem exists_takeConsecutiveWatching_eq {s : Store} {world clock : ℕ → UInt64}
    (hmono : ∀ i j, i ≤ j → world i ≤ world j) (fuel : ℕ) (c : Consecutive) :
    ∃ j, c.processed.length ≤ j ∧ takeConsecutiveWatching cfg s world clock fuel c
      = takeConsecutive cfg s (world j) clock fuel c := by
  induction fuel generalizing c with
  | zero => exact ⟨c.processed.length, le_rfl, rfl⟩
  | succ fuel ih =>
    unfold takeConsecutiveWatching takeConsecutive
    by_cases hle : c.next ≤ world c.processed.length
    swap
    · refine ⟨c.processed.length, le_rfl, ?_⟩
      rw [if_pos (UInt64.not_le.mp hle), if_pos (UInt64.not_le.mp hle)]
    · rw [if_neg (UInt64.not_lt.mpr hle)]
      have hlater : ∀ j, c.processed.length ≤ j → ¬ c.next > world j := fun j hj =>
        UInt64.not_lt.mpr (UInt64.le_trans hle (hmono _ j hj))
      cases c.queue.lookup c.next with
      | some blk =>
        obtain ⟨j, hj, heq⟩ :=
          ih ⟨c.queue.erase c.next, c.next + 1, c.processed ++ [blk]⟩
        rw [List.length_append] at hj
        have hlen : c.processed.length ≤ j := Nat.le_of_add_right_le hj
        refine ⟨j, hlen, ?_⟩
        rw [if_neg (hlater j hlen)]
        exact heq
      | none =>
        dsimp only
        split
        · obtain ⟨j, hj, heq⟩ := ih
            ⟨c.queue, c.next + 1, c.processed ++ [emptyBlock cfg c.next
              (getPrevHashForSlot s c.next c.processed) (clock c.processed.length)]⟩
          rw [List.length_append] at hj
          have hlen : c.processed.length ≤ j := Nat.le_of_add_right_le hj
          refine ⟨j, hlen, ?_⟩
          rw [if_neg (hlater j hlen)]
          exact heq
        · exact ⟨c.processed.length, le_rfl, (if_neg (hlater _ le_rfl)).symm⟩

/-- Set the slot the sync continues with. -/
def setNextExpectedSlot (n : Node) (slot : UInt64) :
    Node := { n with nextExpectedSlot := slot }

end Node

/-! ## Slots are passed on in order -/

/-- **A node with its ordering queue in use**, and what has been passed to
`processBlock`. -/
structure SyncQueue where
  node : Node
  /-- The blocks passed on, each with the latest slot reported at the time. -/
  passed : List (BroadcastedBlock × UInt64)

/-- What happens to a queue. -/
inductive QueueInput where
  /-- `AddBlockToOrderingQueue`, with the times at which blocks may be made
  up -/
  | add (blk : Option BroadcastedBlock) (clock : ℕ → UInt64)
  /-- Anything else: the node is now this one. -/
  | elsewhere (n : Node)

namespace SyncQueue

variable {cfg : Config} {k : UInt64}

/-- One input. A call without a block is refused. -/
def step (cfg : Config) (q : SyncQueue) : QueueInput → Option SyncQueue
  | .add none _ => some q
  | .add (some blk) clock =>
    (q.node.addBlockToOrderingQueue cfg blk clock).map fun r =>
      { node := r.1
        passed :=
          q.passed ++ (q.node.offered cfg (.syncResponse (some blk) clock)).map
          fun b => (b, q.node.worldLatestSlot) }
  | .elsewhere n => some { q with node := n }

/-- Everything but `AddBlockToOrderingQueue` leaves the queue alone; the
latest slot reported never falls, and stays below the last number. -/
def Allowed (q : SyncQueue) : QueueInput → Prop
  | .add _ _ => True
  | .elsewhere n =>
    n.blockOrderingQueue = q.node.blockOrderingQueue ∧
      n.nextExpectedSlot = q.node.nextExpectedSlot ∧
      q.node.worldLatestSlot ≤ n.worldLatestSlot ∧ n.worldLatestSlot < noSlot

theorem allowed_onLatestSlotReceived {q : SyncQueue}
    (h : q.node.worldLatestSlot < noSlot) {latestSlot : UInt64}
    (hlatest : latestSlot < noSlot) (latestPohSlot : UInt64) :
    q.Allowed
      (.elsewhere (q.node.onLatestSlotReceived latestSlot latestPohSlot)) := by
  refine ⟨rfl, rfl, ?_⟩
  unfold Node.onLatestSlotReceived
  dsimp only
  split
  · next hlt => exact ⟨UInt64.le_of_lt hlt, hlatest⟩
  · exact ⟨UInt64.le_refl _, h⟩

/-- **The blocks passed on are in line**, from slot `k`. -/
structure InLine (k : UInt64) (q : SyncQueue) : Prop where
  /-- The queue is in order. -/
  keyed : Node.Keyed q.node.blockOrderingQueue
  world : q.node.worldLatestSlot < noSlot
  slots : q.passed.map (fun p => p.1.slot.toNat) = List.range' k.toNat q.passed.length
  bounded : ∀ p ∈ q.passed, p.1.slot ≤ p.2
  next : q.node.nextExpectedSlot.toNat = k.toNat + q.passed.length

/-- **What a call does**: nothing, or it takes blocks in line and processes
them. -/
theorem InLine.add_cases {q : SyncQueue} (h : InLine k q) (cfg : Config)
    (blk : BroadcastedBlock) (clock : ℕ → UInt64) :
    q.step cfg (.add (some blk) clock) = some q ∨
      ∃ c blks, q.step cfg (.add (some blk) clock) = some
          { node := { q.node with
              toCore := blks.foldl Core.sync q.node.toCore
              blockOrderingQueue := c.queue
              nextExpectedSlot := c.next }
            passed := q.passed ++ blks.map fun b => (b, q.node.worldLatestSlot) } ∧
        q.node.offered cfg (.syncResponse (some blk) clock) = blks ∧
        Node.Takes q.node.worldLatestSlot
          ⟨q.node.blockOrderingQueue.insert blk.slot blk,
          q.node.nextExpectedSlot, []⟩ c blks := by
  obtain ⟨hstored, hadd⟩ | ⟨hfree, c, htake, htakes, hadd⟩ :=
    Node.addBlockToOrderingQueue_cases h.keyed h.world cfg blk clock
  · refine Or.inl ?_
    dsimp only [step, Node.offered]
    rw [hadd, if_pos (Store.hasCompleteBlock_iff.mpr hstored), Option.map_some,
      List.map_nil, List.append_nil]
  · have hoffered : q.node.offered cfg (.syncResponse (some blk) clock)
        = c.processed := by
      dsimp only [Node.offered]
      rw [if_neg (mt Store.hasCompleteBlock_iff.mp hfree), htake]
    refine Or.inr ⟨c, c.processed, ?_, hoffered, htakes⟩
    dsimp only [step]
    rw [hadd, hoffered, Option.map_some]

theorem InLine.start {n : Node} (hkeyed : Node.Keyed n.blockOrderingQueue)
    (hworld : n.worldLatestSlot < noSlot) (k : UInt64) :
    InLine k ⟨n.setNextExpectedSlot k, []⟩ :=
  ⟨hkeyed, hworld, rfl, fun _ hp => absurd hp List.not_mem_nil, rfl⟩

theorem InLine.takes {q : SyncQueue} (h : InLine k q)
    {queue : AList (fun _ : UInt64 => BroadcastedBlock)} {c : Node.Consecutive}
    {blks : List BroadcastedBlock} (core : Core) (hkeyed : Node.Keyed queue)
    (htakes : Node.Takes q.node.worldLatestSlot
      ⟨queue, q.node.nextExpectedSlot, []⟩ c blks) :
    InLine k
      { node := { q.node with
          toCore := core
          blockOrderingQueue := c.queue
          nextExpectedSlot := c.next }
        passed := q.passed ++ blks.map fun b => (b, q.node.worldLatestSlot) } where
  keyed := htakes.keyed hkeyed
  world := h.world
  slots := by
    have hmap : (blks.map fun b => (b, q.node.worldLatestSlot)).map
        (fun p : BroadcastedBlock × UInt64 => p.1.slot.toNat)
        = blks.map fun b => b.slot.toNat := List.map_map
    rw [List.map_append, hmap, h.slots, htakes.slots, List.length_append,
      List.length_map, h.next, List.range'_append_1]
  bounded := by
    intro p hp
    obtain hp | hp := List.mem_append.mp hp
    · exact h.bounded p hp
    · obtain ⟨b, hb, rfl⟩ := List.mem_map.mp hp
      exact htakes.bounded b hb
  next := by
    rw [List.length_append, List.length_map, ← Nat.add_assoc, ← h.next]
    exact htakes.next

theorem InLine.step {q q' : SyncQueue} {i : QueueInput} (h : InLine k q)
    (hallowed : q.Allowed i) (hstep : q.step cfg i = some q') : InLine k q' := by
  cases i with
  | add blk clock =>
    cases blk with
    | none =>
      cases hstep
      exact h
    | some blk =>
      obtain hnone | ⟨c, blks, htake, -, htakes⟩ := h.add_cases cfg blk clock
      · cases hnone.symm.trans hstep
        exact h
      · cases htake.symm.trans hstep
        exact h.takes _ (h.keyed.insert blk) htakes
  | elsewhere n =>
    obtain ⟨hqueue, hnext, -, hworld⟩ := hallowed
    cases hstep
    exact ⟨hqueue ▸ h.keyed, hworld, h.slots, h.bounded, by rw [← h.next, hnext]⟩

/-- **Slots are passed on consecutively.** From the moment the next slot is
set to `k`, whatever blocks are put into the queue and whatever else happens
to the node meanwhile, every call returns, the slots of the blocks passed to
`processBlock` are `k`, `k + 1`, … in this order, none of them beyond the
latest slot reported at the time, and the next slot is `k` plus their
number. -/
theorem slots_consecutive (cfg : Config) {n : Node}
    (hkeyed : Node.Keyed n.blockOrderingQueue) (hworld : n.worldLatestSlot < noSlot)
    (k : UInt64) {q : SyncQueue}
    (hrun : Machine.Run (step cfg) Allowed ⟨n.setNextExpectedSlot k, []⟩ q) :
    (∀ blk clock, (q.step cfg (.add blk clock)).isSome = true) ∧
      q.passed.map (fun p => p.1.slot.toNat) = List.range' k.toNat q.passed.length ∧
      (∀ p ∈ q.passed, p.1.slot ≤ p.2) ∧
      q.node.nextExpectedSlot.toNat = k.toNat + q.passed.length := by
  have hline : InLine k q := hrun.invariant (.start hkeyed hworld k)
    (fun _ _ _ h hallowed hstep => h.step hallowed hstep)
  refine ⟨fun blk clock => ?_, hline.slots, hline.bounded, hline.next⟩
  cases blk with
  | none => rfl
  | some blk =>
    obtain hstep | ⟨c, blks, hstep, -⟩ := hline.add_cases cfg blk clock
    · rw [hstep]
      rfl
    · rw [hstep]
      rfl

end SyncQueue

end

/-! ## Examples -/

section Sample

attribute [local instance] Sample.primitives

namespace Sample

/-- An empty block, made at a time. -/
def ticksOnly (leader : ℕ) (slot : UInt64) (prev : Hash) (now : UInt64) :
    BroadcastedBlock :=
  (assembleBlock slot prev (keyID leader) (generateTickOnlyEntries prev 1 2) now).sign
    (keyBytes leader)

/-- The block the node itself made for slot 1. -/
def blockOne : BroadcastedBlock := ticksOnly 1 1 zeroHash 7

/-- The block after it. -/
def blockTwo : BroadcastedBlock := ticksOnly 2 2 blockOne.lastEntryHash 8

/-- And the one after that. -/
def blockThree : BroadcastedBlock := ticksOnly 3 3 blockTwo.lastEntryHash 9

/-- The first of four validators, whose peers have reported a slot. -/
def behind (world : UInt64) : Node :=
  { Node.new (oneOfFour false) .empty with worldLatestSlot := world }

/-- A call with a block of the sync, in which blocks are made up at time 20. -/
def adds (blk : BroadcastedBlock) : QueueInput := .add (some blk) fun _ => 20

/-- The queue of a node that is behind, from a slot on. -/
def queueFrom (world k : UInt64) :
    SyncQueue := ⟨(behind world).setNextExpectedSlot k, []⟩

/-- Only calls, no other input. -/
def OnlyCalls (_ : SyncQueue) : QueueInput → Prop
  | .add _ _ => True
  | .elsewhere _ => False

instance (q : SyncQueue) (i : QueueInput) : Decidable (OnlyCalls q i) :=
  match i with
  | .add _ _ => isTrue trivial
  | .elsewhere _ => isFalse id

theorem allowed_of_onlyCalls (q : SyncQueue) (i : QueueInput) (h : OnlyCalls q i) :
    q.Allowed i := by
  cases i with
  | add => trivial
  | elsewhere => cases h

theorem keyed_behind (world : UInt64) :
    Node.Keyed (behind world).blockOrderingQueue := by
  intro slot b hb
  cases hb

end Sample

open Sample

/-- Slot 3 comes first: slot 1, which the node led, is made up, and slot 3
waits for slot 2. -/
theorem slots_one_to_three :
    ∃ q, Machine.Run (SyncQueue.step (oneOfFour false)) SyncQueue.Allowed
      (queueFrom 3 1) q ∧ q.passed.length = 3 ∧
      q.passed.map (fun p => p.1.slot.toNat) = List.range' 1 q.passed.length ∧
      q.node.nextExpectedSlot.toNat = 1 + q.passed.length := by
  have hexec : (Machine.exec (SyncQueue.step (oneOfFour false)) OnlyCalls
    (queueFrom 3 1)
      [adds blockThree, .add none fun _ => 0, adds blockTwo, adds blockOne]).any
      (fun q : SyncQueue => q.passed.length = 3) = true := by decide +kernel
  obtain ⟨q, hrun, hlength⟩ := Machine.exists_run_of_exec hexec
  have hallowed := hrun.mono allowed_of_onlyCalls
  obtain ⟨-, hslots, -, hnext⟩ :=
    SyncQueue.slots_consecutive (oneOfFour false) (keyed_behind 3)
    (by decide) 1 hallowed
  exact ⟨q, hallowed, of_decide_eq_true hlength, hslots, hnext⟩

end Sample

end Mmn
