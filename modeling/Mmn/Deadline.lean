import Mmn.Follower
import Mmn.Highest
import Mmn.Idle

/-!
# The deadline of a leader

A leader that waits for the block of the slot before gives up at a deadline.
It then takes the latest slot that is stored and runs the clock forward from
the end of that slot to the beginning of its own. The two slots come from
different places: the first from the store, the second from the node's own
clock when the wait began. Live blocks do not move the clock, so the store
can be ahead of it.

In every run the clock is run from the latest stored slot, which is stored
indeed (`latestStore_mem_of_nodeRun`), and this is forward exactly if it
lies before the awaited one. So it is forward in every run in which no wait
begins behind the store and no block that arrives during a wait is of the
awaited slot or a later one (`deadline_runs_forward`). Nothing in the node
makes sure of that: one block of the next leader is enough, and the number
of hashes to be made, a difference of machine words, is then close to `2 ^
64` (`deadline_runs_backward`).
-/

namespace Mmn

section

variable [Primitives]

namespace Node

variable {cfg : Config} {n n' : Node} {slot : UInt64}

/-! ## Where the clock is run from -/

/-- **The end of the latest slot known**, as the deadline finds it: from the
recorder if it still has the hash, else from the store. -/
def lastSeen (n : Node) : SlotBoundary :=
  match n.recorder.getSlotHashFromQueue n.store.latestStore with
  | some hash => { slot := n.store.latestStore, hash := hash }
  | none => n.store.lastEntryInfoAtSlot n.store.latestStore

/-- Run the clock from the end of one slot to the end of another. -/
def fastForwardTicks (n : Node) (seenHash : Hash) (fromSlot toSlot : UInt64) :
    Node × SlotBoundary :=
  let recorder := n.recorder.fastForward seenHash fromSlot toSlot
  ({ n with recorder := recorder }, { slot := toSlot, hash := recorder.poh.hash })

/-- **The deadline** runs the clock from there to the slot before the
awaited one, and begins the term. -/
theorem leaderWait_deadline (hwait : n.waitingFor = some slot) :
    n.leaderWait true
      = (n.fastForwardTicks n.lastSeen.hash n.lastSeen.slot (slot - 1)).1.startTerm
        slot
        (n.fastForwardTicks n.lastSeen.hash n.lastSeen.slot (slot - 1)).2.hash := by
  unfold leaderWait lastSeen
  rw [hwait]
  dsimp only
  rw [if_pos rfl]
  cases n.recorder.getSlotHashFromQueue n.store.latestStore <;> rfl

/-- The clock is run from the latest stored slot, if it is stored. -/
theorem lastSeen_slot (h : n.store.latestStore ∈ n.store.blocks) :
    n.lastSeen.slot = n.store.latestStore := by
  unfold lastSeen
  split
  · rfl
  · obtain ⟨b, hb⟩ := Store.mem_blocks_iff.mp h
    unfold Store.lastEntryInfoAtSlot
    rw [hb]

end Node

/-! ## The latest stored slot -/

/-- **How a move changes the latest stored slot**: not at all, or to the
slot of a block that it stores. -/
theorem Core.Move.latestStore_cases {cfg : Config}
    {A : Core → BroadcastedBlock → Prop} {V : Core → Vote → Prop} {c c' : Core}
    (h : Core.Move cfg A V c c') :
    c'.store.latestStore = c.store.latestStore ∨
      ∃ b, A c b ∧ c'.store.latestStore = b.slot ∧ b.slot ∈ c'.store.blocks := by
  have hadd : ∀ b : BroadcastedBlock,
      (c.store.addBlock b).latestStore = c.store.latestStore ∨
        (c.store.addBlock b).latestStore = b.slot := by
    intro b
    rw [Store.latestStore_addBlock]
    unfold Store.raiseLatestStore
    dsimp only
    split
    · exact Or.inr rfl
    · exact Or.inl rfl
  cases h with
  | @addBlock b horigin hfree =>
    refine (hadd b).imp_right fun h => ⟨b, horigin, h, Store.mem_blocks_iff.mpr
      ⟨broadcastedBlockToBlock b, ?_⟩⟩
    show (c.store.addBlock b).block b.slot = _
    rw [Store.block_addBlock, if_pos rfl]
  | @sync b horigin hfree hpoh =>
    refine (hadd b).imp_right fun h => ⟨b, horigin, h, Store.mem_blocks_iff.mpr
      ⟨{ broadcastedBlockToBlock b with status := .finalized }, ?_⟩⟩
    show (Store.putFinalized _ (broadcastedBlockToBlock b) _ _ _).block b.slot = _
    rw [Store.block_putFinalized]
    exact if_pos rfl
  | cast => exact Or.inl rfl
  | count => exact Or.inl rfl
  | commit => exact Or.inl rfl
  | cleanup => exact Or.inl rfl

/-- A new database is opened with slot zero as its latest. -/
theorem latestStore_of_initializeBlockchain {alloc : List Ledger.Address}
    {now : UInt64} {s : Store} (h : initializeBlockchain alloc now = .ok s) :
    s.reopen.latestStore = 0 := by
  have hmeta : s.latestStoreMeta = none := by
    obtain ⟨s₀, hcreate, rfl⟩ := exists_of_initializeBlockchain h
    show (s₀.addBlock (genesisBlock now)).latestStoreMeta = none
    rw [Store.latestStoreMeta_addBlock, createAccountsFromGenesis_frame hcreate]
    rfl
  unfold Store.reopen
  split
  · rfl
  · show s.latestStoreMeta.getD 0 = 0
    rw [hmeta]
    rfl

/-- **The latest stored slot is stored**, in every run. -/
theorem latestStore_mem_of_nodeRun {cfg : Config} {C : Node → Input → Prop} {n : Node}
    (hrun : NodeRun cfg C n) : n.store.latestStore ∈ n.store.blocks := by
  refine (hrun.invariant (J := fun _ => True)
    (I := fun c => c.store.latestStore ∈ c.store.blocks) (fun _ => trivial)
    (fun _ _ _ _ _ _ => trivial) ?_ ?_).2
  · intro alloc now s hinit
    show s.reopen.latestStore ∈ s.reopen.blocks
    rw [latestStore_of_initializeBlockchain hinit]
    exact Store.mem_blocks_iff.mpr
      ⟨_, ((isGenesis_of_initializeBlockchain hinit).block 0).trans (if_pos rfl)⟩
  · intro n i c c' _ _ hmem hmove
    obtain hsame | ⟨b, -, hslot, hb⟩ := hmove.latestStore_cases
    · rw [hsame]
      obtain ⟨b, hb⟩ := Store.mem_blocks_iff.mp hmem
      obtain ⟨status, hb'⟩ := hmove.block_of_block hb
      exact Store.mem_blocks_iff.mpr ⟨_, hb'⟩
    · rwa [hslot]

/-- **How a step changes the latest stored slot**: not at all, or to the
slot of a block that the input offers. -/
theorem Node.latestStore_step {cfg : Config} {n n' : Node} {i : Input}
    (hstep : n.step cfg i = some n') :
    n'.store.latestStore = n.store.latestStore ∨
      ∃ blk ∈ n.offered cfg i, n'.store.latestStore = blk.slot := by
  have hmoves := Node.moves_of_step hstep
  show n'.toCore.store.latestStore = _ ∨ ∃ blk ∈ n.offered cfg i,
    n'.toCore.store.latestStore = _
  generalize n'.toCore = c at hmoves
  induction hmoves with
  | refl => exact Or.inl rfl
  | tail _ hmove ih =>
    obtain hsame | ⟨b, horigin, hslot, -⟩ := hmove.latestStore_cases
    · rw [hsame]
      exact ih
    · obtain ⟨blk, hoffered, rfl | rfl⟩ := horigin.exists_offered
      · exact Or.inr ⟨b, hoffered, hslot⟩
      · exact Or.inr ⟨blk, hoffered, hslot.trans (BroadcastedBlock.slot_markPoH blk)⟩

/-! ## The wait -/

/-- The input is a round of the role loop. -/
def Input.mayBeginWait : Input → Bool
  | .roleMonitor => true
  | _ => false

namespace Node

variable {cfg : Config} {n n' : Node} {slot : UInt64}

theorem waitingFor_processVote {v : Vote} {r : Except String Unit}
    (h : n.processVote cfg v = some (n', r)) : n'.waitingFor = n.waitingFor := by
  obtain rfl | ⟨_, _, _, -, rfl | rfl | ⟨_, -, -, -, -, rfl⟩⟩ := processVote_cases h
  · rfl
  · rfl
  · rfl
  · rfl

theorem waitingFor_emptyBlocks (blocks : List (Option BroadcastedBlock)) (n : Node) :
    (n.onEmptyBlockReceived blocks).waitingFor = n.waitingFor := by
  unfold onEmptyBlockReceived
  induction blocks generalizing n with
  | nil => rfl
  | cons blk blocks ih =>
    rw [List.foldl_cons, ih]
    unfold storeEmptyBlock
    split
    · rfl
    · next blk =>
      split
      · rfl
      · obtain ⟨err, hadd⟩ | ⟨-, hadd⟩ := addBlockPending_cases n blk
        · rw [hadd]
        · rw [hadd]

theorem waitingFor_block {blk : BroadcastedBlock} {r : Except String Unit}
    (h : n.onBlockReceived cfg blk = some (n', r)) :
    n'.waitingFor = n.waitingFor := by
  obtain rfl | ⟨-, -, ⟨-, rfl⟩ | ⟨-, hvote⟩⟩ := onBlockReceived_cases h
  · rfl
  · rfl
  · obtain ⟨dedup, mempool, -, hcast⟩ := voteForReceived_cases hvote
    have hsame := waitingFor_processVote hcast
    exact hsame

theorem waitingFor_broadcast {i : ℕ} {published : Bool}
    (h : n.broadcastTask cfg i published = some n') :
    n'.waitingFor = n.waitingFor := by
  obtain rfl | ⟨blk, -, rfl | ⟨-, rfl | ⟨r, hcast⟩⟩⟩ := broadcastTask_cases h
  · rfl
  · rfl
  · rfl
  · have hsame := waitingFor_processVote hcast
    exact hsame

/-- **The role loop begins a wait** for the current slot, if none has begun. -/
theorem waitingFor_roleMonitor (hwait : (n.roleMonitor cfg).waitingFor = some slot) :
    n.waitingFor = some slot ∨
      (n.waitingFor = none ∧ slot = n.recorder.currentSlot) := by
  unfold roleMonitor at hwait
  dsimp only at hwait
  split at hwait
  · exact Or.inl hwait
  next hnone =>
  have hnone : n.waitingFor = none := by simpa using hnone
  split at hwait
  · split at hwait
    · exact Or.inr ⟨hnone, (Option.some.inj hwait).symm⟩
    · exact Or.inl hwait
  · split at hwait <;> exact Or.inl hwait

/-- A round of a wait goes on with it or ends it. -/
theorem waitingFor_leaderWait {deadline : Bool}
    (hwait : (n.leaderWait deadline).waitingFor = some slot) :
    n.waitingFor = some slot := by
  unfold leaderWait at hwait
  split at hwait
  · exact hwait
  · dsimp only at hwait
    split at hwait
    · cases hwait
    split at hwait
    · cases hwait
    · exact hwait

theorem waitingFor_drainEntries (n : Node) :
    n.drainEntries.waitingFor = n.waitingFor := by
  unfold drainEntries
  split <;> rfl

/-- **Only the role loop begins a wait.** -/
theorem waitingFor_step {i : Input} (hstep : n.step cfg i = some n')
    (hwait : n'.waitingFor = some slot) :
    n.waitingFor = some slot ∨
      (n.waitingFor = none ∧ i = .roleMonitor ∧ slot = n.recorder.currentSlot) := by
  cases i with
  | block blk =>
    obtain ⟨⟨n₁, r⟩, hblk, rfl⟩ := Option.map_eq_some_iff.mp hstep
    exact Or.inl (waitingFor_block hblk ▸ hwait)
  | emptyBlocks blocks =>
    cases hstep
    exact Or.inl (waitingFor_emptyBlocks blocks n ▸ hwait)
  | vote v =>
    obtain ⟨⟨n₁, r⟩, hvote, rfl⟩ := Option.map_eq_some_iff.mp hstep
    exact Or.inl (waitingFor_processVote hvote ▸ hwait)
  | syncResponse msg clock =>
    obtain ⟨_, _, _, _, -, -, rfl | ⟨_, _, _, _, -, rfl⟩⟩ :=
      onSyncResponseReceived_spec (V := fun _ _ => True) hstep
    · exact Or.inl hwait
    · exact Or.inl hwait
  | broadcast i published => exact Or.inl (waitingFor_broadcast hstep ▸ hwait)
  | leaderBatch =>
    obtain ⟨-, rfl⟩ | ⟨_, _, _, _, _, _, -, -, rfl, -⟩ := leaderBatch_cases hstep
    · exact Or.inl hwait
    · exact Or.inl hwait
  | tickAndFlush now =>
    cases hstep
    exact Or.inl ((tickAndFlush_frame n now).2 ▸ hwait)
  | roleMonitor =>
    cases hstep
    obtain hbefore | ⟨hnone, hslot⟩ := waitingFor_roleMonitor hwait
    · exact Or.inl hbefore
    · exact Or.inr ⟨hnone, rfl, hslot⟩
  | leaderWait deadline =>
    cases hstep
    exact Or.inl (waitingFor_leaderWait hwait)
  | drainEntries =>
    cases hstep
    exact Or.inl (waitingFor_drainEntries n ▸ hwait)
  | transaction | latestSlot | autoHash | cleanupVotes | expireDedup =>
    cases hstep
    exact Or.inl hwait

/-- **The node keeps pace with the store**: no wait begins behind the latest
stored slot, and during a wait no block of the awaited slot or a later one
is offered. -/
def KeepsPace (cfg : Config) (n : Node) (i : Input) : Prop :=
  (i.mayBeginWait = true → n.waitingFor = none →
    n.store.latestStore < n.recorder.currentSlot) ∧
    ∀ slot ∈ n.waitingFor, ∀ blk ∈ n.offered cfg i, blk.slot < slot

-- the awaited slot is looked up, not searched for among all slots
instance (cfg : Config) (n : Node) (i : Input) : Decidable (KeepsPace cfg n i) :=
  haveI : Decidable (∀ slot ∈ n.waitingFor, ∀ blk ∈ n.offered cfg i, blk.slot
    < slot) :=
    Option.decidableForallMem _
  inferInstanceAs (Decidable (_ ∧ _))

/-- **Nothing from the awaited slot on is stored**, along every run that
keeps pace. -/
theorem latestStore_lt_of_nodeRun (hrun : NodeRun cfg (KeepsPace cfg) n)
    (hwait : n.waitingFor = some slot) : n.store.latestStore < slot := by
  obtain ⟨alloc, now, s, -, hrun⟩ := hrun
  refine hrun.invariant (I := fun n => ∀ slot, n.waitingFor = some slot →
    n.store.latestStore < slot) (fun slot h => by cases h) ?_ slot hwait
  intro n i n' hinv hpace hstep slot hwait
  obtain hbefore | ⟨hnone, rfl, rfl⟩ := waitingFor_step hstep hwait
  · -- the wait goes on, and a block that is stored now lies before the awaited slot
    obtain hsame | ⟨blk, hoffered, hslot⟩ := latestStore_step hstep
    · rw [hsame]
      exact hinv slot hbefore
    · rw [hslot]
      exact hpace.2 slot hbefore blk hoffered
  · -- the wait begins in this step, which stores nothing
    obtain hsame | ⟨blk, hoffered, -⟩ := latestStore_step hstep
    · rw [hsame]
      exact hpace.1 rfl hnone
    · cases hoffered

end Node

/-! ## Forward or backward -/

/-- **At the deadline the clock is run forward** in every run that keeps
pace with the store, and the number of hashes is that of the slots in
between. In any run it is run forward exactly if the latest stored slot lies
before the awaited one. -/
theorem deadline_runs_forward (cfg : Config) :
    (∀ (n : Node) (slot : UInt64), n.waitingFor = some slot → n.leaderWait true
      = (n.fastForwardTicks n.lastSeen.hash n.lastSeen.slot (slot - 1)).1.startTerm
        slot (n.fastForwardTicks n.lastSeen.hash n.lastSeen.slot (slot - 1)).2.hash) ∧
    (∀ n slot, NodeRun cfg (Node.KeepsPace cfg) n → n.waitingFor = some slot →
      n.lastSeen.slot ≤ slot - 1 ∧
        (((slot - 1).toNat - n.lastSeen.slot.toNat) * n.recorder.ticksPerSlot.toNat
            * n.recorder.poh.hashesPerTick.toNat < 2 ^ 64 →
          (((slot - 1) * n.recorder.ticksPerSlot - n.lastSeen.slot
            * n.recorder.ticksPerSlot)
              * n.recorder.poh.hashesPerTick).toNat
            = ((slot - 1).toNat - n.lastSeen.slot.toNat)
              * n.recorder.ticksPerSlot.toNat * n.recorder.poh.hashesPerTick.toNat)) ∧
    ∀ n slot, NodeRun cfg Machine.Always n → n.waitingFor = some slot →
      (n.lastSeen.slot ≤ slot - 1 ↔ n.store.latestStore ≤ slot - 1) := by
  refine ⟨fun _ _ => Node.leaderWait_deadline, ?_, ?_⟩
  · intro n slot hrun hwait
    have hlt := Node.latestStore_lt_of_nodeRun hrun hwait
    have hle : n.lastSeen.slot ≤ slot - 1 := by
      rw [Node.lastSeen_slot (latestStore_mem_of_nodeRun hrun)]
      refine UInt64.le_iff_toNat_le.mpr ?_
      have hnat := UInt64.lt_iff_toNat_lt.mp hlt
      have hone : (1 : UInt64) ≤ slot :=
        UInt64.le_iff_toNat_le.mpr (Nat.one_le_of_lt hnat)
      rw [UInt64.toNat_sub_of_le _ _ hone, UInt64.toNat_one]
      exact Nat.le_sub_one_of_lt hnat
    exact ⟨hle, toNat_fastForward_hashes hle⟩
  · intro n slot hrun _
    rw [Node.lastSeen_slot (latestStore_mem_of_nodeRun hrun)]

end

section

attribute [local instance] Sample.primitives

/-- A validator that is alone begins to wait for slot one, with nothing but
genesis stored. -/
theorem deadline_runs_forward_alone :
    ∃ n, NodeRun Sample.alone (Node.KeepsPace Sample.alone) n ∧
      n.waitingFor = some 1 ∧ n.lastSeen.slot ≤ 1 - 1 := by
  obtain ⟨n, hrun, htest⟩ := exists_nodeRun Sample.alone (Node.KeepsPace Sample.alone)
    (fun n => n.waitingFor = some 1) [] 0 [.autoHash, .roleMonitor]
      (by decide +kernel)
  have hwait := of_decide_eq_true htest
  exact ⟨n, hrun, hwait, ((deadline_runs_forward Sample.alone).2.1 n 1 hrun hwait).1⟩

/-- **The clock is run backward**: the leader of slot three waits for the
block of slot two, the block of slot four arrives and is stored, and at the
deadline the clock is to be run from the end of slot four to that of slot
two. The number of hashes is four below `2 ^ 64`. -/
theorem deadline_runs_backward :
    ∃ n, NodeRun Sample.thirdOfFour Machine.Always n ∧ n.waitingFor = some 3 ∧
      ¬n.lastSeen.slot ≤ 3 - 1 ∧
      (((3 - 1) * n.recorder.ticksPerSlot - n.lastSeen.slot * n.recorder.ticksPerSlot)
        * n.recorder.poh.hashesPerTick).toNat = 18446744073709551612 := by
  obtain ⟨n, hrun, htest⟩ := exists_nodeRun Sample.thirdOfFour Machine.Always
    (fun n => decide (n.waitingFor = some 3 ∧ n.lastSeen.slot = 4 ∧
      n.recorder.ticksPerSlot = 1 ∧ n.recorder.poh.hashesPerTick = 2))
    [] 0 [.autoHash, .drainEntries, .tickAndFlush 0, .autoHash, .drainEntries,
      .tickAndFlush 0,
      .roleMonitor, .leaderWait false, .block (Sample.blockWith 4 4 0 []),
      .leaderWait false]
    (by decide +kernel)
  obtain ⟨hwait, hslot, hticks, hhashes⟩ := of_decide_eq_true htest
  refine ⟨n, hrun, hwait, ?_, ?_⟩
  · rw [hslot]
    decide
  · rw [hslot, hticks, hhashes]
    decide

end

end Mmn
