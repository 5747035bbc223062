import Mmn.Execution
import Mmn.Node

/-!
# Moves and changes

What the handlers of a node can do to its stores and votes is little.
`Core.Move` lists it with the guards under which the code does it: store a
block, apply a block because of a vote or of the sync, count a vote, sign
one. `Core.Change` is coarser, and says of the stored blocks alone what
every writer keeps to: a block is stored at a free slot, the block of a slot
is applied, or nothing is written. Every move is a chain of changes
(`Core.Changes.move`).
-/

namespace Mmn

variable [Primitives]

/-! ## Moves -/

/-- The node's own vote for a block. -/
def ownVote (cfg : Config) (slot : UInt64) (blockHash : Hash) : Vote :=
  Vote.sign ⟨slot, blockHash, cfg.selfPubKey, []⟩ cfg.selfPrivKey

namespace Core

/-- Store a block. -/
def addBlock (c : Core) (b : BroadcastedBlock) : Core :=
  { c with
    store := c.store.addBlock b
    history := c.history ++ [.stored c.store b] }

/-- Apply a block that was just stored. -/
def applySynced (c : Core) (b : Block) : Core :=
  { c with
    store := c.store.applyBlock b
    history := c.history ++ [.synced c.store b] }

/-- Sign a vote. -/
def cast (c : Core) (v : Vote) : Core :=
  { c with history := c.history ++ [.voted v] }

/-- Count a vote. -/
def count (c : Core) (v : Vote) (hv : v.validate = .ok ()) : Core :=
  { c with collector := c.collector.put v hv }

/-- Count a vote and apply the block of its slot. -/
def commit (c : Core) (v : Vote) (hv : v.validate = .ok ()) (b : Block) : Core :=
  { store := c.store.applyBlock b
    collector := c.collector.put v hv
    history := c.history
      ++ [.committed c.store v.slot b ((c.collector.put v hv).votesForSlot v.slot)] }

/-- **The moves of a node's core.** `A` says of which blocks a node in a
given state is known to store, `V` which votes it is known to count. -/
inductive Move (cfg : Config) (A : Core → BroadcastedBlock → Prop)
    (V : Core → Vote → Prop) : Core → Core → Prop where
  /-- A block is stored at a free slot. -/
  | addBlock {c : Core} {b : BroadcastedBlock} (horigin : A c b)
      (hfree : b.slot ∉ c.store.blocks) : Move cfg A V c (c.addBlock b)
  /-- A block is stored at a free slot and applied at once. -/
  | sync {c : Core} {b : BroadcastedBlock} (horigin : A c b)
      (hfree : b.slot ∉ c.store.blocks) (hpoh : b.invalidPoH = false) :
      Move cfg A V c ((c.addBlock b).applySynced (broadcastedBlockToBlock b))
  /-- The node signs a vote for the block it has. -/
  | cast {c : Core} {b : Block} (hb : c.store.block b.slot = some b) :
      Move cfg A V c (c.cast (ownVote cfg b.slot b.hash))
  | count {c : Core} {v : Vote} (hcount : V c v) (hv : v.validate = .ok ())
      (hnew : v.voterID ∉ c.collector.votesForSlot v.slot) :
      Move cfg A V c (c.count v hv)
  /-- A vote is counted, reaches the threshold, and the block of its slot is
  applied. -/
  | commit {c : Core} {v : Vote} {b : Block} (hcount : V c v)
      (hv : v.validate = .ok ())
      (hnew : v.voterID ∉ c.collector.votesForSlot v.slot)
      (hthreshold : c.collector.threshold ≤ (c.collector.put v hv).count v.slot)
      (hb : c.store.block v.slot = some b) (hpoh : b.invalidPoH = false)
      (happlied : v.slot ∉ c.store.finalized) :
      Move cfg A V c (c.commit v hv b)
  | cleanup {c : Core} :
      Move cfg A V c { c with collector := c.collector.periodicCleanup }

/-- A chain of moves. -/
abbrev Moves (cfg : Config) (A : Core → BroadcastedBlock → Prop)
    (V : Core → Vote → Prop) : Core → Core → Prop :=
  Relation.ReflTransGen (Move cfg A V)

end Core

/-! ## Changes -/

/-- The two stores hold the same blocks, marks and transactions. -/
structure Store.SameRecords (s s' : Store) : Prop where
  blocks : s'.blocks = s.blocks
  finalized : s'.finalized = s.finalized
  txs : s'.txs = s.txs

namespace Store.SameRecords

omit [Primitives]

theorem refl (s : Store) : s.SameRecords s := ⟨rfl, rfl, rfl⟩

theorem block {s s' : Store} (h : s.SameRecords s') (slot : UInt64) :
    s'.block slot = s.block slot := by
  unfold Store.block
  rw [h.blocks]

end Store.SameRecords

namespace Core

/-- **What an operation does, in steps**: it stores a block at a free slot,
applies the block of a slot, or leaves the records alone. -/
inductive Change (c c' : Core) : Prop where
  | add (b : BroadcastedBlock) (hfree : b.slot ∉ c.store.blocks)
      (hstore : c'.store = c.store.addBlock b)
      (hhistory : c'.history = c.history ++ [.stored c.store b])
  /-- A block that is stored is applied. -/
  | apply (b : Block) (note : Event) (hb : c.store.block b.slot = some b)
      (hpoh : b.invalidPoH = false) (hnote : note.applied = some (c.store, b))
      (hstore : c'.store = c.store.applyBlock b)
        (hhistory : c'.history = c.history ++ [note])
  | keep (votes : List Vote) (hstore : c.store.SameRecords c'.store)
      (hhistory : c'.history = c.history ++ votes.map Event.voted)

/-- A chain of changes. -/
abbrev Changes : Core → Core → Prop := Relation.ReflTransGen Change

namespace Changes

variable {c : Core}

/-- A core that differs in its votes only. -/
theorem of_eq {c' : Core} (hstore : c'.store = c.store)
    (hhistory : c'.history = c.history) :
    Changes c c' := by
  refine .single (.keep [] ?_ ?_)
  · rw [hstore]
    exact .refl _
  · rw [hhistory]
    exact (List.append_nil _).symm

theorem addBlock {b : BroadcastedBlock} (hfree : b.slot ∉ c.store.blocks) :
    Changes c (c.addBlock b) := .single (.add b hfree rfl rfl)

/-- **Storing and applying the converted message** applies what is in the
store. -/
theorem sync {b : BroadcastedBlock} (hfree : b.slot ∉ c.store.blocks)
    (hpoh : b.invalidPoH = false) :
    Changes c ((c.addBlock b).applySynced (broadcastedBlockToBlock b)) := by
  refine (addBlock hfree).tail
    (.apply (broadcastedBlockToBlock b) _ ?_ hpoh rfl rfl rfl)
  show (c.store.addBlock b).block b.slot = some (broadcastedBlockToBlock b)
  rw [Store.block_addBlock, if_pos rfl]

theorem move {cfg : Config} {A : Core → BroadcastedBlock → Prop}
    {V : Core → Vote → Prop} {c' : Core} (h : Move cfg A V c c') : Changes c c' := by
  cases h with
  | addBlock _ hfree => exact addBlock hfree
  | sync _ hfree hpoh => exact sync hfree hpoh
  | @cast b _ => exact .single (.keep [ownVote cfg b.slot b.hash] (.refl _) rfl)
  | count => exact of_eq rfl rfl
  | @commit v b _ hv _ _ hb hpoh _ =>
    have hb' : c.store.block b.slot = some b := by rwa [Store.slot_of_block hb]
    exact .single (.apply b _ hb' hpoh rfl rfl rfl)
  | cleanup => exact of_eq rfl rfl

theorem moves {cfg : Config} {A : Core → BroadcastedBlock → Prop}
    {V : Core → Vote → Prop} {c' : Core} (h : Moves cfg A V c c') : Changes c c' := by
  induction h with
  | refl => exact .refl
  | tail _ hmove ih => exact ih.trans (move hmove)

end Changes

end Core

/-! ## What changes keep -/

/-- The statuses a block may have after it had one. -/
def BlockStatus.Advances (status status' : BlockStatus) : Prop :=
  status' = status ∨ (status = .pending ∧ status' = .finalized)

namespace BlockStatus.Advances

omit [Primitives]

theorem finalized (status : BlockStatus) : status.Advances .finalized := by
  cases status with
  | pending => exact Or.inr ⟨rfl, rfl⟩
  | finalized => exact Or.inl rfl

theorem trans {s₁ s₂ s₃ : BlockStatus} (h : s₁.Advances s₂) (h' : s₂.Advances s₃) :
    s₁.Advances s₃ := by
  obtain rfl | ⟨rfl, rfl⟩ := h'
  · exact h
  · exact finalized s₁

end BlockStatus.Advances

namespace Core

variable {c c' : Core}

/-- **A change keeps every stored block** but for its status, which can only
advance. -/
theorem Change.block_of_block (h : Change c c') {slot : UInt64} {b : Block}
    (hb : c.store.block slot = some b) :
    ∃ status, c'.store.block slot = some { b with status := status } ∧
      b.status.Advances status := by
  cases h with
  | add blk hfree hstore _ =>
    rw [hstore]
    exact ⟨b.status, Store.block_addBlock_of_block _ _ hfree hb, Or.inl rfl⟩
  | apply b' note hb' _ _ hstore _ =>
    rw [hstore, Store.block_applyBlock hb', hb, Option.map_some]
    split
    · exact ⟨.finalized, rfl, .finalized b.status⟩
    · exact ⟨b.status, rfl, Or.inl rfl⟩
  | keep _ hstore _ =>
    rw [hstore.block]
    exact ⟨b.status, hb, Or.inl rfl⟩

theorem Changes.block_of_block (h : Changes c c') {slot : UInt64} {b : Block}
    (hb : c.store.block slot = some b) :
    ∃ status, c'.store.block slot = some { b with status := status } ∧
      b.status.Advances status := by
  induction h with
  | refl => exact ⟨b.status, hb, Or.inl rfl⟩
  | tail _ hlast ih =>
    obtain ⟨status, hmid, hadv⟩ := ih
    obtain ⟨status', hend, hadv'⟩ := hlast.block_of_block hmid
    exact ⟨status', hend, hadv.trans hadv'⟩

/-! ## What moves keep -/

namespace Move

variable {cfg : Config} {A : Core → BroadcastedBlock → Prop} {V : Core → Vote → Prop}
  {c c' : Core}

theorem history_prefix (h : Move cfg A V c c') : c.history <+: c'.history := by
  cases h with
  | addBlock => exact List.prefix_append _ _
  | sync => exact (List.prefix_append _ _).trans (List.prefix_append _ _)
  | cast => exact List.prefix_append _ _
  | count => exact List.prefix_rfl
  | commit => exact List.prefix_append _ _
  | cleanup => exact List.prefix_rfl

/-- **A stored block is never replaced.** Only its status changes, when it
is applied. -/
theorem block_of_block (h : Move cfg A V c c') {slot : UInt64} {b : Block}
    (hb : c.store.block slot = some b) :
    ∃ status, c'.store.block slot = some { b with status := status } := by
  obtain ⟨status, hb', -⟩ := (Changes.move h).block_of_block hb
  exact ⟨status, hb'⟩

/-- **Where a block in the store comes from**: it was there before, or the
move stored it at a free slot. Its status may have changed. -/
theorem block_cases (h : Move cfg A V c c') {slot : UInt64} {b : Block}
    (hb : c'.store.block slot = some b) :
    (∃ status, c.store.block slot = some { b with status := status }) ∨
      ∃ blk status, A c blk ∧ blk.slot ∉ c.store.blocks ∧ slot = blk.slot ∧
        b = { broadcastedBlockToBlock blk with status := status } := by
  have hadd : ∀ {blk : BroadcastedBlock} {b : Block},
      (c.store.addBlock blk).block slot = some b →
        c.store.block slot = some b ∨
        (slot = blk.slot ∧ b = broadcastedBlockToBlock blk) := by
    intro blk b hb
    rw [Store.block_addBlock] at hb
    split at hb
    · next hslot => exact Or.inr ⟨hslot, (Option.some.inj hb).symm⟩
    · exact Or.inl hb
  cases h with
  | addBlock horigin hfree =>
    obtain hold | ⟨hslot, rfl⟩ := hadd hb
    · exact Or.inl ⟨b.status, hold⟩
    · exact Or.inr ⟨_, .pending, horigin, hfree, hslot, rfl⟩
  | sync horigin hfree =>
    have hb' : (Store.putFinalized _ _ _ _ _).block slot = some b := hb
    rw [Store.block_putFinalized] at hb'
    split at hb'
    · next hslot =>
      exact Or.inr ⟨_, .finalized, horigin, hfree, hslot, (Option.some.inj hb').symm⟩
    · obtain hold | ⟨hslot, rfl⟩ := hadd hb'
      · exact Or.inl ⟨b.status, hold⟩
      · exact Or.inr ⟨_, .pending, horigin, hfree, hslot, rfl⟩
  | cast => exact Or.inl ⟨b.status, hb⟩
  | count => exact Or.inl ⟨b.status, hb⟩
  | commit _ _ _ _ hstored =>
    have hb' : (Store.putFinalized _ _ _ _ _).block slot = some b := hb
    rw [Store.block_putFinalized] at hb'
    split at hb'
    · next hslot =>
      obtain rfl := Option.some.inj hb'
      have hsame := hslot.trans (Store.slot_of_block hstored)
      rw [← hsame] at hstored
      exact Or.inl ⟨_, hstored⟩
    · exact Or.inl ⟨b.status, hb'⟩
  | cleanup => exact Or.inl ⟨b.status, hb⟩

end Move

end Core

end Mmn
