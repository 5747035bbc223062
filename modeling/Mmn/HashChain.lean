import Mmn.Sample
import Mmn.Steps

/-!
# The chain of hashes

A block declares the hash it continues from, and its entries are checked
against that hash. Nobody compares it with the last entry of the block
before: the checks of a block are the same whatever else the node has, and
blocks may be stored in any order. Two consecutive finalized blocks need not
fit together (`finalized_chain_broken`).

The link between two neighbours is decided when the second of them is
stored. If every block that is offered to the node fits those of its
neighbours that are stored already, or offered with it, all stored blocks
form a chain, and the finalized ones among them (`finalized_chain`).
-/

namespace Mmn

section

variable [Primitives]

/-- **Every finalized block continues from the finalized block before it.** -/
def FinalizedChain (s : Store) : Prop :=
  ∀ slot b b', slot ≠ 0 → slot - 1 ∈ s.finalized → slot ∈ s.finalized →
    s.block (slot - 1) = some b → s.block slot = some b' →
    b'.prevHash = b.lastEntryHash

/-- Every stored block continues from the stored block before it. -/
def StoredChain (s : Store) : Prop :=
  ∀ slot b b', slot ≠ 0 → s.block (slot - 1) = some b → s.block slot = some b' →
    b'.prevHash = b.lastEntryHash

/-- **The block fits its neighbours**: it continues from the block before
it, and the block after it continues from it, as far as a store has them. -/
structure Fits (s : Store) (blk : BroadcastedBlock) : Prop where
  before : blk.slot ≠ 0 → ∀ b ∈ s.block (blk.slot - 1), blk.prevHash = b.lastEntryHash
  after : blk.slot + 1 ≠ 0 → ∀ b ∈ s.block (blk.slot + 1),
    b.prevHash = blk.lastEntryHash

/-- **The blocks that an input offers fit** the store and each other. -/
def OffersFit (cfg : Config) (n : Node) (i : Input) : Prop :=
  ∀ blk ∈ n.offered cfg i, blk.slot ∉ n.store.blocks →
    Fits n.store blk ∧
      ∀ blk' ∈ n.offered cfg i, blk'.slot ≠ 0 → blk'.slot - 1 = blk.slot →
        blk'.prevHash = blk.lastEntryHash

instance (s : Store) (blk : BroadcastedBlock) : Decidable (Fits s blk) :=
  decidable_of_iff
    ((blk.slot ≠ 0 → ∀ b ∈ s.block (blk.slot - 1), blk.prevHash = b.lastEntryHash) ∧
      (blk.slot + 1 ≠ 0 → ∀ b ∈ s.block (blk.slot + 1),
        b.prevHash = blk.lastEntryHash))
    ⟨fun h => ⟨h.1, h.2⟩, fun h => ⟨h.before, h.after⟩⟩

instance (cfg : Config) (n : Node) (i : Input) : Decidable (OffersFit cfg n i) :=
  inferInstanceAs (Decidable (∀ _ ∈ _, _))

/-! ## Runs -/

/-- The last entry of a block is the same in its stored form. -/
theorem StoredForm.lastEntryHash {blk : BroadcastedBlock} {b : Block}
    (h : StoredForm blk b) : b.lastEntryHash = blk.lastEntryHash := by
  obtain ⟨status, flag, rfl⟩ := h
  unfold Block.lastEntryHash BroadcastedBlock.lastEntryHash broadcastedBlockToBlock
  rw [List.getLast?_map]
  cases blk.entries.getLast? <;> rfl

theorem StoredForm.prevHash {blk : BroadcastedBlock} {b : Block}
    (h : StoredForm blk b) :
    b.prevHash = blk.prevHash := by
  obtain ⟨status, flag, rfl⟩ := h
  rfl

/-- **A step keeps the chain**: of two neighbours each was stored before or
was offered, and in all four cases they fit. -/
theorem StoredChain.step {cfg : Config} {n n' : Node} {i : Input}
    (h : StoredChain n.store) (hfits : OffersFit cfg n i)
    (hstep : n.step cfg i = some n') : StoredChain n'.store := by
  intro slot b b' hslot hb hb'
  obtain ⟨status, hold⟩ | ⟨blk, hmem, hfree, hblk, hform⟩ := Node.block_cases hstep hb
  · obtain ⟨status', hold'⟩ | ⟨blk', hmem', hfree', hblk', hform'⟩ :=
      Node.block_cases hstep hb'
    · have hlink := h slot _ _ hslot hold hold'
      exact hlink
    · subst hblk'
      have hlink := (hfits blk' hmem' hfree').1.before hslot _ hold
      rw [hform'.prevHash]
      exact hlink
  · obtain ⟨status', hold'⟩ | ⟨blk', hmem', hfree', hblk', hform'⟩ :=
      Node.block_cases hstep hb'
    · have hnext : blk.slot + 1 = slot := by
        rw [← hblk, UInt64.sub_add_cancel]
      rw [← hnext] at hslot hold'
      have hlink := (hfits blk hmem hfree).1.after hslot _ hold'
      rw [hform.lastEntryHash]
      exact hlink
    · subst hblk'
      rw [hform.lastEntryHash, hform'.prevHash]
      exact (hfits blk hmem hfree).2 blk' hmem' hslot hblk

/-- **Integrity of the hash chain.** In every run in which the blocks
offered to the node fit their neighbours, every finalized block continues
from the last entry of the finalized block before it. -/
theorem finalized_chain (cfg : Config) (n : Node)
    (hrun : NodeRun cfg (OffersFit cfg) n) :
    FinalizedChain n.store := by
  obtain ⟨alloc, now, s, hinit, hrun⟩ := hrun
  have hchain : StoredChain n.store := by
    refine hrun.invariant (I := fun n => StoredChain n.store) ?_
      (fun _ _ _ h hfits hstep => h.step hfits hstep)
    -- at the start there is only the block of slot zero
    intro slot b b' hslot _ hb'
    have hblock := (isGenesis_of_initializeBlockchain hinit).block slot
    rw [show (Node.new cfg s.reopen).store.block slot = _ from hblock, if_neg hslot]
      at hb'
    cases hb'
  intro slot b b' hslot _ _ hb hb'
  exact hchain slot b b' hslot hb hb'

end

section Sample

attribute [local instance] Sample.primitives

/-- The first block of the chain. -/
def Sample.chainBlock : BroadcastedBlock := Sample.blockWith 1 1 0 []

/-- A block that continues from it. -/
def Sample.nextBlock : BroadcastedBlock :=
  (assembleBlock 2 Sample.chainBlock.lastEntryHash (Sample.keyID 1)
    [Sample.entryAfter Sample.chainBlock.lastEntryHash []] 0).sign (Sample.keyBytes 1)

/-- A block that declares to continue from zeros. -/
def Sample.strayBlock : BroadcastedBlock := Sample.blockWith 1 2 0 []

/-- Are the blocks of the first two slots finalized, with this link? -/
def Sample.linked (p : Hash → Hash → Bool) (n : Node) : Bool :=
  decide (1 ∈ n.store.finalized) && decide (2 ∈ n.store.finalized) &&
    (n.store.block 1).any fun b => (n.store.block 2).any fun b' =>
      p b.lastEntryHash b'.prevHash

/-- A run that finalizes two blocks that fit, the second of which comes
first. -/
theorem finalized_chain_two_blocks :
    ∃ n, NodeRun Sample.alone (OffersFit Sample.alone) n ∧
      Sample.linked (fun _ _ => true) n = true ∧ FinalizedChain n.store := by
  obtain ⟨n, hrun, htest⟩ := exists_nodeRun Sample.alone (OffersFit Sample.alone)
    (Sample.linked fun _ _ => true) [] 0
    [.block Sample.nextBlock, .block Sample.chainBlock] (by decide +kernel)
  exact ⟨n, hrun, htest, finalized_chain Sample.alone n hrun⟩

/-- **A broken chain.** Two live blocks of the leader, the second of which
does not continue from the first; both are finalized. -/
theorem finalized_chain_broken :
    ∃ n, NodeRun Sample.alone Machine.Always n ∧ ¬ FinalizedChain n.store := by
  obtain ⟨n, hrun, htest⟩ := exists_nodeRun Sample.alone Machine.Always
    (Sample.linked fun last prev => decide (prev ≠ last)) [] 0
    [.block Sample.chainBlock, .block Sample.strayBlock] (by decide +kernel)
  simp only [Sample.linked, Bool.and_eq_true, decide_eq_true_eq, Option.any_eq_true]
    at htest
  obtain ⟨⟨hfin₁, hfin₂⟩, b, hb, b', hb', hne⟩ := htest
  exact ⟨n, hrun, fun hchain => hne (hchain 2 b b' (by decide) hfin₁ hfin₂ hb hb')⟩

end Sample

end Mmn
