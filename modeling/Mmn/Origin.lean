import Mmn.Pipeline
import Mmn.Sample

/-!
# Who made the blocks of a node

A block should be made and signed by the leader of its slot. Of the three
ways blocks come in from peers only the live topic checks both. The sync
stream checks the signature, but not that the signer leads the slot; the
empty-block topic checks nothing. What comes in there can be finalized – by
the sync itself, or by votes – and so a node finalizes blocks that no leader
made (`finalized_without_leader`).

The rest of the node is sound: the blocks it makes itself are signed and are
for slots it leads (`OwnBlock`), and a stored block is never replaced. If
the two missing checks are met by what the messages carry, every finalized
block is its leader's (`finalized_from_leader`).
-/

namespace Mmn

section

variable [Primitives]

/-- **The block is its leader's**: the one named leads the slot, and the
signature is that one's. -/
structure FromLeader (cfg : Config) (b : BlockCore) : Prop where
  leader : cfg.leaderSchedule.leaderAt b.slot = some b.leaderID
  /-- The signature is accepted. It does not depend on the entries. -/
  signed : (BroadcastedBlock.mk b []).verifySignature = true

instance (cfg : Config) (b : BlockCore) : Decidable (FromLeader cfg b) :=
  decidable_of_iff
    (cfg.leaderSchedule.leaderAt b.slot = some b.leaderID ∧
      (BroadcastedBlock.mk b []).verifySignature = true)
    ⟨fun h => ⟨h.1, h.2⟩, fun h => ⟨h.leader, h.signed⟩⟩

/-- **Every finalized block after genesis is its leader's.** -/
def FinalizedFromLeader (cfg : Config) (s : Store) : Prop :=
  ∀ slot b, slot ≠ 0 → slot ∈ s.finalized → s.block slot = some b →
    FromLeader cfg b.toBlockCore

/-- **The checks that the handlers leave out**, met by the blocks that an
input offers: those of the sync stream name the leader of their slot, and
those of the empty-block topic are their leader's, as far as their slots are
free. -/
def OffersFromLeader (cfg : Config) (n : Node) (i : Input) : Prop :=
  match i with
  | .syncResponse _ _ =>
    ∀ blk ∈ n.offered cfg i, cfg.leaderSchedule.leaderAt blk.slot = some blk.leaderID
  | .emptyBlocks _ =>
    ∀ blk ∈ n.offered cfg i, blk.slot ∉ n.store.blocks →
      FromLeader cfg blk.toBlockCore
  | _ => True

instance (cfg : Config) (n : Node) :
    (i : Input) → Decidable (OffersFromLeader cfg n i)
  | .syncResponse _ _ => inferInstanceAs (Decidable (∀ _ ∈ _, _))
  | .emptyBlocks _ => inferInstanceAs (Decidable (∀ _ ∈ _, _))
  | .block _ | .vote _ | .transaction _ | .latestSlot _ _ | .autoHash | .leaderBatch
  | .drainEntries | .tickAndFlush _ | .roleMonitor | .leaderWait _ | .broadcast _ _
  | .cleanupVotes | .expireDedup _ => isTrue trivial

theorem FromLeader.markPoH {cfg : Config} {blk : BroadcastedBlock}
    (h : FromLeader cfg blk.toBlockCore) :
    FromLeader cfg blk.markPoH.toBlockCore := by
  rw [BroadcastedBlock.markPoH_eq]
  exact ⟨h.leader, h.signed⟩

/-- **Whatever way a block comes in, it is its leader's.** -/
theorem Admits.fromLeader {cfg : Config} {n : Node} {i : Input} {c : Core}
    {b : BroadcastedBlock} (h : Admits cfg n i c b) (hpipeline : Pipeline cfg n)
    (hoffers : OffersFromLeader cfg n i) : FromLeader cfg b.toBlockCore := by
  cases h with
  | live hleader hsig =>
    exact FromLeader.markPoH ⟨of_decide_eq_true hleader, hsig⟩
  | empty hmem hfree =>
    exact hoffers b (List.reduceOption_mem_iff.mpr hmem) hfree
  | synced hmem hsig =>
    exact FromLeader.markPoH ⟨hoffers _ hmem, hsig⟩
  | own hmem =>
    have hown := hpipeline.outbox b (List.mem_of_getElem? hmem)
    refine ⟨?_, hown.signed⟩
    rw [hown.leaderID]
    exact of_decide_eq_true hown.leader

/-- The invariant: every stored block after genesis is its leader's. -/
def StoredFromLeader (cfg : Config) (c : Core) : Prop :=
  ∀ slot b, slot ≠ 0 → c.store.block slot = some b → FromLeader cfg b.toBlockCore

theorem StoredFromLeader.move {cfg : Config} {A : Core → BroadcastedBlock → Prop}
    {V : Core → Vote → Prop} {c c' : Core} (h : StoredFromLeader cfg c)
    (hA : ∀ b, A c b → FromLeader cfg b.toBlockCore)
    (hmove : Core.Move cfg A V c c') :
    StoredFromLeader cfg c' := by
  intro slot b hslot hb
  obtain ⟨status, hold⟩ | ⟨blk, status, horigin, -, -, rfl⟩ := hmove.block_cases hb
  · have hfrom := h slot _ hslot hold
    exact ⟨hfrom.leader, hfrom.signed⟩
  · have hfrom := hA blk horigin
    exact ⟨hfrom.leader, hfrom.signed⟩

/-- **Provenance.** In every run in which the blocks of the sync stream name
their leader and those of the empty-block topic are their leader's, every
finalized block after genesis is its leader's. -/
theorem finalized_from_leader (cfg : Config) (n : Node)
    (hrun : NodeRun cfg (OffersFromLeader cfg) n) :
    FinalizedFromLeader cfg n.store := by
  have hinv := hrun.invariant (J := Pipeline cfg) (I := StoredFromLeader cfg)
    (Pipeline.new cfg) (fun n i n' hn _ hstep => hn.step hstep) ?_ ?_
  · intro slot b hslot _ hb
    exact hinv.2 slot b hslot hb
  · intro alloc now s hinit slot b hslot hb
    have hblock := (isGenesis_of_initializeBlockchain hinit).block slot
    rw [show (Node.new cfg s.reopen).store.block slot = _ from hblock, if_neg hslot]
      at hb
    cases hb
  · intro n i c c' hpipeline hoffers hc hmove
    exact hc.move (fun b hb => hb.fromLeader hpipeline hoffers) hmove

end

section Sample

attribute [local instance] Sample.primitives

/-- A clock that stands still. -/
def Sample.clock : ℕ → UInt64 := fun _ => 0

/-- Does the node have finalized blocks, one by one as a test says? -/
def Sample.finalizedWith (p : List (Block → Bool)) (n : Node) : Bool :=
  (p.zipIdx 1).all fun (test, slot) =>
    decide (UInt64.ofNat slot ∈ n.store.finalized)
      && (n.store.block (UInt64.ofNat slot)).any test

/-- A run in which a block comes in on each of the three ways and is
finalized. -/
theorem finalized_from_leader_three_ways :
    ∃ n, NodeRun Sample.alone (OffersFromLeader Sample.alone) n ∧
      Sample.finalizedWith [fun _ => true, fun _ => true, fun _ => true] n = true ∧
      FinalizedFromLeader Sample.alone n.store := by
  obtain ⟨n, hrun, htest⟩ :=
    exists_nodeRun Sample.alone (OffersFromLeader Sample.alone)
    (Sample.finalizedWith [fun _ => true, fun _ => true, fun _ => true]) [] 0
    [.latestSlot 1 1, .syncResponse (some (Sample.blockWith 1 1 0 [])) Sample.clock,
      .block (Sample.blockWith 1 2 0 []),
      .emptyBlocks [some (Sample.blockWith 1 3 0 [])],
      .vote (Sample.voteOf 1 3 (Sample.blockWith 1 3 0 []).hash)]
    (by decide +kernel)
  exact ⟨n, hrun, htest, finalized_from_leader Sample.alone n hrun⟩

/-- A block without a signature. -/
def Sample.unsignedBlock :
    BroadcastedBlock := { Sample.blockWith 1 2 0 [] with signature := [] }

/-- **Finalized blocks that no leader made.** The sync stream brings a block
by a validator that does not lead the slot, and the sync finalizes it. The
empty-block topic brings a block without a signature, and a vote finalizes
it. -/
theorem finalized_without_leader :
    ∃ n, NodeRun Sample.alone Machine.Always n ∧
      (∃ b, 1 ∈ n.store.finalized ∧ n.store.block 1 = some b ∧
        ¬ Sample.alone.leaderSchedule.leaderAt 1 = some b.leaderID) ∧
      (∃ b, 2 ∈ n.store.finalized ∧ n.store.block 2 = some b ∧
        ¬ (BroadcastedBlock.mk b.toBlockCore []).verifySignature = true) ∧
      ¬ FinalizedFromLeader Sample.alone n.store := by
  obtain ⟨n, hrun, htest⟩ := exists_nodeRun Sample.alone Machine.Always
    (Sample.finalizedWith
      [fun b => decide (¬ Sample.alone.leaderSchedule.leaderAt 1 = some b.leaderID),
        fun b =>
          decide (¬ (BroadcastedBlock.mk b.toBlockCore []).verifySignature = true)])
    [] 0
    [.latestSlot 1 1, .syncResponse (some (Sample.blockWith 2 1 0 [])) Sample.clock,
      .emptyBlocks [some Sample.unsignedBlock],
      .vote (Sample.voteOf 1 2 Sample.unsignedBlock.hash)]
    (by decide +kernel)
  simp only [Sample.finalizedWith, List.zipIdx_cons, List.zipIdx_nil, List.all_cons,
    List.all_nil, Bool.and_true, Bool.and_eq_true, decide_eq_true_eq,
    Option.any_eq_true] at htest
  obtain ⟨⟨hfin₁, b₁, hb₁, hnot₁⟩, hfin₂, b₂, hb₂, hnot₂⟩ := htest
  refine ⟨n, hrun, ⟨b₁, hfin₁, hb₁, hnot₁⟩, ⟨b₂, hfin₂, hb₂, hnot₂⟩, fun hfrom => ?_⟩
  exact hnot₂ (hfrom 2 b₂ (by decide) hfin₂ hb₂).signed

end Sample

end Mmn
