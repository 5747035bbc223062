import Mmn.Sample
import Mmn.Steps

/-!
# Stored blocks never change

Five operations touch the blocks of a node: `OnBlockReceived`,
`OnEmptyBlockReceived` and `ProcessBlockBeforeBroadcast` store one,
`applyDataToBlock` applies a stored one, `processBlock` stores and applies.
Applying overwrites the whole record with the block object the caller has,
and the callers come by it differently: `applyDataToBlock` reads it from the
store, `processBlock` converts the message once more. Both write back what
is there, because storing refuses a slot that is taken and the conversion
ignores the status a message carries.

`Operation` is the machine of these five, of everything else a node does,
and of restarts. What an operation can do is said once: it is a chain of
`Core.Change`s, each of which stores a block at a free slot, applies the
block that is at its slot, or leaves all records alone
(`Node.changes_of_operate`). What is asked of stored blocks is proved change
by change. Their contents stay (`Core.Change.block_of_block`), and a slot is
marked exactly if its block has the status that says so
(`Store.StatusConsistent`).
-/

namespace Mmn

section

variable [Primitives]

/-! ## The machine -/

/-- **An operation of a node.** -/
inductive Operation where
  | onBlockReceived (blk : BroadcastedBlock)
  | onEmptyBlockReceived (blocks : List (Option BroadcastedBlock))
  /-- A leader stores the block it is about to broadcast. -/
  | processBlockBeforeBroadcast (blk : BroadcastedBlock)
  /-- The block of a slot is applied. -/
  | applyDataToBlock (slot : UInt64)
  /-- A block of the sync stream is processed. -/
  | processBlock (blk : BroadcastedBlock)
  /-- Any other message or round of a loop. -/
  | input (i : Input)
  /-- The process stops and starts again on its database. -/
  | restart

/-- A process that starts again. The history is not the process's, and goes
on. -/
def Node.restart (cfg : Config) (n : Node) : Node :=
  { Node.new cfg n.store.reopen with history := n.history }

/-- **The node after an operation.** -/
def Node.operate (cfg : Config) (n : Node) : Operation → Option Node
  | .onBlockReceived blk => (n.onBlockReceived cfg blk).map Prod.fst
  | .onEmptyBlockReceived blocks => some (n.onEmptyBlockReceived blocks)
  | .processBlockBeforeBroadcast blk => some (n.addBlockPending blk).1
  | .applyDataToBlock slot => (n.applyDataToBlock cfg slot).map Prod.fst
  | .processBlock blk => (n.processBlock cfg blk).map Prod.fst
  | .input i => n.step cfg i
  | .restart => some (n.restart cfg)

/-- **Later**: the second node is reached from the first by operations. -/
def Node.Later (cfg : Config) : Node → Node → Prop :=
  Machine.Run (Node.operate cfg) Machine.Always

/-- **The nodes that operations reach** from a database of genesis. -/
def Operated (cfg : Config) (n : Node) : Prop :=
  ∃ alloc now s, initializeBlockchain alloc now = .ok s ∧
    Node.Later cfg (Node.new cfg s.reopen) n

omit [Primitives] in
/-- The block an operation receives from a peer and checks. -/
def Operation.fromPeer : Operation → Option BroadcastedBlock
  | .onBlockReceived blk => some blk
  | .processBlock blk => some blk
  | _ => none

/-! ## What an operation can do -/

omit [Primitives] in
theorem Store.SameRecords.reopen (s : Store) : s.SameRecords s.reopen := by
  rw [Store.reopen_frame]
  exact ⟨rfl, rfl, rfl⟩

namespace Node

variable {cfg : Config}

/-- **What an operation does**: a chain of moves, the application of a
stored block, or a restart. -/
theorem operate_cases {n n' : Node} {op : Operation}
    (h : n.operate cfg op = some n') :
    (∃ A V, Core.Moves cfg A V n.toCore n'.toCore) ∨
      (∃ b note, n.store.block b.slot = some b ∧ b.invalidPoH = false ∧
        note.applied = some (n.store, b) ∧ n'.store = n.store.applyBlock b ∧
        n'.history = n.history ++ [note]) ∨
      n' = n.restart cfg := by
  cases op with
  | onBlockReceived blk =>
    obtain ⟨⟨n₁, r⟩, hblk, rfl⟩ := Option.map_eq_some_iff.mp h
    exact Or.inl ⟨_, _, moves_of_block hblk⟩
  | onEmptyBlockReceived blocks =>
    cases h
    exact Or.inl ⟨_, fun _ _ => False, moves_of_emptyBlocks n blocks⟩
  | processBlockBeforeBroadcast blk =>
    cases h
    refine Or.inl ⟨fun _ _ => True, fun _ _ => True, ?_⟩
    obtain ⟨err, hadd⟩ | ⟨hfree, hadd⟩ := addBlockPending_cases n blk <;> rw [hadd]
    exact .single (.addBlock trivial hfree)
  | applyDataToBlock slot =>
    obtain ⟨⟨n₁, r⟩, happly, rfl⟩ := Option.map_eq_some_iff.mp h
    obtain rfl | ⟨b, t, hb, -, rfl | ⟨hpoh, rfl⟩⟩ := applyDataToBlock_cases happly
    · exact Or.inl ⟨fun _ _ => True, fun _ _ => True, .refl⟩
    · exact Or.inl ⟨fun _ _ => True, fun _ _ => True, .refl⟩
    · have hb' : n.store.block b.slot = some b := by rwa [Store.slot_of_block hb]
      exact Or.inr (Or.inl ⟨b, _, hb', hpoh, rfl, rfl, rfl⟩)
  | processBlock blk =>
    obtain ⟨⟨n₁, r⟩, hblk, rfl⟩ := Option.map_eq_some_iff.mp h
    refine Or.inl ⟨fun _ _ => True, fun _ _ => True, ?_⟩
    obtain rfl | ⟨t, -, -, hfree, rfl | ⟨hpoh, rfl⟩⟩ := processBlock_cases hblk
    · exact .refl
    · exact .single (.addBlock trivial hfree)
    · exact .single (.sync trivial hfree hpoh)
  | input i => exact Or.inl ⟨_, _, moves_of_step h⟩
  | restart =>
    cases h
    exact Or.inr (Or.inr rfl)

/-- **An operation is a chain of changes.** -/
theorem changes_of_operate {n n' : Node} {op : Operation}
    (h : n.operate cfg op = some n') :
    Core.Changes n.toCore n'.toCore := by
  obtain ⟨A, V, hmoves⟩ | ⟨b, note, hb, hpoh, hnote, hstore, hhistory⟩ | rfl :=
    operate_cases h
  · exact .moves hmoves
  · exact .single (.apply b note hb hpoh hnote hstore hhistory)
  · exact .single (.keep [] (.reopen _) (List.append_nil _).symm)

/-- **What the two handlers do with a block**: nothing, or store it with its
flag and go on, if its transactions verify. -/
theorem changes_of_fromPeer {n n' : Node} {op : Operation} {blk : BroadcastedBlock}
    (hop : op.fromPeer = some blk) (h : n.operate cfg op = some n') :
    n' = n ∨ (verifyBlockTransactions blk = .ok () ∧ blk.slot ∉ n.store.blocks ∧
      Core.Changes (n.toCore.addBlock blk.markPoH) n'.toCore) := by
  cases op with
  | onBlockReceived blk' =>
    cases hop
    obtain ⟨⟨n₁, r⟩, hblk, rfl⟩ := Option.map_eq_some_iff.mp h
    obtain rfl | ⟨hadmits, hfree, hcases⟩ := onBlockReceived_cases hblk
    · exact Or.inl rfl
    have htxs : verifyBlockTransactions blk = .ok () := by
      cases hadmits with
      | live _ _ htxs => exact htxs
    obtain ⟨-, rfl⟩ | ⟨-, hvote⟩ := hcases
    · exact Or.inr ⟨htxs, hfree, .refl⟩
    · obtain ⟨dedup, mempool, -, hcast⟩ := voteForReceived_cases hvote
      have hb : (n.store.addBlock blk.markPoH).block blk.markPoH.slot
          = some (broadcastedBlockToBlock blk.markPoH) := by
        rw [Store.block_addBlock, if_pos rfl]
      have hmoves : Core.Moves cfg (fun _ _ => False) (fun _ _ => True)
          (n.toCore.addBlock blk.markPoH) n₁.toCore :=
        moves_of_castVote (b := broadcastedBlockToBlock blk.markPoH) hcast hb trivial
      exact Or.inr ⟨htxs, hfree, .moves hmoves⟩
  | processBlock blk' =>
    cases hop
    obtain ⟨⟨n₁, r⟩, hblk, rfl⟩ := Option.map_eq_some_iff.mp h
    obtain rfl | ⟨t, -, htxs, hfree, hcases⟩ := processBlock_cases hblk
    · exact Or.inl rfl
    rw [BroadcastedBlock.slot_markPoH] at hfree
    refine Or.inr ⟨htxs, hfree, ?_⟩
    obtain rfl | ⟨hpoh, rfl⟩ := hcases
    · exact .refl
    · refine .single (.apply (broadcastedBlockToBlock blk.markPoH) _ ?_ hpoh
        rfl rfl rfl)
      show (n.store.addBlock blk.markPoH).block blk.markPoH.slot = _
      rw [Store.block_addBlock, if_pos rfl]
  | onEmptyBlockReceived => cases hop
  | processBlockBeforeBroadcast => cases hop
  | applyDataToBlock => cases hop
  | input => cases hop
  | restart => cases hop

theorem Later.changes {n n' : Node} (h : Later cfg n n') :
    Core.Changes n.toCore n'.toCore := by
  induction h with
  | refl => exact .refl
  | tail _ hlast ih =>
    obtain ⟨op, -, hop⟩ := hlast
    exact ih.trans (changes_of_operate hop)

end Node

/-- **The invariant rule**: what holds of a new database and is kept by
every change holds of every node that operations reach. -/
theorem Operated.invariant {cfg : Config} {I : Core → Prop} {n : Node}
    (h : Operated cfg n) (h₀ : ∀ now s, IsGenesis now s → I (Node.new cfg s).toCore)
    (hchange : ∀ c c', I c → Core.Change c c' → I c') : I n.toCore := by
  obtain ⟨alloc, now, s, hinit, hlater⟩ := h
  have hchanges := hlater.changes
  generalize n.toCore = c at hchanges
  induction hchanges with
  | refl => exact h₀ now _ (isGenesis_of_initializeBlockchain hinit)
  | tail _ hlast ih => exact hchange _ _ ih hlast

theorem Operated.later {cfg : Config} {n n' : Node} (h : Operated cfg n)
    (hlater : Node.Later cfg n n') : Operated cfg n' := by
  obtain ⟨alloc, now, s, hinit, hrun⟩ := h
  exact ⟨alloc, now, s, hinit, hrun.trans hlater⟩

/-! ## Marks -/

namespace Store

/-- **A slot is marked exactly if its block has the status finalized.** -/
def StatusConsistent (s : Store) : Prop :=
  ∀ slot, slot ∈ s.finalized ↔ ∃ b, s.block slot = some b ∧ b.status = .finalized

namespace StatusConsistent

theorem of_isGenesis {now : UInt64} {s : Store} (h : IsGenesis now s) :
    s.StatusConsistent := by
  intro slot
  rw [h.finalized, h.block, Finset.mem_singleton]
  split
  · next hslot => exact ⟨fun _ => ⟨_, rfl, rfl⟩, fun _ => hslot⟩
  · next hslot =>
    refine ⟨fun heq => absurd heq hslot, ?_⟩
    rintro ⟨b, hb, -⟩
    cases hb

/-- A block is stored as pending, at a slot that was not marked because it
had no block. -/
theorem addBlock {s : Store} (h : s.StatusConsistent) {b : BroadcastedBlock}
    (hfree : b.slot ∉ s.blocks) : (s.addBlock b).StatusConsistent := by
  intro slot
  rw [finalized_addBlock, block_addBlock, h slot]
  split
  · next hslot =>
    subst hslot
    constructor
    · rintro ⟨b', hb', -⟩
      exact absurd (mem_blocks_iff.mpr ⟨b', hb'⟩) hfree
    · rintro ⟨b', hb', hstatus⟩
      cases hb'
      cases hstatus
  · exact Iff.rfl

/-- Applying a block sets its status and its mark. -/
theorem applyBlock {s : Store} (h : s.StatusConsistent) {b : Block}
    (hb : s.block b.slot = some b) : (s.applyBlock b).StatusConsistent := by
  intro slot
  have hmarks : slot ∈ (s.applyBlock b).finalized ↔ slot = b.slot ∨
      slot ∈ s.finalized :=
    Finset.mem_insert
  rw [hmarks, block_applyBlock hb, h slot]
  by_cases hslot : slot = b.slot
  · subst hslot
    rw [hb, Option.map_some, if_pos rfl]
    exact ⟨fun _ => ⟨_, rfl, rfl⟩, fun _ => Or.inl rfl⟩
  · simp only [hslot, false_or, if_false, Option.map_id']

omit [Primitives] in
theorem of_sameRecords {s s' : Store} (h : s.StatusConsistent)
    (hsame : s.SameRecords s') :
    s'.StatusConsistent := by
  intro slot
  rw [hsame.finalized, hsame.block]
  exact h slot

end StatusConsistent

end Store

theorem Core.Change.statusConsistent {c c' : Core} (h : Core.Change c c')
    (hc : c.store.StatusConsistent) : c'.store.StatusConsistent := by
  cases h with
  | add b hfree hstore _ =>
    rw [hstore]
    exact hc.addBlock hfree
  | apply b note hb _ _ hstore _ =>
    rw [hstore]
    exact hc.applyBlock hb
  | keep _ hstore _ => exact hc.of_sameRecords hstore

/-- **Stored blocks never change.** In any node that operations reach, and
after any further operations, the block of a slot is the one that was there,
its status has at most advanced from pending to finalized, and the slot is
marked as applied exactly if the status says so. -/
theorem Node.stored_block_immutable {cfg : Config} {n n' : Node} (h : Operated cfg n)
    (hlater : Node.Later cfg n n') (slot : UInt64) :
    (∀ b, n.store.block slot = some b →
      ∃ status, n'.store.block slot = some { b with status := status } ∧
        (status = b.status ∨ (b.status = .pending ∧ status = .finalized))) ∧
    (n'.store.isApplied slot = true ↔
      ∃ b, n'.store.block slot = some b ∧ b.status = .finalized) := by
  refine ⟨fun b hb => hlater.changes.block_of_block hb, ?_⟩
  have hconsistent : n'.store.StatusConsistent :=
    (h.later hlater).invariant (I := fun c => c.store.StatusConsistent)
      (fun _ _ hgenesis => .of_isGenesis hgenesis)
      (fun _ _ hc hchange => hchange.statusConsistent hc)
  unfold Store.isApplied
  rw [decide_eq_true_iff]
  exact hconsistent slot

/-- Operations by evaluation: from a genesis database, the node after a list
of them passes a test. -/
theorem exists_operated (cfg : Config) (p : Node → Bool) (alloc : List Ledger.Address)
    (now : UInt64) (ops : List Operation)
    (h : (initializeBlockchain alloc now).toOption.any (fun s =>
      (Machine.exec (Node.operate cfg) Machine.Always (Node.new cfg s.reopen) ops).any
        p) = true) :
    ∃ n, Operated cfg n ∧ p n = true :=
  exists_run_of_genesis cfg (Node.operate cfg) Machine.Always p alloc now ops h

end

/-! ## Examples -/

section Sample

attribute [local instance] Sample.primitives

open Sample

/-- The block a leader stores is applied later, and is still the same after
a restart. -/
theorem stored_block_immutable_alone :
    ∃ n n', Operated alone n ∧ Node.Later alone n n' ∧
      (n.store.block 1).isSome = true ∧ n'.store.isApplied 1 = true ∧
      ∀ b, n.store.block 1 = some b →
      n'.store.block 1 = some { b with status := .finalized } := by
  obtain ⟨n, hn, htest⟩ := exists_operated alone
    (fun n => (n.store.block 1).isSome &&
      (Machine.exec (Node.operate alone) Machine.Always n
        [.applyDataToBlock 1, .restart]).any (fun n' => n'.store.isApplied 1))
    [] 0 [.processBlockBeforeBroadcast (blockWith 1 1 0 [])] (by decide +kernel)
  rw [Bool.and_eq_true] at htest
  obtain ⟨n', hlater, happlied⟩ := Machine.exists_run_of_exec htest.2
  obtain ⟨hkeep, hstatus⟩ := Node.stored_block_immutable hn hlater 1
  refine ⟨n, n', hn, hlater, htest.1, happlied, fun b hb => ?_⟩
  obtain ⟨status, hb', -⟩ := hkeep b hb
  obtain ⟨b'', hb'', hfinal⟩ := hstatus.mp happlied
  rw [hb'] at hb''
  cases hb''
  cases hfinal
  exact hb'

end Sample

end Mmn
