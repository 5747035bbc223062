import Mmn.Sample
import Mmn.Steps

/-!
# No replay through live blocks

A transaction is replayed when two transactions with the same signed bytes –
the same dedup hash – are both applied. The check of a live block compares
each of its transactions with the dedup cache and with nothing else: two
copies inside one block, told apart by a timestamp or another field that is
not signed, both pass, and a listener never adds to the cache at all.

Replays do not happen on this way all the same, and for a reason that has
nothing to do with the cache. A transaction that verifies is larger than the
check of a block's entries allows (`not_verify_of_verifyEntries`), so every
live block with a transaction gets the flag for entries that do not follow,
and a flagged block is stored and voted for but never applied. What a run of
live blocks applies has no transactions (`Store.Idle`), and so no dedup hash
is applied twice (`no_replay`).
-/

namespace Mmn

section

variable [Primitives]

/-- Does the input bring blocks on the live topic or not at all, and leave
the dedup cache as it is? -/
def Input.liveOnly : Input → Bool
  | .emptyBlocks _ => false
  | .syncResponse _ _ => false
  | .broadcast _ _ => false
  | .expireDedup _ => false
  | _ => true

/-- **The successful calls of `applyTx` for a dedup hash**, over a history. -/
def successfulCalls (history : List Event) (dedupHash : String) : List ApplyCall :=
  (history.flatMap Event.applyCalls).filter
    (fun call => call.succeeds && decide (call.tx.dedupHash = dedupHash))

/-- **What a live block leaves in the store is idle.** -/
theorem Admits.idle_of_live {cfg : Config} {n : Node} {blk b : BroadcastedBlock}
    {c : Core} (h : Admits cfg n (.block blk) c b) :
    (broadcastedBlockToBlock b).Idle := by
  cases h with
  | live _ _ htxs => exact idle_of_verifyBlockTransactions htxs

/-! ## Runs -/

/-- All the blocks of the store are idle. -/
def Store.Idle (s : Store) : Prop := ∀ slot b, s.block slot = some b → b.Idle

/-- The invariant of a run of live blocks: the store is idle, and nothing
was applied. -/
structure IdleRun (c : Core) : Prop where
  store : c.store.Idle
  calls : c.history.flatMap Event.applyCalls = []

theorem IdleRun.move {cfg : Config} {n : Node} {i : Input} {c c' : Core}
    (h : IdleRun c) (hlive : i.liveOnly = true)
    (hmove : Core.Move cfg (Admits cfg n i) (Counts cfg n i) c c') : IdleRun c' := by
  have hcalls : ∀ e : Event, e.applyCalls = [] →
      (c.history ++ [e]).flatMap Event.applyCalls = [] := by
    intro e he
    rw [List.flatMap_append, h.calls, List.nil_append, List.flatMap_singleton, he]
  have hadmits : ∀ {b : BroadcastedBlock}, Admits cfg n i c b →
      (broadcastedBlockToBlock b).Idle := by
    intro b horigin
    cases i with
    | block blk => exact horigin.idle_of_live
    | emptyBlocks | syncResponse | broadcast => cases hlive
    | _ => cases horigin
  have hstore : c'.store.Idle := by
    intro slot b hb
    obtain ⟨status, hold⟩ | ⟨blk, status, horigin, -, -, rfl⟩ := hmove.block_cases hb
    · have hidle := h.store slot _ hold
      exact hidle
    · exact hadmits horigin
  refine ⟨hstore, ?_⟩
  cases hmove with
  | addBlock => exact hcalls _ rfl
  | sync horigin =>
    show ((c.history ++ [_]) ++ [_]).flatMap Event.applyCalls = []
    rw [List.flatMap_append, hcalls _ rfl, List.nil_append, List.flatMap_singleton]
    exact (hadmits horigin).applyCalls _
  | cast => exact hcalls _ rfl
  | count => exact h.calls
  | commit _ _ _ _ hb => exact hcalls _ ((h.store _ _ hb).applyCalls _)
  | cleanup => exact h.calls

/-- **No replay.** In every run in which blocks come on the live topic, at
most one transaction of each dedup hash is applied. -/
theorem no_replay (cfg : Config) (n : Node)
    (hrun : NodeRun cfg (fun _ i => i.liveOnly = true) n) (dedupHash : String) :
    (successfulCalls n.history dedupHash).length ≤ 1 := by
  have hinv := hrun.invariant (J := fun _ => True) (I := IdleRun) (fun _ => trivial)
    (fun _ _ _ _ _ _ => trivial) ?_
      (fun n i c c' _ hlive hc hmove => hc.move hlive hmove)
  · unfold successfulCalls
    rw [hinv.2.calls]
    exact Nat.zero_le _
  · intro alloc now s hinit
    refine ⟨fun slot b hb => ?_, rfl⟩
    have hblock := (isGenesis_of_initializeBlockchain hinit).block slot
    rw [show (Node.new cfg s.reopen).store.block slot = _ from hblock] at hb
    split at hb
    · cases hb
      exact Or.inr rfl
    · cases hb

end

section Sample

attribute [local instance] Sample.primitives

/-- A transfer and its copy with another timestamp. -/
def Sample.doubled : List Transaction :=
  [Sample.transfer 2 1 30 1 0, Sample.transfer 2 1 30 1 1]

/-- A run with a replay inside one block: a first block moves the node to
slot one, and the second carries a transfer and its copy. Both are stored. -/
theorem no_replay_inside_block :
    ∃ n, NodeRun Sample.alone (fun _ i => i.liveOnly = true) n ∧
      (∃ b, n.store.block 2 = some b ∧
        b.txHashes = Sample.doubled.map (fun tx => Transaction.hash (some tx))) ∧
      ∀ dedupHash, (successfulCalls n.history dedupHash).length ≤ 1 := by
  obtain ⟨n, hrun, htest⟩ := exists_nodeRun Sample.alone
    (fun _ i => i.liveOnly = true)
    (fun n => (n.store.block 2).any (fun b =>
      b.txHashes = Sample.doubled.map (fun tx => Transaction.hash (some tx))))
    [⟨Sample.keyID 2, 100⟩] 0
    [.block (Sample.blockWith 1 1 0 []),
      .block (Sample.blockWith 1 2 0 Sample.doubled)]
    (by decide +kernel)
  refine ⟨n, hrun, ?_, fun dedupHash => no_replay _ n hrun dedupHash⟩
  cases hb : n.store.block 2 with
  | none =>
    rw [hb] at htest
    cases htest
  | some b =>
    rw [hb] at htest
    exact ⟨b, rfl, of_decide_eq_true htest⟩

end Sample

end Mmn
