import Mmn.Finalization
import Mmn.Ordering
import Mmn.TxService
import Mmn.Turnover

/-!
# Looking for a transaction while it moves

A transaction moves through a node in one direction: from the mempool to the
tracker of transactions in flight, and from there to the database. A query
looks in the three places in the same order, and may look in each at another
time. Looking along with the stream should never miss what is in it.

It does not, except at one point (`Relay.missed_in_hand`). `PullBatch` takes
a batch out of the mempool under the mempool's lock, gives the lock back,
notes the dedup hashes, and only then tracks the transactions one by one.
Until its turn comes, a transaction is in the batch loop's hands and nowhere
else. A query that reads both the mempool and the tracker during that time
answers that there is no such transaction, although an earlier one was told
it is pending. This is the only way: a transaction leaves the mempool only
into the hands of the batch loop, leaves these only into the tracker, or
because the database has it already, and leaves the tracker only when a
stored block that holds it is applied.

`Relay` is the node with the batch loop taken apart at these points,
everything else that the node does going on in between. Run without
interruption its parts are `Node.leaderBatch` (`Relay.exec_leaderBatch`).
-/

namespace Mmn

section

variable [Primitives]

/-! ## The tracker -/

namespace TransactionTracker

variable {t t' : TransactionTracker} {h : String}

/-- **Tracking a transaction** leaves it tracked, unless its hash was in the
removed cache. -/
theorem trackProcessingTransaction_spec {tx : Transaction}
    (htrack : t.trackProcessingTransaction tx = some t') :
    (∀ h ∈ t.processingTxs, h ∈ t'.processingTxs) ∧
      t'.removedTxCache ⊆ t.removedTxCache ∧
      (Transaction.hash (some tx) ∈ t.removedTxCache ∨
        Transaction.hash (some tx) ∈ t'.processingTxs) := by
  unfold trackProcessingTransaction at htrack
  dsimp only at htrack
  split at htrack
  · next hremoved =>
    cases htrack
    exact ⟨fun _ hh => hh, Finset.erase_subset _ _, Or.inl hremoved⟩
  split at htrack
  · split at htrack
    · next tx' hlook =>
      cases htrack
      exact ⟨fun _ hh => hh, Finset.Subset.refl _,
        Or.inr (AList.lookup_isSome.mp (by rw [hlook]; rfl))⟩
    · cases htrack
      refine ⟨fun _ hh => (AList.mem_insert _).mpr (Or.inr hh), Finset.Subset.refl _,
        Or.inr ?_⟩
      exact (AList.mem_insert _).mpr (Or.inl rfl)
  · cases htrack

/-- The removed cache after transactions were taken off. -/
theorem mem_removedTxCache_of_removeTransactions {txs : List Transaction}
    (hremove : Ledger.removeTransactions t txs = some t')
    (hh : h ∈ t'.removedTxCache) :
    h ∈ t.removedTxCache ∨ h ∈ txs.map (fun tx => Transaction.hash (some tx)) := by
  induction txs generalizing t with
  | nil =>
    cases hremove
    exact Or.inl hh
  | cons tx txs ih =>
    unfold Ledger.removeTransactions at hremove
    split at hremove
    · cases hremove
    next t₁ hone =>
    rw [List.map_cons, List.mem_cons]
    obtain hcache | htxs := ih hremove
    · unfold removeTransaction at hone
      split at hone
      · cases hone
        exact (Finset.mem_insert.mp hcache).elim
          (fun heq => Or.inr (Or.inl heq)) Or.inl
      · split at hone
        · cases hone
          exact Or.inl hcache
        · cases hone
    · exact Or.inr (Or.inr htxs)

end TransactionTracker

/-- **Taking the transactions of a stored block off the tracker** leaves
those that are not in the database, and puts into the removed cache only
what is. -/
theorem Store.Receipts.removeTransactions {s : Store} (hs : s.Receipts)
    {slot : UInt64} {b : Block} (hb : s.block slot = some b)
    {t t' : TransactionTracker}
    (hremove : Ledger.removeTransactions t (s.txsInBlock b) = some t') {h : String}
    (hzero : h ≠ Transaction.hash (some Transaction.zero)) :
    (h ∈ t.processingTxs → h ∈ t'.processingTxs ∨ s.Records h) ∧
      (h ∈ t'.removedTxCache → h ∈ t.removedTxCache ∨ s.Records h) := by
  have hrecords : h ∈ (s.txsInBlock b).map (fun tx => Transaction.hash (some tx)) →
      s.Records h := by
    intro hmem
    obtain ⟨tx, htx, rfl⟩ := List.mem_map.mp hmem
    obtain hmem | ⟨-, rfl⟩ := hs.mem_txHashes htx
    · exact hs.kept slot b hb _ hmem
    · exact absurd rfl hzero
  refine ⟨fun htracked => ?_, fun hcache => ?_⟩
  · have hlook := lookup_removeTransactions hremove h
    split at hlook
    · next hmem => exact Or.inr (hrecords hmem)
    · rw [← AList.lookup_isSome, ← hlook, AList.lookup_isSome] at htracked
      exact Or.inl htracked
  · exact (TransactionTracker.mem_removedTxCache_of_removeTransactions hremove
      hcache).imp_right hrecords

/-- The ledger leaves the tracker alone, or takes the transactions of the
block off it. -/
theorem Ledger.tracker_of_finalizeBlock {s s' : Store} {t t' : TransactionTracker}
    {b : Block} {isListener : Bool} {r : Except String Unit}
    (h : Ledger.finalizeBlock s t b isListener = some (s', t', r)) :
    t' = t ∨ Ledger.removeTransactions t (s.txsInBlock b) = some t' := by
  unfold Ledger.finalizeBlock at h
  split at h
  · cases h
    exact Or.inl rfl
  dsimp only at h
  split at h
  · cases h
  next t₁ hremove =>
  have ht : t' = t₁ := by
    split at h
    · cases h
      rfl
    · cases h
      rfl
  rw [ht]
  split at hremove
  · exact Or.inl (Option.some.inj hremove).symm
  · exact Or.inr hremove

namespace Node

variable {cfg : Config} {n n' : Node}

theorem tracker_of_finalizeBlock {b : Block} {note : Event} {r : Except String Unit}
    (h : n.finalizeBlock cfg b note = some (n', r)) :
    n'.tracker = n.tracker ∨
      Ledger.removeTransactions n.tracker (n.store.txsInBlock b)
        = some n'.tracker := by
  unfold finalizeBlock at h
  split at h
  · cases h
  · next hfin =>
    cases h
    exact Ledger.tracker_of_finalizeBlock hfin
  · next s t hfin =>
    cases h
    have htracker := Ledger.tracker_of_finalizeBlock hfin
    split
    · exact htracker
    · exact htracker

/-- **Counting a vote** leaves the tracker alone, or takes the transactions
of the block of the slot off it. -/
theorem tracker_of_processVote {v : Vote} {r : Except String Unit}
    (h : n.processVote cfg v = some (n', r)) :
    n'.tracker = n.tracker ∨ ∃ b, n.store.block v.slot = some b ∧
      Ledger.removeTransactions n.tracker (n.store.txsInBlock b)
        = some n'.tracker := by
  unfold processVote at h
  split at h
  · cases h
    exact Or.inl rfl
  dsimp only at h
  split at h
  · cases h
    exact Or.inl rfl
  split at h
  · unfold applyDataToBlock at h
    split at h
    · cases h
      exact Or.inl rfl
    split at h
    · cases h
      exact Or.inl rfl
    next b hb =>
    have hfin : ∃ m note r', Node.finalizeBlock cfg m b note = some (n', r') ∧
        m.tracker = n.tracker ∧ m.store = n.store := by
      dsimp only at h
      split at h
      · cases h
      · next hfin =>
        cases h
        exact ⟨_, _, _, hfin, rfl, rfl⟩
      · next hfin =>
        cases h
        exact ⟨_, _, _, hfin, rfl, rfl⟩
    obtain ⟨m, note, r', hfin, htracker, hstore⟩ := hfin
    rw [← htracker, ← hstore]
    exact (tracker_of_finalizeBlock hfin).imp_right fun hremove =>
      ⟨b, hstore ▸ hb, hremove⟩
  · cases h
    exact Or.inl rfl

/-! ## One step of the node -/

/-- **The stream goes on**: nothing leaves the mempool or the tracker that
the database does not have, and the removed cache gets only what it has. -/
structure Onward (n n' : Node) : Prop where
  store : Store.Updates n.store n'.store
  mempool : ∀ h ∈ n.mempool.txs, h ∈ n'.mempool.txs ∨ n'.store.Records h
  keyed : ∀ h tx, n'.mempool.txs.lookup h = some tx →
    n.mempool.txs.lookup h = some tx ∨ Transaction.hash (some tx) = h
  tracked : ∀ h, h ≠ Transaction.hash (some Transaction.zero) →
    h ∈ n.tracker.processingTxs → h ∈ n'.tracker.processingTxs ∨ n'.store.Records h
  removed : ∀ h, h ≠ Transaction.hash (some Transaction.zero) →
    h ∈ n'.tracker.removedTxCache → h ∈ n.tracker.removedTxCache ∨ n'.store.Records h

namespace Onward

/-- Neither the mempool nor the tracker is touched. -/
theorem of_eq (hstore : Store.Updates n.store n'.store)
    (hmempool : n'.mempool.txs = n.mempool.txs) (htracker : n'.tracker = n.tracker) :
    Onward n n' where
  store := hstore
  mempool _ hh := Or.inl (hmempool ▸ hh)
  keyed _ _ hlook := Or.inl (hmempool ▸ hlook)
  tracked _ _ hh := Or.inl (htracker ▸ hh)
  removed _ _ hh := Or.inl (htracker ▸ hh)

theorem trans {n₁ n₂ n₃ : Node} (h : Onward n₁ n₂) (h' : Onward n₂ n₃) :
    Onward n₁ n₃ where
  store := h.store.trans h'.store
  mempool k hk := (h.mempool k hk).elim (h'.mempool k) fun hr =>
    Or.inr (hr.updates h'.store)
  keyed k tx hlook := (h'.keyed k tx hlook).elim (h.keyed k tx) Or.inr
  tracked k hzero hk :=
    (h.tracked k hzero hk).elim (h'.tracked k hzero) fun hr =>
      Or.inr (hr.updates h'.store)
  removed k hzero hk := (h'.removed k hzero hk).elim
    (fun hk => (h.removed k hzero hk).imp_right fun hr => hr.updates h'.store) Or.inr

theorem of_processVote (hs : n.store.Receipts) {v : Vote} {r : Except String Unit}
    (h : n.processVote cfg v = some (n', r)) : Onward n n' := by
  have hstore : Store.Updates n.store n'.store :=
    .moves (moves_of_processVote (A := fun _ _ => False) (V := fun _ _ => True)
      h trivial)
  have hmempool : n'.mempool.txs = n.mempool.txs := by
    obtain rfl | ⟨_, t, slot, -, rfl | rfl | ⟨b, -, -, -, -, rfl⟩⟩ :=
      processVote_cases h
    · rfl
    · rfl
    · exact Mempool.txs_setCurrentSlot _ _
    · exact Mempool.txs_setCurrentSlot _ _
  obtain htracker | ⟨b, hb, hremove⟩ := tracker_of_processVote h
  · exact .of_eq hstore hmempool htracker
  · refine ⟨hstore, fun _ hk => Or.inl (hmempool ▸ hk), fun _ _ hlook =>
      Or.inl (hmempool ▸ hlook), fun k hzero hk => ?_, fun k hzero hk => ?_⟩
    · exact ((hs.removeTransactions hb hremove hzero).1 hk).imp_right fun hr =>
        hr.updates hstore
    · exact ((hs.removeTransactions hb hremove hzero).2 hk).imp_right fun hr =>
        hr.updates hstore

theorem of_part (hs : n.store.Receipts) (h : Part cfg n n') : Onward n n' := by
  cases h with
  | same hstore htracker hmempool =>
    exact .of_eq (by rw [hstore]) (by rw [hmempool]) htracker
  | add blk hfree hstore htracker hmempool =>
    exact .of_eq (hstore ▸ .single (.add hfree)) (by rw [hmempool]) htracker
  | vote v r h => exact .of_processVote hs h
  | put tx hstore htracker hmempool =>
    refine ⟨by rw [hstore], fun k hk => Or.inl ?_, fun k tx' hlook => ?_,
      fun k _ hk =>
      Or.inl (htracker ▸ hk), fun k _ hk => Or.inl (htracker ▸ hk)⟩
    · rw [hmempool, Mempool.txs_put]
      exact (AList.mem_insert _).mpr (Or.inr hk)
    · rw [hmempool] at hlook
      obtain ⟨rfl, rfl⟩ | ⟨-, hold⟩ := Mempool.lookup_put hlook
      · exact Or.inr rfl
      · exact Or.inl hold

theorem of_parts (hs : n.store.Receipts) (h : Parts cfg n n') : Onward n n' := by
  induction h with
  | refl => exact .of_eq .refl rfl rfl
  | tail _ hlast ih => exact ih.trans (.of_part (hs.updates ih.store) hlast)

/-- The sync stream takes nothing off the tracker: a block that passes its
checks has no transactions, or is not applied. -/
theorem of_syncResponse {msg : Option BroadcastedBlock} {clock : ℕ → UInt64}
    (h : n.onSyncResponseReceived cfg msg clock = some n') : Onward n n' := by
  have hstore : Store.Updates n.store n'.store := by
    have hstep : n.step cfg (.syncResponse msg clock) = some n' := h
    exact .moves (moves_of_step hstep)
  have hqueue : ∀ {blk m latest}, n.addBlockToOrderingQueue cfg blk clock = some
    (m, latest) →
      m.tracker = n.tracker ∧ m.mempool.txs = n.mempool.txs := by
    intro blk m latest hadd
    by_cases hfree : blk.slot ∈ n.store.blocks
    · unfold addBlockToOrderingQueue at hadd
      rw [if_pos (Store.hasCompleteBlock_iff.mpr hfree)] at hadd
      cases hadd
      exact ⟨rfl, rfl⟩
    · rw [addBlockToOrderingQueue_eq hfree] at hadd
      obtain ⟨c, -, hpair⟩ := Option.map_eq_some_iff.mp hadd
      cases hpair
      exact ⟨rfl, rfl⟩
  unfold onSyncResponseReceived at h
  split at h
  · cases h
    exact .of_eq .refl rfl rfl
  split at h
  · cases h
  · next hadd =>
    cases h
    exact .of_eq hstore (hqueue hadd).2 (hqueue hadd).1
  · next hadd =>
    split at h
    · obtain rfl | ⟨dedup, mempool, htxs, rfl⟩ := enableFullMode_cases h
      · exact .of_eq hstore (hqueue hadd).2 (hqueue hadd).1
      · exact .of_eq hstore (htxs.trans (hqueue hadd).2) (hqueue hadd).1
    · cases h
      exact .of_eq hstore (hqueue hadd).2 (hqueue hadd).1

/-- **Every step but a round of the batch loop.** -/
theorem of_step (hs : n.store.Receipts) {i : Input} (hi : i ≠ .leaderBatch)
    (h : n.step cfg i = some n') : Onward n n' := by
  by_cases hsync : ∃ msg clock, i = .syncResponse msg clock
  · obtain ⟨msg, clock, rfl⟩ := hsync
    exact .of_syncResponse h
  · exact .of_parts hs
      (parts_of_step hi (fun msg clock heq => hsync ⟨msg, clock, heq⟩) h)

end Onward

end Node

/-! ## The batch loop in parts -/

namespace Mempool

/-- The part of `PullBatch` that holds the lock. -/
def pullLocked (mp : Mempool) (batchSize : ℕ) : Option (Mempool × List Transaction) :=
  ({ mp with txOrder := mp.txOrder.drop batchSize } : Mempool).dropAll
    (mp.txOrder.take batchSize)

theorem pullBatch_eq (mp : Mempool) (ds : DedupService) (t : TransactionTracker)
    (batchSize : ℕ) :
    mp.pullBatch ds t batchSize = (mp.pullLocked batchSize).bind (fun r =>
      (trackAll t r.2).map (fun t =>
        (r.1, ds.add (r.2.map Transaction.dedupHash), t, r.2))) := by
  unfold pullBatch pullLocked
  dsimp only
  cases Mempool.dropAll _ _ with
  | none => rfl
  | some r =>
    dsimp only [Option.bind_some]
    cases trackAll t r.2 with
    | none => rfl
    | some t => rfl

/-- **What is taken out of the mempool is in the batch.** -/
theorem pullLocked_spec {mp mp' : Mempool} {batchSize : ℕ} {batch : List Transaction}
    (h : mp.pullLocked batchSize = some (mp', batch)) {k : String} {tx : Transaction}
    (hlook : mp.txs.lookup k = some tx) :
    mp'.txs.lookup k = some tx ∨ tx ∈ batch := by
  have hrule : ∀ {hs : List String} {mp mp' : Mempool} {txs : List Transaction},
      mp.dropAll hs = some (mp', txs) → mp.txs.lookup k = some tx →
      mp'.txs.lookup k = some tx ∨ tx ∈ txs := by
    intro hs mp mp' txs hdrop
    refine dropAll_rule (P := fun mp _ mp' txs => mp.txs.lookup k = some tx →
      mp'.txs.lookup k = some tx ∨ tx ∈ txs) (fun mp hk => Or.inl hk) ?_ ?_ hdrop
    · intro mp h hs mp' txs _ _ ih hk
      exact ih hk
    · intro mp h tx' totals hs mp' txs hh _ _ ih hk
      by_cases heq : k = h
      · subst heq
        rw [hk] at hh
        cases hh
        exact Or.inr List.mem_cons_self
      · refine (ih ?_).imp_right (List.mem_cons_of_mem tx')
        show (mp.txs.erase h).lookup k = some tx
        rw [AList.lookup_erase_ne heq, hk]
  exact hrule h hlook

end Mempool

/-- What the batch loop does with a batch once it has it: put it to the
pending transactions, and record as many as fit into one entry. -/
def Node.recordBatch (cfg : Config) (n : Node) (batch : List Transaction) : Node :=
  let n := { n with pendingTxs := n.pendingTxs ++ batch }
  match n.peekPendingTxs cfg.batchSize with
  | none => n
  | some recordTxs =>
    match n.recorder.recordTxs recordTxs with
    | (recorder, .error _) => { n with recorder := recorder }
    | (recorder, .ok _) =>
      { n with recorder := recorder, pendingTxs :=
        n.pendingTxs.drop recordTxs.length }

/-- The batch goes to the pending transactions and the recorder, and touches
nothing else. -/
theorem Node.recordBatch_frame (cfg : Config) (n : Node) (batch : List Transaction) :
    (n.recordBatch cfg batch).toCore = n.toCore ∧
      (n.recordBatch cfg batch).mempool = n.mempool ∧
      (n.recordBatch cfg batch).tracker = n.tracker := by
  unfold recordBatch
  dsimp only
  split
  · exact ⟨rfl, rfl, rfl⟩
  · split <;> exact ⟨rfl, rfl, rfl⟩

/-- **A round of the batch loop** in the node's turn: pull a batch and
record it. -/
theorem Node.leaderBatch_eq {cfg : Config} {n : Node}
    (hready : n.readyToStart cfg n.recorder.currentSlot = true) :
    n.leaderBatch cfg = (n.mempool.pullBatch n.dedup n.tracker cfg.batchSize).map
      (fun q =>
      Node.recordBatch cfg
        { n with mempool := q.1, dedup := q.2.1, tracker := q.2.2.1 } q.2.2.2) := by
  have hleader : isLeader cfg n.recorder.currentSlot = true :=
    (Bool.and_eq_true_iff.mp hready).1
  unfold leaderBatch
  simp only [hleader, hready, Bool.not_true, if_neg Bool.false_ne_true]
  cases n.mempool.pullBatch n.dedup n.tracker cfg.batchSize with
  | none => rfl
  | some q =>
    unfold recordBatch
    dsimp only [Option.map_some]
    split
    · next hnone => rw [hnone]
    · next recordTxs hsome =>
      rw [hsome]
      dsimp only
      obtain ⟨recorder, res⟩ := n.recorder.recordTxs recordTxs
      cases res with
      | error => rfl
      | ok => rfl

/-- Where the batch loop is in a round. -/
inductive PullPc where
  | idle
  /-- The lock is given back; the dedup hashes are to be noted. -/
  | remember (batch : List Transaction)
  /-- The transactions are to be tracked, those that are left. -/
  | track (left batch : List Transaction)
deriving DecidableEq

/-- The transactions the loop has taken out of the mempool and not given to
the tracker. -/
def PullPc.left : PullPc → List Transaction
  | .idle => []
  | .remember batch => batch
  | .track left _ => left

/-- **A node whose batch loop can be interrupted.** -/
structure Relay where
  node : Node
  pull : PullPc

/-- What can happen. -/
inductive RelayInput where
  | input (i : Input)
  /-- A round begins: the batch is taken out under the lock. -/
  | pull
  | remember
  /-- The next transaction of the batch is tracked. -/
  | track
  /-- The batch is recorded, and the round ends. -/
  | record
  /-- Hashes of the removed cache expire. -/
  | forget (hashes : Finset String)

namespace Relay

/-- **One step.** -/
def step (cfg : Config) (r : Relay) : RelayInput → Option Relay
  -- a round of the batch loop is not one step here
  | .input .leaderBatch => none
  | .input i => (r.node.step cfg i).map (fun n => { r with node := n })
  | .pull =>
    match r.pull with
    | .idle =>
      if r.node.readyToStart cfg r.node.recorder.currentSlot then
        (r.node.mempool.pullLocked cfg.batchSize).map (fun q =>
          { node := { r.node with mempool := q.1 }, pull := .remember q.2 })
      else some r
    | _ => none
  | .remember =>
    match r.pull with
    | .remember batch =>
      some
        { node :=
          { r.node with dedup := r.node.dedup.add (batch.map Transaction.dedupHash) }
          pull := .track batch batch }
    | _ => none
  | .track =>
    match r.pull with
    | .track (tx :: left) batch =>
      (r.node.tracker.trackProcessingTransaction tx).map (fun t =>
        { node := { r.node with tracker := t }, pull := .track left batch })
    | _ => none
  | .record =>
    match r.pull with
    | .track [] batch => some { node := r.node.recordBatch cfg batch, pull := .idle }
    | _ => none
  | .forget hashes =>
    some { r with node := { r.node with tracker := { r.node.tracker with
      removedTxCache := r.node.tracker.removedTxCache \ hashes } } }

/-- Every input but a round of the batch loop is a step of the node. -/
theorem step_input {cfg : Config} {i : Input} (hi : i ≠ .leaderBatch) (r : Relay) :
    r.step cfg (.input i) = (r.node.step cfg i).map
      (fun n => { r with node := n }) := by
  cases i with
  | leaderBatch => exact absurd rfl hi
  | _ => rfl

/-- The second is reached from the first. -/
def Later (cfg : Config) :
    Relay → Relay → Prop := Machine.Run (step cfg) Machine.Always

/-- Reached from a database of genesis. -/
def Reached (cfg : Config) (r : Relay) : Prop :=
  ∃ alloc now s, initializeBlockchain alloc now = .ok s ∧
    Later cfg ⟨Node.new cfg s.reopen, .idle⟩ r

theorem exec_track {cfg : Config} (n : Node) (left batch : List Transaction)
    (rest : List RelayInput) :
    Machine.exec (step cfg) Machine.Always ⟨n, .track left batch⟩
        (List.replicate left.length .track ++ rest)
      = (Mempool.trackAll n.tracker left).bind (fun t =>
          Machine.exec (step cfg) Machine.Always
            ⟨{ n with tracker := t }, .track [] batch⟩ rest) := by
  induction left generalizing n with
  | nil => rfl
  | cons tx left ih =>
    rw [List.length_cons, List.replicate_succ, List.cons_append,
      Machine.exec_always_cons]
    unfold Mempool.trackAll
    dsimp only [step]
    cases n.tracker.trackProcessingTransaction tx with
    | none => rfl
    | some t => exact ih { n with tracker := t }

/-- **Without interruption the parts are a round of the batch loop.** -/
theorem exec_leaderBatch {cfg : Config} {n : Node}
    (hready : n.readyToStart cfg n.recorder.currentSlot = true) {mempool : Mempool}
    {batch : List Transaction}
    (hpull : n.mempool.pullLocked cfg.batchSize = some (mempool, batch)) :
    Machine.exec (step cfg) Machine.Always ⟨n, .idle⟩
        (.pull :: .remember :: (List.replicate batch.length .track ++ [.record]))
      = (n.leaderBatch cfg).map (fun n' => ⟨n', .idle⟩) := by
  rw [Machine.exec_always_cons]
  dsimp only [step]
  rw [if_pos hready, hpull, Option.map_some, Option.bind_some,
    Machine.exec_always_cons]
  dsimp only [step, Option.bind_some]
  rw [exec_track, Node.leaderBatch_eq hready, Mempool.pullBatch_eq, hpull,
    Option.bind_some]
  cases Mempool.trackAll n.tracker batch with
  | none => rfl
  | some t =>
    rw [Option.bind_some, Machine.exec_always_cons]
    rfl

/-! ## Where a transaction is -/

/-- The batch loop has the transaction in its hands. -/
def InHand (r : Relay) (h : String) : Prop :=
  ∃ tx ∈ r.pull.left, Transaction.hash (some tx) = h

/-- The transaction is in the tracker or in the database. -/
def InFlight (r : Relay) (h : String) : Prop :=
  h ∈ r.node.tracker.processingTxs ∨ r.node.store.Records h

/-- **The books of a node**: its receipts are true, a transaction that waits
is under its own hash, and what is in the removed cache is in the database. -/
structure Books (r : Relay) : Prop where
  receipts : r.node.store.Receipts
  /-- What waits is under its own hash. -/
  keyed : ∀ h tx, r.node.mempool.txs.lookup h = some tx →
    Transaction.hash (some tx) = h
  removed : ∀ h, h ≠ Transaction.hash (some Transaction.zero) →
    h ∈ r.node.tracker.removedTxCache → r.node.store.Records h

/-- **The stream**: from the mempool to the hands of the batch loop, from
there to the tracker and the database. -/
structure Flows (r r' : Relay) (h : String) : Prop where
  recorded : r.node.store.Records h → r'.node.store.Records h
  flight : r.InFlight h → r'.InFlight h
  hand : r.InHand h → r'.InHand h ∨ r'.InFlight h
  /-- What waits stays, is in hand, or is in flight. -/
  waits : h ∈ r.node.mempool.txs → h ∈ r'.node.mempool.txs ∨ r'.InHand h ∨
    r'.InFlight h

variable {cfg : Config} {r r' : Relay}

namespace Flows

theorem refl (r : Relay) (h : String) : Flows r r h := ⟨id, id, Or.inl, Or.inl⟩

theorem trans {r₁ r₂ r₃ : Relay} {h : String} (h₁ : Flows r₁ r₂ h)
    (h₂ : Flows r₂ r₃ h) :
    Flows r₁ r₃ h where
  recorded := h₂.recorded ∘ h₁.recorded
  flight := h₂.flight ∘ h₁.flight
  hand hh := (h₁.hand hh).elim h₂.hand fun hf => Or.inr (h₂.flight hf)
  waits hh := by
    obtain hw | hh | hf := h₁.waits hh
    · exact h₂.waits hw
    · exact Or.inr (h₂.hand hh)
    · exact Or.inr (Or.inr (h₂.flight hf))

end Flows

/-- **One step keeps the books and the stream.** -/
theorem Books.step (hr : r.Books) {i : RelayInput} (hstep : r.step cfg i = some r') :
    r'.Books ∧ ∀ h, h ≠ Transaction.hash (some Transaction.zero) → Flows r r' h := by
  have honward : ∀ {n' : Node}, Node.Onward r.node n' → r' = { r with node := n' } →
      r'.Books ∧ ∀ h, h ≠ Transaction.hash (some Transaction.zero) →
      Flows r r' h := by
    rintro n' h rfl
    refine ⟨⟨hr.receipts.updates h.store, ?_, ?_⟩, fun k hzero =>
      ⟨?_, ?_, Or.inl, ?_⟩⟩
    · exact fun k tx hlook => (h.keyed k tx hlook).elim (hr.keyed k tx) id
    · exact fun k hzero hk => (h.removed k hzero hk).elim
        (fun hk => (hr.removed k hzero hk).updates h.store) id
    · exact fun hk => hk.updates h.store
    · exact fun hk => hk.elim (h.tracked k hzero) fun hk =>
        Or.inr (hk.updates h.store)
    · exact fun hk => (h.mempool k hk).imp_right fun hk => Or.inr (Or.inr hk)
  cases i with
  | input i =>
    by_cases hi : i = .leaderBatch
    · subst hi
      cases hstep
    · rw [step_input hi] at hstep
      obtain ⟨n', hn', hr'⟩ := Option.map_eq_some_iff.mp hstep
      exact honward (.of_step hr.receipts hi hn') hr'.symm
  | pull =>
    simp only [Relay.step] at hstep
    split at hstep
    · next hidle =>
      split at hstep
      · obtain ⟨⟨mempool, batch⟩, hpull, rfl⟩ := Option.map_eq_some_iff.mp hstep
        have hkeep := Mempool.dropAll_spec hpull
        refine ⟨⟨hr.receipts, fun k tx hlook => hr.keyed k tx (hkeep.1 k tx hlook),
          hr.removed⟩, fun k _ => ⟨id, id, ?_, ?_⟩⟩
        · rintro ⟨tx, htx, -⟩
          rw [hidle] at htx
          cases htx
        · intro hk
          obtain ⟨tx, hlook⟩ := Option.isSome_iff_exists.mp
            (AList.lookup_isSome.mpr hk)
          obtain hstays | hbatch := Mempool.pullLocked_spec hpull hlook
          · exact Or.inl (AList.lookup_isSome.mp (by rw [hstays]; rfl))
          · exact Or.inr (Or.inl ⟨tx, hbatch, hr.keyed k tx hlook⟩)
      · cases hstep
        exact ⟨hr, fun k _ => .refl r k⟩
    · cases hstep
  | remember =>
    simp only [Relay.step] at hstep
    split at hstep
    · next batch hpc =>
      cases hstep
      refine ⟨⟨hr.receipts, hr.keyed, hr.removed⟩, fun k _ => ⟨id, id, ?_, Or.inl⟩⟩
      rintro ⟨tx, htx, hk⟩
      rw [hpc] at htx
      exact Or.inl ⟨tx, htx, hk⟩
    · cases hstep
  | track =>
    simp only [Relay.step] at hstep
    split at hstep
    · next tx left batch hpc =>
      obtain ⟨t, htrack, rfl⟩ := Option.map_eq_some_iff.mp hstep
      obtain ⟨hkeep, hcache, hnew⟩ :=
        TransactionTracker.trackProcessingTransaction_spec htrack
      refine ⟨⟨hr.receipts, hr.keyed, fun k hzero hk =>
        hr.removed k hzero (hcache hk)⟩,
        fun k hzero => ⟨id, fun hk => hk.imp_left (hkeep k), ?_, Or.inl⟩⟩
      rintro ⟨tx', htx', rfl⟩
      rw [hpc] at htx'
      obtain rfl | hleft := List.mem_cons.mp htx'
      · -- its turn has come: it is tracked, or it was removed before and is
        -- in the database
        exact Or.inr (hnew.symm.imp_right (hr.removed _ hzero))
      · exact Or.inl ⟨tx', hleft, rfl⟩
    · cases hstep
  | record =>
    simp only [Relay.step] at hstep
    split at hstep
    · next batch hpc =>
      cases hstep
      obtain ⟨hcore, hmempool, htracker⟩ := Node.recordBatch_frame cfg r.node batch
      have hstore : (r.node.recordBatch cfg batch).store = r.node.store := by
        rw [hcore]
      refine ⟨⟨?_, ?_, ?_⟩, fun k _ => ⟨?_, ?_, ?_, ?_⟩⟩
      · rw [hstore]
        exact hr.receipts
      · rw [hmempool]
        exact hr.keyed
      · rw [hstore, htracker]
        exact hr.removed
      · rw [hstore]
        exact id
      · unfold InFlight
        rw [hstore, htracker]
        exact id
      · rintro ⟨tx, htx, -⟩
        rw [hpc] at htx
        cases htx
      · rw [hmempool]
        exact Or.inl
    · cases hstep
  | forget hashes =>
    cases hstep
    exact ⟨⟨hr.receipts, hr.keyed, fun k hzero hk =>
      hr.removed k hzero (Finset.sdiff_subset hk)⟩,
      fun k _ => ⟨id, id, Or.inl, Or.inl⟩⟩

theorem Books.later (hr : r.Books) (hlater : Later cfg r r') :
    r'.Books ∧ ∀ h, h ≠ Transaction.hash (some Transaction.zero) → Flows r r' h := by
  induction hlater with
  | refl => exact ⟨hr, fun h _ => .refl r h⟩
  | tail _ hlast ih =>
    obtain ⟨i, -, hstep⟩ := hlast
    obtain ⟨hbooks, hflows⟩ := ih.1.step hstep
    exact ⟨hbooks, fun h hzero => (ih.2 h hzero).trans (hflows h hzero)⟩

theorem Reached.books (h : Reached cfg r) : r.Books := by
  obtain ⟨alloc, now, s, hinit, hlater⟩ := h
  refine (Books.later ?_ hlater).1
  exact ⟨receipts_of_initializeBlockchain hinit, fun _ _ hlook => (by cases hlook),
    fun _ _ hh => (by cases hh)⟩

/-- **A transaction is missed only in the hands of the batch loop.** A node
was asked for a hash, which is not that of the zero transaction, and had an
answer. If a later query, which reads the mempool, the tracker and the
database at three times, one after the other, answers that there is no such
transaction, then a round of the batch loop had taken it out of the mempool
and not yet given it to the tracker, when the query read the mempool and
still when it read the tracker.

The zero transaction is apart because a null transaction of a block is read
back as the zero one: when such a block is applied, the tracker drops the
hash of the zero transaction, whether or not the database has it. -/
theorem missed_in_hand {r₀ r₁ r₂ r₃ : Relay} (h₀ : Reached cfg r₀)
    (h₁ : Later cfg r₀ r₁) (h₂ : Later cfg r₁ r₂) (h₃ : Later cfg r₂ r₃)
    {decimals : UInt8} {txHash : String}
    (hzero : txHash ≠ Transaction.hash (some Transaction.zero))
    (hknown : (r₀.node.getTxByHash decimals txHash).isOk = true)
    (hmiss : (TxService.getTxByHash r₁.node.mempool r₂.node.tracker
      r₃.node.store decimals txHash).isOk = false) :
    r₁.InHand txHash ∧ r₂.InHand txHash := by
  obtain ⟨hbooks₁, hflows₁⟩ := h₀.books.later h₁
  obtain ⟨hbooks₂, hflows₂⟩ := hbooks₁.later h₂
  obtain ⟨-, hflows₃⟩ := hbooks₂.later h₃
  rw [Bool.eq_false_iff, Ne, TxService.getTxByHash_isOk_iff, not_or, not_or] at hmiss
  obtain ⟨hmempool, htracker, hstore⟩ := hmiss
  -- what is in flight when the tracker is read is found there or in the
  -- database
  have hflight : ¬r₂.InFlight txHash := by
    rintro (htracked | hrecords)
    · exact htracker htracked
    · exact hstore ((hflows₃ txHash hzero).recorded hrecords)
  have hhand₁ : r₁.InHand txHash := by
    have hplace : txHash ∈ r₁.node.mempool.txs ∨ r₁.InHand txHash ∨
        r₁.InFlight txHash := by
      obtain hwaits | hfound := TxService.getTxByHash_isOk_iff.mp hknown
      · exact (hflows₁ txHash hzero).waits hwaits
      · exact Or.inr (Or.inr ((hflows₁ txHash hzero).flight hfound))
    obtain hwaits | hhand | hfl := hplace
    · exact absurd hwaits hmempool
    · exact hhand
    · exact absurd ((hflows₂ txHash hzero).flight hfl) hflight
  exact ⟨hhand₁, ((hflows₂ txHash hzero).hand hhand₁).resolve_right hflight⟩

/-- Runs by evaluation: from a genesis database, what is reached by a list
of inputs passes a test. -/
theorem exists_reached (cfg : Config) (p : Relay → Bool) (alloc : List Ledger.Address)
    (now : UInt64) (inputs : List RelayInput)
    (h : (initializeBlockchain alloc now).toOption.any (fun s =>
      (Machine.exec (step cfg) Machine.Always ⟨Node.new cfg s.reopen, .idle⟩
        inputs).any p) = true) :
    ∃ r, Reached cfg r ∧ p r = true := by
  cases hinit : initializeBlockchain alloc now with
  | error err =>
    rw [hinit] at h
    cases h
  | ok s =>
    rw [hinit] at h
    obtain ⟨r, hlater, hr⟩ := Machine.exists_run_of_exec h
    exact ⟨r, ⟨alloc, now, s, hinit, hlater⟩, hr⟩

end Relay

end

/-! ## Examples -/

section Sample

attribute [local instance] Sample.primitives

open Sample

/-- The inputs that make a validator the leader of slot one with a transfer
in its mempool. -/
def Sample.waitingInputs : List RelayInput :=
  [.input (.emptyBlocks [some (blockWith 1 1 0 [])]),
    .input (.vote (voteOf 1 1 (blockWith 1 1 0 []).hash)), .input .roleMonitor,
    .input (.leaderWait false), .input (.transaction (transfer 1 2 5 1 0))]

/-- A transfer is in the mempool, and a query is told so. The next query
reads the mempool after the transfer was pulled and the tracker before it
was tracked, and is told that there is no such transaction. A third one
finds it again. -/
theorem missed_in_hand_pull :
    ∃ r₀ r₁ r₂ r₃ : Relay, Relay.Reached alone r₀ ∧ Relay.Later alone r₀ r₁ ∧
      Relay.Later alone r₁ r₂ ∧ Relay.Later alone r₂ r₃ ∧
      (r₀.node.getTxByHash 6 (Transaction.hash (some (transfer 1 2 5 1 0)))).isOk =
        true ∧
      (TxService.getTxByHash r₁.node.mempool r₂.node.tracker r₃.node.store 6
        (Transaction.hash (some (transfer 1 2 5 1 0)))).isOk = false ∧
      (r₁.InHand (Transaction.hash (some (transfer 1 2 5 1 0))) ∧
        r₂.InHand (Transaction.hash (some (transfer 1 2 5 1 0)))) ∧
      (r₃.node.getTxByHash 6 (Transaction.hash (some (transfer 1 2 5 1 0)))).isOk
        = true := by
  obtain ⟨r₀, h₀, htest⟩ := Relay.exists_reached alone
    (fun r₀ =>
      (r₀.node.getTxByHash 6 (Transaction.hash (some (transfer 1 2 5 1 0)))).isOk &&
      (Machine.exec (Relay.step alone) Machine.Always r₀ [.pull]).any (fun r₁ =>
        (Machine.exec (Relay.step alone) Machine.Always r₁ [.remember]).any (fun r₂ =>
          (Machine.exec (Relay.step alone) Machine.Always r₂ [.track, .record]).any
            (fun r₃ =>
            !(TxService.getTxByHash r₁.node.mempool r₂.node.tracker r₃.node.store 6
                (Transaction.hash (some (transfer 1 2 5 1 0)))).isOk &&
              (r₃.node.getTxByHash 6
                (Transaction.hash (some (transfer 1 2 5 1 0)))).isOk))))
    [⟨keyID 1, 100⟩] 0 waitingInputs (by decide +kernel)
  rw [Bool.and_eq_true] at htest
  obtain ⟨hknown, htest⟩ := htest
  obtain ⟨r₁, h₁, htest⟩ := Machine.exists_run_of_exec htest
  obtain ⟨r₂, h₂, htest⟩ := Machine.exists_run_of_exec htest
  obtain ⟨r₃, h₃, htest⟩ := Machine.exists_run_of_exec htest
  rw [Bool.and_eq_true, Bool.not_eq_true'] at htest
  exact ⟨r₀, r₁, r₂, r₃, h₀, h₁, h₂, h₃, hknown, htest.1,
    Relay.missed_in_hand h₀ h₁ h₂ h₃ (by decide +kernel) hknown htest.1, htest.2⟩

end Sample

end Mmn
