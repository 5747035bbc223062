import Mmn.Steps
import Mmn.Turnover

/-!
# What a leader has in hand

Between the mempool and a block of its own, a transaction passes through the
pending list, the recorder, a flush, the collected entries and the outbox.
Only the mempool lets a transaction in, and it verifies it first; so
whatever is in hand at any stage verifies, and the blocks in the outbox are
blocks of the node's own slots, under its own name and signature. That is
the invariant `Pipeline`, and it holds along every run: no message can break
it.
-/

namespace Mmn

variable [Primitives]

/-! ## The recorder -/

/-- Do all the transactions of the entries verify? -/
def Verified (entries : List Entry) : Prop :=
  ∀ e ∈ entries, ∀ tx, some tx ∈ e.transactions → tx.verify = true

theorem Verified.nil : Verified [] := fun _ he => by cases he

theorem Verified.append {es es' : List Entry} (h : Verified es) (h' : Verified es') :
    Verified (es ++ es') :=
  fun e he => (List.mem_append.mp he).elim (h e) (h' e)

theorem Verified.newTxEntry {txs : List Transaction}
    (h : ∀ tx ∈ txs, tx.verify = true) (numHashes : UInt64) (hash : Hash) :
    Verified [newTxEntry numHashes hash txs] := by
  intro e he tx htx
  obtain rfl := List.mem_singleton.mp he
  obtain ⟨tx', hmem, heq⟩ := List.mem_map.mp htx
  cases heq
  exact h tx hmem

namespace PohRecorder

/-- A tick leaves the recorded entries alone, and its own entry has no
transactions. -/
theorem tick_spec (r : PohRecorder) :
    r.tick.1.entries = r.entries ∧ Verified r.tick.2.toList := by
  have hnil : ∀ numHashes hash, Verified [newTickEntry numHashes hash] := by
    intro numHashes hash e he tx htx
    obtain rfl := List.mem_singleton.mp he
    cases htx
  unfold tick
  split
  · exact ⟨rfl, .nil⟩
  dsimp only
  split
  · exact ⟨rfl, .nil⟩
  split
  · exact ⟨rfl, hnil _ _⟩
  · exact ⟨rfl, hnil _ _⟩

end PohRecorder

/-! ## Own blocks -/

/-- **A block the node built for its own slot.** -/
structure OwnBlock (cfg : Config) (b : BroadcastedBlock) : Prop where
  leader : Node.isLeader cfg b.slot = true
  leaderID : b.leaderID = cfg.selfPubKey
  signed : b.verifySignature = true
  verified : Verified b.entries

/-- **What the node signs verifies**: its two keys belong together. -/
theorem verifySignature_sign (cfg : Config) (slot : UInt64) (prevHash : Hash)
    (entries : List Entry) (now : UInt64) :
    ((assembleBlock slot prevHash cfg.selfPubKey entries now).sign
      cfg.selfPrivKey).verifySignature = true := by
  obtain ⟨pub, hpub, hsign⟩ := cfg.keyPair
  exact BroadcastedBlock.verifySignature_iff.mpr ⟨pub, hpub, hsign _⟩

theorem OwnBlock.assemble {cfg : Config} {slot : UInt64} {entries : List Entry}
    (hleader : Node.isLeader cfg slot = true) (hentries : Verified entries)
    (prevHash : Hash) (now : UInt64) :
    OwnBlock cfg ((assembleBlock slot prevHash cfg.selfPubKey entries now).sign
      cfg.selfPrivKey) where
  leader := hleader
  leaderID := rfl
  signed := verifySignature_sign cfg slot prevHash entries now
  verified := hentries

/-! ## The invariant -/

/-- **What a node has in hand verifies**, at every stage from the mempool to
the outbox. -/
structure Pipeline (cfg : Config) (n : Node) : Prop where
  /-- The waiting transactions. -/
  mempool : ∀ h tx, n.mempool.txs.lookup h = some tx → tx.verify = true
  pending : ∀ tx ∈ n.pendingTxs, tx.verify = true
  recorded : Verified n.recorder.entries
  flushing : ∀ es, n.flushing = some es → Verified es
  collected : Verified n.collectedEntries
  outbox : ∀ b ∈ n.outbox, OwnBlock cfg b

/-- The node has in hand nothing it did not have before. -/
structure Keeps (n n' : Node) : Prop where
  mempool : ∀ h tx, n'.mempool.txs.lookup h = some tx →
    n.mempool.txs.lookup h = some tx
  pending : n'.pendingTxs ⊆ n.pendingTxs
  recorded : n'.recorder.entries ⊆ n.recorder.entries
  flushing : n'.flushing = n.flushing
  collected : n'.collectedEntries ⊆ n.collectedEntries
  outbox : n'.outbox ⊆ n.outbox

theorem Pipeline.of_keeps {cfg : Config} {n n' : Node} (h : Pipeline cfg n)
    (hkeeps : Keeps n n') : Pipeline cfg n' where
  mempool k tx hlook := h.mempool k tx (hkeeps.mempool k tx hlook)
  pending tx htx := h.pending tx (hkeeps.pending htx)
  recorded e he := h.recorded e (hkeeps.recorded he)
  flushing es hes := h.flushing es (hkeeps.flushing ▸ hes)
  collected e he := h.collected e (hkeeps.collected he)
  outbox b hb := h.outbox b (hkeeps.outbox hb)

namespace Keeps

theorem trans {n₁ n₂ n₃ : Node} (h : Keeps n₁ n₂) (h' : Keeps n₂ n₃) :
    Keeps n₁ n₃ where
  mempool k tx hlook := h.mempool k tx (h'.mempool k tx hlook)
  pending := List.Subset.trans h'.pending h.pending
  recorded := List.Subset.trans h'.recorded h.recorded
  flushing := h'.flushing.trans h.flushing
  collected := List.Subset.trans h'.collected h.collected
  outbox := List.Subset.trans h'.outbox h.outbox

theorem of_eq {n n' : Node} (hmempool : n'.mempool.txs = n.mempool.txs)
    (hpending : n'.pendingTxs = n.pendingTxs)
    (hrecorded : n'.recorder.entries = n.recorder.entries)
    (hflushing : n'.flushing = n.flushing)
    (hcollected : n'.collectedEntries = n.collectedEntries)
    (houtbox : n'.outbox = n.outbox) : Keeps n n' where
  mempool k tx hlook := hmempool ▸ hlook
  pending := by rw [hpending]; exact List.Subset.refl _
  recorded := by rw [hrecorded]; exact List.Subset.refl _
  flushing := hflushing
  collected := by rw [hcollected]; exact List.Subset.refl _
  outbox := by rw [houtbox]; exact List.Subset.refl _

theorem refl (n : Node) : Keeps n n := .of_eq rfl rfl rfl rfl rfl rfl

variable {cfg : Config} {n n' : Node}

theorem of_processVote {v : Vote} {r : Except String Unit}
    (h : n.processVote cfg v = some (n', r)) : Keeps n n' := by
  obtain rfl | ⟨_, t, slot, -, rfl | rfl | ⟨b, -, -, -, -, rfl⟩⟩ :=
    Node.processVote_cases h
  · exact .refl _
  · exact .of_eq rfl rfl rfl rfl rfl rfl
  · exact .of_eq (Mempool.txs_setCurrentSlot _ _) rfl rfl rfl rfl rfl
  · exact .of_eq (Mempool.txs_setCurrentSlot _ _) rfl rfl rfl rfl rfl

theorem of_castVote {slot : UInt64} {hash : Hash} {r : Except String Unit}
    (h : n.castVote cfg slot hash = some (n', r)) : Keeps n n' :=
  (Keeps.of_eq rfl rfl rfl rfl rfl rfl : Keeps n (n.log _)).trans (of_processVote h)

theorem of_block {blk : BroadcastedBlock} {r : Except String Unit}
    (h : n.onBlockReceived cfg blk = some (n', r)) : Keeps n n' := by
  obtain rfl | ⟨-, -, ⟨-, rfl⟩ | ⟨-, hvote⟩⟩ := Node.onBlockReceived_cases h
  · exact .refl _
  · exact .of_eq rfl rfl rfl rfl rfl rfl
  · obtain ⟨dedup, mempool, hclean, hcast⟩ := Node.voteForReceived_cases hvote
    refine trans ?_ (of_castVote hcast)
    refine ⟨?_, fun _ h => h, fun _ h => h, rfl, fun _ h => h, fun _ h => h⟩
    intro k tx hlook
    obtain ⟨-, -, rfl⟩ | ⟨-, -, hclean⟩ := hclean
    · exact hlook
    · exact Mempool.lookup_of_blockCleanup hclean hlook

theorem of_emptyBlocks (n : Node) (blocks : List (Option BroadcastedBlock)) :
    Keeps n (n.onEmptyBlockReceived blocks) := by
  unfold Node.onEmptyBlockReceived
  induction blocks generalizing n with
  | nil => exact .refl n
  | cons b blocks ih =>
    refine trans ?_ (ih (n.storeEmptyBlock b))
    unfold Node.storeEmptyBlock
    split
    · exact .refl n
    · next blk =>
      split
      · exact .refl n
      · obtain ⟨err, hadd⟩ | ⟨-, hadd⟩ := Node.addBlockPending_cases n blk
        · rw [hadd]
          exact .refl n
        · rw [hadd]
          exact .of_eq rfl rfl rfl rfl rfl rfl

theorem of_syncResponse {msg : Option BroadcastedBlock} {clock : ℕ → UInt64}
    (h : n.onSyncResponseReceived cfg msg clock = some n') : Keeps n n' := by
  obtain ⟨c, t, queue, next, -, -,
    rfl | ⟨lastHash, slot, dedup, mempool, htxs, rfl⟩⟩ :=
    Node.onSyncResponseReceived_spec (V := fun _ _ => True) h
  · exact .of_eq rfl rfl rfl rfl rfl rfl
  · exact ⟨fun k tx hlook => htxs ▸ hlook, fun _ h => h, List.nil_subset _, rfl,
      fun _ h => h, fun _ h => h⟩

theorem of_broadcast {i : ℕ} {published : Bool}
    (h : n.broadcastTask cfg i published = some n') : Keeps n n' := by
  have hsub : n.outbox.eraseIdx i ⊆ n.outbox := (List.eraseIdx_sublist _ _).subset
  obtain rfl | ⟨blk, -, rfl | ⟨-, rfl | ⟨r, hcast⟩⟩⟩ := Node.broadcastTask_cases h
  · exact .refl _
  · exact ⟨fun _ _ h => h, fun _ h => h, fun _ h => h, rfl, fun _ h => h, hsub⟩
  · exact ⟨fun _ _ h => h, fun _ h => h, fun _ h => h, rfl, fun _ h => h, hsub⟩
  · refine trans ?_ (of_castVote hcast)
    exact ⟨fun _ _ h => h, fun _ h => h, fun _ h => h, rfl, fun _ h => h, hsub⟩

end Keeps

/-! ## The invariant holds along every run -/

namespace Pipeline

variable {cfg : Config} {n : Node}

theorem new (cfg : Config) (s : Store) : Pipeline cfg (Node.new cfg s) where
  mempool _ _ hlook := by cases hlook
  pending _ htx := by cases htx
  recorded := .nil
  flushing _ hes := by cases hes
  collected := .nil
  outbox _ hb := by cases hb

theorem transaction (h : Pipeline cfg n) (tx : Transaction) :
    Pipeline cfg (n.onTransactionReceived tx) := by
  refine ⟨?_, h.pending, h.recorded, h.flushing, h.collected, h.outbox⟩
  intro k tx' hlook
  unfold Node.onTransactionReceived at hlook
  obtain ⟨err, hsame⟩ | ⟨hverify, hput⟩ := n.mempool.addTx_cases n.dedup n.store tx
  · rw [hsame] at hlook
    exact h.mempool k tx' hlook
  · rw [hput, Mempool.txs_put] at hlook
    by_cases hk : k = Transaction.hash (some tx)
    · subst hk
      rw [AList.lookup_insert] at hlook
      cases hlook
      exact hverify
    · rw [AList.lookup_insert_ne hk] at hlook
      exact h.mempool k tx' hlook

theorem leaderBatch (h : Pipeline cfg n) {n' : Node}
    (hbatch : n.leaderBatch cfg = some n') :
    Pipeline cfg n' := by
  obtain ⟨-, rfl⟩ | ⟨mempool, dedup, tracker, batch, recorder, pending, -, hpull,
    rfl, hrest⟩ :=
    Node.leaderBatch_cases hbatch
  · exact h
  obtain ⟨hkeep, htaken⟩ := Mempool.pullBatch_spec hpull
  have hmempool : ∀ k tx, mempool.txs.lookup k = some tx → tx.verify = true :=
    fun k tx hlook => h.mempool k tx (hkeep k tx hlook)
  have hpending : ∀ tx ∈ n.pendingTxs ++ batch, tx.verify = true := by
    intro tx htx
    obtain htx | htx := List.mem_append.mp htx
    · exact h.pending tx htx
    · obtain ⟨k, hlook⟩ := htaken tx htx
      exact h.mempool k tx hlook
  obtain ⟨rfl, hentries⟩ | ⟨recorded, numHashes, hash, hsplit, hentries⟩ := hrest
  · exact ⟨hmempool, hpending, hentries ▸ h.recorded, h.flushing,
      h.collected, h.outbox⟩
  · rw [hsplit] at hpending
    have hrecorded : Verified recorder.entries := by
      rw [hentries]
      exact h.recorded.append (.newTxEntry
        (fun tx htx => hpending tx (List.mem_append_left _ htx)) numHashes hash)
    exact ⟨hmempool, fun tx htx => hpending tx (List.mem_append_right _ htx),
      hrecorded, h.flushing, h.collected, h.outbox⟩

theorem drainEntries (h : Pipeline cfg n) : Pipeline cfg n.drainEntries := by
  unfold Node.drainEntries
  split
  · exact h
  · refine ⟨h.mempool, h.pending, .nil, ?_, h.collected, h.outbox⟩
    intro es hes
    cases hes
    exact h.recorded

theorem handleEntry (h : Pipeline cfg n) {entries : List Entry}
    (hentries : Verified entries) (now : UInt64) :
    Pipeline cfg (n.handleEntry cfg entries now) := by
  unfold Node.handleEntry
  dsimp only
  split
  · next hlast =>
    refine ⟨h.mempool, h.pending, h.recorded, h.flushing, .nil, ?_⟩
    intro b hb
    obtain hb | hb := List.mem_append.mp hb
    · exact h.outbox b hb
    · obtain rfl := List.mem_singleton.mp hb
      simp only [Bool.and_eq_true] at hlast
      exact .assemble hlast.1.1.2 (h.collected.append hentries) _ now
  · split
    · exact ⟨h.mempool, h.pending, h.recorded, h.flushing,
        h.collected.append hentries, h.outbox⟩
    · exact h

theorem tickAndFlush (h : Pipeline cfg n) (now : UInt64) :
    Pipeline cfg (n.tickAndFlush cfg now) := by
  unfold Node.tickAndFlush
  split
  · exact h
  · next entries hflushing =>
    obtain ⟨hentries, htick⟩ := n.recorder.tick_spec
    have hall : Verified (entries ++ n.recorder.tick.2.toList) :=
      (h.flushing entries hflushing).append htick
    have hticked : Pipeline cfg
        { n with recorder := n.recorder.tick.1, flushing := none } :=
      ⟨h.mempool, h.pending, hentries ▸ h.recorded, fun es hes => (by cases hes),
        h.collected, h.outbox⟩
    dsimp only
    split
    · exact hticked.handleEntry hall now
    · exact hticked

theorem leaderWait (h : Pipeline cfg n) (deadline : Bool) :
    Pipeline cfg (n.leaderWait deadline) := by
  have hterm : ∀ (m : Node) slot hash, Pipeline cfg m →
      Pipeline cfg (m.startTerm slot hash) :=
    fun m slot hash hm =>
      ⟨hm.mempool, fun tx htx => (List.not_mem_nil htx).elim, .nil,
      hm.flushing, .nil, hm.outbox⟩
  unfold Node.leaderWait
  split
  · exact h
  · dsimp only
    split
    · exact hterm _ _ _ ⟨h.mempool, h.pending, h.recorded, h.flushing,
        h.collected, h.outbox⟩
    · split
      · exact hterm _ _ _ h
      · exact h

/-- **Every step keeps what is in hand verified.** -/
theorem step (h : Pipeline cfg n) {i : Input} {n' : Node}
    (hstep : n.step cfg i = some n') :
    Pipeline cfg n' := by
  cases i with
  | block blk =>
    obtain ⟨⟨n₁, r⟩, hblk, rfl⟩ := Option.map_eq_some_iff.mp hstep
    exact h.of_keeps (.of_block hblk)
  | emptyBlocks blocks =>
    cases hstep
    exact h.of_keeps (.of_emptyBlocks n blocks)
  | vote v =>
    obtain ⟨⟨n₁, r⟩, hvote, rfl⟩ := Option.map_eq_some_iff.mp hstep
    exact h.of_keeps (.of_processVote hvote)
  | transaction tx =>
    cases hstep
    exact h.transaction tx
  | syncResponse msg clock => exact h.of_keeps (.of_syncResponse hstep)
  | leaderBatch => exact h.leaderBatch hstep
  | drainEntries =>
    cases hstep
    exact h.drainEntries
  | tickAndFlush now =>
    cases hstep
    exact h.tickAndFlush now
  | leaderWait deadline =>
    cases hstep
    exact h.leaderWait deadline
  | broadcast i published => exact h.of_keeps (.of_broadcast hstep)
  | roleMonitor =>
    cases hstep
    refine h.of_keeps ?_
    unfold Node.roleMonitor
    dsimp only
    split
    · exact .refl n
    split <;> split <;> exact .of_eq rfl rfl rfl rfl rfl rfl
  | latestSlot | autoHash | cleanupVotes | expireDedup =>
    cases hstep
    exact h.of_keeps (.of_eq rfl rfl rfl rfl rfl rfl)

end Pipeline

end Mmn
