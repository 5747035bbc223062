import Mmn.Custody

/-!
# The order of recorded transactions

The batch loop appends what it pulls to a buffer, tries to record the front
of the buffer as one entry, and takes that front off only if it was
recorded; a refused entry is tried again in the next round, with more behind
it. The start of a leader term empties the buffer.

`Recording` is a node with a log of the batches it has pulled and of the
entries it has recorded. What is recorded, followed by what is in the
buffer, is always a subsequence of what was pulled: a term that starts
leaves a gap, and nothing else does (`recorded_in_order`).
-/

namespace Mmn

section

variable [Primitives]

/-! ## One round -/

/-- The entry that a round of the batch loop records. -/
def Node.recordedEntry (cfg : Config) (n : Node) : Option Entry :=
  if n.readyToStart cfg n.recorder.currentSlot then
    match n.mempool.pullBatch n.dedup n.tracker cfg.batchSize with
    | none => none
    | some (_, _, _, batch) =>
      match ({ n with pendingTxs := n.pendingTxs ++ batch } : Node).peekPendingTxs
        cfg.batchSize with
      | none => none
      | some recordTxs => (n.recorder.recordTxs recordTxs).2.toOption
  else none

/-- **What a round does to the buffer**: what is pulled goes behind it, and
what is recorded comes off its front. -/
theorem Node.leaderBatch_pending {cfg : Config} {n n' : Node}
    (h : n.leaderBatch cfg = some n') :
    ∃ recorded, n.pendingTxs ++ n.pulledBatch cfg = recorded ++ n'.pendingTxs ∧
      (n.recordedEntry cfg).toList.flatMap Entry.transactions
        = recorded.map some := by
  unfold leaderBatch at h
  unfold pulledBatch recordedEntry
  dsimp only at h
  by_cases hready : n.readyToStart cfg n.recorder.currentSlot = true
  swap
  · have hsame : n' = n := by
      split at h
      · exact (Option.some.inj h).symm
      · rw [if_pos (by simpa using hready)] at h
        exact (Option.some.inj h).symm
    rw [hsame, if_neg hready, if_neg hready]
    exact ⟨[], List.append_nil _, rfl⟩
  have hlead : isLeader cfg n.recorder.currentSlot = true := by
    unfold readyToStart at hready
    exact (Bool.and_eq_true_iff.mp hready).1
  rw [if_neg (by simp [hlead]), if_neg (by simp [hready])] at h
  rw [if_pos hready, if_pos hready]
  cases hpull : n.mempool.pullBatch n.dedup n.tracker cfg.batchSize with
  | none =>
    rw [hpull] at h
    cases h
  | some pulled =>
    obtain ⟨mempool, dedup, tracker, batch⟩ := pulled
    rw [hpull] at h
    dsimp only [peekPendingTxs] at h ⊢
    split at h
    · next hpeek =>
      cases h
      rw [hpeek]
      exact ⟨[], rfl, rfl⟩
    next recordTxs hpeek =>
    rw [hpeek]
    dsimp only
    have hfront : recordTxs = (n.pendingTxs ++ batch).take cfg.batchSize := by
      split at hpeek
      · cases hpeek
      · exact (Option.some.inj hpeek).symm
    have hspec := n.recorder.recordTxs_spec recordTxs
    split at h
    · next recorder err hrecord =>
      cases h
      rw [hrecord]
      exact ⟨[], rfl, rfl⟩
    · next recorder entry hrecord =>
      cases h
      rw [hrecord] at hspec ⊢
      obtain ⟨_, herr, -⟩ | ⟨numHashes, hash, hok, -⟩ := hspec
      · cases herr
      · cases hok
        refine ⟨recordTxs, ?_, List.append_nil _⟩
        rw [hfront]
        exact (List.prefix_iff_eq_append.mp (List.take_prefix _ _)).symm

/-! ## Whole runs -/

/-- **A node with what it has pulled and recorded**, oldest first. -/
structure Recording where
  node : Node
  /-- The batches `PullBatch` has returned to the loop. -/
  pulled : List (List Transaction)
  /-- The entries `RecordTxs` has returned to the loop. -/
  recorded : List Entry

/-- What happens to it. -/
inductive RecordingTurn where
  /-- An iteration of the batch loop, with a batch size of its own. -/
  | batch (batchSize : ℕ)
  /-- A leader term starts and the buffer is emptied. -/
  | start (slot : UInt64) (seedHash : Hash)
  /-- Anything else: transactions arrive, hashes and ticks are made, terms
  end. -/
  | elsewhere (n : Node)

namespace Recording

/-- **One turn.** -/
def step (cfg : Config) (s : Recording) : RecordingTurn → Option Recording
  | .batch batchSize =>
    let cfg := { cfg with batchSize := batchSize }
    (s.node.leaderBatch cfg).map (fun n =>
      { node := n
        pulled := s.pulled ++ [s.node.pulledBatch cfg]
        recorded := s.recorded ++ (s.node.recordedEntry cfg).toList })
  | .start slot seedHash => some { s with node := s.node.startTerm slot seedHash }
  | .elsewhere n => some { s with node := n }

/-- Nothing but the batch loop and the start of a term touches the buffer. -/
def Allowed (s : Recording) : RecordingTurn → Prop
  | .elsewhere n => n.pendingTxs = s.node.pendingTxs
  | _ => True

instance (s : Recording) (turn : RecordingTurn) : Decidable (s.Allowed turn) := by
  cases turn <;> unfold Allowed <;> infer_instance

/-- **In order**: what is recorded, followed by what is in the buffer, is a
subsequence of what was pulled. -/
def InOrder (s : Recording) : Prop :=
  (s.recorded.flatMap Entry.transactions ++ s.node.pendingTxs.map some).Sublist
    (s.pulled.flatten.map some)

variable {cfg : Config} {s s' : Recording}

theorem InOrder.step (h : s.InOrder) {turn : RecordingTurn} (hturn : s.Allowed turn)
    (hstep : s.step cfg turn = some s') : s'.InOrder := by
  cases turn with
  | batch batchSize =>
    obtain ⟨n, hbatch, rfl⟩ := Option.map_eq_some_iff.mp hstep
    obtain ⟨recorded, hpending, hentry⟩ := Node.leaderBatch_pending hbatch
    unfold InOrder at h ⊢
    rw [List.flatMap_append, hentry, List.append_assoc, ← List.map_append, ← hpending,
      List.map_append, ← List.append_assoc, List.flatten_append, List.map_append]
    refine h.append ?_
    rw [List.flatten_singleton]
  | start slot seedHash =>
    cases hstep
    -- the buffer is thrown away
    refine List.Sublist.trans (List.Sublist.append (List.Sublist.refl _) ?_) h
    exact List.nil_sublist _
  | elsewhere n =>
    cases hstep
    unfold InOrder at h ⊢
    rw [show n.pendingTxs = s.node.pendingTxs from hturn]
    exact h

/-- **Recorded transactions keep the order they were pulled in.** In every
run of the batch loop, with any batch sizes, refused entries and starts of
terms, the transactions of the recorded entries, one entry after the other,
are a subsequence of the pulled batches, one after the other. -/
theorem recorded_in_order {n : Node} (hpending : n.pendingTxs = [])
    (hrun : Machine.Run (Recording.step cfg) Allowed ⟨n, [], []⟩ s) :
    (s.recorded.flatMap Entry.transactions).Sublist (s.pulled.flatten.map some) := by
  have horder : s.InOrder := by
    refine hrun.invariant (I := InOrder) ?_ fun t turn t' h hturn hstep =>
      h.step hturn hstep
    unfold InOrder
    rw [hpending]
    exact List.Sublist.refl _
  exact (List.sublist_append_left _ _).trans horder

end Recording

end

section Sample

attribute [local instance] Sample.primitives

open Sample

/-- The first of four validators in a term of its own, with two transactions
in its pool. -/
def leading : Node :=
  { firstOfFour.startTerm 1 zeroHash with
    mempool := (firstOfFour.mempool.put (transfer 1 2 5 1 0)).put
      (transfer 1 2 6 1 0) }

/-- Two rounds record one transaction each; in between, the term starts
again. -/
theorem recorded_in_order_two :
    ∃ s : Recording,
      (s.recorded.flatMap Entry.transactions).Sublist (s.pulled.flatten.map some) ∧
        (s.recorded.length == 2 && s.pulled.flatten.length == 2) = true := by
  have hexec : (Machine.exec (Recording.step (oneOfFour false)) Recording.Allowed
      ⟨leading, [], []⟩ [.batch 1, .start 1 zeroHash, .batch 5]).any
      (fun s => s.recorded.length == 2 && s.pulled.flatten.length == 2) = true := by
    decide +kernel
  obtain ⟨s, hrun, htest⟩ := Machine.exists_run_of_exec hexec
  exact ⟨s, Recording.recorded_in_order rfl hrun, htest⟩

end Sample

end Mmn
