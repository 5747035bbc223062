import Mmn.Sample

/-!
# Two calls on the tracker at once

A transaction is tracked when the leader pulls it, and removed when a block
that holds it is applied. The two may come in either order, and therefore a
hash that is removed before it is tracked is kept in a second cache, which
is asked before a transaction is tracked. They may also come at the same
time: the calls hold no lock, and only their accesses to the map and to the
cache are atomic.

What becomes of the transaction is decided by the first two of these
accesses (`untracked_after_both_iff`). If both are made by the same call,
the calls are as good as one after the other. If they are made by different
calls, the one that tracks has not found the hash in the cache, the one that
removes has not found the transaction in the map, and the transaction is
tracked after it was removed: it stays in the map for good
(`tracked_after_removal`). The number of tracked transactions is right in
the end in any case.

Without interruption the two calls are those of `TransactionTracker`
(`exec_track_alone`, `exec_remove_alone`).
-/

namespace Mmn

section

variable [Primitives]

/-! ## The calls, access by access -/

/-- Where a call of `TrackProcessingTransaction` is: the access it makes
next. -/
inductive TrackPc where
  | get
  | delete
  /-- It was not: store the transaction, unless it is stored. -/
  | loadOrStore
  | addCount
  | log
  | done
deriving DecidableEq

/-- Where a call of `RemoveTransaction` is. -/
inductive RemovePc where
  /-- Take the transaction out of the map. -/
  | loadAndDelete
  /-- It was not there: put the hash into the removed cache. -/
  | set
  | addCount (tx : Transaction)
  | log (tx : Transaction)
  | done
deriving DecidableEq

/-- **Two calls for one transaction**, and the tracker they share. -/
structure Calls where
  tracker : TransactionTracker
  tx : Transaction
  track : TrackPc
  remove : RemovePc

/-- Whose turn it is. -/
inductive Turn where
  | track
  | remove
deriving DecidableEq

namespace Calls

/-- The two calls begin. -/
def start (t : TransactionTracker) (tx : Transaction) : Calls :=
  { tracker := t, tx := tx, track := .get, remove := .loadAndDelete }

/-- The hash of the transaction. -/
def txHash (c : Calls) : String := Transaction.hash (some c.tx)

/-- One access of the call that tracks. Logging a short sender stops the
process. -/
def stepTrack (c : Calls) : Option Calls :=
  match c.track with
  -- the answer is acted on in a later access, and the other call may come
  -- between the two
  | .get =>
    some { c with
      track := if c.txHash ∈ c.tracker.removedTxCache then .delete else .loadOrStore }
  | .delete =>
    some { c with
      tracker :=
        { c.tracker with removedTxCache := c.tracker.removedTxCache.erase c.txHash }
      track := .done }
  | .loadOrStore =>
    match c.tracker.processingTxs.lookup c.txHash with
    | some _ => some { c with track := .log }
    | none =>
      some { c with
        tracker := { c.tracker with
          processingTxs := c.tracker.processingTxs.insert c.txHash c.tx }
        track := .addCount }
  | .addCount =>
    some { c with
      tracker := { c.tracker with processingCount := c.tracker.processingCount + 1 }
      track := .log }
  | .log => if TransactionTracker.logsSender c.tx
    then some { c with track := .done } else none
  | .done => some c

/-- One access of the call that removes. -/
def stepRemove (c : Calls) : Option Calls :=
  match c.remove with
  | .loadAndDelete =>
    match c.tracker.processingTxs.lookup c.txHash with
    | none => some { c with remove := .set }
    | some tx =>
      some { c with
        tracker :=
          { c.tracker with processingTxs := c.tracker.processingTxs.erase c.txHash }
        remove := .addCount tx }
  | .set =>
    some { c with
      tracker :=
        { c.tracker with removedTxCache := insert c.txHash c.tracker.removedTxCache }
      remove := .done }
  | .addCount tx =>
    some { c with
      tracker := { c.tracker with processingCount := c.tracker.processingCount - 1 }
      remove := .log tx }
  | .log tx =>
    if TransactionTracker.logsSender tx then some { c with remove := .done } else none
  | .done => some c

/-- **One atomic access**, of the call whose turn it is. A turn of a call
that has returned passes. -/
def step (c : Calls) : Turn → Option Calls
  | .track => c.stepTrack
  | .remove => c.stepRemove

/-- The calls after some turns. -/
def exec (c : Calls) (turns : List Turn) :
    Option Calls := Machine.exec step Machine.Always c turns

theorem exec_cons (c : Calls) (turn : Turn) (turns : List Turn) :
    c.exec (turn :: turns) = (c.step turn).bind (fun c' => c'.exec turns) := by
  show (if Machine.Always c turn then _ else none) = _
  exact if_pos trivial

theorem exec_nil (c : Calls) : c.exec [] = some c := rfl

/-- Both calls have returned. -/
def Finished (c : Calls) : Prop := c.track = .done ∧ c.remove = .done

/-! ## One call alone -/

variable {c c' : Calls}

/-- **A call that tracks, uninterrupted**, is that of the tracker. -/
theorem exec_track_alone (t : TransactionTracker) (tx : Transaction) :
    (start t tx).exec [.track, .track, .track, .track]
      = (t.trackProcessingTransaction tx).map
          (fun t' => { start t' tx with track := .done }) := by
  have hturns : ∀ c : Calls, c.exec [.track, .track, .track, .track]
      = (((c.stepTrack.bind stepTrack).bind stepTrack).bind stepTrack) := by
    intro c
    simp only [exec_cons, exec_nil, step, Option.bind_assoc, Option.bind_fun_some]
  rw [hturns]
  unfold TransactionTracker.trackProcessingTransaction start
  dsimp only
  by_cases hremoved : Transaction.hash (some tx) ∈ t.removedTxCache
  · rw [if_pos hremoved]
    simp [stepTrack, txHash, hremoved]
  · rw [if_neg hremoved]
    by_cases hlog : TransactionTracker.logsSender tx = true
    · cases hlook : t.processingTxs.lookup (Transaction.hash (some tx)) with
      | some tx' => simp [stepTrack, txHash, hremoved, hlook, hlog]
      | none => simp [stepTrack, txHash, hremoved, hlook, hlog]
    · cases hlook : t.processingTxs.lookup (Transaction.hash (some tx)) with
      | some tx' => simp [stepTrack, txHash, hremoved, hlook, hlog]
      | none => simp [stepTrack, txHash, hremoved, hlook, hlog]

/-- **A call that removes, uninterrupted**, is that of the tracker. -/
theorem exec_remove_alone (t : TransactionTracker) (tx : Transaction) :
    (start t tx).exec [.remove, .remove, .remove]
      = (t.removeTransaction (Transaction.hash (some tx))).map
          (fun t' => { start t' tx with remove := .done }) := by
  have hturns : ∀ c : Calls, c.exec [.remove, .remove, .remove]
      = ((c.stepRemove.bind stepRemove).bind stepRemove) := by
    intro c
    simp only [exec_cons, exec_nil, step, Option.bind_assoc, Option.bind_fun_some]
  rw [hturns]
  unfold TransactionTracker.removeTransaction start
  cases hlook : t.processingTxs.lookup (Transaction.hash (some tx)) with
  | none => simp [stepRemove, txHash, hlook]
  | some tx' =>
    by_cases hlog : TransactionTracker.logsSender tx' = true <;>
      simp [stepRemove, txHash, hlook, hlog]

/-! ## What a step can do -/

/-- **The accesses**, with what each finds and what it changes. -/
inductive Access (c : Calls) : Calls → Prop where
  | hit (hpc : c.track = .get) (hremoved : c.txHash ∈ c.tracker.removedTxCache) :
    Access c { c with track := .delete }
  /-- The cache does not have the hash. -/
  | miss (hpc : c.track = .get) (hremoved : c.txHash ∉ c.tracker.removedTxCache) :
    Access c { c with track := .loadOrStore }
  | delete (hpc : c.track = .delete) :
    Access c { c with
      tracker :=
        { c.tracker with removedTxCache := c.tracker.removedTxCache.erase c.txHash }
      track := .done }
  | loaded (hpc : c.track = .loadOrStore)
    (hmem : c.txHash ∈ c.tracker.processingTxs) :
    Access c { c with track := .log }
  /-- The transaction is put into the map. -/
  | stored (hpc : c.track = .loadOrStore)
    (hmem : c.txHash ∉ c.tracker.processingTxs) :
    Access c { c with
      tracker := { c.tracker with
        processingTxs := c.tracker.processingTxs.insert c.txHash c.tx }
      track := .addCount }
  | counted (hpc : c.track = .addCount) :
    Access c { c with
      tracker := { c.tracker with processingCount := c.tracker.processingCount + 1 }
      track := .log }
  | tracked (hpc : c.track = .log) : Access c { c with track := .done }
  /-- The map does not have the transaction. -/
  | missing (hpc : c.remove = .loadAndDelete)
    (hmem : c.txHash ∉ c.tracker.processingTxs) :
    Access c { c with remove := .set }
  /-- The transaction is taken out of the map. -/
  | taken (tx : Transaction) (hpc : c.remove = .loadAndDelete)
      (hmem : c.txHash ∈ c.tracker.processingTxs) :
    Access c { c with
      tracker :=
        { c.tracker with processingTxs := c.tracker.processingTxs.erase c.txHash }
      remove := .addCount tx }
  /-- The hash is put into the cache. -/
  | set (hpc : c.remove = .set) :
    Access c { c with
      tracker :=
        { c.tracker with removedTxCache := insert c.txHash c.tracker.removedTxCache }
      remove := .done }
  | discounted (tx : Transaction) (hpc : c.remove = .addCount tx) :
    Access c { c with
      tracker := { c.tracker with processingCount := c.tracker.processingCount - 1 }
      remove := .log tx }
  | removed (tx : Transaction) (hpc : c.remove = .log tx) : Access c
    { c with remove := .done }
  /-- A call that has returned does nothing. -/
  | idle : Access c c

theorem access_of_step {turn : Turn} (h : c.step turn = some c') : c.Access c' := by
  cases turn with
  | track =>
    change c.stepTrack = some c' at h
    unfold stepTrack at h
    split at h
    · next hpc =>
      by_cases hremoved : c.txHash ∈ c.tracker.removedTxCache
      · rw [if_pos hremoved] at h
        cases h
        exact .hit hpc hremoved
      · rw [if_neg hremoved] at h
        cases h
        exact .miss hpc hremoved
    · next hpc =>
      cases h
      exact .delete hpc
    · next hpc =>
      split at h
      · next tx hlook =>
        cases h
        exact .loaded hpc (AList.lookup_isSome.mp (by rw [hlook]; rfl))
      · next hlook =>
        cases h
        exact .stored hpc (AList.lookup_eq_none.mp hlook)
    · next hpc =>
      cases h
      exact .counted hpc
    · next hpc =>
      split at h
      · cases h
        exact .tracked hpc
      · cases h
    · cases h
      exact .idle
  | remove =>
    change c.stepRemove = some c' at h
    unfold stepRemove at h
    split at h
    · next hpc =>
      split at h
      · next hlook =>
        cases h
        exact .missing hpc (AList.lookup_eq_none.mp hlook)
      · next tx hlook =>
        cases h
        exact .taken tx hpc (AList.lookup_isSome.mp (by rw [hlook]; rfl))
    · next hpc =>
      cases h
      exact .set hpc
    · next tx hpc =>
      cases h
      exact .discounted tx hpc
    · next tx hpc =>
      split at h
      · cases h
        exact .removed tx hpc
      · cases h
    · cases h
      exact .idle

/-- An invariant of single accesses holds after any turns. -/
theorem exec_invariant {I : Calls → Prop} (hI : ∀ c c', I c → c.Access c' → I c')
    {turns : List Turn} (h : c.exec turns = some c') (hc : I c) : I c' :=
  (Machine.run_of_exec h).invariant hc fun _ _ _ ht _ hstep =>
    hI _ _ ht (access_of_step hstep)

/-! ## The number of tracked transactions -/

/-- What the call that tracks has still to count. -/
def trackOwed : TrackPc → ℤ
  | .addCount => 1
  | _ => 0

/-- What the call that removes has still to count off. -/
def removeOwed : RemovePc → ℤ
  | .addCount _ => 1
  | _ => 0

/-- **The count is right** up to what is still to be counted. -/
def Counted (c : Calls) : Prop :=
  c.tracker.processingCount + trackOwed c.track
    = c.tracker.processingTxs.keys.length + removeOwed c.remove

theorem Counted.access (h : c.Counted) (haccess : c.Access c') : c'.Counted := by
  unfold Counted at h ⊢
  cases haccess with
  | hit hpc | miss hpc | delete hpc | loaded hpc | tracked hpc | missing hpc | set hpc
  | removed _ hpc =>
    rw [hpc] at h
    exact h
  -- one more in the map, and one more to be counted
  | stored hpc hmem =>
    rw [hpc] at h
    change c.tracker.processingCount + 0 = _ at h
    show c.tracker.processingCount + 1
      = ((c.tracker.processingTxs.insert c.txHash c.tx).keys.length : ℤ)
        + removeOwed c.remove
    rw [AList.keys_insert, List.length_cons, List.erase_of_not_mem hmem,
      Nat.cast_succ]
    omega
  | counted hpc =>
    rw [hpc] at h
    show c.tracker.processingCount + 1 + 0 = _
    rw [add_zero]
    exact h
  -- one less in the map, and one more to be counted off
  | taken tx hpc hmem =>
    rw [hpc] at h
    change _ = (c.tracker.processingTxs.keys.length : ℤ) + 0 at h
    show c.tracker.processingCount + trackOwed c.track
      = ((c.tracker.processingTxs.erase c.txHash).keys.length : ℤ) + 1
    have hlen := List.length_erase_of_mem (l := c.tracker.processingTxs.keys) hmem
    have hpos := List.length_pos_of_mem (l := c.tracker.processingTxs.keys) hmem
    rw [AList.keys_erase, hlen]
    omega
  | discounted tx hpc =>
    rw [hpc] at h
    change _ = (c.tracker.processingTxs.keys.length : ℤ) + 1 at h
    show c.tracker.processingCount - 1 + trackOwed c.track
      = (c.tracker.processingTxs.keys.length : ℤ) + 0
    omega
  | idle => exact h

/-! ## What becomes of the transaction -/

/-- A call that tracks has made its access to the map or will make none,
given what the cache would answer. -/
def Skips (removed : Prop) : TrackPc → Prop
  | .get => removed
  | .loadOrStore => False
  | _ => True

/-- A call that tracks has put the transaction into the map or will, given
what the cache would answer and whether the transaction is there. -/
def Stores (missed stored : Prop) : TrackPc → Prop
  | .get => missed
  | .delete => False
  | .loadOrStore => True
  | _ => stored

omit [Primitives] in
theorem Skips.mono {p q : Prop} (hpq : p → q) {pc : TrackPc} (h : Skips p pc) :
    Skips q pc := by
  cases pc with
  | get => exact hpq h
  | loadOrStore => exact h
  | _ => trivial

omit [Primitives] in
theorem Stores.mono {p q stored : Prop} (hpq : p → q) {pc : TrackPc}
    (h : Stores p stored pc) :
    Stores q stored pc := by
  cases pc with
  | get => exact hpq h
  | _ => exact h

/-- **The transaction will not be tracked**: the call that tracks puts
nothing into the map any more, and the one that removes is still to come to
it or has left nothing there. -/
def Clears (c : Calls) : Prop :=
  Skips (c.txHash ∈ c.tracker.removedTxCache) c.track ∧
    (c.remove = .loadAndDelete ∨ c.txHash ∉ c.tracker.processingTxs)

/-- **The transaction will be tracked**: the call that removes has been at
the map, and the one that tracks has put the transaction there since or
will, for it does not find it in the cache. -/
def Leaves (c : Calls) : Prop :=
  c.remove ≠ .loadAndDelete ∧
    Stores (c.txHash ∉ c.tracker.removedTxCache ∧ c.remove ≠ .set)
      (c.txHash ∈ c.tracker.processingTxs) c.track

theorem Clears.access (h : c.Clears) (haccess : c.Access c') : c'.Clears := by
  obtain ⟨htrack, hremove⟩ := h
  cases haccess with
  | hit hpc | delete hpc | counted hpc | tracked hpc => exact ⟨trivial, hremove⟩
  | miss hpc hremoved =>
    rw [hpc] at htrack
    exact absurd htrack hremoved
  | loaded hpc | stored hpc =>
    rw [hpc] at htrack
    exact htrack.elim
  | missing hpc hmem => exact ⟨htrack, Or.inr hmem⟩
  | taken tx hpc =>
    refine ⟨htrack, Or.inr fun hmem => ?_⟩
    exact (AList.mem_erase.mp hmem).1 rfl
  | set hpc =>
    refine ⟨htrack.mono (Finset.mem_insert_of_mem), Or.inr (hremove.resolve_left ?_)⟩
    rw [hpc]
    exact nofun
  | discounted tx hpc | removed tx hpc =>
    refine ⟨htrack, Or.inr (hremove.resolve_left ?_)⟩
    rw [hpc]
    exact nofun
  | idle => exact ⟨htrack, hremove⟩

theorem Leaves.access (h : c.Leaves) (haccess : c.Access c') : c'.Leaves := by
  obtain ⟨hremove, htrack⟩ := h
  cases haccess with
  | hit hpc hremoved =>
    rw [hpc] at htrack
    exact absurd hremoved htrack.1
  | miss hpc => exact ⟨hremove, trivial⟩
  | delete hpc =>
    rw [hpc] at htrack
    exact htrack.elim
  | loaded hpc hmem => exact ⟨hremove, hmem⟩
  | stored hpc => exact ⟨hremove, (AList.mem_insert _).mpr (Or.inl rfl)⟩
  | counted hpc | tracked hpc =>
    rw [hpc] at htrack
    exact ⟨hremove, htrack⟩
  | missing hpc | taken tx hpc => exact absurd hpc hremove
  | set hpc => exact ⟨nofun, htrack.mono fun h => absurd hpc h.2⟩
  | discounted tx hpc | removed tx hpc =>
    exact ⟨nofun, htrack.mono fun h => ⟨h.1, nofun⟩⟩
  | idle => exact ⟨hremove, htrack⟩

/-! ## The first two accesses -/

variable {t : TransactionTracker} {tx : Transaction} {turns : List Turn}

/-- **The calls are in order**: the hash was removed before, or the first
two accesses are made by one call – by the one that removes only if the
transaction was not tracked before. -/
def InOrder (t : TransactionTracker) (tx : Transaction) (turns : List Turn) : Prop :=
  Transaction.hash (some tx) ∈ t.removedTxCache ∨ [.track, .track] <+: turns ∨
    (Transaction.hash (some tx) ∉ t.processingTxs ∧ [.remove, .remove] <+: turns)

instance (t : TransactionTracker) (tx : Transaction) (turns : List Turn) :
    Decidable (InOrder t tx turns) := inferInstanceAs (Decidable (_ ∨ _ ∨ _))

/-- The first access of the call that tracks, when the hash is not in the
cache. -/
theorem stepTrack_start (hremoved : Transaction.hash (some tx) ∉ t.removedTxCache) :
    (start t tx).stepTrack = some { start t tx with track := .loadOrStore } := by
  show some
    (⟨t, tx, if Transaction.hash (some tx) ∈ t.removedTxCache then .delete
      else .loadOrStore,
    .loadAndDelete⟩ : Calls) = _
  rw [if_neg hremoved]
  rfl

/-- Once the cache was asked, the access to the map that comes first
decides. -/
theorem clears_of_track_track
    (h : ({ start t tx with track := .loadOrStore } : Calls).stepTrack = some c) :
    c.Clears := by
  unfold stepTrack at h
  dsimp only at h
  split at h
  · cases h
    exact ⟨trivial, Or.inl rfl⟩
  · cases h
    exact ⟨trivial, Or.inl rfl⟩

theorem leaves_of_track_remove
    (h : ({ start t tx with track := .loadOrStore } : Calls).stepRemove = some c) :
    c.Leaves := by
  unfold stepRemove at h
  dsimp only [start] at h
  split at h
  · cases h
    exact ⟨nofun, trivial⟩
  · cases h
    exact ⟨nofun, trivial⟩

/-- The first access of the call that removes leaves the other as it was. -/
theorem stepRemove_start (h : (start t tx).stepRemove = some c) :
    c.tx = tx ∧ c.track = .get ∧ c.tracker.removedTxCache = t.removedTxCache ∧
      ((Transaction.hash (some tx) ∉ t.processingTxs ∧ c.remove = .set ∧
          c.tracker.processingTxs = t.processingTxs) ∨
        (Transaction.hash (some tx) ∈ t.processingTxs ∧
          ∃ tx', c.remove = .addCount tx')) := by
  unfold stepRemove at h
  dsimp only [start] at h
  split at h
  · next hlook =>
    cases h
    exact ⟨rfl, rfl, rfl, Or.inl ⟨AList.lookup_eq_none.mp hlook, rfl, rfl⟩⟩
  · next tx' hlook =>
    cases h
    have hmem : Transaction.hash (some tx) ∈ t.processingTxs :=
      AList.lookup_isSome.mp (Option.isSome_of_eq_some hlook)
    exact ⟨rfl, rfl, rfl, Or.inr ⟨hmem, tx', rfl⟩⟩

/-- The cache is asked before the hash is put there. -/
theorem leaves_of_remove_track {c₁ : Calls} (htrack : c₁.track = .get)
    (hremove : c₁.remove = .set) (hremoved : c₁.txHash ∉ c₁.tracker.removedTxCache)
    (h : c₁.stepTrack = some c) : c.Leaves := by
  unfold stepTrack at h
  rw [htrack] at h
  dsimp only at h
  rw [if_neg hremoved] at h
  cases h
  exact ⟨by rw [hremove]; exact nofun, trivial⟩

/-- The hash is in the cache before it is asked. -/
theorem clears_of_remove_remove {c₁ : Calls} (htrack : c₁.track = .get)
    (hremove : c₁.remove = .set) (hmem : c₁.txHash ∉ c₁.tracker.processingTxs)
    (h : c₁.stepRemove = some c) : c.Clears := by
  unfold stepRemove at h
  rw [hremove] at h
  cases h
  refine ⟨?_, Or.inr hmem⟩
  show Skips (_ ∈ insert c₁.txHash c₁.tracker.removedTxCache) c₁.track
  rw [htrack]
  exact Finset.mem_insert_self _ _

/-- The call that tracks is first, and finds nothing in the cache. -/
theorem settled_of_track (hremoved : Transaction.hash (some tx) ∉ t.removedTxCache)
    (h : (start t tx).exec (.track :: turns) = some c) (hdone : c.Finished) :
    (InOrder t tx (.track :: turns) ∧ c.Clears) ∨
      (¬InOrder t tx (.track :: turns) ∧ c.Leaves) := by
  rw [exec_cons, show (start t tx).step .track = _ from stepTrack_start hremoved,
    Option.bind_some] at h
  match turns with
  | [] =>
    cases h
    exact absurd hdone.2 nofun
  | .track :: turns =>
    rw [exec_cons] at h
    obtain ⟨c₂, hstep, hrest⟩ := Option.bind_eq_some_iff.mp h
    refine Or.inl ⟨Or.inr (Or.inl ?_), ?_⟩
    · exact List.prefix_append [.track, .track] turns
    · exact exec_invariant (fun _ _ => Clears.access) hrest
        (clears_of_track_track hstep)
  | .remove :: turns =>
    rw [exec_cons] at h
    obtain ⟨c₂, hstep, hrest⟩ := Option.bind_eq_some_iff.mp h
    refine Or.inr ⟨?_, ?_⟩
    · simp [InOrder, hremoved]
    · exact exec_invariant (fun _ _ => Leaves.access) hrest
        (leaves_of_track_remove hstep)

/-- The call that removes is first. If it finds the transaction, the other
one tracks it again; if not, it depends on which call is next. -/
theorem settled_of_remove (hremoved : Transaction.hash (some tx) ∉ t.removedTxCache)
    (h : (start t tx).exec (.remove :: turns) = some c) (hdone : c.Finished) :
    (InOrder t tx (.remove :: turns) ∧ c.Clears) ∨
      (¬InOrder t tx (.remove :: turns) ∧ c.Leaves) := by
  rw [exec_cons] at h
  obtain ⟨c₁, hstep₁, hrest₁⟩ := Option.bind_eq_some_iff.mp h
  clear h
  obtain ⟨rfl, htrack, hcache, ⟨hmem, hremove, hmap⟩ | ⟨hmem, tx', hremove⟩⟩ :=
    stepRemove_start hstep₁
  · match turns with
    | [] =>
      cases hrest₁
      rw [Finished, htrack] at hdone
      exact absurd hdone.1 nofun
    | .track :: turns =>
      rw [exec_cons] at hrest₁
      obtain ⟨c₂, hstep₂, hrest⟩ := Option.bind_eq_some_iff.mp hrest₁
      have hasked := leaves_of_remove_track htrack hremove
        (by rw [hcache]; exact hremoved) hstep₂
      exact Or.inr ⟨by simp [InOrder, hremoved],
        exec_invariant (fun _ _ => Leaves.access) hrest hasked⟩
    | .remove :: turns =>
      rw [exec_cons] at hrest₁
      obtain ⟨c₂, hstep₂, hrest⟩ := Option.bind_eq_some_iff.mp hrest₁
      have hset := clears_of_remove_remove htrack hremove
        (by rw [hmap]; exact hmem) hstep₂
      exact Or.inl
        ⟨Or.inr (Or.inr ⟨hmem, List.prefix_append [.remove, .remove] turns⟩),
        exec_invariant (fun _ _ => Clears.access) hrest hset⟩
  · -- the transaction was tracked already: it is taken out, and the other
    -- call puts it back
    have hleaves : c₁.Leaves := by
      refine ⟨by rw [hremove]; exact nofun, ?_⟩
      rw [htrack, hremove]
      exact ⟨by rw [hcache]; exact hremoved, nofun⟩
    exact Or.inr ⟨by simp [InOrder, hremoved, hmem],
      exec_invariant (fun _ _ => Leaves.access) hrest₁ hleaves⟩

/-- **What becomes of the transaction is settled after two accesses.** -/
theorem settled (h : (start t tx).exec turns = some c) (hdone : c.Finished) :
    (InOrder t tx turns ∧ c.Clears) ∨ (¬InOrder t tx turns ∧ c.Leaves) := by
  by_cases hremoved : Transaction.hash (some tx) ∈ t.removedTxCache
  · have hstart : (start t tx).Clears := ⟨hremoved, Or.inl rfl⟩
    exact Or.inl ⟨Or.inl hremoved, exec_invariant (fun _ _ => Clears.access) h hstart⟩
  match turns with
  | [] =>
    cases h
    exact absurd hdone.1 nofun
  | .track :: turns => exact settled_of_track hremoved h hdone
  | .remove :: turns => exact settled_of_remove hremoved h hdone

/-- **The transaction is not tracked after both calls**, and the count is
right, exactly if the calls were in order: from any tracker with the right
count, and for any order of their accesses. -/
theorem untracked_after_both_iff
    (hcount : t.processingCount = t.processingTxs.keys.length)
    (h : (start t tx).exec turns = some c) (hdone : c.Finished) :
    (Transaction.hash (some tx) ∉ c.tracker.processingTxs ∧
      c.tracker.processingCount = c.tracker.processingTxs.keys.length) ↔
      InOrder t tx turns := by
  have htx : c.tx = tx := exec_invariant (I := fun c => c.tx = tx)
    (fun _ _ htx haccess => by cases haccess <;> exact htx) h rfl
  have hcounted : c.Counted := exec_invariant (fun _ _ => Counted.access) h
    (show t.processingCount + 0 = (t.processingTxs.keys.length : ℤ) + 0 by
      rw [hcount])
  have hnumber : c.tracker.processingCount = c.tracker.processingTxs.keys.length := by
    unfold Counted at hcounted
    rw [hdone.1, hdone.2] at hcounted
    simpa [trackOwed, removeOwed] using hcounted
  rw [and_iff_left hnumber, ← htx]
  obtain ⟨horder, hclears⟩ | ⟨horder, hleaves⟩ := settled h hdone
  · refine iff_of_true (hclears.2.resolve_left ?_) (htx ▸ horder)
    rw [hdone.2]
    exact nofun
  · refine iff_of_false (not_not.mpr ?_) (htx ▸ horder)
    have hstored := hleaves.2
    rw [hdone.1] at hstored
    exact hstored

section

variable (hlog : TransactionTracker.logsSender tx = true)
  (hremoved : Transaction.hash (some tx) ∉ t.removedTxCache)
  (hmem : Transaction.hash (some tx) ∉ t.processingTxs)

include hlog hremoved hmem

/-- One call after the other, for a transaction that the tracker does not
know. -/
theorem exec_in_turn :
    (∃ c, (start t tx).exec
      [.track, .track, .track, .track, .remove, .remove, .remove] = some c ∧
      c.Finished) ∧
    ∃ c, (start t tx).exec [.remove, .remove, .track, .track] = some c ∧
    c.Finished := by
  have hlook := AList.lookup_eq_none.mpr hmem
  constructor
  · simp [exec_cons, exec_nil, step, stepTrack, stepRemove, start, txHash, hlog,
      hremoved, hlook, Finished]
  · simp [exec_cons, exec_nil, step, stepTrack, stepRemove, start, txHash,
      hlook, Finished]

/-- **Tracked for good.** Both calls ask first and act then: the transaction
was not removed, so it is tracked, and it was not tracked, so its hash goes
into the cache. -/
theorem exec_crossed :
    ∃ c, (start t tx).exec [.track, .remove, .remove, .track, .track, .track]
      = some c ∧
      c.Finished ∧ Transaction.hash (some tx) ∈ c.tracker.processingTxs := by
  have hlook := AList.lookup_eq_none.mpr hmem
  simp [exec_cons, exec_nil, step, stepTrack, stepRemove, start, txHash,
    hlog, hremoved, hlook, Finished]

end

end Calls

end

section

attribute [local instance] Sample.primitives

/-- One call after the other, in either order, leaves nothing behind. -/
theorem Calls.untracked_after_both_new :
    (∃ c, (Calls.start .new (Sample.transfer 1 2 5 1 0)).exec
          [.track, .track, .track, .track, .remove, .remove, .remove] = some c ∧
        Transaction.hash (some (Sample.transfer 1 2 5 1 0)) ∉
          c.tracker.processingTxs ∧
        c.tracker.processingCount = c.tracker.processingTxs.keys.length) ∧
      ∃ c, (Calls.start .new (Sample.transfer 1 2 5 1 0)).exec
        [.remove, .remove, .track, .track]
          = some c ∧
        Transaction.hash (some (Sample.transfer 1 2 5 1 0)) ∉
          c.tracker.processingTxs ∧
        c.tracker.processingCount = c.tracker.processingTxs.keys.length := by
  obtain ⟨⟨c₁, hexec₁, hdone₁⟩, c₂, hexec₂, hdone₂⟩ :=
    Calls.exec_in_turn (t := .new)
      (show TransactionTracker.logsSender (Sample.transfer 1 2 5 1 0) = true
      by decide +kernel) (Finset.notMem_empty _) (AList.notMem_empty _)
  refine ⟨⟨c₁, hexec₁, (Calls.untracked_after_both_iff rfl hexec₁ hdone₁).mpr ?_⟩,
    c₂, hexec₂, (Calls.untracked_after_both_iff rfl hexec₂ hdone₂).mpr ?_⟩
  · exact Or.inr (Or.inl (by decide))
  · exact Or.inr (Or.inr ⟨AList.notMem_empty _, by decide⟩)

/-- A transfer that is removed while it begins to be tracked stays in the
tracker. -/
theorem Calls.tracked_after_removal :
    ∃ c, (Calls.start .new (Sample.transfer 1 2 5 1 0)).exec
        [.track, .remove, .remove, .track, .track, .track] = some c ∧ c.Finished ∧
      Transaction.hash (some (Sample.transfer 1 2 5 1 0)) ∈ c.tracker.processingTxs :=
  Calls.exec_crossed (by decide +kernel) (Finset.notMem_empty _)
    (AList.notMem_empty _)

end

end Mmn
