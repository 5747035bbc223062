import Mmn.Pool

/-!
# What a leader emits

A transaction is emitted when a batch with it is pulled. That no transaction
is emitted twice rests on two memories: the set of what waits, which the
mempool keeps under its lock, and the dedup cache, which has a lock of its
own. `PullBatch` takes a transaction out of the first with the lock held,
and writes it to the second after the lock is released. In between it is in
neither, and a concurrent `AddTx` of the same transaction finds nothing that
speaks against it: the copy is admitted and emitted by a later pull
(`emitted_twice`).

The machine of this file has the locked sections as its steps. The checks
`AddTx` makes before it has the lock are a step of their own, and so is the
write to the cache. A pull undisturbed is the `pullBatch` of the mempool
(`take_remember`). In the interleavings in which no transaction is admitted
while its dedup hash is between the two memories, nothing is emitted twice
(`emitted_once`).
-/

namespace Mmn

section

variable [Primitives]

/-- **The mempool under concurrent calls.** -/
structure Emission where
  /-- The transactions that wait. -/
  mempool : Mempool
  /-- The dedup cache. It does not expire. -/
  dedup : DedupService
  /-- The calls of `AddTx` that have made their first checks and wait for
  the lock. -/
  checked : List Transaction
  /-- The batches of the calls of `PullBatch` that have not yet written to
  the cache. -/
  pulled : List (List Transaction)
  /-- Everything pulled so far, oldest first. -/
  emitted : List Transaction

/-- **The atomic sections** of the calls. -/
inductive Emission.Section where
  /-- The checks of `AddTx` without the lock. -/
  | check (tx : Transaction)
  /-- The locked section of a waiting `AddTx`, with the stores of that
  moment. -/
  | enter (i : ℕ) (s : Store)
  /-- The locked section of `PullBatch`. -/
  | take (batchSize : ℕ)
  /-- The write to the cache of a `PullBatch`. -/
  | remember (i : ℕ)
  /-- `BlockCleanup`, which has the lock throughout. -/
  | cleanup (txHashSet : List String)
  /-- The slot nonces are compared with moves. -/
  | setCurrentSlot (slot : UInt64)

namespace Emission

/-- A fresh process, with the dedup hashes it loaded. -/
def new (maxSize : ℕ) (ds : DedupService) : Emission :=
  { mempool := Mempool.new maxSize, dedup := ds, checked := [], pulled := [],
    emitted := [] }

/-- The locked section of an `AddTx`. -/
def admitTx (e : Emission) (s : Store) (tx : Transaction) : Mempool :=
  match e.mempool.validateTransaction e.dedup s tx with
  | .error _ => e.mempool
  | .ok () => e.mempool.put tx

/-- **One section.** No state after it is a process that stopped. -/
def step (e : Emission) : Section → Option Emission
  | .check tx =>
    match e.mempool.cheapValidateTransaction tx with
    | .error _ => some e
    | .ok () => some { e with checked := e.checked ++ [tx] }
  | .enter i s =>
    match e.checked[i]? with
    | none => some e
    | some tx =>
      some { e with mempool := e.admitTx s tx, checked := e.checked.eraseIdx i }
  | .take batchSize =>
    match ({ e.mempool with txOrder := e.mempool.txOrder.drop batchSize } :
      Mempool).dropAll
        (e.mempool.txOrder.take batchSize) with
    | none => none
    | some (mempool, batch) => some { e with
        mempool := mempool
        pulled := e.pulled ++ [batch]
        emitted := e.emitted ++ batch }
  | .remember i =>
    match e.pulled[i]? with
    | none => some e
    | some batch => some { e with
        dedup := e.dedup.add (batch.map Transaction.dedupHash)
        pulled := e.pulled.eraseIdx i }
  | .cleanup txHashSet =>
    (e.mempool.blockCleanup txHashSet).map fun mempool =>
      { e with mempool := mempool }
  | .setCurrentSlot slot => some { e with mempool := e.mempool.setCurrentSlot slot }

/-- **The sections of a pull, one after the other, are the pull**: from a
state without pulls under way they end with the mempool, the cache and the
batch of `pullBatch`. -/
theorem take_remember {e : Emission} (hnone : e.pulled = [])
    {t t' : TransactionTracker} {size : ℕ} {mp : Mempool} {ds : DedupService}
    {batch : List Transaction}
    (hpull : e.mempool.pullBatch e.dedup t size = some (mp, ds, t', batch)) :
    (e.step (.take size)).bind (fun e => e.step (.remember 0))
      = some { e with mempool := mp, dedup := ds, emitted := e.emitted
        ++ batch } := by
  unfold Mempool.pullBatch at hpull
  dsimp only at hpull
  cases hdrop : Mempool.dropAll
    { e.mempool with txOrder := e.mempool.txOrder.drop size }
      (e.mempool.txOrder.take size) with
  | none =>
    rw [hdrop] at hpull
    cases hpull
  | some r =>
    have htake : e.step (.take size) = some { e with
        mempool := r.1, pulled := e.pulled ++ [r.2], emitted :=
          e.emitted ++ r.2 } := by
      dsimp only [step]
      rw [hdrop]
    rw [hdrop] at hpull
    rw [htake, hnone]
    dsimp only at hpull
    split at hpull
    · cases hpull
    · cases hpull
      rfl

/-- **No copy is admitted in between**: a transaction that gets the lock
does not have the dedup hash of one that is pulled and not yet in the cache. -/
def Apart (e : Emission) : Section → Prop
  | .enter i _ => ∀ tx ∈ e.checked[i]?, ∀ batch ∈ e.pulled,
      tx.dedupHash ∉ batch.map Transaction.dedupHash
  | _ => True

instance (e : Emission) : (c : Section) → Decidable (e.Apart c)
  | .enter _ _ => inferInstanceAs (Decidable (∀ _ ∈ _, ∀ _ ∈ _, _))
  | .check _ | .take _ | .remember _ | .cleanup _ | .setCurrentSlot _ =>
    isTrue trivial

/-! ## The invariant -/

/-- **Nothing was emitted twice**, and nothing that was emitted waits or can
be admitted. -/
structure Once (e : Emission) : Prop where
  /-- The transactions that wait have different dedup hashes. -/
  guarded : e.mempool.Guarded
  /-- What was emitted is in the cache, or on its way there. -/
  known : ∀ tx ∈ e.emitted, tx.dedupHash ∈ e.dedup.cache ∨
    ∃ batch ∈ e.pulled, tx.dedupHash ∈ batch.map Transaction.dedupHash
  /-- What waits was not emitted. -/
  waiting : ∀ h tx, e.mempool.txs.lookup h = some tx → ∀ tx' ∈ e.emitted,
    tx'.dedupHash ≠ tx.dedupHash
  nodup : (e.emitted.map Transaction.dedupHash).Nodup

namespace Once

variable {e e' : Emission}

theorem new (maxSize : ℕ) (ds : DedupService) : Once (Emission.new maxSize ds) where
  guarded := .new maxSize
  known _ htx := by cases htx
  waiting _ _ hlook := by cases hlook
  nodup := List.nodup_nil

theorem enter (h : Once e) {i : ℕ} {s : Store} {tx : Transaction}
    (htx : e.checked[i]? = some tx) (hapart : e.Apart (.enter i s))
    (checked : List Transaction) :
    Once { e with mempool := e.admitTx s tx, checked := checked } := by
  unfold admitTx
  split
  · exact ⟨h.guarded, h.known, h.waiting, h.nodup⟩
  · next hvalid =>
    obtain ⟨hfresh, hnew, -⟩ := Mempool.validateTransaction_eq_ok.mp hvalid
    refine ⟨h.guarded.put hfresh, h.known, fun k tx₁ hlook tx₂ htx₂ => ?_, h.nodup⟩
    obtain ⟨-, rfl⟩ | ⟨-, hold⟩ := Mempool.lookup_put hlook
    · -- an emitted copy would be in the cache, or between the two memories
      intro heq
      obtain hcache | ⟨batch, hbatch, hmem⟩ := h.known tx₂ htx₂
      · exact hnew (heq ▸ hcache)
      · exact hapart tx₁ htx batch hbatch (heq ▸ hmem)
    · exact h.waiting k tx₁ hold tx₂ htx₂

theorem take (h : Once e) {mp : Mempool} {hs order : List String}
    {batch : List Transaction}
    (hdrop : ({ e.mempool with txOrder := order } : Mempool).dropAll hs
      = some (mp, batch)) :
    Once { e with
      mempool := mp
      pulled := e.pulled ++ [batch]
      emitted := e.emitted ++ batch } := by
  have hguarded : Mempool.Guarded { e.mempool with txOrder := order } :=
    ⟨h.guarded.mem, h.guarded.distinct⟩
  obtain ⟨hafter, hnodup, hgone⟩ := hguarded.dropAll hdrop
  obtain ⟨hkeep, htaken⟩ := Mempool.dropAll_spec hdrop
  refine ⟨hafter, fun tx htx => ?_, fun k tx hlook tx' htx' => ?_, ?_⟩
  · obtain htx | htx := List.mem_append.mp htx
    · refine (h.known tx htx).imp_right fun ⟨batch', hbatch', hmem⟩ => ?_
      exact ⟨batch', List.mem_append_left _ hbatch', hmem⟩
    · exact Or.inr ⟨batch, List.mem_append_right _ (List.mem_singleton_self batch),
        List.mem_map_of_mem htx⟩
  · obtain htx' | htx' := List.mem_append.mp htx'
    · exact h.waiting k tx (hkeep k tx hlook) tx' htx'
    · exact (hgone tx' htx' k tx hlook).symm
  · -- the batch waited, so none of it was emitted before
    show ((e.emitted ++ batch).map Transaction.dedupHash).Nodup
    rw [List.map_append]
    refine List.nodup_append.mpr ⟨h.nodup, hnodup, fun d hd d' hd' => ?_⟩
    obtain ⟨tx, htx, rfl⟩ := List.mem_map.mp hd
    obtain ⟨tx', htx', rfl⟩ := List.mem_map.mp hd'
    obtain ⟨k, hlook⟩ := htaken tx' htx'
    exact h.waiting k tx' hlook tx htx

theorem remember (h : Once e) {i : ℕ} {batch : List Transaction}
    (hbatch : e.pulled[i]? = some batch) :
    Once { e with
      dedup := e.dedup.add (batch.map Transaction.dedupHash)
      pulled := e.pulled.eraseIdx i } := by
  refine ⟨h.guarded, fun tx htx => ?_, h.waiting, h.nodup⟩
  rw [DedupService.mem_add]
  obtain hcache | ⟨batch', hbatch', hmem⟩ := h.known tx htx
  · exact Or.inl (Or.inr hcache)
  · -- its batch is the one written now, or still under way
    obtain ⟨j, hj⟩ := List.mem_iff_getElem?.mp hbatch'
    by_cases hij : j = i
    · rw [hij, hbatch] at hj
      cases hj
      exact Or.inl (Or.inl hmem)
    · exact Or.inr ⟨batch', List.mem_eraseIdx_iff_getElem?.mpr ⟨j, hij, hj⟩, hmem⟩

/-- A cleanup takes away from what waits, and from nothing else. -/
theorem cleanup (h : Once e) {mp : Mempool} {hs : List String}
    (hclean : e.mempool.blockCleanup hs = some mp) :
    Once { e with mempool := mp } := by
  refine ⟨?_, h.known, fun k tx hlook => ?_, h.nodup⟩
  · obtain ⟨mp₁, txs, hdrop, rfl⟩ := Mempool.blockCleanup_cases hclean
    obtain ⟨hafter, -, -⟩ := h.guarded.dropAll hdrop
    exact ⟨hafter.mem, hafter.distinct⟩
  · exact h.waiting k tx (Mempool.lookup_of_blockCleanup hclean hlook)

/-- **Every section keeps the invariant**, if no copy is admitted in
between. -/
theorem step (h : Once e) {c : Section} (hapart : e.Apart c)
    (hstep : e.step c = some e') :
    Once e' := by
  cases c with
  | check tx =>
    dsimp only [Emission.step] at hstep
    split at hstep
    · cases hstep
      exact h
    · cases hstep
      exact ⟨h.guarded, h.known, h.waiting, h.nodup⟩
  | enter i s =>
    dsimp only [Emission.step] at hstep
    split at hstep
    · cases hstep
      exact h
    · next tx htx =>
      cases hstep
      exact h.enter htx hapart _
  | take size =>
    dsimp only [Emission.step] at hstep
    split at hstep
    · cases hstep
    · next mp batch hdrop =>
      cases hstep
      exact h.take hdrop
  | remember i =>
    dsimp only [Emission.step] at hstep
    split at hstep
    · cases hstep
      exact h
    · next batch hbatch =>
      cases hstep
      exact h.remember hbatch
  | cleanup hs =>
    obtain ⟨mp, hclean, rfl⟩ := Option.map_eq_some_iff.mp hstep
    exact h.cleanup hclean
  | setCurrentSlot slot =>
    cases hstep
    refine ⟨?_, h.known, ?_, h.nodup⟩
    · refine h.guarded.of_eq (Mempool.txs_setCurrentSlot _ _) ?_
      unfold Mempool.setCurrentSlot
      split <;> rfl
    · rw [show ({ e with mempool := e.mempool.setCurrentSlot slot } :
        Emission).mempool.txs = e.mempool.txs from Mempool.txs_setCurrentSlot _ _]
      exact h.waiting

end Once

/-- **Nothing is emitted twice** in an interleaving in which no copy of a
transaction is admitted between its pull and the write to the cache. -/
theorem emitted_once {maxSize : ℕ} {ds : DedupService} {e : Emission}
    (hrun : Machine.Run Emission.step Apart (Emission.new maxSize ds) e) :
    (e.emitted.map Transaction.dedupHash).Nodup := by
  have hinv := hrun.invariant (I := Once) (.new maxSize ds)
    (fun _ _ _ h hapart hstep => h.step hapart hstep)
  exact hinv.nodup

end Emission

end

/-! ## Examples -/

section Sample

attribute [local instance] Sample.primitives

open Sample

/-- A transfer is pulled, and its copy admitted before the cache has it. -/
def Sample.resubmission : List Emission.Section :=
  [.setCurrentSlot 1, .check (transfer 2 1 30 1 0), .enter 0 (ledger 100), .take 1,
    .check (transfer 2 1 30 1 0), .enter 0 (ledger 100), .remember 0, .take 1]

/-- **A transfer is emitted twice.** -/
theorem emitted_twice :
    ∃ e, Machine.Run Emission.step Machine.Always
      (Emission.new 10 DedupService.new) e ∧
      e.emitted = [transfer 2 1 30 1 0, transfer 2 1 30 1 0] := by
  have hexec : (Machine.exec Emission.step Machine.Always
    (Emission.new 10 DedupService.new)
      resubmission).any (fun e => decide (e.emitted
        = [transfer 2 1 30 1 0, transfer 2 1 30 1 0])) = true := by
    decide +kernel
  obtain ⟨e, hrun, htest⟩ := Machine.exists_run_of_exec hexec
  exact ⟨e, hrun, of_decide_eq_true htest⟩

/-- If the copy comes after the write it is refused. -/
theorem emitted_once_resubmission :
    ∃ e, Machine.Run Emission.step Emission.Apart
      (Emission.new 10 DedupService.new) e ∧
      e.emitted = [transfer 2 1 30 1 0] ∧
      (e.emitted.map Transaction.dedupHash).Nodup := by
  have hexec : (Machine.exec Emission.step Emission.Apart
    (Emission.new 10 DedupService.new)
      [.setCurrentSlot 1, .check (transfer 2 1 30 1 0),
        .enter 0 (ledger 100), .take 1,
        .remember 0, .check (transfer 2 1 30 1 0), .enter 0 (ledger 100),
        .take 1]).any
      (fun e => decide (e.emitted = [transfer 2 1 30 1 0])) = true := by
    decide +kernel
  obtain ⟨e, hrun, htest⟩ := Machine.exists_run_of_exec hexec
  exact ⟨e, hrun, of_decide_eq_true htest, Emission.emitted_once hrun⟩

end Sample

end Mmn
