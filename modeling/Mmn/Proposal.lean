import Mmn.Pool

/-!
# What a leader proposes and what validators accept

Validators check the transactions of a block against the nonce window and
the dedup cache. A leader makes the same two checks when it admits a
transaction, and does not make them again when it pulls it. Between the two
the window moves and the cache grows. A transaction that has waited for more
than the window is pulled although its nonce is too low by then; one that
waits while a block brings a copy of it, told apart by a field that is not
signed, is pulled although the cache has its dedup hash – the cleanup goes
by hash and leaves it (`proposal_refused`).

As long as the slot does not leave a waiting transaction behind and no block
brings a copy of one without bringing the transaction itself, whatever is
pulled would pass the checks (`proposal_accepted`). The upper end of the
window needs no condition: the slot never moves back.
-/

namespace Mmn

section

variable [Primitives]

namespace Mempool

omit [Primitives] in
/-- The smallest nonce accepted is the slot less the window, and one at
least. -/
theorem minNonce_le_iff {mp : Mempool} {nonce : UInt64} :
    mp.minNonce ≤ nonce ↔
      1 ≤ nonce.toNat ∧ mp.netCurrentSlot.toNat ≤ nonce.toNat
        + nonceWindow.toNat := by
  have hwindow : nonceWindow.toNat = 150 := rfl
  unfold minNonce
  split
  · next hlarge =>
    have hlarge := UInt64.lt_iff_toNat_lt.mp hlarge
    rw [UInt64.le_iff_toNat_le, UInt64.toNat_sub_of_le _ _
      (UInt64.le_iff_toNat_le.mpr hlarge.le)]
    omega
  · next hsmall =>
    have hsmall := UInt64.le_iff_toNat_le.mp (UInt64.not_lt.mp hsmall)
    rw [UInt64.le_iff_toNat_le]
    have hone : (1 : UInt64).toNat = 1 := rfl
    omega

/-- The checks of a block's transactions, one by one. -/
theorem verifyBlockTransactions_eq_ok {mp : Mempool} {ds : DedupService}
    {txs : List Transaction} :
    mp.verifyBlockTransactions ds txs = .ok () ↔
      ∀ tx ∈ txs, (mp.minNonce ≤ tx.nonce ∧ tx.nonce ≤ mp.netCurrentSlot) ∧
        tx.dedupHash ∉ ds.cache := by
  unfold verifyBlockTransactions
  rw [forall₂_and, ← validateNonce_eq_ok, ← validateDuplicateTxs_eq_ok]
  cases mp.validateNonce txs with
  | error err => simp
  | ok _ => simp

end Mempool

namespace Pool

/-- **The calls that keep what waits acceptable.** The slot does not leave a
transaction behind that waits, and a block with the dedup hash of one brings
that one. -/
def KeepsCurrent (p : Pool) : PoolCall → Prop
  | .setCurrentSlot slot => ∀ e ∈ p.mempool.txs.entries,
      slot.toNat ≤ e.2.nonce.toNat + nonceWindow.toNat
  | .receiveBlock txs => ∀ e ∈ p.mempool.txs.entries,
      e.2.dedupHash ∈ txs.map Transaction.dedupHash →
        e.1 ∈ txs.map (fun tx => Transaction.hash (some tx))
  | _ => True

instance (p : Pool) : (c : PoolCall) → Decidable (p.KeepsCurrent c)
  | .setCurrentSlot _ => inferInstanceAs (Decidable (∀ _ ∈ _, _))
  | .receiveBlock _ => inferInstanceAs (Decidable (∀ _ ∈ _, _))
  | .addTx _ _ | .pullBatch _ _ | .blockCleanup _ | .expireDedup _ => isTrue trivial

/-- **What waits is acceptable**: its nonce is in the window, and the cache
does not have its dedup hash. -/
structure Acceptable (p : Pool) : Prop where
  /-- The transactions that wait have different dedup hashes. -/
  guarded : p.mempool.Guarded
  passes : ∀ h tx, p.mempool.txs.lookup h = some tx →
    (p.mempool.minNonce ≤ tx.nonce ∧ tx.nonce ≤ p.mempool.netCurrentSlot) ∧
      tx.dedupHash ∉ p.dedup.cache

namespace Acceptable

variable {p : Pool}

theorem new (maxSize : ℕ) (ds : DedupService) : Acceptable (Pool.new maxSize ds) where
  guarded := .new maxSize
  passes _ _ hlook := by cases hlook

theorem addTx (h : Acceptable p) (s : Store) (tx : Transaction) :
    Acceptable { p with mempool := (p.mempool.addTx p.dedup s tx).1 } := by
  by_cases hadm : p.mempool.Admissible p.dedup s tx
  · rw [Mempool.addTx_of_admissible hadm]
    have hnonce := Mempool.validateNonce_eq_ok.mp
      (Mempool.amount_of_cheapValidateTransaction hadm.1).2 tx
        (List.mem_singleton_self tx)
    obtain ⟨hfresh, hnew, -⟩ := Mempool.validateTransaction_eq_ok.mp hadm.2
    refine ⟨h.guarded.put hfresh, fun k tx' hlook => ?_⟩
    unfold Mempool.minNonce
    rw [show ({ p with mempool := p.mempool.put tx } : Pool).mempool.netCurrentSlot
      = p.mempool.netCurrentSlot from (p.mempool.put_frame tx).2.2]
    obtain ⟨-, rfl⟩ | ⟨-, hold⟩ := Mempool.lookup_put hlook
    · exact ⟨hnonce, hnew⟩
    · exact h.passes k tx' hold
  · obtain ⟨err, herr⟩ := Mempool.addTx_of_not_admissible hadm
    rw [herr]
    exact h

/-- Taking transactions out and remembering dedup hashes, none of which
still waits. -/
theorem remove (h : Acceptable p) {hs order : List String} {mp : Mempool}
    {taken : List Transaction} (hdrop : p.mempool.dropAll hs = some (mp, taken))
    (hashes : List String)
    (hgone : ∀ k tx, mp.txs.lookup k = some tx → tx.dedupHash ∉ hashes) :
    Acceptable ⟨{ mp with txOrder := order }, p.dedup.add hashes⟩ := by
  obtain ⟨hguarded, -, -⟩ := h.guarded.dropAll hdrop
  refine ⟨hguarded.of_eq rfl rfl, fun k tx hlook => ?_⟩
  have hlook : mp.txs.lookup k = some tx := hlook
  obtain ⟨hnonce, hcache⟩ := h.passes k tx ((Mempool.dropAll_spec hdrop).1 k tx hlook)
  have hslot := Mempool.netCurrentSlot_dropAll hdrop
  unfold Mempool.minNonce at hnonce ⊢
  dsimp only
  rw [hslot]
  refine ⟨hnonce, fun hmem => ?_⟩
  exact (DedupService.mem_add.mp hmem).elim (hgone k tx hlook) hcache

theorem pullBatch (h : Acceptable p) {t t' : TransactionTracker} {size : ℕ}
    {mp : Mempool} {ds : DedupService} {batch : List Transaction}
    (hpull : p.mempool.pullBatch p.dedup t size = some (mp, ds, t', batch)) :
    Acceptable ⟨mp, ds⟩ := by
  obtain ⟨mp₁, hdrop, rfl, rfl⟩ := Mempool.pullBatch_cases hpull
  refine h.remove hdrop _ fun k tx hlook hmem => ?_
  obtain ⟨tx', htx', heq⟩ := List.mem_map.mp hmem
  exact (h.guarded.dropAll hdrop).2.2 tx' htx' k tx hlook heq.symm

theorem receiveBlock (h : Acceptable p) {txs : List Transaction} {mp : Mempool}
    (hkeeps : p.KeepsCurrent (.receiveBlock txs))
    (hclean : p.mempool.blockCleanup (txs.map (fun tx => Transaction.hash (some tx)))
      = some mp) :
    Acceptable ⟨mp, p.dedup.add (txs.map Transaction.dedupHash)⟩ := by
  obtain ⟨mp₁, taken, hdrop, rfl⟩ := Mempool.blockCleanup_cases hclean
  refine h.remove hdrop _ fun k tx hlook hmem => ?_
  -- a transaction that still waits is not in the block, by hash or by dedup
  -- hash
  rw [Mempool.lookup_dropAll hdrop] at hlook
  split at hlook
  · cases hlook
  · next hnot => exact hnot (hkeeps ⟨k, tx⟩ (AList.mem_lookup_iff.mp hlook) hmem)

theorem blockCleanup (h : Acceptable p) {hs : List String} {mp : Mempool}
    (hclean : p.mempool.blockCleanup hs = some mp) :
    Acceptable { p with mempool := mp } := by
  obtain ⟨mp₁, taken, hdrop, rfl⟩ := Mempool.blockCleanup_cases hclean
  exact h.remove hdrop [] fun _ _ _ hmem => by cases hmem

theorem setCurrentSlot (h : Acceptable p) {slot : UInt64}
    (hkeeps : p.KeepsCurrent (.setCurrentSlot slot)) :
    Acceptable { p with mempool := p.mempool.setCurrentSlot slot } := by
  unfold Mempool.setCurrentSlot
  split
  · exact h
  · next hahead =>
    refine ⟨⟨h.guarded.mem, h.guarded.distinct⟩, fun k tx hlook => ?_⟩
    obtain ⟨⟨hlow, hhigh⟩, hcache⟩ := h.passes k tx hlook
    refine ⟨⟨?_, ?_⟩, hcache⟩
    · exact Mempool.minNonce_le_iff.mpr
        ⟨(Mempool.minNonce_le_iff.mp hlow).1,
          hkeeps ⟨k, tx⟩ (AList.mem_lookup_iff.mp hlook)⟩
    · exact UInt64.le_trans hhigh (UInt64.le_of_lt (UInt64.not_le.mp hahead))

/-- **Every call that keeps what waits current keeps it acceptable.** -/
theorem step (h : Acceptable p) {c : PoolCall} (hkeeps : p.KeepsCurrent c) {p' : Pool}
    (hstep : p.step c = some p') : Acceptable p' := by
  cases c with
  | addTx s tx =>
    cases hstep
    exact h.addTx s tx
  | pullBatch t size =>
    obtain ⟨⟨mp, ds, t', batch⟩, hpull, rfl⟩ := Option.map_eq_some_iff.mp hstep
    exact h.pullBatch hpull
  | blockCleanup hs =>
    obtain ⟨mp, hclean, rfl⟩ := Option.map_eq_some_iff.mp hstep
    exact h.blockCleanup hclean
  | receiveBlock txs =>
    obtain ⟨mp, hclean, rfl⟩ := Option.map_eq_some_iff.mp hstep
    exact h.receiveBlock hkeeps hclean
  | setCurrentSlot slot =>
    cases hstep
    exact h.setCurrentSlot hkeeps
  | expireDedup hashes =>
    cases hstep
    refine ⟨h.guarded, fun k tx hlook => ⟨(h.passes k tx hlook).1, fun hmem => ?_⟩⟩
    exact (h.passes k tx hlook).2 (Finset.mem_sdiff.mp hmem).1

end Acceptable

/-- **What is pulled would be accepted**, in every run whose calls keep what
waits current: on the pool right before the pull, the checks of a block's
transactions pass for the batch. -/
theorem proposal_accepted {maxSize : ℕ} {ds : DedupService} {p : Pool}
    (hrun : Machine.Run Pool.step KeepsCurrent (Pool.new maxSize ds) p)
    {t t' : TransactionTracker} {size : ℕ} {mp : Mempool} {ds' : DedupService}
    {batch : List Transaction}
    (hpull : p.mempool.pullBatch p.dedup t size = some (mp, ds', t', batch)) :
    p.mempool.verifyBlockTransactions p.dedup batch = .ok () := by
  have hinv := hrun.invariant (I := Acceptable) (.new maxSize ds)
    (fun _ _ _ h hkeeps hstep => h.step hkeeps hstep)
  refine Mempool.verifyBlockTransactions_eq_ok.mpr fun tx htx => ?_
  obtain ⟨k, hlook⟩ := (Mempool.pullBatch_spec hpull).2 tx htx
  exact hinv.passes k tx hlook

end Pool

end

/-! ## Examples -/

section Sample

attribute [local instance] Sample.primitives

open Sample

/-- What a pull returns, and what the checks say of it on the pool before. -/
def Pool.proposes (p : Pool) : Option (List Transaction × Except String Unit) :=
  (p.mempool.pullBatch p.dedup TransactionTracker.new 10).map
    (fun r => (r.2.2.2, p.mempool.verifyBlockTransactions p.dedup r.2.2.2))

/-- **A leader proposes what validators refuse**: a transfer that has waited
for too long, and a transfer of which a block brought a copy with another
timestamp. -/
theorem proposal_refused :
    (∃ p, Machine.Run Pool.step Machine.Always (Pool.new 10 DedupService.new) p ∧
      p.proposes = some ([transfer 2 1 30 1 0],
        .error (networkError "nonce_too_low" "Transaction nonce is too low"))) ∧
    ∃ p, Machine.Run Pool.step Machine.Always (Pool.new 10 DedupService.new) p ∧
      p.proposes = some ([transfer 2 1 30 1 0],
        .error (networkError "duplicate_transaction"
          "This transaction already exists")) := by
  refine ⟨?_, ?_⟩
  · obtain ⟨p, hrun, htest⟩ := Pool.exists_run Machine.Always
      (fun p => decide (p.proposes = some ([transfer 2 1 30 1 0],
        .error (networkError "nonce_too_low" "Transaction nonce is too low"))))
      (Pool.new 10 DedupService.new)
      [.setCurrentSlot 1, .addTx (ledger 100) (transfer 2 1 30 1 0),
        .setCurrentSlot 152]
      (by decide +kernel)
    exact ⟨p, hrun, of_decide_eq_true htest⟩
  · obtain ⟨p, hrun, htest⟩ := Pool.exists_run Machine.Always
      (fun p => decide (p.proposes = some ([transfer 2 1 30 1 0],
        .error (networkError "duplicate_transaction"
          "This transaction already exists"))))
      (Pool.new 10 DedupService.new)
      [.setCurrentSlot 1, .addTx (ledger 100) (transfer 2 1 30 1 0),
        .receiveBlock [transfer 2 1 30 1 1]]
      (by decide +kernel)
    exact ⟨p, hrun, of_decide_eq_true htest⟩

/-- At the end of its window the transfer is still accepted. -/
theorem proposal_accepted_in_window :
    ∃ p, Machine.Run Pool.step Pool.KeepsCurrent (Pool.new 10 DedupService.new) p ∧
      ∃ mp ds t, p.mempool.pullBatch p.dedup TransactionTracker.new 10
          = some (mp, ds, t, [transfer 2 1 30 1 0]) ∧
        p.mempool.verifyBlockTransactions p.dedup [transfer 2 1 30 1 0] = .ok () := by
  obtain ⟨p, hrun, htest⟩ := Pool.exists_run Pool.KeepsCurrent
    (fun p => decide ((p.mempool.pullBatch p.dedup TransactionTracker.new 10).map
      (fun r => r.2.2.2) = some [transfer 2 1 30 1 0]))
    (Pool.new 10 DedupService.new)
    [.setCurrentSlot 1, .addTx (ledger 100) (transfer 2 1 30 1 0),
      .setCurrentSlot 151]
    (by decide +kernel)
  obtain ⟨⟨mp, ds, t, batch⟩, hpull, hbatch⟩ :=
    Option.map_eq_some_iff.mp (of_decide_eq_true htest)
  cases hbatch
  exact ⟨p, hrun, mp, ds, t, hpull, Pool.proposal_accepted hrun hpull⟩

end Sample

end Mmn
