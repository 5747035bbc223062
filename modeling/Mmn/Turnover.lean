import Mmn.Mempool

/-!
# What the mempool's functions do

One lemma for each function of the mempool: what its checks ask, what
admitting a transaction puts, and what taking some out leaves. The loop that
takes transactions out is the same for a pulled batch and for a received
block; `Mempool.dropAll_rule` is its induction rule, and the two callers are
reduced to it by `Mempool.pullBatch_cases` and `Mempool.blockCleanup_cases`.
-/

namespace Mmn

variable [Primitives]

omit [Primitives] in
theorem DedupService.mem_add {ds : DedupService} {hashes : List String} {d : String} :
    d ∈ (ds.add hashes).cache ↔ d ∈ hashes ∨ d ∈ ds.cache := by
  have hloop : ∀ (hashes : List String) (cache : Finset String),
      d ∈ hashes.foldl (fun c h => insert h c) cache ↔ d ∈ hashes ∨ d ∈ cache := by
    intro hashes
    induction hashes with
    | nil => simp
    | cons h hashes ih =>
      intro cache
      rw [List.foldl_cons, ih, Finset.mem_insert, List.mem_cons]
      tauto
  exact hloop hashes ds.cache

namespace Mempool

/-! ## What the checks ask -/

/-- The smallest nonce that is accepted. -/
def minNonce (mp : Mempool) : UInt64 :=
  if mp.netCurrentSlot > nonceWindow then mp.netCurrentSlot - nonceWindow else 1

omit [Primitives] in
theorem validateNonce_eq_ok {mp : Mempool} {txs : List Transaction} :
    mp.validateNonce txs = .ok () ↔
      ∀ tx ∈ txs, mp.minNonce ≤ tx.nonce ∧ tx.nonce ≤ mp.netCurrentSlot := by
  induction txs with
  | nil => simp [validateNonce]
  | cons tx txs ih =>
    have hcons : mp.validateNonce (tx :: txs)
        = if tx.nonce < mp.minNonce then
            .error (networkError "nonce_too_low" "Transaction nonce is too low")
          else if tx.nonce > mp.netCurrentSlot then
            .error (networkError "nonce_too_high" "Transaction nonce is too high")
          else mp.validateNonce txs := rfl
    rw [List.forall_mem_cons, ← ih, hcons]
    split
    · next hlow => simp [UInt64.not_le.mpr hlow]
    · next hlow =>
      split
      · next hhigh => simp [UInt64.not_le.mpr hhigh]
      · next hhigh => simp [UInt64.not_lt.mp hlow, UInt64.not_lt.mp hhigh]

theorem validateDuplicateTxs_eq_ok {ds : DedupService} {txs : List Transaction} :
    validateDuplicateTxs ds txs = .ok () ↔ ∀ tx ∈ txs, tx.dedupHash ∉ ds.cache := by
  induction txs with
  | nil => simp [validateDuplicateTxs]
  | cons tx txs ih =>
    have hcons : validateDuplicateTxs ds (tx :: txs)
        = if tx.dedupHash ∈ ds.cache then
            .error (networkError "duplicate_transaction"
              "This transaction already exists")
          else validateDuplicateTxs ds txs := by
      rw [validateDuplicateTxs, DedupService.isDuplicate]
      simp only [decide_eq_true_eq]
    rw [List.forall_mem_cons, ← ih, hcons]
    split
    · next hdup => simp [hdup]
    · next hdup => simp [hdup]

/-- What passes the checks without the lock has an amount, unless it is
content, and a nonce in the window. -/
theorem amount_of_cheapValidateTransaction {mp : Mempool} {tx : Transaction}
    (h : mp.cheapValidateTransaction tx = .ok ()) :
    (tx.type ≠ txTypeUserContent → ∃ amount, tx.amount = some amount ∧ amount ≠ 0) ∧
      mp.validateNonce [tx] = .ok () := by
  unfold cheapValidateTransaction at h
  dsimp only at h
  split at h
  · cases h
  next hamount =>
  split at h
  · cases h
  split at h
  · cases h
  split at h
  · cases h
  next hnonce =>
  refine ⟨fun htype => ?_, hnonce⟩
  cases hsome : tx.amount with
  | none => exact absurd ⟨Or.inl hsome, htype⟩ hamount
  | some amount =>
    refine ⟨amount, rfl, fun hzero => ?_⟩
    exact hamount ⟨Or.inr (hzero ▸ hsome), htype⟩

/-- What passes the checks with the lock is new to both memories, and is
valid content or a transfer its sender can pay. -/
theorem validateTransaction_eq_ok {mp : Mempool} {ds : DedupService} {s : Store}
    {tx : Transaction} :
    mp.validateTransaction ds s tx = .ok () ↔
      tx.dedupHash ∉ mp.dedupTxHashSet ∧ tx.dedupHash ∉ ds.cache ∧
        (if tx.type = txTypeUserContent then Mempool.validateUserContent s tx
          else mp.validateBalance s tx) = .ok () := by
  unfold validateTransaction
  split
  · next hwaits => simp [hwaits]
  · next hwaits =>
    split
    · next err herr =>
      have hdup : tx.dedupHash ∈ ds.cache := by
        by_contra hnot
        rw [validateDuplicateTxs_eq_ok.mpr (by simpa using hnot)] at herr
        cases herr
      simp [hdup]
    · next hok =>
      have hnew : tx.dedupHash ∉ ds.cache :=
        validateDuplicateTxs_eq_ok.mp hok tx (List.mem_singleton_self tx)
      simp [hwaits, hnew]

/-- **The transaction passes all checks** of an admission. -/
def Admissible (mp : Mempool) (ds : DedupService) (s : Store)
    (tx : Transaction) : Prop :=
  mp.cheapValidateTransaction tx = .ok () ∧ mp.validateTransaction ds s tx = .ok ()

/-- **Admission**: a transaction that passes is put and its hash returned;
any other leaves the pool as it is. -/
theorem addTx_of_admissible {mp : Mempool} {ds : DedupService} {s : Store}
    {tx : Transaction} (h : mp.Admissible ds s tx) :
    mp.addTx ds s tx = (mp.put tx, .ok (Transaction.hash (some tx))) := by
  unfold addTx
  rw [h.1]
  dsimp only
  rw [h.2]

theorem addTx_of_not_admissible {mp : Mempool} {ds : DedupService} {s : Store}
    {tx : Transaction} (h : ¬ mp.Admissible ds s tx) :
    ∃ err, mp.addTx ds s tx = (mp, .error err) := by
  unfold addTx
  split
  · exact ⟨_, rfl⟩
  · next hcheap =>
    split
    · exact ⟨_, rfl⟩
    · next hvalid => exact absurd ⟨hcheap, hvalid⟩ h

/-! ## Putting and taking out -/

theorem txs_put (mp : Mempool) (tx : Transaction) :
    (mp.put tx).txs = mp.txs.insert (Transaction.hash (some tx)) tx := by
  unfold put
  dsimp only
  split <;> rfl

theorem put_frame (mp : Mempool) (tx : Transaction) :
    (mp.put tx).txOrder = mp.txOrder ++ [Transaction.hash (some tx)] ∧
      (mp.put tx).dedupTxHashSet = insert tx.dedupHash mp.dedupTxHashSet ∧
      (mp.put tx).netCurrentSlot = mp.netCurrentSlot := by
  unfold put
  dsimp only
  split <;> exact ⟨rfl, rfl, rfl⟩

/-- The totals once a transaction is taken out: nothing is done for a sender
without one, and a total without an amount to subtract stops the process. -/
def totalsWithout (mp : Mempool) (tx : Transaction) :
    Option (AList (fun _ : String => BitVec 256)) :=
  match mp.senderTotalAmount.lookup tx.sender, tx.amount with
  | none, _ => some mp.senderTotalAmount
  | some _, none => none
  | some total, some amount =>
    if total - amount = 0 then some (mp.senderTotalAmount.erase tx.sender)
    else some (mp.senderTotalAmount.insert tx.sender (total - amount))

/-- The pool without a transaction, and with new totals. -/
def without (mp : Mempool) (h : String) (tx : Transaction)
    (totals : AList (fun _ : String => BitVec 256)) : Mempool :=
  { mp with
    txs := mp.txs.erase h
    dedupTxHashSet := mp.dedupTxHashSet.erase tx.dedupHash
    senderTotalAmount := totals }

/-- **Taking a transaction out** erases it from two collections and updates
the totals. -/
theorem drop_eq (mp : Mempool) (h : String) (tx : Transaction) :
    mp.drop h tx = (mp.totalsWithout tx).map (mp.without h tx) := by
  unfold drop totalsWithout
  dsimp only
  cases mp.senderTotalAmount.lookup tx.sender with
  | none => rfl
  | some total =>
    cases tx.amount with
    | none => rfl
    | some amount =>
      dsimp only
      split <;> rfl

/-- **The rule of the loop** that takes transactions out. -/
theorem dropAll_rule {P : Mempool → List String → Mempool → List Transaction → Prop}
    (nil : ∀ mp, P mp [] mp [])
    (skip : ∀ (mp : Mempool) h hs mp' txs, mp.txs.lookup h = none →
      mp.dropAll hs = some (mp', txs) → P mp hs mp' txs → P mp (h :: hs) mp' txs)
    (take : ∀ (mp : Mempool) h tx totals hs mp' txs, mp.txs.lookup h = some tx →
      mp.totalsWithout tx = some totals →
      (mp.without h tx totals).dropAll hs = some (mp', txs) →
      P (mp.without h tx totals) hs mp' txs → P mp (h :: hs) mp' (tx :: txs))
    {hs : List String} {mp mp' : Mempool} {txs : List Transaction}
    (hdrop : mp.dropAll hs = some (mp', txs)) : P mp hs mp' txs := by
  induction hs generalizing mp txs with
  | nil =>
    cases hdrop
    exact nil _
  | cons h hs ih =>
    unfold dropAll at hdrop
    split at hdrop
    · next hnone => exact skip mp h hs mp' txs hnone hdrop (ih hdrop)
    · next tx hlook =>
      split at hdrop
      · cases hdrop
      · next mp₁ hone =>
        obtain ⟨⟨mp₂, txs₂⟩, hrest, hpair⟩ := Option.map_eq_some_iff.mp hdrop
        cases hpair
        rw [drop_eq] at hone
        obtain ⟨totals, htotals, rfl⟩ := Option.map_eq_some_iff.mp hone
        exact take mp h tx totals hs _ txs₂ hlook htotals hrest (ih hrest)

/-- **What the loop leaves**: the transactions under other hashes. -/
theorem lookup_dropAll {hs : List String} {mp mp' : Mempool} {txs : List Transaction}
    (hdrop : mp.dropAll hs = some (mp', txs)) (h : String) :
    mp'.txs.lookup h = if h ∈ hs then none else mp.txs.lookup h := by
  refine dropAll_rule (P := fun mp hs mp' _ =>
    mp'.txs.lookup h = if h ∈ hs then none else mp.txs.lookup h)
    (fun mp => by simp) ?_ ?_ hdrop
  · intro mp k hs mp' txs hnone _ ih
    rw [ih]
    by_cases hk : h = k
    · subst hk
      simp [hnone]
    · simp [hk]
  · intro mp k tx totals hs mp' txs _ _ _ ih
    rw [ih]
    by_cases hk : h = k
    · subst hk
      simp [without]
    · simp [hk, without, AList.lookup_erase_ne hk]

/-- The loop touches neither the order nor the slot. -/
theorem txOrder_dropAll {hs : List String} {mp mp' : Mempool} {txs : List Transaction}
    (hdrop : mp.dropAll hs = some (mp', txs)) : mp'.txOrder = mp.txOrder := by
  exact dropAll_rule (P := fun mp _ mp' _ => mp'.txOrder = mp.txOrder) (fun mp => rfl)
    (fun _ _ _ _ _ _ _ ih => ih) (fun _ _ _ _ _ _ _ _ _ _ ih => ih) hdrop

theorem netCurrentSlot_dropAll {hs : List String} {mp mp' : Mempool}
    {txs : List Transaction} (hdrop : mp.dropAll hs = some (mp', txs)) :
    mp'.netCurrentSlot = mp.netCurrentSlot := by
  exact dropAll_rule (P := fun mp _ mp' _ => mp'.netCurrentSlot = mp.netCurrentSlot)
    (fun mp => rfl) (fun _ _ _ _ _ _ _ ih => ih)
      (fun _ _ _ _ _ _ _ _ _ _ ih => ih) hdrop

theorem dropAll_txOrder (mp : Mempool) (order hs : List String) :
    ({ mp with txOrder := order } : Mempool).dropAll hs
      = (mp.dropAll hs).map (fun r => ({ r.1 with txOrder := order }, r.2)) := by
  induction hs generalizing mp with
  | nil => rfl
  | cons h hs ih =>
    unfold dropAll
    dsimp only
    cases mp.txs.lookup h with
    | none => exact ih mp
    | some tx =>
      dsimp only
      rw [drop_eq, drop_eq]
      have htotals : ({ mp with txOrder := order } : Mempool).totalsWithout tx
          = mp.totalsWithout tx := rfl
      rw [htotals]
      cases mp.totalsWithout tx with
      | none => rfl
      | some totals =>
        dsimp only [Option.map_some]
        rw [Option.map_map]
        show ((({ mp.without h tx totals with txOrder := order } : Mempool).dropAll
          hs).map _) = _
        rw [ih, Option.map_map]
        rfl

/-- **Pulling a batch** is the loop over the first hashes of the order. -/
theorem pullBatch_cases {mp mp' : Mempool} {ds ds' : DedupService}
    {t t' : TransactionTracker} {size : ℕ} {batch : List Transaction}
    (hpull : mp.pullBatch ds t size = some (mp', ds', t', batch)) :
    ∃ mp₁, mp.dropAll (mp.txOrder.take size) = some (mp₁, batch) ∧
      mp' = { mp₁ with txOrder := mp.txOrder.drop size } ∧
      ds' = ds.add (batch.map Transaction.dedupHash) := by
  unfold pullBatch at hpull
  dsimp only at hpull
  rw [dropAll_txOrder] at hpull
  cases hdrop : mp.dropAll (mp.txOrder.take size) with
  | none =>
    rw [hdrop] at hpull
    cases hpull
  | some r =>
    rw [hdrop] at hpull
    dsimp only [Option.map_some] at hpull
    split at hpull
    · cases hpull
    · cases hpull
      exact ⟨r.1, rfl, rfl, rfl⟩

/-- **A received block** runs the loop over its hashes and filters the
order. -/
theorem blockCleanup_cases {mp mp' : Mempool} {hs : List String}
    (hclean : mp.blockCleanup hs = some mp') :
    ∃ mp₁ txs, mp.dropAll hs = some (mp₁, txs) ∧
      mp' = { mp₁ with txOrder :=
        mp₁.txOrder.filter (fun h => decide (h ∉ hs)) } := by
  unfold blockCleanup at hclean
  split at hclean
  · cases hclean
  · next mp₁ txs hdrop =>
    cases hclean
    exact ⟨mp₁, txs, hdrop, rfl⟩

/-- A transaction that waits after one was put is that one, or waited
before. -/
theorem lookup_put {mp : Mempool} {tx tx' : Transaction} {h : String}
    (hlook : (mp.put tx).txs.lookup h = some tx') :
    (h = Transaction.hash (some tx) ∧ tx' = tx) ∨
      (h ≠ Transaction.hash (some tx) ∧ mp.txs.lookup h = some tx') := by
  rw [txs_put] at hlook
  by_cases hh : h = Transaction.hash (some tx)
  · subst hh
    rw [AList.lookup_insert] at hlook
    exact Or.inl ⟨rfl, (Option.some.inj hlook).symm⟩
  · rw [AList.lookup_insert_ne hh] at hlook
    exact Or.inr ⟨hh, hlook⟩

/-- A transaction that waits after one was taken out is under another hash. -/
theorem lookup_without {mp : Mempool} {tx tx' : Transaction} {h h' : String}
    {totals : AList (fun _ : String => BitVec 256)}
    (hlook : (mp.without h tx totals).txs.lookup h' = some tx') :
    h' ≠ h ∧ mp.txs.lookup h' = some tx' := by
  have hlook' : (mp.txs.erase h).lookup h' = some tx' := hlook
  refine ⟨fun hh => ?_, AList.lookup_of_lookup_erase hlook'⟩
  subst hh
  rw [AList.lookup_erase] at hlook'
  cases hlook'

/-- Taking transactions out leaves some of them, and what is taken out was
there. -/
theorem dropAll_spec {hs : List String} {mp mp' : Mempool} {txs : List Transaction}
    (hdrop : mp.dropAll hs = some (mp', txs)) :
    (∀ h tx, mp'.txs.lookup h = some tx → mp.txs.lookup h = some tx) ∧
      ∀ tx ∈ txs, ∃ h, mp.txs.lookup h = some tx := by
  refine dropAll_rule (P := fun mp _ mp' txs =>
    (∀ h tx, mp'.txs.lookup h = some tx → mp.txs.lookup h = some tx) ∧
      ∀ tx ∈ txs, ∃ h, mp.txs.lookup h = some tx)
    (fun mp => ⟨fun _ _ hlook => hlook, fun tx htx => by cases htx⟩)
    (fun _ _ _ _ _ _ _ ih => ih) ?_ hdrop
  intro mp k tx totals hs mp' txs hlook _ _ ih
  refine ⟨fun h tx' hlook' => (lookup_without (ih.1 h tx' hlook')).2, ?_⟩
  rw [List.forall_mem_cons]
  refine ⟨⟨k, hlook⟩, fun tx' htx' => ?_⟩
  obtain ⟨h, hlook'⟩ := ih.2 tx' htx'
  exact ⟨h, (lookup_without hlook').2⟩

/-- Pulling a batch leaves some transactions in the pool, and the batch was
in it. -/
theorem pullBatch_spec {mp mp' : Mempool} {ds ds' : DedupService}
    {t t' : TransactionTracker} {size : ℕ} {batch : List Transaction}
    (hpull : mp.pullBatch ds t size = some (mp', ds', t', batch)) :
    (∀ h tx, mp'.txs.lookup h = some tx → mp.txs.lookup h = some tx) ∧
      ∀ tx ∈ batch, ∃ h, mp.txs.lookup h = some tx := by
  obtain ⟨mp₁, hdrop, rfl, -⟩ := pullBatch_cases hpull
  have hspec := dropAll_spec hdrop
  exact hspec

theorem lookup_of_blockCleanup {mp mp' : Mempool} {hs : List String}
    (hclean : mp.blockCleanup hs = some mp') {h : String} {tx : Transaction}
    (hlook : mp'.txs.lookup h = some tx) : mp.txs.lookup h = some tx := by
  obtain ⟨mp₁, txs, hdrop, rfl⟩ := blockCleanup_cases hclean
  exact (dropAll_spec hdrop).1 h tx hlook

omit [Primitives] in
@[simp] theorem txs_setCurrentSlot (mp : Mempool) (slot : UInt64) :
    (mp.setCurrentSlot slot).txs = mp.txs := by
  unfold setCurrentSlot
  split <;> rfl

omit [Primitives] in
/-- The slot moves forward, and to the slot given at least. -/
theorem le_setCurrentSlot (mp : Mempool) (slot : UInt64) :
    mp.netCurrentSlot ≤ (mp.setCurrentSlot slot).netCurrentSlot ∧
      slot ≤ (mp.setCurrentSlot slot).netCurrentSlot := by
  unfold setCurrentSlot
  split
  · next hle => exact ⟨UInt64.le_refl _, hle⟩
  · next hlt => exact ⟨UInt64.le_of_lt (UInt64.not_le.mp hlt), UInt64.le_refl _⟩

omit [Primitives] in
@[simp] theorem txOrder_setCurrentSlot (mp : Mempool) (slot : UInt64) :
    (mp.setCurrentSlot slot).txOrder = mp.txOrder := by
  unfold setCurrentSlot
  split <;> rfl

end Mempool

end Mmn
