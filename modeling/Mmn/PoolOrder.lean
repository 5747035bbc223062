import Mmn.Accounting
import Mmn.Fifo

/-!
# The mempool as a queue

`Journal` is the mempool with its history: the transactions it accepted,
each with its position in that list as a ticket, those it gave out in
batches, and the tickets that a received block called off. The history only
watches; `Journal.step` moves the mempool as `Pool.step` does
(`Journal.pool_step`).

Along every run the journal follows a ticket queue (`Journal.Follows`):
accepting draws a ticket, pulling a batch serves the front of the line and
the cleanup after a block calls tickets off. The order of the mempool is a
list of hashes, so the step from hashes to tickets needs every hash in the
order to be in the map, once – that is `Mempool.Represents`. First in, first
out is then the queue's own equation (`Journal.first_in_first_out`).

A batch is returned unless the process stops on the way. It stops at a
transaction without an amount whose sender has a total when its turn comes,
and at a sender too short for the tracker's log (`Pool.Returns`, an exact
condition); user content without an amount, followed by a transfer of the
same sender, is enough (`pull_does_not_return`).
-/

namespace Mmn

section

variable [Primitives]

namespace Mempool

/-! ## What the loop takes -/

/-- **The loop takes what the map has**, in the order of the hashes. -/
theorem map_some_dropAll {hs : List String} {mp mp' : Mempool}
    {txs : List Transaction} (hdrop : mp.dropAll hs = some (mp', txs))
    (hnodup : hs.Nodup) (hmem : ∀ h ∈ hs, h ∈ mp.txs) :
    txs.map some = hs.map mp.txs.lookup := by
  revert hnodup hmem
  refine dropAll_rule (P := fun mp hs _ txs => hs.Nodup → (∀ h ∈ hs, h ∈ mp.txs) →
    txs.map some = hs.map mp.txs.lookup) (fun mp _ _ => rfl) ?_ ?_ hdrop
  · intro mp h hs mp' txs hnone _ _ _ hmem
    exact absurd (hmem h List.mem_cons_self) (AList.lookup_eq_none.mp hnone)
  · intro mp h tx totals hs mp' txs hlook _ _ ih hnodup hmem
    obtain ⟨hnot, hnodup⟩ := List.nodup_cons.mp hnodup
    have hother : ∀ k ∈ hs, (mp.without h tx totals).txs.lookup k = mp.txs.lookup k :=
      fun k hk => AList.lookup_erase_ne fun heq => hnot (heq ▸ hk)
    have hrest : ∀ k ∈ hs, k ∈ (mp.without h tx totals).txs := by
      intro k hk
      rw [← AList.lookup_isSome, hother k hk, AList.lookup_isSome]
      exact hmem k (List.mem_cons_of_mem h hk)
    rw [List.map_cons, List.map_cons, hlook, ih hnodup hrest,
      List.map_congr_left hother]

/-- **What is left of a total** when amounts are taken off it one after the
other: nothing as soon as it is used up. -/
def totalLeft (total : Option (BitVec 256)) (amounts : List (BitVec 256)) :
    Option (BitVec 256) :=
  amounts.foldl (fun total amount => total.bind fun t =>
    if t - amount = 0 then none else some (t - amount)) total

/-- The amounts of the transactions of a sender. -/
def amountsOf (sender : String) (txs : List Transaction) : List (BitVec 256) :=
  txs.filterMap fun tx => if tx.sender = sender then tx.amount else none

/-- **Transactions can be taken off some totals**: when the turn of one
without an amount comes, its sender has no total, or those before it have
used the total up. -/
def Deductible (totals : String → Option (BitVec 256)) (txs : List Transaction) :
    Prop :=
  ∀ i, (hi : i < txs.length) → txs[i].amount = none →
    totalLeft (totals txs[i].sender) (amountsOf txs[i].sender (txs.take i)) = none

instance (totals : String → Option (BitVec 256)) (txs : List Transaction) :
    Decidable (Deductible totals txs) :=
  inferInstanceAs (Decidable (∀ i, (hi : i < txs.length) → _))

omit [Primitives] in
theorem deductible_nil (totals : String → Option (BitVec 256)) :
    Deductible totals [] :=
  fun _ hi => absurd hi (Nat.not_lt_zero _)

omit [Primitives] in
theorem totalLeft_amountsOf_cons (total : Option (BitVec 256)) (sender : String)
    (tx : Transaction) (txs : List Transaction) :
    totalLeft total (amountsOf sender (tx :: txs))
      = totalLeft (totalLeft total (amountsOf sender [tx]))
        (amountsOf sender txs) := by
  unfold totalLeft
  rw [← List.foldl_append, amountsOf, amountsOf, amountsOf, ← List.filterMap_append]
  rfl

omit [Primitives] in
/-- The first one, and then the others with what it leaves of the totals. -/
theorem deductible_cons {totals : String → Option (BitVec 256)} {tx : Transaction}
    {txs : List Transaction} :
    Deductible totals (tx :: txs) ↔
      (tx.amount = none → totals tx.sender = none) ∧
        Deductible (fun sender => totalLeft (totals sender) (amountsOf sender [tx]))
          txs := by
  constructor
  · intro h
    refine ⟨h 0 (Nat.zero_lt_succ _), fun i hi hnone => ?_⟩
    have hsucc := h (i + 1) (Nat.succ_lt_succ hi) hnone
    rwa [List.take_succ_cons, totalLeft_amountsOf_cons] at hsucc
  · rintro ⟨hfirst, hrest⟩ i hi hnone
    cases i with
    | zero => exact hfirst hnone
    | succ i =>
      rw [List.take_succ_cons, totalLeft_amountsOf_cons]
      exact hrest i (Nat.lt_of_succ_lt_succ hi) hnone

omit [Primitives] in
/-- **What taking out one transaction leaves of the totals.** -/
theorem lookup_totalsWithout {mp : Mempool} {tx : Transaction}
    {totals : AList (fun _ : String => BitVec 256)}
    (htotals : mp.totalsWithout tx = some totals) (sender : String) :
    totals.lookup sender
      = totalLeft (mp.senderTotalAmount.lookup sender) (amountsOf sender [tx]) := by
  by_cases hsender : tx.sender = sender
  · subst hsender
    have hamounts : amountsOf tx.sender [tx] = tx.amount.toList := by
      unfold amountsOf
      rw [List.filterMap_cons, if_pos rfl]
      cases tx.amount <;> rfl
    rw [hamounts]
    unfold totalsWithout at htotals
    split at htotals
    · next hlook =>
      cases htotals
      rw [hlook]
      cases tx.amount <;> rfl
    · cases htotals
    · next total amount hlook hamount =>
      rw [hlook, hamount]
      show _ = if total - amount = 0 then none else some (total - amount)
      split at htotals
      · next hzero =>
        cases htotals
        rw [AList.lookup_erase, if_pos hzero]
      · next hleft =>
        cases htotals
        rw [AList.lookup_insert, if_neg hleft]
  · have hamounts : amountsOf sender [tx] = [] := by
      unfold amountsOf
      rw [List.filterMap_cons, if_neg hsender]
      rfl
    have hne : sender ≠ tx.sender := Ne.symm hsender
    rw [hamounts]
    show _ = mp.senderTotalAmount.lookup sender
    unfold totalsWithout at htotals
    split at htotals
    · cases htotals
      rfl
    · cases htotals
    · split at htotals
      · cases htotals
        exact AList.lookup_erase_ne hne
      · cases htotals
        exact AList.lookup_insert_ne hne

omit [Primitives] in
/-- A transaction can be taken out unless it lacks an amount and its sender
has a total. -/
theorem isSome_totalsWithout {mp : Mempool} {tx : Transaction} :
    (mp.totalsWithout tx).isSome = true ↔
      (tx.amount = none → mp.senderTotalAmount.lookup tx.sender = none) := by
  unfold totalsWithout
  split
  · next hlook => exact iff_of_true rfl fun _ => hlook
  · next hlook hamount =>
    refine iff_of_false Bool.false_ne_true fun h => ?_
    rw [h hamount] at hlook
    cases hlook
  · next hamount =>
    refine iff_of_true ?_ fun hnone => ?_
    · split <;> rfl
    · rw [hamount] at hnone
      cases hnone

/-- The transactions the loop takes, one hash after the other: a hash that
comes again has none any more. -/
def taken : AList (fun _ : String => Transaction) → List String → List Transaction
  | _, [] => []
  | txs, h :: hs =>
    match txs.lookup h with
    | none => taken txs hs
    | some tx => tx :: taken (txs.erase h) hs

/-- **The transactions under some hashes can be taken out**, in this order. -/
def Removable (mp : Mempool) (hs : List String) : Prop :=
  Deductible (fun sender => mp.senderTotalAmount.lookup sender) (taken mp.txs hs)

instance (mp : Mempool) (hs : List String) : Decidable (mp.Removable hs) :=
  inferInstanceAs (Decidable (Deductible _ _))

/-- **The loop returns** exactly where the transactions can be taken out. -/
theorem isSome_dropAll_iff {hs : List String} {mp : Mempool} :
    (mp.dropAll hs).isSome = true ↔ mp.Removable hs := by
  induction hs generalizing mp with
  | nil => exact iff_of_true rfl (deductible_nil _)
  | cons k hs ih =>
    unfold Mempool.dropAll Removable taken
    cases hlook : mp.txs.lookup k with
    | none => exact ih
    | some tx =>
      dsimp only
      rw [deductible_cons, ← isSome_totalsWithout, drop_eq]
      cases htotals : mp.totalsWithout tx with
      | none => exact iff_of_false Bool.false_ne_true fun h => Bool.false_ne_true h.1
      | some totals =>
        have hleft : (fun sender => totalLeft (mp.senderTotalAmount.lookup sender)
            (amountsOf sender [tx])) = fun sender => totals.lookup sender :=
          funext fun sender => (lookup_totalsWithout htotals sender).symm
        rw [hleft, Option.map_some]
        dsimp only
        rw [Option.isSome_map, ih]
        exact (and_iff_right rfl).symm

/-- A cleanup returns exactly where what it takes out can be taken out. -/
theorem isSome_blockCleanup_iff {hs : List String} {mp : Mempool} :
    (mp.blockCleanup hs).isSome = true ↔ mp.Removable hs := by
  rw [← isSome_dropAll_iff]
  unfold Mempool.blockCleanup
  cases mp.dropAll hs <;> rfl

/-- The tracker logs the sender of the transaction, or drops it unlogged. -/
def Trackable (t : TransactionTracker) (tx : Transaction) : Prop :=
  TransactionTracker.logsSender tx = true ∨
    Transaction.hash (some tx) ∈ t.removedTxCache

instance (t : TransactionTracker) (tx : Transaction) : Decidable (Trackable t tx) :=
  inferInstanceAs (Decidable (_ ∨ _))

/-- A transaction is tracked unless its sender is too short for the log. -/
theorem isSome_trackProcessingTransaction {t : TransactionTracker}
    {tx : Transaction} :
    (t.trackProcessingTransaction tx).isSome = true ↔ Trackable t tx := by
  unfold TransactionTracker.trackProcessingTransaction Trackable
  dsimp only
  split
  · next hremoved => exact iff_of_true rfl (Or.inr hremoved)
  · next hremoved =>
    split
    · next hlogs => exact iff_of_true (by split <;> rfl) (Or.inl hlogs)
    · next hlogs =>
        exact iff_of_false Bool.false_ne_true (not_or.mpr ⟨hlogs, hremoved⟩)

/-- Tracking one transaction takes at most its own hash off the removed
cache. -/
theorem trackable_of_tracked {t t' : TransactionTracker} {tx tx' : Transaction}
    (htrack : t.trackProcessingTransaction tx = some t')
    (hne : Transaction.hash (some tx') ≠ Transaction.hash (some tx)) :
    Trackable t' tx' ↔ Trackable t tx' := by
  unfold TransactionTracker.trackProcessingTransaction at htrack
  dsimp only at htrack
  refine or_congr Iff.rfl ?_
  split at htrack
  · cases htrack
    exact Finset.mem_erase.trans (and_iff_right hne)
  split at htrack
  · split at htrack <;> (cases htrack; rfl)
  · cases htrack

/-- **Transactions with different hashes are all tracked** exactly if each
of them can be. -/
theorem isSome_trackAll_iff {txs : List Transaction} {t : TransactionTracker}
    (hnodup : (txs.map fun tx => Transaction.hash (some tx)).Nodup) :
    (trackAll t txs).isSome = true ↔ ∀ tx ∈ txs, Trackable t tx := by
  induction txs generalizing t with
  | nil => exact iff_of_true rfl fun _ h => absurd h List.not_mem_nil
  | cons tx txs ih =>
    obtain ⟨hnot, hnodup⟩ := List.nodup_cons.mp hnodup
    rw [List.forall_mem_cons, ← isSome_trackProcessingTransaction]
    unfold trackAll
    cases htrack : t.trackProcessingTransaction tx with
    | none => exact iff_of_false Bool.false_ne_true fun h => Bool.false_ne_true h.1
    | some t' =>
      dsimp only
      rw [ih hnodup, and_iff_right Option.isSome_some]
      refine forall₂_congr fun tx' htx' => trackable_of_tracked htrack fun heq => ?_
      exact hnot (List.mem_map.mpr ⟨tx', htx', heq⟩)

namespace Represents

variable {mp : Mempool}

/-- The order is as long as the map is large. -/
theorem length_txOrder (h : mp.Represents) :
    mp.txOrder.length = mp.txs.entries.length := by
  have hperm : mp.txOrder.Perm mp.txs.keys :=
    (List.perm_ext_iff_of_nodup h.nodup mp.txs.keys_nodup).mpr h.order
  rw [hperm.length_eq]
  exact List.length_map _

/-- **What a batch has**: the transactions of the first hashes. -/
theorem map_some_pullBatch (h : mp.Represents) {mp' : Mempool} {ds ds' : DedupService}
    {t t' : TransactionTracker} {size : ℕ} {batch : List Transaction}
    (hpull : mp.pullBatch ds t size = some (mp', ds', t', batch)) :
    batch.map some = (mp.txOrder.take size).map mp.txs.lookup := by
  obtain ⟨mp₁, hdrop, -, -⟩ := pullBatch_cases hpull
  exact map_some_dropAll hdrop ((List.take_sublist size _).nodup h.nodup)
    fun k hk => (h.order k).mp (List.mem_of_mem_take hk)

/-- Transactions of the pool are under their own hashes. -/
theorem map_hash (h : mp.Represents) {hs : List String} {txs : List Transaction}
    (hlook : txs.map some = hs.map mp.txs.lookup) :
    txs.map (fun tx => Transaction.hash (some tx)) = hs := by
  induction hs generalizing txs with
  | nil => rw [List.map_eq_nil_iff.mp hlook, List.map_nil]
  | cons k hs ih =>
    obtain ⟨tx, txs, rfl, hfirst, hrest⟩ := List.map_eq_cons_iff.mp hlook
    rw [List.map_cons, ih hrest, ← h.keyed k tx hfirst.symm]

/-- **A batch is returned** exactly if what is in it can be taken out and
tracked. -/
theorem isSome_pullBatch_iff (h : mp.Represents) (ds : DedupService)
    {t : TransactionTracker} {size : ℕ} :
    (mp.pullBatch ds t size).isSome = true ↔
      mp.Removable (mp.txOrder.take size) ∧
        ∀ k ∈ mp.txOrder.take size, ∀ tx ∈ mp.txs.lookup k, Trackable t tx := by
  rw [← isSome_dropAll_iff]
  unfold Mempool.pullBatch
  dsimp only
  rw [dropAll_txOrder]
  cases hdrop : mp.dropAll (mp.txOrder.take size) with
  | none =>
    exact iff_of_false Bool.false_ne_true fun hboth => Bool.false_ne_true hboth.1
  | some r =>
    obtain ⟨mp', batch⟩ := r
    have hnodup := (List.take_sublist size mp.txOrder).nodup h.nodup
    have hlook := map_some_dropAll hdrop hnodup fun k hk =>
      (h.order k).mp (List.mem_of_mem_take hk)
    -- the batch is what the map has under the hashes, so both ask for the
    -- same
    have hall : (trackAll t batch).isSome = true ↔
        ∀ k ∈ mp.txOrder.take size, ∀ tx ∈ mp.txs.lookup k, Trackable t tx := by
      rw [isSome_trackAll_iff (by rwa [h.map_hash hlook])]
      constructor
      · intro htrack k hk tx hsome
        obtain ⟨tx', htx', heq⟩ := List.mem_map.mp (hlook ▸ List.mem_map_of_mem hk)
        obtain rfl := Option.some.inj (heq.trans hsome)
        exact htrack tx' htx'
      · intro htrack tx htx
        obtain ⟨k, hk, hsome⟩ := List.mem_map.mp (hlook ▸ List.mem_map_of_mem htx)
        exact htrack k hk tx hsome
    rw [← hall, and_iff_right Option.isSome_some]
    dsimp only [Option.map_some]
    cases trackAll t batch <;> rfl

end Represents

end Mempool

namespace Pool

/-- **The submitted transaction does not collide** with one that waits. -/
def TellsApart (p : Pool) : PoolCall → Prop
  | .addTx _ tx => ∀ tx' ∈ p.mempool.txs.lookup (Transaction.hash (some tx)),
      tx'.dedupHash = tx.dedupHash
  | _ => True

instance (p : Pool) : (c : PoolCall) → Decidable (p.TellsApart c)
  | .addTx _ _ => inferInstanceAs (Decidable (∀ _ ∈ _, _))
  | .pullBatch _ _ => isTrue trivial
  | .blockCleanup _ => isTrue trivial
  | .receiveBlock _ => isTrue trivial
  | .setCurrentSlot _ => isTrue trivial
  | .expireDedup _ => isTrue trivial

/-- **The calls that return**: what they take out of the pool can be taken
out, and what they track can be tracked. -/
def Returns (p : Pool) : PoolCall → Prop
  | .pullBatch t batchSize =>
    p.mempool.Removable (p.mempool.txOrder.take batchSize) ∧
      ∀ h ∈ p.mempool.txOrder.take batchSize, ∀ tx ∈ p.mempool.txs.lookup h,
        Mempool.Trackable t tx
  | .blockCleanup txHashSet => p.mempool.Removable txHashSet
  | .receiveBlock txs =>
    p.mempool.Removable (txs.map (fun tx => Transaction.hash (some tx)))
  | _ => True

/-- A submitted transaction that passes the checks has a hash of its own. -/
theorem hash_notMem {p : Pool} (h : p.mempool.Represents) {s : Store}
    {tx : Transaction} (hapart : p.TellsApart (.addTx s tx))
    (hadm : p.mempool.Admissible p.dedup s tx) :
    Transaction.hash (some tx) ∉ p.mempool.txs := by
  intro hmem
  obtain ⟨tx', hlook⟩ := Option.isSome_iff_exists.mp (AList.lookup_isSome.mpr hmem)
  have hfresh := (Mempool.validateTransaction_eq_ok.mp hadm.2).1
  exact hfresh (hapart tx' hlook ▸ h.mem _ tx' hlook)

end Pool

/-! ## The history -/

/-- **The mempool with its history.** -/
structure Journal where
  pool : Pool
  /-- The transactions accepted, first accepted first; a position in the
  list is a ticket. -/
  accepted : List Transaction
  ticket : String → ℕ
  /-- The tickets of the transactions that were taken out while they waited. -/
  cancelled : Finset ℕ
  pulled : List Transaction

namespace Journal

/-- The history of a fresh process. -/
def new (maxSize : ℕ) (ds : DedupService) : Journal :=
  { pool := Pool.new maxSize ds, accepted := [], ticket := fun _ => 0, cancelled := ∅,
    pulled := [] }

/-- The tickets of the transactions that wait under some hashes. -/
def ticketsOf (j : Journal) (hs : List String) : Finset ℕ :=
  ((hs.filter (fun h => (j.pool.mempool.txs.lookup h).isSome)).map j.ticket).toFinset

/-- **One call**, written into the history. -/
def step (j : Journal) : PoolCall → Option Journal
  | .addTx s tx =>
    match j.pool.mempool.addTx j.pool.dedup s tx with
    | (mempool, .ok txHash) => some { j with
        pool := { j.pool with mempool := mempool }
        accepted := j.accepted ++ [tx]
        ticket := Function.update j.ticket txHash j.accepted.length }
    | (mempool, .error _) =>
      some { j with pool := { j.pool with mempool := mempool } }
  | .pullBatch t batchSize => (j.pool.mempool.pullBatch j.pool.dedup t batchSize).map
      (fun r => { j with pool := ⟨r.1, r.2.1⟩, pulled := j.pulled ++ r.2.2.2 })
  | .blockCleanup txHashSet => (j.pool.step (.blockCleanup txHashSet)).map
      (fun p =>
        { j with pool := p, cancelled := j.cancelled ∪ j.ticketsOf txHashSet })
  | .receiveBlock txs => (j.pool.step (.receiveBlock txs)).map
      (fun p => { j with
        pool := p
        cancelled := j.cancelled ∪
          j.ticketsOf (txs.map (fun tx => Transaction.hash (some tx))) })
  | .setCurrentSlot slot => (j.pool.step (.setCurrentSlot slot)).map
      (fun p => { j with pool := p })
  | .expireDedup hashes => (j.pool.step (.expireDedup hashes)).map
      (fun p => { j with pool := p })

theorem pool_step (j : Journal) (c : PoolCall) :
    (j.step c).map pool = j.pool.step c := by
  cases c with
  | addTx s tx =>
    unfold step Pool.step
    dsimp only
    split <;> (next h => rw [h]; rfl)
  | pullBatch t size => exact Option.map_map _ _ _
  | blockCleanup hs => exact (Option.map_map _ _ _).trans Option.map_id'
  | receiveBlock txs => exact (Option.map_map _ _ _).trans Option.map_id'
  | setCurrentSlot slot => rfl
  | expireDedup hashes => rfl

/-- **The journal follows a ticket queue.** -/
structure Follows (j : Journal) (q : TicketQueue) : Prop where
  represents : j.pool.mempool.Represents
  issued : j.accepted.length = q.issued
  /-- The line is the order, as tickets. -/
  waiting : j.pool.mempool.txOrder.map j.ticket = q.waiting
  /-- A transaction that waits is the one that drew its ticket. -/
  holds : ∀ h tx, j.pool.mempool.txs.lookup h = some tx →
    j.accepted[j.ticket h]? = some tx
  served : q.served.map (fun t => j.accepted[t]?) = j.pulled.map some
  cancelled : j.cancelled = q.cancelled

namespace Follows

variable {j : Journal} {q : TicketQueue}

/-- The transactions that wait under some hashes are those that drew the
tickets. -/
theorem map_ticket (h : j.Follows q) {hs : List String}
    (hmem : ∀ k ∈ hs, k ∈ j.pool.mempool.txOrder) :
    (hs.map j.ticket).map (fun t => j.accepted[t]?)
      = hs.map j.pool.mempool.txs.lookup := by
  rw [List.map_map]
  refine List.map_congr_left fun k hk => ?_
  obtain ⟨tx, hlook⟩ := Option.isSome_iff_exists.mp
    (AList.lookup_isSome.mpr ((h.represents.order k).mp (hmem k hk)))
  rw [hlook]
  exact h.holds k tx hlook

/-- **First in, first out**, for a journal that follows a queue. -/
theorem eq_remaining (h : j.Follows q) :
    j.pulled.map some ++ j.pool.mempool.txOrder.map j.pool.mempool.txs.lookup
      = (TicketQueue.remaining j.accepted j.cancelled).map some := by
  rw [← h.map_ticket fun k hk => hk, h.waiting, ← h.served, h.cancelled]
  exact q.map_orderly h.issued

/-- **Accepting a transaction** draws a ticket. -/
theorem accept (h : j.Follows q) {s : Store} {tx : Transaction}
    (hapart : j.pool.TellsApart (.addTx s tx))
    (hadm : j.pool.mempool.Admissible j.pool.dedup s tx) :
    ({ j with
        pool := { j.pool with mempool := j.pool.mempool.put tx }
        accepted := j.accepted ++ [tx]
        ticket := Function.update j.ticket (Transaction.hash (some tx))
          j.accepted.length } :
      Journal).Follows q.issue where
  represents := h.represents.put (Mempool.validateTransaction_eq_ok.mp hadm.2).1
    (Pool.hash_notMem h.represents hapart hadm)
  issued := by
    rw [List.length_append, h.issued]
    rfl
  waiting := by
    have hold : ∀ k ∈ j.pool.mempool.txOrder,
        Function.update j.ticket (Transaction.hash (some tx)) j.accepted.length k
          = j.ticket k := by
      intro k hk
      refine Function.update_of_ne (fun heq => ?_) _ _
      exact Pool.hash_notMem h.represents hapart hadm
        (heq ▸ (h.represents.order k).mp hk)
    dsimp only
    rw [(j.pool.mempool.put_frame tx).1, List.map_append, List.map_congr_left hold,
      h.waiting, List.map_singleton, Function.update_self, h.issued]
    rfl
  holds k tx' hlook := by
    dsimp only
    obtain ⟨rfl, rfl⟩ | ⟨hne, hold⟩ := Mempool.lookup_put hlook
    · rw [Function.update_self, List.getElem?_concat_length]
    · have hticket := h.holds k tx' hold
      rw [Function.update_of_ne hne,
        List.getElem?_append_left (List.getElem?_eq_some_iff.mp hticket).1]
      exact hticket
  served := by
    rw [← h.served]
    refine List.map_congr_left fun t ht => ?_
    have hdrawn := q.lt_issued (List.mem_append_left _ ht)
    rw [← h.issued] at hdrawn
    exact List.getElem?_append_left hdrawn
  cancelled := h.cancelled

/-- **Pulling a batch** serves the front of the line. -/
theorem pull (h : j.Follows q) {t t' : TransactionTracker} {size : ℕ} {mp : Mempool}
    {ds : DedupService} {batch : List Transaction}
    (hpull : j.pool.mempool.pullBatch j.pool.dedup t size
      = some (mp, ds, t', batch)) :
    ({ j with pool := ⟨mp, ds⟩, pulled := j.pulled ++ batch } : Journal).Follows
      (q.serve size) where
  represents := h.represents.pullBatch hpull
  issued := h.issued
  waiting := by
    obtain ⟨mp₁, -, rfl, -⟩ := Mempool.pullBatch_cases hpull
    dsimp only
    rw [List.map_drop, h.waiting]
    rfl
  holds k tx hlook := h.holds k tx ((Mempool.pullBatch_spec hpull).1 k tx hlook)
  served := by
    show (q.served ++ q.waiting.take size).map _ = _
    rw [List.map_append, h.served, List.map_append, ← h.waiting, ← List.map_take,
      h.map_ticket fun k hk => List.mem_of_mem_take hk,
      h.represents.map_some_pullBatch hpull]
  cancelled := h.cancelled

/-- A ticket that is called off is that of a transaction that waits. -/
theorem mem_ticketsOf (h : j.Follows q) {hs : List String} {k : String}
    (hk : k ∈ j.pool.mempool.txOrder) : j.ticket k ∈ j.ticketsOf hs ↔ k ∈ hs := by
  have hnodup := q.nodup_waiting
  rw [← h.waiting] at hnodup
  unfold ticketsOf
  rw [List.mem_toFinset, List.mem_map]
  constructor
  · rintro ⟨k', hk', hticket⟩
    obtain ⟨hmem, hsome⟩ := List.mem_filter.mp hk'
    have horder := (h.represents.order k').mpr (AList.lookup_isSome.mp hsome)
    rwa [← List.inj_on_of_nodup_map hnodup horder hk hticket]
  · intro hmem
    exact ⟨k, List.mem_filter.mpr
      ⟨hmem, AList.lookup_isSome.mpr ((h.represents.order k).mp hk)⟩, rfl⟩

theorem waiting_of_mem_ticketsOf (h : j.Follows q) (hs : List String) :
    ∀ t ∈ j.ticketsOf hs, t ∈ q.waiting := by
  intro t ht
  obtain ⟨k, hk, rfl⟩ := List.mem_map.mp (List.mem_toFinset.mp ht)
  rw [← h.waiting]
  refine List.mem_map_of_mem ((h.represents.order k).mpr ?_)
  exact AList.lookup_isSome.mp (List.mem_filter.mp hk).2

/-- **The cleanup after a block** calls off. -/
theorem clean (h : j.Follows q) {hs : List String} {mp : Mempool} {ds : DedupService}
    (hclean : j.pool.mempool.blockCleanup hs = some mp) :
    ({ j with pool := ⟨mp, ds⟩, cancelled := j.cancelled ∪ j.ticketsOf hs } :
      Journal).Follows
      (q.cancel (j.ticketsOf hs) (h.waiting_of_mem_ticketsOf hs)) where
  represents := h.represents.blockCleanup hclean
  issued := h.issued
  waiting := by
    obtain ⟨mp₁, txs, hdrop, rfl⟩ := Mempool.blockCleanup_cases hclean
    show (mp₁.txOrder.filter _).map _ = q.waiting.filter _
    rw [Mempool.txOrder_dropAll hdrop, ← h.waiting, List.filter_map]
    refine congrArg _ (List.filter_congr fun k hk => ?_)
    exact decide_eq_decide.mpr (not_congr (h.mem_ticketsOf hk).symm)
  holds k tx hlook := h.holds k tx (Mempool.lookup_of_blockCleanup hclean hlook)
  served := h.served
  cancelled := congrArg (· ∪ _) h.cancelled

/-- **Every call is a move of the queue.** -/
theorem step (h : j.Follows q) {c : PoolCall} (hc : j.pool.TellsApart c)
    {j' : Journal} (hstep : j.step c = some j') :
    ∃ q' : TicketQueue, j'.Follows q' := by
  cases c with
  | addTx s tx =>
    unfold Journal.step at hstep
    dsimp only at hstep
    by_cases hadm : j.pool.mempool.Admissible j.pool.dedup s tx
    · rw [Mempool.addTx_of_admissible hadm] at hstep
      cases hstep
      exact ⟨q.issue, h.accept hc hadm⟩
    · obtain ⟨err, herr⟩ := Mempool.addTx_of_not_admissible hadm
      rw [herr] at hstep
      cases hstep
      exact ⟨q, h⟩
  | pullBatch t size =>
    obtain ⟨⟨mp, ds, t', batch⟩, hpull, rfl⟩ := Option.map_eq_some_iff.mp hstep
    exact ⟨q.serve size, h.pull hpull⟩
  | blockCleanup hs =>
    obtain ⟨p, hpool, rfl⟩ := Option.map_eq_some_iff.mp hstep
    obtain ⟨mp, hclean, rfl⟩ := Option.map_eq_some_iff.mp hpool
    exact ⟨_, h.clean hclean⟩
  | receiveBlock txs =>
    obtain ⟨p, hpool, rfl⟩ := Option.map_eq_some_iff.mp hstep
    obtain ⟨mp, hclean, rfl⟩ := Option.map_eq_some_iff.mp hpool
    exact ⟨_, h.clean hclean⟩
  | setCurrentSlot slot =>
    cases hstep
    refine ⟨q, h.represents.setCurrentSlot slot, h.issued, ?_, ?_, h.served,
      h.cancelled⟩
    · dsimp only
      rw [Mempool.txOrder_setCurrentSlot]
      exact h.waiting
    · dsimp only
      rw [Mempool.txs_setCurrentSlot]
      exact h.holds
  | expireDedup hashes =>
    cases hstep
    exact ⟨q, h.represents, h.issued, h.waiting, h.holds, h.served, h.cancelled⟩

end Follows

theorem follows_new (maxSize : ℕ) (ds : DedupService) :
    (Journal.new maxSize ds).Follows TicketQueue.empty where
  represents := .new maxSize
  issued := rfl
  waiting := rfl
  holds _ _ hlook := by cases hlook
  served := rfl
  cancelled := rfl

/-- **A call returns** exactly where what it takes out can be taken out and
tracked. -/
theorem isSome_step_iff {j : Journal} (h : j.pool.mempool.Represents) (c : PoolCall) :
    (j.step c).isSome = true ↔ j.pool.Returns c := by
  cases c with
  | addTx s tx =>
    refine iff_of_true ?_ trivial
    unfold Journal.step
    dsimp only
    split <;> rfl
  | pullBatch t size =>
    unfold Journal.step
    rw [Option.isSome_map]
    exact h.isSome_pullBatch_iff j.pool.dedup
  | blockCleanup hs =>
    unfold Journal.step Pool.step
    rw [Option.isSome_map, Option.isSome_map]
    exact Mempool.isSome_blockCleanup_iff
  | receiveBlock txs =>
    unfold Journal.step Pool.step
    rw [Option.isSome_map, Option.isSome_map]
    exact Mempool.isSome_blockCleanup_iff
  | setCurrentSlot slot => exact iff_of_true rfl trivial
  | expireDedup hashes => exact iff_of_true rfl trivial

/-- **First in, first out.** After any calls, as long as no submitted
transaction collides with one that waits, the batches pulled so far, one
after the other, followed by the transactions still in the order, are the
accepted ones in the order of acceptance without those taken out while they
waited. A batch that is returned has as many transactions as were asked for
and waited, and a call returns exactly where what it takes out can be taken
out and tracked. -/
theorem first_in_first_out {maxSize : ℕ} {ds : DedupService} {j : Journal}
    (hrun : Machine.Run Journal.step (fun j c => j.pool.TellsApart c)
      (Journal.new maxSize ds) j) :
    j.pulled.map some ++ j.pool.mempool.txOrder.map j.pool.mempool.txs.lookup
        = (TicketQueue.remaining j.accepted j.cancelled).map some ∧
      (∀ t size mp ds t' batch,
        j.pool.mempool.pullBatch j.pool.dedup t size = some (mp, ds, t', batch) →
          batch.length = min size j.pool.mempool.txs.entries.length) ∧
      ∀ c, (∃ j', j.step c = some j') ↔ j.pool.Returns c := by
  obtain ⟨q, hfollows⟩ :=
    hrun.invariant (I := fun j => ∃ q : TicketQueue, j.Follows q)
    ⟨_, follows_new maxSize ds⟩ (fun j c j' ⟨q, h⟩ hc hstep => h.step hc hstep)
  refine ⟨hfollows.eq_remaining, ?_, fun c => ?_⟩
  swap
  · rw [← Option.isSome_iff_exists]
    exact isSome_step_iff hfollows.represents c
  intro t size mp ds t' batch hpull
  have hlen := congrArg List.length (hfollows.represents.map_some_pullBatch hpull)
  rwa [List.length_map, List.length_map, List.length_take,
    hfollows.represents.length_txOrder] at hlen

end Journal

end

section Sample

attribute [local instance] Sample.contentPrimitives

open Sample

/-- Two transfers are accepted; one is pulled, the other taken out by a
block, and a batch can still be asked for. -/
theorem first_in_first_out_two :
    ∃ j : Journal,
      (j.accepted.length == 2 && j.pulled.length == 1 && j.cancelled.card == 1) =
        true ∧
      j.pulled.map some ++ j.pool.mempool.txOrder.map j.pool.mempool.txs.lookup
        = (TicketQueue.remaining j.accepted j.cancelled).map some ∧
      ∃ j', j.step (.pullBatch TransactionTracker.new 5) = some j' := by
  have hexec : (Machine.exec Journal.step (fun j c => j.pool.TellsApart c)
      (Journal.new 10 DedupService.new)
      [.setCurrentSlot 1, .addTx (ledger 100) (transfer 2 1 30 1 0),
        .addTx (ledger 100) (transfer 2 1 40 1 0),
        .pullBatch TransactionTracker.new 1,
        .blockCleanup [Transaction.hash (some (transfer 2 1 40 1 0))]]).any
      (fun j =>
        (j.accepted.length == 2 && j.pulled.length == 1 && j.cancelled.card == 1) &&
        j.pool.mempool.txOrder.isEmpty) = true := by
    decide +kernel
  obtain ⟨j, hrun, htest⟩ := Machine.exists_run_of_exec hexec
  obtain ⟨hcounts, hempty⟩ := Bool.and_eq_true_iff.mp htest
  obtain ⟨hfifo, -, hreturns⟩ := Journal.first_in_first_out hrun
  refine ⟨j, hcounts, hfifo, (hreturns _).mpr ?_⟩
  unfold Pool.Returns
  rw [List.isEmpty_iff.mp hempty]
  exact ⟨Mempool.deductible_nil _, fun _ hk => absurd hk List.not_mem_nil⟩

/-- **A batch that is not returned.** User content without an amount waits,
and a transfer of the same sender behind it: subtracting the amount that is
not there from the sender's total stops the process. -/
theorem pull_does_not_return :
    ∃ j : Journal,
      Machine.Run Journal.step (fun j c => j.pool.TellsApart c)
        (Journal.new 10 DedupService.new) j ∧ j.pool.mempool.txs.entries.length = 2 ∧
        j.pool.mempool.pullBatch j.pool.dedup TransactionTracker.new 1 = none := by
  have hexec : (Machine.exec Journal.step (fun j c => j.pool.TellsApart c)
      (Journal.new 10 DedupService.new)
      [.setCurrentSlot 1, .addTx (ledger 100) (content none 1),
        .addTx (ledger 100) (transfer 2 1 30 1 0)]).any
      (fun j => j.pool.mempool.txs.entries.length == 2 &&
        (j.pool.mempool.pullBatch j.pool.dedup TransactionTracker.new 1).isNone)
            = true := by
    decide +kernel
  obtain ⟨j, hrun, htest⟩ := Machine.exists_run_of_exec hexec
  obtain ⟨hsize, hnone⟩ := Bool.and_eq_true_iff.mp htest
  exact ⟨j, hrun, beq_iff_eq.mp hsize, Option.isNone_iff_eq_none.mp hnone⟩

end Sample

end Mmn
