import Mmn.Runs
import Mmn.Sample
import Mmn.Turnover

/-!
# The mempool over its calls

The mempool holds its transactions four times over: by hash, in order of
arrival, by dedup hash, and as a total per sender. Each call changes the
four separately, and nothing in the code compares them. `Pool` is the
mempool with its dedup cache as a machine: its inputs are the calls, in any
order and with any arguments, and what a call reads besides – the ledger,
the tracker – comes with the call, so that it may change freely in between.

Two invariants hold along every run of the machine.

* `Mempool.Guarded` – the transactions that wait have different dedup
  hashes, and each of these is in the set. It asks nothing of the hash
  function.
* `Mempool.Represents` – the first three collections are the same set of
  transactions. Here the hashes must tell apart the transactions that are
  submitted: a second transaction with the hash of one that waits would take
  its place in one map and stand in the order twice.
-/

namespace Mmn

section

variable [Primitives]

namespace Mempool

/-! ## The dedup hashes of what waits -/

/-- **The transactions that wait have different dedup hashes**, and each of
these is in the set that admission compares with. -/
structure Guarded (mp : Mempool) : Prop where
  /-- The hash of a transaction that waits is in the set. -/
  mem : ∀ h tx, mp.txs.lookup h = some tx → tx.dedupHash ∈ mp.dedupTxHashSet
  distinct : ∀ h h' tx tx', mp.txs.lookup h = some tx → mp.txs.lookup h' = some tx' →
    tx.dedupHash = tx'.dedupHash → h = h'

namespace Guarded

theorem new (maxSize : ℕ) : Guarded (Mempool.new maxSize) where
  mem _ _ hlook := by cases hlook
  distinct _ _ _ _ hlook := by cases hlook

variable {mp mp' : Mempool} {tx : Transaction}

theorem put (h : Guarded mp) (hfresh : tx.dedupHash ∉ mp.dedupTxHashSet) :
    Guarded (mp.put tx) where
  mem k tx' hlook := by
    rw [(mp.put_frame tx).2.1]
    obtain ⟨-, rfl⟩ | ⟨-, hold⟩ := lookup_put hlook
    · exact Finset.mem_insert_self _ _
    · exact Finset.mem_insert_of_mem (h.mem k tx' hold)
  distinct k k' tx₁ tx₂ hlook hlook' heq := by
    obtain ⟨rfl, rfl⟩ | ⟨-, hold⟩ := lookup_put hlook
    · obtain ⟨rfl, -⟩ | ⟨-, hold'⟩ := lookup_put hlook'
      · rfl
      · have hmem := h.mem k' tx₂ hold'
        rw [← heq] at hmem
        exact absurd hmem hfresh
    · obtain ⟨-, rfl⟩ | ⟨-, hold'⟩ := lookup_put hlook'
      · have hmem := h.mem k tx₁ hold
        rw [heq] at hmem
        exact absurd hmem hfresh
      · exact h.distinct k k' tx₁ tx₂ hold hold' heq

/-- No transaction that still waits has the dedup hash of the one taken out. -/
theorem ne_of_without (h : Guarded mp) {k k' : String} {tx' : Transaction}
    {totals : AList (fun _ : String => BitVec 256)}
    (hlook : mp.txs.lookup k = some tx)
    (hlook' : (mp.without k tx totals).txs.lookup k' = some tx') :
    tx'.dedupHash ≠ tx.dedupHash := by
  obtain ⟨hne, hold⟩ := lookup_without hlook'
  exact fun heq => hne (h.distinct k' k tx' tx hold hlook heq)

theorem without (h : Guarded mp) {k : String} (hlook : mp.txs.lookup k = some tx)
    (totals : AList (fun _ : String => BitVec 256)) :
    Guarded (mp.without k tx totals) where
  mem k' tx' hlook' := Finset.mem_erase.mpr
    ⟨h.ne_of_without hlook hlook', h.mem k' tx' (lookup_without hlook').2⟩
  distinct k₁ k₂ tx₁ tx₂ hlook₁ hlook₂ :=
    h.distinct k₁ k₂ tx₁ tx₂ (lookup_without hlook₁).2 (lookup_without hlook₂).2

/-- **Taking transactions out**: those taken have different dedup hashes,
and none of these is still waiting. -/
theorem dropAll (h : Guarded mp) {hs : List String} {txs : List Transaction}
    (hdrop : mp.dropAll hs = some (mp', txs)) :
    Guarded mp' ∧ (txs.map Transaction.dedupHash).Nodup ∧
      ∀ tx ∈ txs, ∀ k tx', mp'.txs.lookup k = some tx' →
      tx'.dedupHash ≠ tx.dedupHash := by
  revert h
  refine dropAll_rule (P := fun mp _ mp' txs => Guarded mp →
    Guarded mp' ∧ (txs.map Transaction.dedupHash).Nodup ∧
      ∀ tx ∈ txs, ∀ k tx', mp'.txs.lookup k = some tx' → tx'.dedupHash ≠ tx.dedupHash)
    (fun mp h => ⟨h, List.nodup_nil, fun tx htx => by cases htx⟩)
    (fun mp k hs mp' txs _ _ ih h => ih h) ?_ hdrop
  intro mp k tx totals hs mp' txs hlook _ hrest ih h
  obtain ⟨hguarded, hnodup, hapart⟩ := ih (h.without hlook totals)
  obtain ⟨hkeep, htaken⟩ := dropAll_spec hrest
  refine ⟨hguarded, List.nodup_cons.mpr ⟨fun hmem => ?_, hnodup⟩, fun tx' htx' => ?_⟩
  · obtain ⟨tx', htx', heq⟩ := List.mem_map.mp hmem
    obtain ⟨k', hlook'⟩ := htaken tx' htx'
    exact h.ne_of_without hlook hlook' heq
  · obtain rfl | htx' := List.mem_cons.mp htx'
    · exact fun k' tx'' hlook' => h.ne_of_without hlook (hkeep k' tx'' hlook')
    · exact hapart tx' htx'

/-- The order and the slot do not matter. -/
theorem of_eq (h : Guarded mp) (htxs : mp'.txs = mp.txs)
    (hset : mp'.dedupTxHashSet = mp.dedupTxHashSet) : Guarded mp' := by
  refine ⟨?_, ?_⟩
  · rw [htxs, hset]
    exact h.mem
  · rw [htxs]
    exact h.distinct

end Guarded

/-! ## One set of transactions -/

/-- **The maps are about the same transactions**: every key is the hash of
its transaction, and the set of dedup hashes has those of the transactions
and no others. -/
structure Indexed (mp : Mempool) : Prop extends Guarded mp where
  keyed : ∀ h tx, mp.txs.lookup h = some tx → h = Transaction.hash (some tx)
  /-- A dedup hash of the set is that of a transaction. -/
  covered : ∀ d ∈ mp.dedupTxHashSet, ∃ h tx, mp.txs.lookup h = some tx ∧
    tx.dedupHash = d

/-- **The mempool represents one set of transactions**: by hash, in order of
arrival without repetition, and by dedup hash without repetition. -/
structure Represents (mp : Mempool) : Prop extends Indexed mp where
  /-- The order has no duplicates. -/
  nodup : mp.txOrder.Nodup
  order : ∀ h, h ∈ mp.txOrder ↔ h ∈ mp.txs

namespace Indexed

variable {mp mp' : Mempool} {tx : Transaction}

theorem put (h : Indexed mp) (hfresh : tx.dedupHash ∉ mp.dedupTxHashSet)
    (hnew : Transaction.hash (some tx) ∉ mp.txs) : Indexed (mp.put tx) where
  toGuarded := h.toGuarded.put hfresh
  keyed k tx' hlook := by
    obtain ⟨rfl, rfl⟩ | ⟨-, hold⟩ := lookup_put hlook
    · rfl
    · exact h.keyed k tx' hold
  covered d hd := by
    rw [(mp.put_frame tx).2.1] at hd
    rw [txs_put]
    obtain rfl | hd := Finset.mem_insert.mp hd
    · exact ⟨_, tx, AList.lookup_insert _, rfl⟩
    · obtain ⟨k, tx', hlook, hdedup⟩ := h.covered d hd
      refine ⟨k, tx', ?_, hdedup⟩
      rw [AList.lookup_insert_ne ?_, hlook]
      exact fun hk => hnew (hk ▸ AList.lookup_isSome.mp (hlook ▸ rfl))

theorem without (h : Indexed mp) {k : String} (hlook : mp.txs.lookup k = some tx)
    (totals : AList (fun _ : String => BitVec 256)) :
    Indexed (mp.without k tx totals) where
  toGuarded := h.toGuarded.without hlook totals
  keyed k' tx' hlook' := h.keyed k' tx' (lookup_without hlook').2
  covered d hd := by
    obtain ⟨hne, hmem⟩ := Finset.mem_erase.mp hd
    obtain ⟨k', tx', hlook', rfl⟩ := h.covered d hmem
    refine ⟨k', tx', ?_, rfl⟩
    show (mp.txs.erase k).lookup k' = some tx'
    rw [AList.lookup_erase_ne, hlook']
    -- under the same key it would be the transaction taken out
    intro hk
    rw [hk, hlook] at hlook'
    exact hne (congrArg Transaction.dedupHash (Option.some.inj hlook').symm)

theorem dropAll (h : Indexed mp) {hs : List String} {txs : List Transaction}
    (hdrop : mp.dropAll hs = some (mp', txs)) : Indexed mp' := by
  revert h
  exact dropAll_rule (P := fun mp _ mp' _ => Indexed mp → Indexed mp') (fun mp h => h)
    (fun mp k hs mp' txs _ _ ih h => ih h)
    (fun mp k tx totals hs mp' txs hlook _ _ ih h => ih (h.without hlook totals))
      hdrop

end Indexed

namespace Represents

variable {mp mp' : Mempool} {tx : Transaction}

theorem new (maxSize : ℕ) : Represents (Mempool.new maxSize) where
  toGuarded := .new maxSize
  keyed _ _ hlook := by cases hlook
  covered _ hd := by cases hd
  nodup := List.nodup_nil
  order h := ⟨fun hmem => absurd hmem List.not_mem_nil,
    fun hmem => absurd hmem (AList.notMem_empty h)⟩

theorem put (h : Represents mp) (hfresh : tx.dedupHash ∉ mp.dedupTxHashSet)
    (hnew : Transaction.hash (some tx) ∉ mp.txs) : Represents (mp.put tx) where
  toIndexed := h.toIndexed.put hfresh hnew
  nodup := by
    rw [(mp.put_frame tx).1]
    refine List.nodup_append.mpr ⟨h.nodup, List.nodup_singleton _, fun k hk k' hk' =>
      ?_⟩
    rw [List.mem_singleton.mp hk']
    exact fun heq => hnew (heq ▸ (h.order k).mp hk)
  order k := by
    rw [(mp.put_frame tx).1, txs_put, List.mem_append, List.mem_singleton,
      AList.mem_insert, h.order k]
    exact or_comm

/-- **Taking transactions out** keeps the representation, if the order loses
the same hashes. -/
theorem remove (h : Represents mp) {hs order : List String} {txs : List Transaction}
    (hdrop : mp.dropAll hs = some (mp', txs)) (hnodup : order.Nodup)
    (horder : ∀ k, k ∈ order ↔ k ∈ mp.txOrder ∧ k ∉ hs) :
    Represents { mp' with txOrder := order } where
  toIndexed :=
    have hindexed := h.toIndexed.dropAll hdrop
    ⟨⟨hindexed.mem, hindexed.distinct⟩, hindexed.keyed, hindexed.covered⟩
  nodup := hnodup
  order k := by
    show k ∈ order ↔ k ∈ mp'.txs
    rw [horder k, h.order k, ← AList.lookup_isSome, ← AList.lookup_isSome,
      lookup_dropAll hdrop k]
    by_cases hk : k ∈ hs
    · simp [hk]
    · simp [hk]

theorem blockCleanup (h : Represents mp) {hs : List String}
    (hclean : mp.blockCleanup hs = some mp') : Represents mp' := by
  obtain ⟨mp₁, taken, hdrop, rfl⟩ := blockCleanup_cases hclean
  rw [txOrder_dropAll hdrop]
  refine h.remove hdrop (h.nodup.filter _) fun k => ?_
  rw [List.mem_filter, decide_eq_true_eq]

theorem pullBatch (h : Represents mp) {ds ds' : DedupService}
    {t t' : TransactionTracker} {size : ℕ} {batch : List Transaction}
    (hpull : mp.pullBatch ds t size = some (mp', ds', t', batch)) :
    Represents mp' := by
  obtain ⟨mp₁, hdrop, rfl, -⟩ := pullBatch_cases hpull
  have hnodup := h.nodup
  refine h.remove hdrop ((List.drop_sublist size _).nodup hnodup) fun k => ?_
  -- the order is what is taken followed by what stays, without repetition
  have hsplit := List.take_append_drop size mp.txOrder
  rw [← hsplit] at hnodup
  have hapart := (List.nodup_append.mp hnodup).2.2
  constructor
  · intro hk
    exact ⟨List.mem_of_mem_drop hk, fun htake => hapart k htake k hk rfl⟩
  · rintro ⟨hk, hnot⟩
    rw [← hsplit, List.mem_append] at hk
    exact hk.resolve_left hnot

theorem setCurrentSlot (h : Represents mp) (slot : UInt64) :
    Represents (mp.setCurrentSlot slot) := by
  unfold Mempool.setCurrentSlot
  split
  · exact h
  · exact ⟨⟨⟨h.mem, h.distinct⟩, h.keyed, h.covered⟩, h.nodup, h.order⟩

end Represents

end Mempool

/-! ## The machine -/

/-- **The mempool with its dedup cache.** -/
structure Pool where
  /-- The transactions that wait. -/
  mempool : Mempool
  dedup : DedupService

/-- **What can be asked of a mempool.** -/
inductive PoolCall where
  /-- Admit a transaction, with the ledger and the transactions stored at
  that moment. -/
  | addTx (s : Store) (tx : Transaction)
  /-- Pull a batch, with the tracker of that moment. -/
  | pullBatch (t : TransactionTracker) (batchSize : ℕ)
  /-- Take out the transactions with some hashes. -/
  | blockCleanup (txHashSet : List String)
  /-- What a valid block does: its transactions are remembered and taken
  out. -/
  | receiveBlock (txs : List Transaction)
  /-- Move the slot nonces are compared with. -/
  | setCurrentSlot (slot : UInt64)
  | expireDedup (hashes : Finset String)

namespace Pool

/-- The pool of a fresh process, with the dedup hashes it loaded. -/
def new (maxSize : ℕ) (ds : DedupService) : Pool := ⟨Mempool.new maxSize, ds⟩

/-- **One call.** No pool after it is a process that stopped. -/
def step (p : Pool) : PoolCall → Option Pool
  | .addTx s tx => some { p with mempool := (p.mempool.addTx p.dedup s tx).1 }
  | .pullBatch t batchSize => (p.mempool.pullBatch p.dedup t batchSize).map
      (fun r => { mempool := r.1, dedup := r.2.1 })
  | .blockCleanup txHashSet => (p.mempool.blockCleanup txHashSet).map
      (fun mempool => { p with mempool := mempool })
  | .receiveBlock txs =>
    (p.mempool.blockCleanup (txs.map (fun tx => Transaction.hash (some tx)))).map
      (fun mempool =>
        { mempool := mempool, dedup := p.dedup.add (txs.map Transaction.dedupHash) })
  | .setCurrentSlot slot => some { p with mempool := p.mempool.setCurrentSlot slot }
  | .expireDedup hashes =>
    some { p with dedup := { cache := p.dedup.cache \ hashes } }

/-- **A run by evaluation**: the pool after a list of calls passes a test. -/
theorem exists_run (C : Pool → PoolCall → Prop) [∀ p c, Decidable (C p c)]
    (test : Pool → Bool) (p : Pool) (calls : List PoolCall)
    (h : (Machine.exec Pool.step C p calls).any test = true) :
    ∃ p', Machine.Run Pool.step C p p' ∧ test p' = true :=
  Machine.exists_run_of_exec h

end Pool

/-- The transaction a call submits. -/
def PoolCall.submitted : PoolCall → Option Transaction
  | .addTx _ tx => some tx
  | _ => none

/-! ## The representation along runs -/

namespace Pool

/-- The mempool represents a set of transactions, all of them known. -/
structure RepresentsOf (txs : List Transaction) (p : Pool) : Prop where
  represents : p.mempool.Represents
  /-- What waits is known. -/
  known : ∀ h tx, p.mempool.txs.lookup h = some tx → tx ∈ txs

namespace RepresentsOf

variable {txs : List Transaction} {p : Pool}

theorem addTx (h : RepresentsOf txs p)
    (hhash : ∀ tx ∈ txs, ∀ tx' ∈ txs,
      Transaction.hash (some tx) = Transaction.hash (some tx') → tx = tx')
    (s : Store) {tx : Transaction} (htx : tx ∈ txs) :
    RepresentsOf txs { p with mempool := (p.mempool.addTx p.dedup s tx).1 } := by
  by_cases hadm : p.mempool.Admissible p.dedup s tx
  · rw [Mempool.addTx_of_admissible hadm]
    have hfresh := (Mempool.validateTransaction_eq_ok.mp hadm.2).1
    refine ⟨h.represents.put hfresh fun hmem => ?_, fun k tx' hlook => ?_⟩
    · -- a transaction under the same hash would be the same, and the set
      -- has its dedup hash
      obtain ⟨tx', hlook⟩ :=
        Option.isSome_iff_exists.mp (AList.lookup_isSome.mpr hmem)
      have heq := hhash tx htx tx' (h.known _ tx' hlook)
        (h.represents.keyed _ tx' hlook)
      exact hfresh (heq ▸ h.represents.mem _ tx' hlook)
    · obtain ⟨-, rfl⟩ | ⟨-, hold⟩ := Mempool.lookup_put hlook
      · exact htx
      · exact h.known k tx' hold
  · obtain ⟨err, herr⟩ := Mempool.addTx_of_not_admissible hadm
    rw [herr]
    exact h

theorem blockCleanup (h : RepresentsOf txs p) {hs : List String} {mp : Mempool}
    {ds : DedupService} (hclean : p.mempool.blockCleanup hs = some mp) :
    RepresentsOf txs ⟨mp, ds⟩ where
  represents := h.represents.blockCleanup hclean
  known k tx hlook := h.known k tx (Mempool.lookup_of_blockCleanup hclean hlook)

theorem pullBatch (h : RepresentsOf txs p) {t t' : TransactionTracker} {size : ℕ}
    {mp : Mempool} {ds : DedupService} {batch : List Transaction}
    (hpull : p.mempool.pullBatch p.dedup t size = some (mp, ds, t', batch)) :
    RepresentsOf txs ⟨mp, ds⟩ where
  represents := h.represents.pullBatch hpull
  known k tx hlook := h.known k tx ((Mempool.pullBatch_spec hpull).1 k tx hlook)

theorem step (h : RepresentsOf txs p)
    (hhash : ∀ tx ∈ txs, ∀ tx' ∈ txs,
      Transaction.hash (some tx) = Transaction.hash (some tx') → tx = tx')
    {c : PoolCall} (hc : ∀ tx ∈ c.submitted, tx ∈ txs) {p' : Pool}
    (hstep : p.step c = some p') : RepresentsOf txs p' := by
  cases c with
  | addTx s tx =>
    cases hstep
    exact h.addTx hhash s (hc tx rfl)
  | pullBatch t size =>
    obtain ⟨⟨mp, ds, t', batch⟩, hpull, rfl⟩ := Option.map_eq_some_iff.mp hstep
    exact h.pullBatch hpull
  | blockCleanup hs =>
    obtain ⟨mp, hclean, rfl⟩ := Option.map_eq_some_iff.mp hstep
    exact h.blockCleanup hclean
  | receiveBlock block =>
    obtain ⟨mp, hclean, rfl⟩ := Option.map_eq_some_iff.mp hstep
    exact h.blockCleanup hclean
  | setCurrentSlot slot =>
    cases hstep
    refine ⟨h.represents.setCurrentSlot slot, fun k tx hlook => h.known k tx ?_⟩
    rwa [← p.mempool.txs_setCurrentSlot slot]
  | expireDedup hashes =>
    cases hstep
    exact ⟨h.represents, h.known⟩

end RepresentsOf

/-- **The representation invariant.** After any calls, if no two of the
transactions submitted share a hash, the mempool represents one set of
transactions. -/
theorem represents_of_run {txs : List Transaction}
    (hhash : ∀ tx ∈ txs, ∀ tx' ∈ txs,
      Transaction.hash (some tx) = Transaction.hash (some tx') → tx = tx')
    {maxSize : ℕ} {ds : DedupService} {p : Pool}
    (hrun : Machine.Run Pool.step (fun _ c => ∀ tx ∈ c.submitted, tx ∈ txs)
      (Pool.new maxSize ds) p) : p.mempool.Represents := by
  have hinv := hrun.invariant (I := RepresentsOf txs)
    ⟨.new maxSize, fun _ _ hlook => by cases hlook⟩
    (fun p c p' h hc hstep => h.step hhash hc hstep)
  exact hinv.represents

end Pool

end

section Sample

attribute [local instance] Sample.primitives

/-- A ledger in which the second key has a balance. -/
def Sample.ledger (balance : BitVec 256) : Store :=
  { Store.empty with
    accounts := (∅ : AList Account).insert (Sample.keyID 2)
      { balance := balance, nonce := 0 } }

/-- Two transfers of the second key. -/
def Sample.submitted : List Transaction :=
  [Sample.transfer 2 1 30 1 0, Sample.transfer 2 1 40 2 0]

/-- Both are admitted, one is pulled, and the other stays. -/
theorem represents_of_run_two :
    ∃ p, Machine.Run Pool.step (fun _ c => ∀ tx ∈ c.submitted, tx ∈ Sample.submitted)
        (Pool.new 10 DedupService.new) p ∧
      p.mempool.txOrder = [Transaction.hash (some (Sample.transfer 2 1 40 2 0))] ∧
      p.mempool.Represents := by
  obtain ⟨p, hrun, htest⟩ := Pool.exists_run
    (fun _ c => ∀ tx ∈ c.submitted, tx ∈ Sample.submitted)
    (fun p => decide (p.mempool.txOrder
      = [Transaction.hash (some (Sample.transfer 2 1 40 2 0))]))
    (Pool.new 10 DedupService.new)
    [.setCurrentSlot 2, .addTx (Sample.ledger 100) (Sample.transfer 2 1 30 1 0),
      .addTx (Sample.ledger 100) (Sample.transfer 2 1 40 2 0),
      .pullBatch TransactionTracker.new 1, .blockCleanup ["unknown"]]
    (by decide +kernel)
  have hnodup :
      (Sample.submitted.map (fun tx => Transaction.hash (some tx))).Nodup := by
    decide +kernel
  exact ⟨p, hrun, of_decide_eq_true htest, Pool.represents_of_run
    (fun tx htx tx' htx' => List.inj_on_of_nodup_map hnodup htx htx') hrun⟩

end Sample

end Mmn
