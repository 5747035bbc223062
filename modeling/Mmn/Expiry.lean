import Mmn.PoolOrder
import Mmn.Proposal

/-!
# How long a transaction is remembered

A transaction that has left the mempool is known only to the dedup cache,
and the cache forgets: an entry older than five minutes may be evicted. What
is forgotten is meant to be too old by then – the nonce of a transaction is
a slot, and a nonce more than 150 slots behind is refused. The two limits
are in different units, seconds and slots, and nothing in the code compares
them.

`TimedPool` is the pool with a clock and the times at which hashes were
written to the cache. An entry is evicted only when it is older than the
lifetime, which is what the library promises. Under one condition on the
network – whenever more than the lifetime has passed since it was at a slot,
it is more than the window ahead of that slot (`TimedPool.KeepsPace`) –
nothing is taken twice: a transaction that was admitted, or came with a
block, is never admitted again, and once it has left the mempool no block
that has it passes the checks (`never_again`).

"The same transaction" is here one with the same dedup hash and the same
nonce. The second does not follow from the first. The dedup hash is the hash
of the signed bytes, in which the fields are separated by bars, and a memo
may have bars too: the same bytes can be read with another nonce, and when
the cache has forgotten them, that reading is admitted
(`shifted_copy_admitted`).
-/

namespace Mmn

section

variable [Primitives]

/-! ## The machine -/

/-- How long the cache keeps an entry: `LifeWindow`, in seconds. -/
abbrev lifeWindow : ℕ := 5 * 60

/-- **The pool with a clock.** -/
structure TimedPool where
  pool : Pool
  /-- The second it is. -/
  now : ℕ
  /-- The second in which a hash was last written to the cache. -/
  setAt : String → Option ℕ
  /-- The seconds and slots that were passed. No call reads them. -/
  passed : List (ℕ × UInt64)
  /-- What was admitted or came with a block. No call reads it. -/
  seen : List Transaction

/-- **What can happen.** -/
inductive TimedCall where
  | wait (seconds : ℕ)
  | call (c : PoolCall)

/-- The hashes a call writes to the cache. -/
def Pool.written (p : Pool) : PoolCall → List String
  | .pullBatch t batchSize => match p.mempool.pullBatch p.dedup t batchSize with
    | none => []
    | some (_, _, _, batch) => batch.map Transaction.dedupHash
  | .receiveBlock txs => txs.map Transaction.dedupHash
  | _ => []

/-- The transactions a call takes in. -/
def Pool.taken (p : Pool) : PoolCall → List Transaction
  | .addTx s tx => match (p.mempool.addTx p.dedup s tx).2 with
    | .ok _ => [tx]
    | .error _ => []
  | .receiveBlock txs => txs
  | _ => []

/-- The hashes a call evicts from the cache. -/
def PoolCall.evicted : PoolCall → Finset String
  | .expireDedup hashes => hashes
  | _ => ∅

/-- The transactions a call is about. -/
def PoolCall.about : PoolCall → List Transaction
  | .addTx _ tx => [tx]
  | .receiveBlock txs => txs
  | _ => []

omit [Primitives] in
theorem PoolCall.mem_about_of_submitted {c : PoolCall} {tx : Transaction}
    (h : tx ∈ c.submitted) :
    tx ∈ c.about := by
  cases c with
  | addTx s tx' =>
    cases h
    exact List.mem_singleton_self _
  | pullBatch => cases h
  | blockCleanup => cases h
  | receiveBlock => cases h
  | setCurrentSlot => cases h
  | expireDedup => cases h

namespace TimedPool

/-- The pool of a fresh process, with the dedup hashes it loaded. -/
def new (maxSize : ℕ) (ds : DedupService) : TimedPool :=
  { pool := Pool.new maxSize ds, now := 0, setAt := fun _ => none, passed := [(0, 0)],
    seen := [] }

/-- The slot nonces are compared with. -/
def slot (tp : TimedPool) : UInt64 := tp.pool.mempool.netCurrentSlot

/-- **One call, or some time.** The calls do not overlap: the locked section
of `PullBatch` and the write to the cache that follows it are one step, and
so is all that a received block does to the pool. The node is no listener,
for a listener stores a block without telling the pool. -/
def step (tp : TimedPool) : TimedCall → Option TimedPool
  | .wait seconds => some { tp with
      now := tp.now + seconds
      passed := (tp.now + seconds, tp.slot) :: tp.passed }
  | .call c => (tp.pool.step c).map fun pool => { tp with
      pool := pool
      setAt := fun d => if d ∈ tp.pool.written c then some tp.now else tp.setAt d
      passed := (tp.now, pool.mempool.netCurrentSlot) :: tp.passed
      seen := tp.seen ++ tp.pool.taken c }

/-- **The network keeps pace**: it is more than the window ahead of every
slot it was at longer ago than the lifetime. -/
def KeepsPace (tp : TimedPool) : Prop :=
  ∀ m ∈ tp.passed, m.1 + lifeWindow < tp.now →
    m.2.toNat + nonceWindow.toNat < tp.slot.toNat

instance (tp : TimedPool) : Decidable tp.KeepsPace :=
  inferInstanceAs (Decidable (∀ _ ∈ _, _))

/-- An entry of the cache is older than the lifetime. One that was loaded at
the start counts as old. -/
def Outlived (tp : TimedPool) (d : String) :
    Prop := ∀ t ∈ tp.setAt d, t + lifeWindow < tp.now

instance (tp : TimedPool) (d : String) : Decidable (tp.Outlived d) :=
  inferInstanceAs (Decidable (∀ _ ∈ _, _))

/-- **How the calls are made.** The transactions of a block were checked,
the cleanup after a block comes with the hashes of the block, and the cache
evicts old entries, at a time when the network has kept pace. -/
def Regular (tp : TimedPool) : TimedCall → Prop
  | .wait _ => True
  | .call (.receiveBlock txs) =>
    tp.pool.mempool.verifyBlockTransactions tp.pool.dedup txs = .ok ()
  | .call (.blockCleanup _) => False
  | .call (.expireDedup hashes) => (∀ d ∈ hashes, tp.Outlived d) ∧ tp.KeepsPace
  | .call _ => True

instance (tp : TimedPool) : (c : TimedCall) → Decidable (tp.Regular c)
  | .wait _ => isTrue trivial
  | .call (.receiveBlock _) => inferInstanceAs (Decidable (_ = _))
  | .call (.blockCleanup _) => isFalse id
  | .call (.expireDedup _) => inferInstanceAs (Decidable ((∀ _ ∈ _, _) ∧ _))
  | .call (.addTx _ _) | .call (.pullBatch _ _) | .call (.setCurrentSlot _) =>
    isTrue trivial

/-- The transactions of a call are among the known ones. -/
def Known (txs : List Transaction) (c : TimedCall) : Prop :=
  match c with
  | .wait _ => True
  | .call c => ∀ tx ∈ c.about, tx ∈ txs

instance (txs : List Transaction) (c : TimedCall) : Decidable (Known txs c) :=
  match c with
  | .wait _ => isTrue trivial
  | .call _ => inferInstanceAs (Decidable (∀ _ ∈ _, _))

end TimedPool

/-! ## What a call does to the memories -/

namespace Pool

variable {txs : List Transaction} {p p' : Pool}

/-- A dedup hash of the set stays there when transactions are taken out, or
one of them has it. -/
theorem mem_dedupTxHashSet_dropAll {mp mp' : Mempool} (h : mp.Indexed)
    {hs : List String} {taken : List Transaction}
    (hdrop : mp.dropAll hs = some (mp', taken)) {d : String}
    (hd : d ∈ mp.dedupTxHashSet) :
    d ∈ mp'.dedupTxHashSet ∨ ∃ k ∈ hs, ∃ tx, mp.txs.lookup k = some tx ∧
      tx.dedupHash = d := by
  obtain ⟨k, tx, hlook, hdedup⟩ := h.covered d hd
  by_cases hk : k ∈ hs
  · exact Or.inr ⟨k, hk, tx, hlook, hdedup⟩
  · have hafter : mp'.txs.lookup k = some tx := by
      rw [Mempool.lookup_dropAll hdrop, if_neg hk, hlook]
    exact Or.inl (hdedup ▸ (h.dropAll hdrop).mem k tx hafter)

/-- **What a call does to the memories**: a dedup hash of what waits stays
in the set or is written to the cache; the cache has what is written and
what is not evicted; and the slot does not move back. -/
structure Retains (p : Pool) (c : PoolCall) (p' : Pool) : Prop where
  /-- What waited still waits, or is written. -/
  waiting : ∀ d ∈ p.mempool.dedupTxHashSet, d ∈ p'.mempool.dedupTxHashSet ∨
    d ∈ p.written c
  cached : ∀ d, d ∈ p'.dedup.cache ↔ (d ∈ p.dedup.cache ∧ d ∉ c.evicted) ∨
    d ∈ p.written c
  slot : p.mempool.netCurrentSlot ≤ p'.mempool.netCurrentSlot

/-- A call that neither writes to the cache nor takes anything out. -/
theorem Retains.of_subset {c : PoolCall} (hwritten : p.written c = [])
    (hevicted : c.evicted = ∅) {mp : Mempool}
    (hset : p.mempool.dedupTxHashSet ⊆ mp.dedupTxHashSet)
    (hslot : p.mempool.netCurrentSlot ≤ mp.netCurrentSlot) :
    Retains p c { p with mempool := mp } where
  waiting d hd := Or.inl (hset hd)
  cached d := by simp [hwritten, hevicted]
  slot := hslot

theorem Retains.addTx (s : Store) (tx : Transaction) :
    Retains p (.addTx s tx)
      { p with mempool := (p.mempool.addTx p.dedup s tx).1 } := by
  refine .of_subset rfl rfl ?_ ?_
  · obtain ⟨err, herr⟩ | ⟨-, hput⟩ := p.mempool.addTx_cases p.dedup s tx
    · rw [herr]
    · rw [hput, (p.mempool.put_frame tx).2.1]
      exact Finset.subset_insert _ _
  · obtain ⟨err, herr⟩ | ⟨-, hput⟩ := p.mempool.addTx_cases p.dedup s tx
    · rw [herr]
      exact UInt64.le_refl _
    · rw [hput, (p.mempool.put_frame tx).2.2]
      exact UInt64.le_refl _

theorem Retains.pullBatch (h : p.mempool.Represents) {t t' : TransactionTracker}
    {size : ℕ} {mp : Mempool} {ds : DedupService} {batch : List Transaction}
    (hpull : p.mempool.pullBatch p.dedup t size = some (mp, ds, t', batch)) :
    Retains p (.pullBatch t size) ⟨mp, ds⟩ := by
  have hwritten : p.written (.pullBatch t size)
      = batch.map Transaction.dedupHash := by
    simp only [written, hpull]
  obtain ⟨mp₁, hdrop, rfl, rfl⟩ := Mempool.pullBatch_cases hpull
  refine ⟨fun d hd => ?_, fun d => ?_, ?_⟩
  · -- the hashes taken out are those of the batch
    rw [hwritten]
    obtain hstays | ⟨k, hk, tx, hlook, rfl⟩ :=
      mem_dedupTxHashSet_dropAll h.toIndexed hdrop hd
    · exact Or.inl hstays
    · have htake : ∀ k ∈ p.mempool.txOrder.take size, k ∈ p.mempool.txs :=
        fun k hk => (h.order k).mp (List.mem_of_mem_take hk)
      have hbatch := Mempool.map_some_dropAll hdrop
        ((List.take_sublist _ _).nodup h.nodup) htake
      have hmem : some tx ∈ batch.map some := by
        rw [hbatch, ← hlook]
        exact List.mem_map_of_mem hk
      obtain ⟨tx', htx', heq⟩ := List.mem_map.mp hmem
      cases heq
      exact Or.inr (List.mem_map_of_mem htx')
  · show d ∈ (p.dedup.add _).cache ↔ _
    rw [hwritten, DedupService.mem_add]
    simp [PoolCall.evicted, or_comm]
  · show p.mempool.netCurrentSlot ≤ mp₁.netCurrentSlot
    rw [Mempool.netCurrentSlot_dropAll hdrop]
    exact UInt64.le_refl _

theorem Retains.receiveBlock (h : RepresentsOf txs p)
    (hhash : ∀ tx ∈ txs, ∀ tx' ∈ txs,
      Transaction.hash (some tx) = Transaction.hash (some tx') → tx = tx')
    {block : List Transaction} (hblock : ∀ tx ∈ block, tx ∈ txs) {mp : Mempool}
    (hclean : p.mempool.blockCleanup
      (block.map (fun tx => Transaction.hash (some tx))) = some mp) :
    Retains p (.receiveBlock block)
      ⟨mp, p.dedup.add (block.map Transaction.dedupHash)⟩ := by
  obtain ⟨mp₁, taken, hdrop, rfl⟩ := Mempool.blockCleanup_cases hclean
  refine ⟨fun d hd => ?_, fun d => ?_, ?_⟩
  · obtain hstays | ⟨k, hk, tx, hlook, rfl⟩ :=
      mem_dedupTxHashSet_dropAll h.represents.toIndexed hdrop hd
    · exact Or.inl hstays
    · -- under the hash of a transaction of the block is that transaction
      obtain ⟨tx', htx', rfl⟩ := List.mem_map.mp hk
      have heq := hhash tx' (hblock tx' htx') tx (h.known _ tx hlook)
        (h.represents.keyed _ tx hlook)
      exact Or.inr (heq ▸ List.mem_map_of_mem htx')
  · show d ∈ (p.dedup.add _).cache ↔ _
    rw [DedupService.mem_add]
    simp [PoolCall.evicted, written, or_comm]
  · show p.mempool.netCurrentSlot ≤ mp₁.netCurrentSlot
    rw [Mempool.netCurrentSlot_dropAll hdrop]
    exact UInt64.le_refl _

/-- **Every call the handlers make retains.** -/
theorem Retains.of_step (h : RepresentsOf txs p)
    (hhash : ∀ tx ∈ txs, ∀ tx' ∈ txs,
      Transaction.hash (some tx) = Transaction.hash (some tx') → tx = tx')
    {c : PoolCall} (hc : ∀ tx ∈ c.about, tx ∈ txs)
    (hclean : ∀ hs, c ≠ .blockCleanup hs) (hstep : p.step c = some p') :
    Retains p c p' := by
  cases c with
  | addTx s tx =>
    cases hstep
    exact .addTx s tx
  | pullBatch t size =>
    obtain ⟨⟨mp, ds, t', batch⟩, hpull, rfl⟩ := Option.map_eq_some_iff.mp hstep
    exact .pullBatch h.represents hpull
  | blockCleanup hs => exact absurd rfl (hclean hs)
  | receiveBlock block =>
    obtain ⟨mp, hcleaned, rfl⟩ := Option.map_eq_some_iff.mp hstep
    exact .receiveBlock h hhash hc hcleaned
  | setCurrentSlot slot =>
    cases hstep
    refine .of_subset rfl rfl ?_ (p.mempool.le_setCurrentSlot slot).1
    unfold Mempool.setCurrentSlot
    split <;> exact subset_rfl
  | expireDedup hashes =>
    cases hstep
    refine ⟨fun d hd => Or.inl hd, fun d => ?_, UInt64.le_refl _⟩
    show d ∈ p.dedup.cache \ hashes ↔ _
    simp [PoolCall.evicted, written]

end Pool

/-! ## The invariant -/

namespace TimedPool

variable {txs : List Transaction} {tp tp' : TimedPool}

/-- **How a transaction is remembered**: it waits, or the cache has it since
a time at which its nonce was not above the slot, or its nonce has left the
window. -/
def Remembers (tp : TimedPool) (tx : Transaction) : Prop :=
  tx.dedupHash ∈ tp.pool.mempool.dedupTxHashSet ∨
    (tx.dedupHash ∈ tp.pool.dedup.cache ∧
      ∃ m ∈ tp.passed, tp.setAt tx.dedupHash = some m.1 ∧ tx.nonce ≤ m.2) ∨
    tx.nonce.toNat + nonceWindow.toNat < tp.slot.toNat

/-- **Everything seen is remembered.** -/
structure Mindful (txs : List Transaction) (tp : TimedPool) : Prop where
  represents : tp.pool.RepresentsOf txs
  reached : ∀ tx ∈ tp.seen, tx.nonce ≤ tp.slot
  known : ∀ tx ∈ tp.seen, tx ∈ txs
  remembers : ∀ tx ∈ tp.seen, tp.Remembers tx

theorem Mindful.new (maxSize : ℕ) (ds : DedupService) :
    Mindful txs (TimedPool.new maxSize ds) where
  represents := ⟨.new maxSize, fun _ _ hlook => by cases hlook⟩
  reached _ htx := by cases htx
  known _ htx := by cases htx
  remembers _ htx := by cases htx

/-- The pool and the cache see no time pass. -/
theorem Mindful.wait (h : Mindful txs tp) (seconds : ℕ) : Mindful txs { tp with
    now := tp.now + seconds
    passed := (tp.now + seconds, tp.slot) :: tp.passed } where
  represents := h.represents
  reached := h.reached
  known := h.known
  remembers tx htx := by
    refine (h.remembers tx htx).imp_right (Or.imp_left ?_)
    rintro ⟨hcache, m, hm, hset, hnonce⟩
    exact ⟨hcache, m, List.mem_cons_of_mem _ hm, hset, hnonce⟩

/-- What a call takes in passed the check of its nonce, and waits or is
written to the cache. -/
theorem taken_spec {p p' : Pool} {c : PoolCall}
    (hverified : ∀ block, c = .receiveBlock block →
      p.mempool.verifyBlockTransactions p.dedup block = .ok ())
    (hstep : p.step c = some p') {tx : Transaction} (htx : tx ∈ p.taken c) :
    tx ∈ c.about ∧ tx.nonce ≤ p.mempool.netCurrentSlot ∧
      (tx.dedupHash ∈ p'.mempool.dedupTxHashSet ∨ tx.dedupHash ∈ p.written c) := by
  cases c with
  | addTx s tx' =>
    cases hstep
    by_cases hadm : p.mempool.Admissible p.dedup s tx'
    · have hadd := Mempool.addTx_of_admissible hadm
      have htaken : p.taken (.addTx s tx') = [tx'] := by simp only [Pool.taken, hadd]
      rw [htaken, List.mem_singleton] at htx
      subst htx
      have hnonce := (Mempool.amount_of_cheapValidateTransaction hadm.1).2
      refine ⟨List.mem_singleton_self _, ?_, Or.inl ?_⟩
      · exact (Mempool.validateNonce_eq_ok.mp hnonce tx (List.mem_singleton_self _)).2
      · show tx.dedupHash ∈ (p.mempool.addTx p.dedup s tx).1.dedupTxHashSet
        rw [hadd, (p.mempool.put_frame tx).2.1]
        exact Finset.mem_insert_self _ _
    · obtain ⟨err, herr⟩ := Mempool.addTx_of_not_admissible hadm
      have htaken : p.taken (.addTx s tx') = [] := by simp only [Pool.taken, herr]
      rw [htaken] at htx
      cases htx
  | receiveBlock block =>
    have hchecked := Mempool.verifyBlockTransactions_eq_ok.mp
      (hverified block rfl) tx htx
    exact ⟨htx, hchecked.1.2, Or.inr (List.mem_map_of_mem htx)⟩
  | pullBatch => cases htx
  | blockCleanup => cases htx
  | setCurrentSlot => cases htx
  | expireDedup => cases htx

/-- Only old entries are evicted, and only when the network has kept pace. -/
theorem Regular.evicts {c : PoolCall} (h : tp.Regular (.call c)) :
    ∀ d ∈ c.evicted, tp.Outlived d ∧ tp.KeepsPace := by
  intro d hd
  cases c with
  | expireDedup hashes => exact ⟨h.1 d hd, h.2⟩
  | addTx => exact absurd hd (Finset.notMem_empty d)
  | pullBatch => exact absurd hd (Finset.notMem_empty d)
  | blockCleanup => exact absurd hd (Finset.notMem_empty d)
  | receiveBlock => exact absurd hd (Finset.notMem_empty d)
  | setCurrentSlot => exact absurd hd (Finset.notMem_empty d)

/-- **A call keeps the memory of a transaction** whose nonce was accepted. -/
theorem Remembers.call {c : PoolCall} {p' : Pool} (hretains : tp.pool.Retains c p')
    (hevicted : ∀ d ∈ c.evicted, tp.Outlived d ∧ tp.KeepsPace) {tx : Transaction}
    (hreached : tx.nonce ≤ tp.slot)
    (h : tp.Remembers tx ∨ tx.dedupHash ∈ tp.pool.written c)
    (seen : List Transaction) :
    Remembers { tp with
      pool := p'
      setAt := fun d => if d ∈ tp.pool.written c then some tp.now else tp.setAt d
      passed := (tp.now, p'.mempool.netCurrentSlot) :: tp.passed
      seen := seen } tx := by
  have hslot : tp.slot.toNat ≤ p'.mempool.netCurrentSlot.toNat :=
    UInt64.le_iff_toNat_le.mp hretains.slot
  by_cases hwritten : tx.dedupHash ∈ tp.pool.written c
  · -- it is written now, at the slot of now
    refine Or.inr
      (Or.inl ⟨(hretains.cached _).mpr (Or.inr hwritten), _,
        List.mem_cons_self, ?_, ?_⟩)
    · exact if_pos hwritten
    · exact UInt64.le_trans hreached hretains.slot
  obtain hwaits | ⟨hcache, m, hm, hset, hnonce⟩ | hold := h.resolve_right hwritten
  · exact Or.inl ((hretains.waiting _ hwaits).resolve_right hwritten)
  · by_cases hgone : tx.dedupHash ∈ c.evicted
    · -- an evicted entry is old, and the network has moved on since
      obtain ⟨hold, hpace⟩ := hevicted _ hgone
      have hahead := hpace m hm (hold m.1 hset)
      have hle := UInt64.le_iff_toNat_le.mp hnonce
      exact Or.inr (Or.inr (by show _ < p'.mempool.netCurrentSlot.toNat; omega))
    · refine Or.inr (Or.inl ⟨(hretains.cached _).mpr (Or.inl ⟨hcache, hgone⟩), m,
        List.mem_cons_of_mem _ hm, ?_, hnonce⟩)
      exact (if_neg hwritten).trans hset
  · exact Or.inr (Or.inr (Nat.lt_of_lt_of_le hold hslot))

theorem Mindful.step (h : Mindful txs tp)
    (hhash : ∀ tx ∈ txs, ∀ tx' ∈ txs,
      Transaction.hash (some tx) = Transaction.hash (some tx') → tx = tx')
    {c : TimedCall} (hregular : tp.Regular c) (hknown : Known txs c)
    (hstep : tp.step c = some tp') :
    Mindful txs tp' := by
  cases c with
  | wait seconds =>
    cases hstep
    exact h.wait seconds
  | call c =>
    obtain ⟨p', hcall, rfl⟩ := Option.map_eq_some_iff.mp hstep
    have hclean : ∀ hs, c ≠ .blockCleanup hs := by
      rintro hs rfl
      exact hregular
    have hverified : ∀ block, c = .receiveBlock block →
        tp.pool.mempool.verifyBlockTransactions tp.pool.dedup block = .ok () := by
      rintro block rfl
      exact hregular
    have hretains := Pool.Retains.of_step h.represents hhash hknown hclean hcall
    have hsubmitted : ∀ tx ∈ c.submitted, tx ∈ txs :=
      fun tx htx => hknown tx (PoolCall.mem_about_of_submitted htx)
    refine ⟨h.represents.step hhash hsubmitted hcall, fun tx htx => ?_, fun tx htx =>
      ?_, fun tx htx => ?_⟩
    · obtain htx | htx := List.mem_append.mp htx
      · exact UInt64.le_trans (h.reached tx htx) hretains.slot
      · exact UInt64.le_trans (taken_spec hverified hcall htx).2.1 hretains.slot
    · obtain htx | htx := List.mem_append.mp htx
      · exact h.known tx htx
      · exact hknown tx (taken_spec hverified hcall htx).1
    · obtain htx | htx := List.mem_append.mp htx
      · exact Remembers.call hretains hregular.evicts (h.reached tx htx)
          (Or.inl (h.remembers tx htx)) _
      · obtain ⟨-, hnonce, hwaits | hwritten⟩ := taken_spec hverified hcall htx
        · exact Or.inl hwaits
        · exact Remembers.call hretains hregular.evicts hnonce (Or.inr hwritten) _

/-- **Nothing is taken twice.** The calls of a mempool do not overlap and
are made as `Regular` says:

* a received block counts when the node is no listener and the block's
  hashes are valid; its transactions have then passed the checks on nonces
  and copies, and what is cleaned up after it are its own hashes;
* the cache evicts an entry only when it is older than its lifetime of five
  minutes, and at that time the network is more than 150 slots ahead of
  every slot it was at longer ago than that.

All transactions that are submitted or come with a block are among `txs`, of
which no two have the same hash, and no two with the same dedup hash differ
in their nonces. Then what was admitted or came with a block is not admitted
again, with whatever ledger, and once it does not wait any more no block
that has it passes the checks. -/
theorem never_again
    (hhash : ∀ tx ∈ txs, ∀ tx' ∈ txs,
      Transaction.hash (some tx) = Transaction.hash (some tx') → tx = tx')
    (hnonce : ∀ tx ∈ txs, ∀ tx' ∈ txs, tx.dedupHash = tx'.dedupHash →
      tx.nonce = tx'.nonce)
    {maxSize : ℕ} {ds : DedupService}
    (hrun : Machine.Run step (fun tp c => tp.Regular c ∧ Known txs c)
      (new maxSize ds) tp)
    {tx tx' : Transaction} (htx : tx ∈ tp.seen) (htx' : tx' ∈ txs)
    (hsame : tx'.dedupHash = tx.dedupHash) :
    (∀ s, ¬ tp.pool.mempool.Admissible tp.pool.dedup s tx') ∧
      (tx'.dedupHash ∉ tp.pool.mempool.dedupTxHashSet → ∀ block, tx' ∈ block →
        tp.pool.mempool.verifyBlockTransactions tp.pool.dedup block ≠ .ok ()) := by
  have hinv := hrun.invariant (I := Mindful txs) (.new maxSize ds)
    (fun _ _ _ h hC hstep => h.step hhash hC.1 hC.2 hstep)
  have hremembers := hinv.remembers tx htx
  have heq : tx'.nonce = tx.nonce := hnonce tx' htx' tx (hinv.known tx htx) hsame
  -- a nonce behind the window fails the check that admission and blocks
  -- share
  have hlow : tx.nonce.toNat + nonceWindow.toNat < tp.slot.toNat →
      ¬ tp.pool.mempool.minNonce ≤ tx'.nonce := by
    intro hbehind hle
    have hwindow := (Mempool.minNonce_le_iff.mp hle).2
    rw [heq] at hwindow
    exact absurd hwindow (Nat.not_le.mpr hbehind)
  refine ⟨fun s hadm => ?_, fun hgone block hmem hok => ?_⟩
  · obtain ⟨hfresh, hnew, -⟩ := Mempool.validateTransaction_eq_ok.mp hadm.2
    rw [hsame] at hfresh hnew
    obtain hwaits | ⟨hcache, -⟩ | hold := hremembers
    · exact hfresh hwaits
    · exact hnew hcache
    · have hcheck := (Mempool.amount_of_cheapValidateTransaction hadm.1).2
      exact hlow hold (Mempool.validateNonce_eq_ok.mp hcheck tx'
        (List.mem_singleton_self _)).1
  · obtain ⟨⟨hmin, -⟩, hnew⟩ := Mempool.verifyBlockTransactions_eq_ok.mp hok tx' hmem
    rw [hsame] at hgone hnew
    obtain hwaits | ⟨hcache, -⟩ | hold := hremembers
    · exact hgone hwaits
    · exact hnew hcache
    · exact hlow hold hmin

end TimedPool

end

/-! ## Examples -/

section Sample

attribute [local instance] Sample.primitives

open Sample

/-- A transfer is admitted and pulled; more than five minutes later the
network is at slot 200 and the cache forgets it. -/
def Sample.forgetting (tx : Transaction) : List TimedCall :=
  [.call (.setCurrentSlot 1), .call (.addTx (ledger 100) tx),
    .call (.pullBatch TransactionTracker.new 10), .wait 400,
    .call (.setCurrentSlot 200), .call (.expireDedup {tx.dedupHash})]

/-- The forgotten transfer is not admitted again, and no block with it
passes. -/
theorem never_again_forgotten :
    ∃ tp, Machine.Run TimedPool.step
      (fun tp c => tp.Regular c ∧ TimedPool.Known [transfer 2 1 30 1 0] c)
        (TimedPool.new 10 DedupService.new) tp ∧
      transfer 2 1 30 1 0 ∈ tp.seen ∧ tp.pool.dedup.cache = ∅ ∧
      ¬ tp.pool.mempool.Admissible tp.pool.dedup (ledger 100) (transfer 2 1 30 1 0) ∧
      tp.pool.mempool.verifyBlockTransactions tp.pool.dedup [transfer 2 1 30 1 0]
        ≠ .ok () := by
  have htest : (Machine.exec TimedPool.step
      (fun tp c => tp.Regular c ∧ TimedPool.Known [transfer 2 1 30 1 0] c)
      (TimedPool.new 10 DedupService.new) (forgetting (transfer 2 1 30 1 0))).any
        (fun tp =>
        decide (transfer 2 1 30 1 0 ∈ tp.seen) && decide (tp.pool.dedup.cache = ∅) &&
        decide (tp.pool.mempool.dedupTxHashSet = ∅)) = true := by
    decide +kernel
  obtain ⟨tp, hrun, htest⟩ := Machine.exists_run_of_exec htest
  rw [Bool.and_eq_true, Bool.and_eq_true, decide_eq_true_iff, decide_eq_true_iff,
    decide_eq_true_iff] at htest
  obtain ⟨⟨hseen, hcache⟩, hset⟩ := htest
  have hone : ∀ tx ∈ [transfer 2 1 30 1 0], tx = transfer 2 1 30 1 0 :=
    fun tx htx => List.mem_singleton.mp htx
  have hnever := TimedPool.never_again
    (fun tx htx tx' htx' _ => (hone tx htx).trans (hone tx' htx').symm)
    (fun tx htx tx' htx' _ => by rw [hone tx htx, hone tx' htx'])
    hrun hseen (List.mem_singleton_self _) rfl
  refine ⟨tp, hrun, hseen, hcache, hnever.1 _,
    hnever.2 ?_ _ (List.mem_singleton_self _)⟩
  rw [hset]
  exact Finset.notMem_empty _

/-- A transfer with a bar and a number in its memo. -/
def Sample.barred : Transaction :=
  let tx := { transfer 2 1 30 1 0 with textData := "rent|200" }
  { tx with signature := Base58.encode (signWith (keyBytes 2) tx.serialize) }

/-- The same signed bytes, read with the number as the nonce. -/
def Sample.shifted : Transaction :=
  { barred with textData := "rent", nonce := 200, extraInfo := "1|" }

/-- **The same bytes are admitted twice**: when the cache has forgotten the
transfer, its other reading is admitted, under the signature of the first,
in a network that keeps pace. -/
theorem shifted_copy_admitted :
    ∃ tp, Machine.Run TimedPool.step TimedPool.Regular
      (TimedPool.new 10 DedupService.new) tp ∧
      barred ∈ tp.seen ∧ shifted.dedupHash = barred.dedupHash ∧
      shifted.signature = barred.signature ∧
      tp.pool.mempool.Admissible tp.pool.dedup (ledger 100) shifted := by
  have htest : (Machine.exec TimedPool.step TimedPool.Regular
    (TimedPool.new 10 DedupService.new)
      (forgetting barred)).any (fun tp => decide (barred ∈ tp.seen) &&
        decide (tp.pool.mempool.cheapValidateTransaction shifted = .ok ()) &&
        decide (tp.pool.mempool.validateTransaction tp.pool.dedup (ledger 100) shifted
          = .ok ()))
            = true := by
    decide +kernel
  obtain ⟨tp, hrun, htest⟩ := Machine.exists_run_of_exec htest
  rw [Bool.and_eq_true, Bool.and_eq_true, decide_eq_true_iff, decide_eq_true_iff,
    decide_eq_true_iff] at htest
  exact ⟨tp, hrun, htest.1.1, by decide +kernel, rfl, htest.1.2, htest.2⟩

end Sample

end Mmn
