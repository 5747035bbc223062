import Mmn.Sample
import Mmn.Steps

/-!
# Replicas that commit in different orders

Two nodes with the same blocks may see votes in different orders, and then
commit the same slots in different orders: nothing but the votes decides
when a block is applied. Whether a transfer goes through depends on what
earlier transfers left, so the two can end in different accounts
(`divergence_of_commit_orders`).

What is true is a statement about footprints. Applying a block reads and
writes the accounts its transfers name, the meta records of its transactions
and the latest versions of the content it names, and nothing else: it is
local to its *footprint*. The transactions themselves are only read, and
applying blocks does not change them, so the footprint of a block is known
before any is applied. If every two slots that the nodes commit in opposite
orders have disjoint footprints, the nodes end in the same accounts, meta
records and latest versions (`replicas_agree`).
-/

namespace Mmn

section

variable [Primitives]

/-! ## What applying a block reads and writes -/

/-- The records that applying a block may read or write. -/
inductive DbKey where
  | account (addr : String)
  | txMeta (txHash : String)
  /-- The latest version of a piece of content. -/
  | version (rootHash : String)
deriving DecidableEq

/-- What may be stored under a key. -/
abbrev DbKey.Val : DbKey → Type
  | .account addr => Option (Account addr)
  | .txMeta txHash => Option (TransactionMeta txHash)
  | .version _ => Option Bytes

/-- The records of a database. -/
abbrev View : Type := ∀ k : DbKey, k.Val

/-- The records of the store. -/
def Store.view (s : Store) : View
  | .account addr => s.accounts.lookup addr
  | .txMeta txHash => s.txMetas.lookup txHash
  | .version rootHash => s.latestVersions.lookup rootHash

/-- Running a block on records, with the transactions found by `getTx`. -/
def execute (getTx : String → Option Transaction) (b : Block) (v : View) :
    BlockEffects :=
  let txs := b.txHashes.filterMap getTx
  let r := runTxs b (AList.loadAll (accAddrs txs) (fun a => v (.account a))) txs
  let related := indexByHash (r.relatedContentHashes.filterMap getTx)
  let latest := AList.loadAll r.rootContentHashes
    (fun root => (v (.version root)).map hexEncode)
  let contents := r.txContents.foldl (runContent b related) (r.txMetas, latest)
  { txMetas := contents.1, state := r.state, latest := contents.2 }

/-- Running a block on the store is running it on its records. -/
theorem executeBlock_eq (s : Store) (b : Block) :
    s.executeBlock b = execute s.getTxByHash b s.view := rfl

/-- The records after a block is applied. -/
def updateView (getTx : String → Option Transaction) (b : Block) (v : View) : View
  | .account addr => ((execute getTx b v).state.lookup addr).or (v (.account addr))
  | .txMeta txHash =>
    ((execute getTx b v).txMetas.lookup txHash).or (v (.txMeta txHash))
  | .version rootHash =>
    (((execute getTx b v).latest.lookup rootHash).map
      (fun h => (hexDecode h).getD [])).or (v (.version rootHash))

theorem view_applyBlock (s : Store) (b : Block) :
    (s.applyBlock b).view = updateView s.getTxByHash b s.view := by
  funext k
  cases k with
  | account addr =>
    show (AList.writeAll _ (s.executeBlock b).state s.accounts).lookup addr = _
    rw [AList.lookup_writeAll, Option.map_id', executeBlock_eq]
    rfl
  | txMeta txHash =>
    show (AList.writeAll _ (s.executeBlock b).txMetas s.txMetas).lookup txHash = _
    rw [AList.lookup_writeAll, Option.map_id', executeBlock_eq]
    rfl
  | version rootHash =>
    show (AList.writeAll _ (s.executeBlock b).latest s.latestVersions).lookup rootHash
      = _
    rw [AList.lookup_writeAll, executeBlock_eq]
    rfl

/-- **The footprint of a block**: the accounts its transfers name, its
transactions' meta records, the roots its content names, and the roots its
content may found. -/
def footprint (getTx : String → Option Transaction) (b : Block) : List DbKey :=
  let txs := b.txHashes.filterMap getTx
  (accAddrs txs).map .account
    ++ txs.map (fun tx => .txMeta (Transaction.hash (some tx)))
    ++ (runTxs b ∅ txs).rootContentHashes.map .version
    ++ txs.map (fun tx => .version (Transaction.hash (some tx)))

/-! ## Applying a block is local to its footprint -/

/-- The roots a block names do not depend on the accounts. -/
theorem rootContentHashes_foldl_runTx (b : Block) (txs : List Transaction)
    {r r' : BlockRun} (h : r.rootContentHashes = r'.rootContentHashes) :
    (txs.foldl (runTx b) r).rootContentHashes
      = (txs.foldl (runTx b) r').rootContentHashes := by
  induction txs generalizing r r' with
  | nil => exact h
  | cons tx txs ih =>
    rw [List.foldl_cons, List.foldl_cons]
    refine ih ?_
    unfold runTx
    split
    · cases unmarshalUserContent tx.extraInfo with
      | none => exact h
      | some content =>
        dsimp only
        rw [h]
    · obtain ⟨state, res⟩ := applyTx r.state tx
      obtain ⟨state', res'⟩ := applyTx r'.state tx
      cases res <;> cases res' <;> exact h

section

variable {getTx : String → Option Transaction} {b : Block}

/-- The accounts written are those of the footprint. -/
theorem account_mem_footprint {v : View} {addr : String}
    (h : addr ∈ (execute getTx b v).state) :
    DbKey.account addr ∈ footprint getTx b := by
  have hstate : (execute getTx b v).state
      = applyAll (AList.loadAll (accAddrs (b.txHashes.filterMap getTx))
          (fun a => v (.account a))) (b.txHashes.filterMap getTx) :=
    foldl_runTx_state b _ _
  rw [hstate] at h
  have haddr : addr ∈ accAddrs (b.txHashes.filterMap getTx) := by
    obtain hload | haddr := mem_applyAll h
    · exact AList.mem_of_mem_loadAll hload
    · exact haddr
  simp [footprint, haddr]

/-- The contents set aside are transactions of the block. -/
theorem txContents_subset (b : Block) (state : LedgerState) (txs : List Transaction) :
    (runTxs b state txs).txContents ⊆ txs :=
  fun tx hmem => ((tracks_runTxs b state txs).contents tx hmem).1

/-- The meta records written are those of the footprint. -/
theorem txMeta_mem_footprint {v : View} {txHash : String}
    (h : txHash ∈ (execute getTx b v).txMetas) :
    DbKey.txMeta txHash ∈ footprint getTx b := by
  obtain ⟨m, hlook⟩ := Option.isSome_iff_exists.mp (AList.lookup_isSome.mpr h)
  obtain ⟨⟨tx, hmem, rfl⟩, -⟩ := records_run b _ _ _ _ txHash m hlook
  refine List.mem_append_left _ (List.mem_append_left _ (List.mem_append_right _ ?_))
  exact List.mem_map.mpr ⟨tx, hmem, rfl⟩

/-- The latest versions loaded are those of the footprint. -/
theorem version_mem_footprint_of_root {state : LedgerState} {rootHash : String}
    (h : rootHash ∈ (runTxs b state (b.txHashes.filterMap getTx)).rootContentHashes) :
    DbKey.version rootHash ∈ footprint getTx b := by
  have hroots : (runTxs b state (b.txHashes.filterMap getTx)).rootContentHashes
      = (runTxs b ∅ (b.txHashes.filterMap getTx)).rootContentHashes :=
    rootContentHashes_foldl_runTx b _ rfl
  rw [hroots] at h
  refine List.mem_append_left _ (List.mem_append_right _ ?_)
  exact List.mem_map.mpr ⟨rootHash, h, rfl⟩

/-- The latest versions written are those of the footprint. -/
theorem version_mem_footprint {v : View} {rootHash : String}
    (h : rootHash ∈ (execute getTx b v).latest) :
    DbKey.version rootHash ∈ footprint getTx b := by
  obtain hload | ⟨tx, hmem, -, rfl⟩ := (foldl_runContent_mem b _ _ _).2 rootHash h
  · exact version_mem_footprint_of_root (AList.mem_of_mem_loadAll hload)
  · refine List.mem_append_right _ (List.mem_map.mpr ⟨tx, ?_, rfl⟩)
    exact txContents_subset b _ _ hmem

/-- What a block does depends on its footprint only. -/
theorem execute_congr {v v' : View} (h : ∀ k ∈ footprint getTx b, v k = v' k) :
    execute getTx b v = execute getTx b v' := by
  have haccounts : AList.loadAll (accAddrs (b.txHashes.filterMap getTx))
        (fun a => v (.account a))
      = AList.loadAll (accAddrs (b.txHashes.filterMap getTx))
          (fun a => v' (.account a)) := by
    refine AList.loadAll_congr (fun a ha => h _ ?_)
    simp [footprint, ha]
  unfold execute
  dsimp only
  rw [haccounts]
  have hlatest : ∀ roots : List String,
      (∀ root ∈ roots, DbKey.version root ∈ footprint getTx b) →
        AList.loadAll roots (fun root => (v (.version root)).map hexEncode)
          = AList.loadAll roots (fun root => (v' (.version root)).map hexEncode) := by
    intro roots hroots
    refine AList.loadAll_congr (fun root hroot => ?_)
    rw [h _ (hroots root hroot)]
  rw [hlatest _ (fun root hroot => version_mem_footprint_of_root hroot)]

/-- **Applying a block is local to its footprint.** -/
theorem localOn_updateView (getTx : String → Option Transaction) (b : Block) :
    LocalOn {k | k ∈ footprint getTx b} (updateView getTx b) where
  frame v k hk := by
    cases k with
    | account addr =>
      have hnone := AList.lookup_eq_none.mpr
        (fun h => hk (account_mem_footprint (v := v) h))
      rw [updateView, hnone, Option.none_or]
    | txMeta txHash =>
      have hnone := AList.lookup_eq_none.mpr
        (fun h => hk (txMeta_mem_footprint (v := v) h))
      rw [updateView, hnone, Option.none_or]
    | version rootHash =>
      have hnone := AList.lookup_eq_none.mpr
        (fun h => hk (version_mem_footprint (v := v) h))
      rw [updateView, hnone, Option.map_none, Option.none_or]
  congr v v' h k hk := by
    have hexecute := execute_congr h
    cases k with
    | account addr => rw [updateView, updateView, hexecute, h _ hk]
    | txMeta txHash => rw [updateView, updateView, hexecute, h _ hk]
    | version rootHash => rw [updateView, updateView, hexecute, h _ hk]

end

/-! ## The order of commits -/

/-- The slot an event committed. -/
def Event.commitSlot : Event → Option UInt64
  | .committed _ slot _ _ => some slot
  | .stored _ _ => none
  | .synced _ _ => none
  | .voted _ => none

/-- **The slots committed since an earlier state**, oldest first. -/
def Core.commitsSince (c₀ c : Core) : List UInt64 :=
  (c.history.drop c₀.history.length).filterMap Event.commitSlot

/-- What committing a slot does to the records, by the blocks and
transactions of a store. -/
def Store.updateSlot (s : Store) (v : View) (slot : UInt64) : View :=
  match s.block slot with
  | some b => updateView s.getTxByHash b v
  | none => v

/-- The footprint of the block stored at a slot. -/
def Store.footprintAt (s : Store) (slot : UInt64) : List DbKey :=
  match s.block slot with
  | some b => footprint s.getTxByHash b
  | none => []

theorem Store.localOn_updateSlot (s : Store) (slot : UInt64) :
    LocalOn {k | k ∈ s.footprintAt slot} (fun v => s.updateSlot v slot) := by
  unfold updateSlot footprintAt
  cases s.block slot with
  | none => exact LocalOn.id _
  | some b => exact localOn_updateView s.getTxByHash b

/-- **What commits alone make of a core.** -/
structure Committing (c₀ c : Core) : Prop where
  history : c₀.history <+: c.history
  txs : c.store.txs = c₀.store.txs
  /-- The records are those at the start with the commits replayed. -/
  view : c.store.view = (c₀.commitsSince c).foldl c₀.store.updateSlot c₀.store.view
  nodup : (c₀.commitsSince c).Nodup
  marked : ∀ slot ∈ c₀.commitsSince c, slot ∈ c.store.finalized
  /-- Where a slot is not marked its block is the one from the start. -/
  block : ∀ slot, slot ∉ c.store.finalized → c.store.block slot = c₀.store.block slot

theorem Core.commitsSince_self (c : Core) : c.commitsSince c = [] := by
  rw [commitsSince, List.drop_length]
  rfl

theorem Core.commitsSince_append {c₀ c c' : Core} {es : List Event}
    (hgrow : c₀.history <+: c.history) (hes : c'.history = c.history ++ es) :
    c₀.commitsSince c' = c₀.commitsSince c ++ es.filterMap Event.commitSlot := by
  rw [commitsSince, hes, List.drop_append_of_le_length hgrow.length_le,
    List.filterMap_append]
  rfl

namespace Committing

variable {c₀ c c' : Core}

protected theorem refl (c : Core) : Committing c c where
  history := List.prefix_rfl
  txs := rfl
  view := by rw [Core.commitsSince_self]; rfl
  nodup := by rw [Core.commitsSince_self]; exact List.nodup_nil
  marked := by
    rw [Core.commitsSince_self]
    exact fun slot hmem => absurd hmem List.not_mem_nil
  block _ _ := rfl

/-- A change that commits nothing and touches no store. -/
theorem of_store_eq (h : Committing c₀ c) (es : List Event)
    (hstore : c'.store = c.store) (hes : c'.history = c.history ++ es)
    (hnone : es.filterMap Event.commitSlot = []) :
    Committing c₀ c' := by
  have hcommits : c₀.commitsSince c' = c₀.commitsSince c := by
    rw [Core.commitsSince_append h.history hes, hnone, List.append_nil]
  refine ⟨h.history.trans ⟨es, hes.symm⟩, ?_, ?_, ?_, ?_, ?_⟩
  · rw [hstore, h.txs]
  · rw [hstore, hcommits, h.view]
  · rw [hcommits]
    exact h.nodup
  · rw [hstore, hcommits]
    exact h.marked
  · rw [hstore]
    exact h.block

theorem commit (h : Committing c₀ c) {v : Vote} (hv : v.validate = .ok ()) {b : Block}
    (hb : c.store.block v.slot = some b) (happlied : v.slot ∉ c.store.finalized) :
    Committing c₀ (c.commit v hv b) := by
  have hcommits : c₀.commitsSince (c.commit v hv b) = c₀.commitsSince c
      ++ [v.slot] := by
    have hes : (c.commit v hv b).history = c.history ++ [_] := rfl
    exact Core.commitsSince_append h.history hes
  have hslot : b.slot = v.slot := Store.slot_of_block hb
  have hget : c.store.getTxByHash = c₀.store.getTxByHash := by
    funext txHash
    unfold Store.getTxByHash
    rw [h.txs]
  refine ⟨h.history.trans (List.prefix_append _ _), h.txs, ?_, ?_, ?_, ?_⟩
  · show (c.store.applyBlock b).view = _
    rw [view_applyBlock, hcommits, List.foldl_append, ← h.view, List.foldl_cons,
      List.foldl_nil, Store.updateSlot, ← h.block v.slot happlied, hb, hget]
  · rw [hcommits]
    refine List.Nodup.append h.nodup (List.nodup_singleton _) ?_
    intro slot hold hnew
    rw [List.mem_singleton] at hnew
    exact happlied (hnew ▸ h.marked slot hold)
  · intro slot hmem
    show slot ∈ insert b.slot c.store.finalized
    rw [hcommits, List.mem_append, List.mem_singleton] at hmem
    obtain hmem | rfl := hmem
    · exact Finset.mem_insert_of_mem (h.marked slot hmem)
    · rw [hslot]
      exact Finset.mem_insert_self _ _
  · intro slot hnot
    have hnot' : slot ∉ insert b.slot c.store.finalized := hnot
    rw [Finset.mem_insert, not_or] at hnot'
    show (Store.putFinalized _ _ _ _ _).block slot = _
    rw [Store.block_putFinalized, if_neg hnot'.1]
    exact h.block slot hnot'.2

/-- **A move that stores no block** only commits. -/
theorem move {cfg : Config} {A : Core → BroadcastedBlock → Prop}
    {V : Core → Vote → Prop} (h : Committing c₀ c) (hA : ∀ c b, ¬ A c b)
    (hmove : Core.Move cfg A V c c') :
    Committing c₀ c' := by
  cases hmove with
  | addBlock horigin => exact absurd horigin (hA _ _)
  | sync horigin => exact absurd horigin (hA _ _)
  | cast => exact h.of_store_eq [_] rfl rfl rfl
  | count => exact h.of_store_eq [] rfl (List.append_nil _).symm rfl
  | commit _ hv _ _ hb _ happlied => exact h.commit hv hb happlied
  | cleanup => exact h.of_store_eq [] rfl (List.append_nil _).symm rfl

theorem moves {cfg : Config} {A : Core → BroadcastedBlock → Prop}
    {V : Core → Vote → Prop} (h : Committing c₀ c) (hA : ∀ c b, ¬ A c b)
    (hmoves : Core.Moves cfg A V c c') :
    Committing c₀ c' := by
  induction hmoves with
  | refl => exact h
  | tail _ hmove ih => exact ih.move hA hmove

end Committing

/-- The inputs that bring no block: votes, transactions, and the rounds of a
node's own loops. -/
def BringsNoBlock (cfg : Config) (n : Node) (i : Input) : Prop :=
  (n.offered cfg i).isEmpty = true

instance (cfg : Config) (n : Node) (i : Input) : Decidable (BringsNoBlock cfg n i) :=
  inferInstanceAs (Decidable (_ = true))

theorem committing_of_run {cfg : Config} {n n' : Node}
    (hrun : Machine.Run (Node.step cfg) (BringsNoBlock cfg) n n') :
    Committing n.toCore n'.toCore := by
  refine hrun.invariant (I := fun t => Committing n.toCore t.toCore) (.refl _) ?_
  intro t i t' h hnone hstep
  have hA : ∀ c b, ¬ Admits cfg t i c b := by
    intro c b hadmits
    obtain ⟨blk, hmem, -⟩ := hadmits.exists_offered
    rw [List.isEmpty_iff.mp hnone] at hmem
    cases hmem
  exact h.moves hA (Node.moves_of_step hstep)

/-! ## Two nodes -/

/-- **Two stores that agree** on blocks, transactions and records. -/
structure SameStores (s₁ s₂ : Store) : Prop where
  block : s₁.block = s₂.block
  getTxByHash : s₁.getTxByHash = s₂.getTxByHash
  view : s₁.view = s₂.view

/-- **Nodes that commit the same slots end with the same records**, if every
two slots they commit in opposite orders have disjoint footprints. -/
theorem replicas_agree {cfg₁ cfg₂ : Config} {n₁ n₂ n₁' n₂' : Node}
    (hstart : SameStores n₁.store n₂.store)
    (hrun₁ : Machine.Run (Node.step cfg₁) (BringsNoBlock cfg₁) n₁ n₁')
    (hrun₂ : Machine.Run (Node.step cfg₂) (BringsNoBlock cfg₂) n₂ n₂')
    (hsame : ∀ slot, slot ∈ n₁.commitsSince n₁'.toCore ↔
      slot ∈ n₂.commitsSince n₂'.toCore)
    (hdisjoint : ∀ a b, [a, b].Sublist (n₁.commitsSince n₁'.toCore) →
      [b, a].Sublist (n₂.commitsSince n₂'.toCore) →
        ∀ k ∈ n₁.store.footprintAt a, k ∉ n₁.store.footprintAt b) :
    n₁'.store.view = n₂'.store.view := by
  have h₁ := committing_of_run hrun₁
  have h₂ := committing_of_run hrun₂
  have hupdate : n₁.store.updateSlot = n₂.store.updateSlot := by
    unfold Store.updateSlot
    rw [hstart.block, hstart.getTxByHash]
  rw [h₁.view, h₂.view, ← hupdate, ← hstart.view]
  refine Machine.foldl_eq_of_perm n₁.store.updateSlot h₁.nodup ?_ ?_ n₁.store.view
  · exact (List.perm_ext_iff_of_nodup h₁.nodup h₂.nodup).mpr hsame
  · intro a b hab hba v
    exact LocalOn.comm (n₁.store.localOn_updateSlot b) (n₁.store.localOn_updateSlot a)
      (fun k hb ha => hdisjoint a b hab hba k ha hb) v

end

section Sample

attribute [local instance] Sample.primitives

namespace Sample

/-- The block of a slot that carries one transfer. -/
def transferBlock (slot : UInt64) (tx : Transaction) : BroadcastedBlock :=
  blockWith 1 slot 0 [tx]

/-- The votes of the only validator for some blocks, in their order. -/
def votesFor (blocks : List BroadcastedBlock) : List Input :=
  blocks.map (fun blk => .vote (voteOf 1 blk.slot blk.hash))

/-- The first transfer of the samples: most of what the second account has. -/
def spend : Transaction := transfer 2 3 80 1 0

/-- A transfer that competes with it for the same coins. -/
def spendAgain : Transaction := transfer 2 1 80 2 0

/-- A transfer that does not. -/
def spendOther : Transaction := transfer 4 5 80 1 0

/-- The test of a node that has two blocks and gets the votes for them in
both orders. -/
def bothOrders (tx₁ tx₂ : Transaction) (p : Node → Node → Bool) (n : Node) : Bool :=
  (Machine.exec (Node.step alone) (BringsNoBlock alone) n
      (votesFor [transferBlock 1 tx₁, transferBlock 2 tx₂])).any fun n₁ =>
    (Machine.exec (Node.step alone) (BringsNoBlock alone) n
      (votesFor [transferBlock 2 tx₂, transferBlock 1 tx₁])).any fun n₂ =>
        n.commitsSince n₁.toCore == [1, 2] && n.commitsSince n₂.toCore == [2, 1]
          && p n₁ n₂

theorem exists_orders {tx₁ tx₂ : Transaction} {p : Node → Node → Bool} {n : Node}
    (h : bothOrders tx₁ tx₂ p n = true) :
    ∃ n₁ n₂, Machine.Run (Node.step alone) (BringsNoBlock alone) n n₁ ∧
      Machine.Run (Node.step alone) (BringsNoBlock alone) n n₂ ∧
      n.commitsSince n₁.toCore = [1, 2] ∧ n.commitsSince n₂.toCore = [2, 1] ∧
      p n₁ n₂ = true := by
  obtain ⟨n₁, hrun₁, h⟩ := Machine.exists_run_of_exec (C := BringsNoBlock alone) h
  obtain ⟨n₂, hrun₂, h⟩ := Machine.exists_run_of_exec (C := BringsNoBlock alone) h
  simp only [Bool.and_eq_true, beq_iff_eq] at h
  exact ⟨n₁, n₂, hrun₁, hrun₂, h.1.1, h.1.2, h.2⟩

/-- A node that has stored two blocks with a transfer each. -/
theorem exists_stocked (tx₁ tx₂ : Transaction) (p : Node → Bool)
    (h : (initializeBlockchain [⟨keyID 2, 100⟩, ⟨keyID 4, 100⟩] 0).toOption.any
      (fun s =>
      (Machine.exec (Node.step alone) Machine.Always (Node.new alone s.reopen)
        [.emptyBlocks [some (transferBlock 1 tx₁), some (transferBlock 2 tx₂)]]).any
          p)
      = true) :
    ∃ n, NodeRun alone Machine.Always n ∧ p n = true :=
  exists_nodeRun alone Machine.Always p _ 0 _ h

end Sample

/-- Two transfers between different accounts, committed in both orders. -/
theorem replicas_agree_two_transfers :
    ∃ n n₁ n₂ : Node, NodeRun Sample.alone Machine.Always n ∧
      n.commitsSince n₁.toCore = [1, 2] ∧ n.commitsSince n₂.toCore = [2, 1] ∧
      n₁.store.view ≠ n.store.view ∧ n₁.store.view = n₂.store.view := by
  obtain ⟨n, hn, htest⟩ := Sample.exists_stocked Sample.spend Sample.spendOther
    (fun n => (n.store.footprintAt 1).all (fun k => k ∉ n.store.footprintAt 2) &&
      Sample.bothOrders Sample.spend Sample.spendOther
        (fun n₁ _ => (n.store.accounts.lookup (Sample.keyID 3)).isNone
          && (n₁.store.accounts.lookup (Sample.keyID 3)).isSome) n)
    (by decide +kernel)
  rw [Bool.and_eq_true, List.all_eq_true] at htest
  obtain ⟨n₁, n₂, hrun₁, hrun₂, h₁, h₂, hp⟩ := Sample.exists_orders htest.2
  refine ⟨n, n₁, n₂, hn, h₁, h₂, fun hview => ?_,
    replicas_agree ⟨rfl, rfl, rfl⟩ hrun₁ hrun₂ ?_ ?_⟩
  · have haccount := congrFun hview (.account (Sample.keyID 3))
    dsimp only [Store.view] at haccount
    rw [haccount, Bool.and_eq_true, Option.isNone_iff_eq_none] at hp
    rw [hp.1] at hp
    cases hp.2
  · rw [h₁, h₂]
    intro slot
    simp [or_comm]
  · intro a b hab _ k hk
    rw [h₁] at hab
    obtain ⟨rfl, rfl⟩ : a = 1 ∧ b = 2 := by simpa using hab.eq_of_length rfl
    simpa using htest.1 k hk

/-- **Divergence.** Two blocks spend the same coins. Whichever is committed
first succeeds, and the two nodes, which started as one, end with different
accounts. -/
theorem divergence_of_commit_orders :
    ∃ n n₁ n₂, NodeRun Sample.alone Machine.Always n ∧
      Machine.Run (Node.step Sample.alone) (BringsNoBlock Sample.alone) n n₁ ∧
      Machine.Run (Node.step Sample.alone) (BringsNoBlock Sample.alone) n n₂ ∧
      (∀ slot, slot ∈ n.commitsSince n₁.toCore ↔ slot ∈ n.commitsSince n₂.toCore) ∧
      n₁.store.view ≠ n₂.store.view := by
  obtain ⟨n, hn, htest⟩ := Sample.exists_stocked Sample.spend Sample.spendAgain
    (Sample.bothOrders Sample.spend Sample.spendAgain
      (fun n₁ n₂ => (n₁.store.accounts.lookup (Sample.keyID 3)).map Account.balance
        != (n₂.store.accounts.lookup (Sample.keyID 3)).map Account.balance))
    (by decide +kernel)
  obtain ⟨n₁, n₂, hrun₁, hrun₂, h₁, h₂, hp⟩ := Sample.exists_orders htest
  refine ⟨n, n₁, n₂, hn, hrun₁, hrun₂, fun slot => ?_, fun hview => ?_⟩
  · rw [h₁, h₂]
    simp [or_comm]
  · have haccount := congrFun hview (.account (Sample.keyID 3))
    dsimp only [Store.view] at haccount
    rw [haccount] at hp
    simp at hp

end Sample

end Mmn
