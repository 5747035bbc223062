import Mmn.Database

/-!
# What applying a block changes

Two questions about `Raw.finalizeBlock`, over every database.

*Which keys does a call that succeeds change?* The batch names a key for
each meta record, account and latest version that the loop and the checks of
contents have filled, so the question is what these maps can hold: the
transactions of the block, the accounts its transfers name, the roots its
contents name or found. The one key that does not follow from the block is
that of an account: the record is put under the address it carries.
`finalizeBlock_frame` therefore takes the addresses from the records; where
every record that is loaded carries the address it was loaded from these are
the senders and recipients, and otherwise they need not be
(`written_elsewhere`).

*What does a call that fails leave behind?* Nothing in the database and no
change of the slot finalized last. But the tracker was told of every
transaction while the loop ran. So the transactions in flight are as before
exactly if the call failed before the loop, the node is a listener, or none
of the block's transactions was in flight (`failed_finalization_iff`).
-/

namespace Mmn

section

variable [Primitives] [Codec]

/-! ## The accounts -/

namespace Database

omit [Primitives] in
/-- **The address the account at an address is put under**: the one its
record carries, or the address itself when there is no record yet. -/
def accountName (db : Database) (addr : String) : String :=
  match db.account addr with
  | some r => r.address
  | none => addr

end Database

namespace Accounts

omit [Primitives] [Codec] in
theorem lookup_change (state : Accounts) (addr a : String)
    (f : AccountRecord → AccountRecord) :
    (state.change addr f).lookup a
      = if a = addr then (state.lookup addr).map f else state.lookup a := by
  unfold change
  split
  · next r hr =>
    rw [hr]
    by_cases ha : a = addr
    · rw [if_pos ha, ha, AList.lookup_insert, Option.map_some]
    · rw [if_neg ha, AList.lookup_insert_ne ha]
  · next hnone =>
    rw [hnone]
    split
    · next ha => rw [ha, hnone, Option.map_none]
    · rfl

/-- **Accounts that come from the database**: they were loaded from some
addresses or created there, and carry the address they are to be put under. -/
structure From (db : Database) (addrs : List String) (state : Accounts) : Prop where
  named : ∀ a r, state.lookup a = some r → a ∈ addrs ∧ r.address = db.accountName a
  loaded : ∀ a ∈ addrs, state.lookup a = none → db.account a = none

namespace From

variable {db : Database} {addrs : List String} {state : Accounts}

omit [Primitives] in
theorem loadAll (db : Database) (addrs : List String) :
    From db addrs (AList.loadAll addrs db.account) where
  named a r hlook := by
    rw [AList.lookup_loadAll] at hlook
    split at hlook
    · next ha =>
      refine ⟨ha, ?_⟩
      unfold Database.accountName
      rw [hlook]
    · cases hlook
  loaded a ha hlook := by
    rwa [AList.lookup_loadAll, if_pos ha] at hlook

omit [Primitives] in
theorem touch (h : From db addrs state) {addr : String} (haddr : addr ∈ addrs) :
    From db addrs (state.touch addr) := by
  unfold Accounts.touch
  split
  · exact h
  next hnot =>
  have hnone := h.loaded addr haddr (AList.lookup_eq_none.mpr hnot)
  refine ⟨fun a r hlook => ?_, fun a ha hlook => ?_⟩
  · by_cases heq : a = addr
    · rw [heq, AList.lookup_insert] at hlook
      obtain rfl := Option.some.inj hlook
      refine ⟨heq ▸ haddr, ?_⟩
      unfold Database.accountName
      rw [heq, hnone]
    · rw [AList.lookup_insert_ne heq] at hlook
      exact h.named a r hlook
  · by_cases heq : a = addr
    · rw [heq, hnone]
    · rw [AList.lookup_insert_ne heq] at hlook
      exact h.loaded a ha hlook

omit [Primitives] in
theorem change (h : From db addrs state) (addr : String)
    {f : AccountRecord → AccountRecord} (hf : ∀ r, (f r).address = r.address) :
    From db addrs (state.change addr f) := by
  refine ⟨fun a r hlook => ?_, fun a ha hlook => ?_⟩
  · rw [lookup_change] at hlook
    split at hlook
    · next heq =>
      obtain ⟨r', hr', rfl⟩ := Option.map_eq_some_iff.mp hlook
      rw [hf, heq]
      exact h.named addr r' hr'
    · exact h.named a r hlook
  · rw [lookup_change] at hlook
    split at hlook
    · next heq =>
      rw [heq] at ha ⊢
      exact h.loaded addr ha (Option.map_eq_none_iff.mp hlook)
    · exact h.loaded a ha hlook

omit [Primitives] in
theorem setBalance (h : From db addrs state) (addr : String) (balance : BitVec 256) :
    From db addrs (state.setBalance addr balance) :=
  h.change addr fun _ => rfl

omit [Primitives] in
theorem setNonce (h : From db addrs state) (addr : String) (nonce : UInt64) :
    From db addrs (state.setNonce addr nonce) :=
  h.change addr fun _ => rfl

omit [Primitives] in
theorem applyTx (h : From db addrs state) {tx : Transaction}
    (hsender : tx.sender ∈ addrs) (hrecipient : tx.recipient ∈ addrs)
    {state' : Accounts} {res : Except String Unit}
    (happly : Raw.applyTx state tx = some (state', res)) : From db addrs state' := by
  have htouched : From db addrs ((state.touch tx.sender).touch tx.recipient) :=
    (h.touch hsender).touch hrecipient
  unfold Raw.applyTx at happly
  split at happly
  · cases happly
    exact h
  dsimp only at happly
  split at happly
  · cases happly
  split at happly
  · cases happly
    exact htouched
  split at happly
  · cases happly
  · cases happly
    exact ((htouched.setBalance _ _).setBalance _ _).setNonce _ _

end From

end Accounts

/-! ## The loop -/

namespace Raw

omit [Codec] in
/-- **What one transaction of a block can do.** -/
theorem applyOne_cases {b : Block} {r r' : Progress} {tx : Transaction}
    (h : applyOne b r tx = some r') :
    (∃ m : TransactionMeta (Transaction.hash (some tx)), r' = { r with
        txMetas := r.txMetas.insert _ m }) ∨
      (isContent tx = true ∧ ∃ related roots,
        (∀ root ∈ roots, root ∈ r.rootContentHashes ∨
          root ∈ (contentOf tx).rootHashes) ∧
        r' = { r with
          txContents := r.txContents ++ [tx]
          relatedContentHashes := related
          rootContentHashes := roots }) ∨
      (tx.type ≠ txTypeUserContent ∧ ∃ state res,
        ∃ m : TransactionMeta (Transaction.hash (some tx)),
        applyTx r.state tx = some (state, res) ∧
        r' = { r with state := state, txMetas := r.txMetas.insert _ m }) := by
  unfold applyOne at h
  dsimp only at h
  split at h
  · next htype =>
    split at h
    · cases h
      exact Or.inl ⟨_, rfl⟩
    · next content hsome =>
      cases h
      refine Or.inr (Or.inl ⟨?_, _, _, ?_, rfl⟩)
      · unfold isContent
        rw [htype, hsome]
        rfl
      · intro root hroot
        unfold contentOf UserContent.rootHashes
        rw [hsome, Option.getD_some]
        split at hroot
        · exact Or.inl hroot
        · next hne =>
          rw [if_neg hne, List.mem_singleton]
          exact mem_addOnce.mp hroot
  · next htype =>
    refine Or.inr (Or.inr ⟨htype, ?_⟩)
    split at h
    · cases h
    · next state err happly =>
      cases h
      exact ⟨_, _, _, happly, rfl⟩
    · next state happly =>
      cases h
      exact ⟨_, _, _, happly, rfl⟩

omit [Codec] in
theorem runTx_cases {b : Block} {isListener : Bool} {r r' : Progress}
    {tx : Transaction} (h : runTx b isListener r tx = some r') :
    ∃ r₁, applyOne b r tx = some r₁ ∧
      ((isListener = true ∧ r' = r₁) ∨ (isListener = false ∧ ∃ tracker,
        r₁.tracker.removeTransaction (Transaction.hash (some tx)) = some tracker ∧
        r' = { r₁ with tracker := tracker })) := by
  unfold runTx at h
  split at h
  · cases h
  next r₁ hone =>
  refine ⟨r₁, hone, ?_⟩
  split at h
  · next hlistener =>
    cases h
    exact Or.inl ⟨hlistener, rfl⟩
  · next hlistener =>
    obtain ⟨tracker, hremove, rfl⟩ := Option.map_eq_some_iff.mp h
    exact Or.inr ⟨Bool.eq_false_iff.mpr hlistener, tracker, hremove, rfl⟩

omit [Codec] in
/-- **The rule of the loop**: what every transaction of the list keeps. -/
theorem runTxs_rule {b : Block} {isListener : Bool} {P : Progress → Prop}
    {txs : List Transaction}
    (hstep : ∀ r r' tx, tx ∈ txs → P r → runTx b isListener r tx = some r' → P r')
    {r r' : Progress} (h : P r) (hrun : runTxs b isListener r txs = some r') :
    P r' := by
  induction txs generalizing r with
  | nil =>
    cases hrun
    exact h
  | cons tx txs ih =>
    unfold runTxs at hrun
    split at hrun
    · cases hrun
    next r₁ hone =>
    exact ih (fun r r' tx' htx' => hstep r r' tx' (List.mem_cons_of_mem tx htx'))
      (hstep r r₁ tx List.mem_cons_self h hone) hrun

end Raw

/-- **What the loop has filled so far** is about the transactions of the
block. -/
structure Progress.About (db : Database) (txs : List Transaction) (r : Progress) :
    Prop where
  accounts : r.state.From db (accAddrs txs)
  metas : ∀ h ∈ r.txMetas, ∃ tx ∈ txs, Transaction.hash (some tx) = h
  contents : ∀ tx ∈ r.txContents, tx ∈ txs ∧ isContent tx = true
  roots : ∀ root ∈ r.rootContentHashes, ∃ tx ∈ txs, isContent tx = true ∧
    root ∈ (contentOf tx).rootHashes

namespace Progress.About

variable {db : Database} {txs : List Transaction} {r r' : Progress}

theorem start (db : Database) (txs : List Transaction)
    (tracker : TransactionTracker) :
    (Progress.start (AList.loadAll (accAddrs txs) db.account) tracker).About
      db txs where
  accounts := .loadAll db (accAddrs txs)
  metas h hmem := absurd hmem (AList.notMem_empty h)
  contents _ hmem := absurd hmem List.not_mem_nil
  roots _ hmem := absurd hmem List.not_mem_nil

/-- A meta record of a transaction is put. -/
theorem metas_insert (h : r.About db txs) {tx : Transaction} (htx : tx ∈ txs)
    (m : TransactionMeta (Transaction.hash (some tx))) :
    ∀ k ∈ r.txMetas.insert _ m, ∃ tx ∈ txs, Transaction.hash (some tx) = k := by
  intro k hk
  obtain rfl | hk := (AList.mem_insert _).mp hk
  · exact ⟨tx, htx, rfl⟩
  · exact h.metas k hk

theorem applyOne (h : r.About db txs) {b : Block} {tx : Transaction} (htx : tx ∈ txs)
    (hone : Raw.applyOne b r tx = some r') : r'.About db txs := by
  obtain ⟨m, rfl⟩ | ⟨hcontent, related, roots, hroots, rfl⟩ | ⟨htype, state, res, m,
    happly, rfl⟩ :=
    Raw.applyOne_cases hone
  · exact ⟨h.accounts, h.metas_insert htx m, h.contents, h.roots⟩
  · refine ⟨h.accounts, h.metas, fun tx' htx' => ?_, fun root hroot => ?_⟩
    · obtain htx' | htx' := List.mem_append.mp htx'
      · exact h.contents tx' htx'
      · rw [List.mem_singleton.mp htx']
        exact ⟨htx, hcontent⟩
    · obtain hold | hnew := hroots root hroot
      · exact h.roots root hold
      · exact ⟨tx, htx, hcontent, hnew⟩
  · refine ⟨?_, h.metas_insert htx m, h.contents, h.roots⟩
    exact h.accounts.applyTx (mem_accAddrs.mpr ⟨tx, htx, htype, Or.inl rfl⟩)
      (mem_accAddrs.mpr ⟨tx, htx, htype, Or.inr rfl⟩) happly

/-- **The whole loop** fills in nothing else. -/
theorem runTxs (h : r.About db txs) {b : Block} {isListener : Bool}
    (hrun : Raw.runTxs b isListener r txs = some r') : r'.About db txs := by
  refine Raw.runTxs_rule (P := fun r => r.About db txs)
    (fun r r' tx htx h hstep => ?_) h hrun
  obtain ⟨r₁, hone, ⟨-, rfl⟩ | ⟨-, tracker, -, rfl⟩⟩ := Raw.runTx_cases hstep
  · exact h.applyOne htx hone
  · have habout := h.applyOne htx hone
    exact ⟨habout.accounts, habout.metas, habout.contents, habout.roots⟩

end Progress.About

/-! ## The keys that are written -/

/-- The latest versions a content can move: that of the root it names, or
its own. -/
def versionKeys (tx : Transaction) : List Key :=
  ((contentOf tx).rootHashes ++
    if founds tx then [Transaction.hash (some tx)]
      else []).map Key.latestVersionContent

/-- **The footprint of a block**: its block record and marker, the latest
finalized slot, the meta records of its transactions, the accounts its
transfers name and the latest versions of the roots its contents name or
found. The accounts are put under a name of their addresses. -/
def Database.footprint (db : Database) (b : Block) (name : String → String) :
    List Key :=
  let txs := db.txsInBlock b
  [.block b.slot, .finalized b.slot, .latestFinalized]
    ++ txs.map (fun tx => .txMeta (Transaction.hash (some tx)))
    ++ (accAddrs txs).map (fun a => .account (name a))
    ++ (txs.filter isContent).flatMap versionKeys

section

variable {db : Database} {b : Block} {name : String → String}

theorem txMeta_mem_footprint_of_mem {tx : Transaction} (h : tx ∈ db.txsInBlock b) :
    Key.txMeta (Transaction.hash (some tx)) ∈ db.footprint b name := by
  refine List.mem_append_left _ (List.mem_append_left _ (List.mem_append_right _ ?_))
  exact List.mem_map.mpr ⟨tx, h, rfl⟩

theorem account_mem_footprint_of_mem {a : String}
    (h : a ∈ accAddrs (db.txsInBlock b)) :
    Key.account (name a) ∈ db.footprint b name :=
  List.mem_append_left _ (List.mem_append_right _ (List.mem_map.mpr ⟨a, h, rfl⟩))

theorem version_mem_footprint_of_mem {tx : Transaction} (h : tx ∈ db.txsInBlock b)
    (hcontent : isContent tx = true) {k : Key} (hk : k ∈ versionKeys tx) :
    k ∈ db.footprint b name :=
  List.mem_append_right _
    (List.mem_flatMap.mpr ⟨tx, List.mem_filter.mpr ⟨h, hcontent⟩, hk⟩)

end

namespace Raw

variable {env : Environment} {p p' : Process} {b : Block} {isListener : Bool}

/-- **Every put of the batch is in the footprint.** -/
theorem finalizedPuts_mem_footprint {r : Progress}
    (h : r.About p.db (p.db.txsInBlock b)) {e : Bytes × Bytes}
    (he : e ∈ finalizedPuts p b (checkContents p.db b r).1 r.state
      (checkContents p.db b r).2) :
    ∃ k ∈ p.db.footprint b p.db.accountName, k.bytes = e.1 := by
  obtain ⟨hmetas, hversions⟩ := foldl_runContent_mem b
    (indexByHash (r.relatedContentHashes.filterMap p.db.tx)) r.txContents
    (r.txMetas, AList.loadAll r.rootContentHashes p.db.latestVersion)
  unfold finalizedPuts at he
  simp only [List.mem_append, List.mem_map, List.mem_singleton] at he
  obtain ((((rfl | ⟨⟨k, m⟩, hm, rfl⟩) | ⟨⟨a, rec⟩, hrec, rfl⟩) | ⟨⟨root, v⟩, hv,
    rfl⟩) | rfl) | he := he
  · exact ⟨.block b.slot, by simp [Database.footprint], rfl⟩
  · -- a meta record is that of a transaction, from the loop or from the
    -- check of a content
    refine ⟨.txMeta k, ?_, rfl⟩
    obtain hmem | ⟨tx, htx, rfl⟩ :=
      hmetas k (AList.mem_keys.mpr (List.mem_map.mpr ⟨_, hm, rfl⟩))
    · obtain ⟨tx, htx, rfl⟩ := h.metas k hmem
      exact txMeta_mem_footprint_of_mem htx
    · exact txMeta_mem_footprint_of_mem (h.contents tx htx).1
  · obtain ⟨hmem, haddress⟩ := h.accounts.named a rec (AList.mem_lookup_iff.mpr hrec)
    refine ⟨.account (p.db.accountName a), account_mem_footprint_of_mem hmem, ?_⟩
    rw [haddress]
  · refine ⟨.latestVersionContent root, ?_, rfl⟩
    obtain hmem | ⟨tx, htx, hfounds, rfl⟩ :=
      hversions root (AList.mem_keys.mpr (List.mem_map.mpr ⟨_, hv, rfl⟩))
    · obtain ⟨tx, htx, hcontent, hroot⟩ :=
        h.roots root (AList.mem_of_mem_loadAll hmem)
      refine version_mem_footprint_of_mem htx hcontent (List.mem_map_of_mem ?_)
      exact List.mem_append_left _ hroot
    · obtain ⟨hmem, hcontent⟩ := h.contents tx htx
      refine version_mem_footprint_of_mem hmem hcontent (List.mem_map_of_mem ?_)
      rw [if_pos hfounds]
      exact List.mem_append_right _ (List.mem_singleton_self _)
  · exact ⟨.finalized b.slot, by simp [Database.footprint], rfl⟩
  · split at he
    · rw [List.mem_singleton.mp he]
      exact ⟨.latestFinalized, by simp [Database.footprint], rfl⟩
    · cases he

/-- A call that succeeds leaves every key outside the footprint. -/
theorem frame_of_ok (h : finalizeBlock env p b isListener = some (p', .ok ()))
    {raw : Bytes} (hraw : ∀ k ∈ p.db.footprint b p.db.accountName, k.bytes ≠ raw) :
    p'.db raw = p.db raw := by
  obtain ⟨rfl, -⟩ | ⟨-, -, _, herr⟩ | ⟨-, r, hrun, ⟨-, _, herr⟩ | ⟨rfl, -⟩⟩ :=
    finalizeBlock_cases h
  · rfl
  · cases herr
  · cases herr
  · have habout := (Progress.About.start p.db (p.db.txsInBlock b) p.tracker).runTxs
      hrun
    refine KeySpace.writeBatch_of_notMem fun hmem => ?_
    obtain ⟨e, he, rfl⟩ := List.mem_map.mp hmem
    obtain ⟨k, hk, hbytes⟩ :=
      finalizedPuts_mem_footprint habout ((env.perm _).mem_iff.mp he)
    exact hraw k hk hbytes

/-- **A successful call touches only its footprint.** Every key of the
database that is not the key of a record of the footprint keeps its value,
and so does every record that is not in it; and where each account record
that is loaded carries the address it is loaded from, the accounts of the
footprint are the senders and recipients. -/
theorem finalizeBlock_frame
    (h : finalizeBlock env p b isListener = some (p', .ok ())) :
    (∀ raw, (∀ k ∈ p.db.footprint b p.db.accountName, k.bytes ≠ raw) →
      p'.db raw = p.db raw) ∧
      (∀ k, k ∉ p.db.footprint b p.db.accountName → p'.db k.bytes = p.db k.bytes) ∧
      ((∀ a ∈ accAddrs (p.db.txsInBlock b), ∀ r, p.db.account a = some r →
        r.address = a) →
        p.db.footprint b p.db.accountName = p.db.footprint b id) := by
  refine ⟨fun raw hraw => frame_of_ok h hraw, fun k hk =>
    frame_of_ok h fun k' hk' heq => ?_, fun hown => ?_⟩
  · rw [Key.bytes_injective heq] at hk'
    exact hk hk'
  · have hnames : ∀ a ∈ accAddrs (p.db.txsInBlock b),
        Key.account (p.db.accountName a) = Key.account (id a) := by
      intro a ha
      unfold Database.accountName
      split
      · next r hr => rw [hown a ha r hr, id]
      · rfl
    unfold Database.footprint
    dsimp only
    rw [List.map_congr_left hnames]

/-! ## Calls that fail -/

omit [Codec] in
theorem tracker_runTxs {txs : List Transaction} {r r' : Progress}
    (hrun : runTxs b isListener r txs = some r') :
    if isListener then r'.tracker = r.tracker
    else Ledger.removeTransactions r.tracker txs = some r'.tracker := by
  induction txs generalizing r with
  | nil =>
    cases hrun
    split <;> rfl
  | cons tx txs ih =>
    unfold runTxs at hrun
    split at hrun
    · cases hrun
    next r₁ hstep =>
    have hrest := ih hrun
    obtain ⟨r₂, hone, hlast⟩ := runTx_cases hstep
    have hsame : r₂.tracker = r.tracker := by
      obtain ⟨m, rfl⟩ | ⟨-, _, _, -, rfl⟩ | ⟨-, _, _, _, -, rfl⟩ :=
        applyOne_cases hone <;> rfl
    obtain ⟨hlistener, rfl⟩ | ⟨hlistener, tracker, hremove, rfl⟩ := hlast
    · rw [if_pos hlistener] at hrest ⊢
      exact hrest.trans hsame
    · have hnot : ¬isListener = true := by simp [hlistener]
      rw [if_neg hnot] at hrest ⊢
      rw [hsame] at hremove
      unfold Ledger.removeTransactions
      rw [hremove]
      exact hrest

end Raw

omit [Codec] in
/-- What is in flight after transactions were taken off. -/
theorem lookup_removeTransactions {txs : List Transaction} {t t' : TransactionTracker}
    (h : Ledger.removeTransactions t txs = some t') (k : String) :
    t'.processingTxs.lookup k
      = if k ∈ txs.map (fun tx => Transaction.hash (some tx)) then none
        else t.processingTxs.lookup k := by
  induction txs generalizing t with
  | nil =>
    cases h
    rfl
  | cons tx txs ih =>
    unfold Ledger.removeTransactions at h
    split at h
    · cases h
    next t₁ hone =>
    have hremoved : t₁.processingTxs.lookup k = if k
      = Transaction.hash (some tx) then none
        else t.processingTxs.lookup k := by
      unfold TransactionTracker.removeTransaction at hone
      split at hone
      · next hnone =>
        cases hone
        split
        · next hk => rw [hk, hnone]
        · rfl
      · split at hone
        · cases hone
          split
          · next hk => rw [hk, AList.lookup_erase]
          · next hk => exact AList.lookup_erase_ne hk
        · cases hone
    rw [ih h, hremoved, List.map_cons]
    by_cases hk : k = Transaction.hash (some tx)
    · simp [hk]
    · simp [hk]

/-- **A failed call leaves everything as it was**: the database, the slot
finalized last and the transactions in flight. -/
def Process.SameAs (p p' : Process) : Prop :=
  p'.db = p.db ∧ p'.latestFinalized = p.latestFinalized ∧
    ∀ h, p'.tracker.processingTxs.lookup h = p.tracker.processingTxs.lookup h

/-- **What a failed call leaves.** The database and the slot finalized last
never change. All is as it was exactly if one of the two reads before the
loop fails, the node is a listener, or no transaction of the block is in
flight. -/
theorem failed_finalization_iff {env : Environment} {p p' : Process} {b : Block}
    {isListener : Bool} {err : String}
    (h : Raw.finalizeBlock env p b isListener = some (p', .error err)) :
    p.SameAs p' ↔ Raw.FailsEarly env p.db b ∨ isListener = true ∨
      ∀ tx ∈ p.db.txsInBlock b, Transaction.hash (some tx)
        ∉ p.tracker.processingTxs := by
  obtain ⟨-, hok⟩ | ⟨hearly, rfl, -⟩ | ⟨hearly, r, hrun, ⟨rfl, -⟩ | ⟨-, hok⟩⟩ :=
    Raw.finalizeBlock_cases h
  · cases hok
  · exact iff_of_true ⟨rfl, rfl, fun _ => rfl⟩ (Or.inl hearly)
  swap
  · cases hok
  have htracker := Raw.tracker_runTxs hrun
  rw [or_iff_right hearly]
  cases isListener with
  | true =>
    refine iff_of_true ⟨rfl, rfl, fun k => ?_⟩ (Or.inl rfl)
    exact congrArg (fun t : TransactionTracker => t.processingTxs.lookup k) htracker
  | false =>
    have hlook := lookup_removeTransactions htracker
    rw [or_iff_right Bool.false_ne_true]
    constructor
    · rintro ⟨-, -, hsame⟩ tx htx hflight
      have hgone := hsame (Transaction.hash (some tx))
      rw [hlook, if_pos (List.mem_map.mpr ⟨tx, htx, rfl⟩)] at hgone
      exact AList.lookup_eq_none.mp hgone.symm hflight
    · intro hnone
      refine ⟨rfl, rfl, fun k => ?_⟩
      rw [hlook]
      split
      · next hk =>
        obtain ⟨tx, htx, rfl⟩ := List.mem_map.mp hk
        exact (AList.lookup_eq_none.mpr (hnone tx htx)).symm
      · rfl

end

section Sample

attribute [local instance] Sample.primitives

open Sample

/-- A transfer. -/
def Sample.payment : Transaction :=
  { Transaction.zero with
    type := txTypeTransferByKey, sender := "alicekey", recipient :=
      "carolkey", amount := some 5 }

/-- The JSON of an account. -/
def AccountRecord.json (r : AccountRecord) : String :=
  Json.object [("address", Json.string r.address),
    ("balance", Transaction.amountJson r.balance), ("nonce", toString r.nonce.toNat)]

/-- The account of the sender, as a record of some address. -/
def Sample.aliceAs (address : String) : AccountRecord :=
  { address := address, balance := some 100, nonce := 0 }

/-- A codec that reads the payment and two records of the sender. Blocks and
meta records, which are not read here, are written in short. -/
@[reducible] def Sample.codec : Codec where
  marshalBlock b := putUint64 b.slot
  marshalTxMeta txHash _ := textBytes txHash
  marshalAccount r := textBytes r.json
  unmarshalTransaction bs :=
    if bs = Transaction.bytes (some payment) then some payment else none
  unmarshalAccount bs :=
    [aliceAs "alicekey", aliceAs "bob"].find? (fun r => bs = textBytes r.json)

attribute [local instance] Sample.codec

/-- Nothing fails but what is said to, and the puts are made as they are
listed. -/
def Sample.failing (error : DbCall → Option String) : Environment where
  error := error
  arrange puts := puts
  perm _ := List.Perm.refl _

/-- A block with the payment. -/
def Sample.paid : Block := broadcastedBlockToBlock (blockWith 1 1 0 [payment])

/-- A process that has the block and its transaction, a record under the
address of the sender, and the payment in flight. -/
def Sample.holding (r : AccountRecord) : Process where
  db := KeySpace.writeBatch (fun _ => none)
    [((Key.block 1).bytes, putUint64 1),
      ((Key.tx (Transaction.hash (some payment))).bytes,
        Transaction.bytes (some payment)),
      ((Key.account "alicekey").bytes, textBytes r.json)]
  latestFinalized := 0
  tracker := { TransactionTracker.new with
    processingTxs := (∅ : AList (fun _ : String => Transaction)).insert
      (Transaction.hash (some payment)) payment
    processingCount := 1 }

/-- The sender's record carries its address: the account of another address
is left. -/
theorem finalizeBlock_frame_paid :
    ∃ p', Raw.finalizeBlock (failing fun _ => none)
      (holding (aliceAs "alicekey")) paid true
        = some (p', .ok ()) ∧
      p'.db (Key.account "bob").bytes
        = (holding (aliceAs "alicekey")).db (Key.account "bob").bytes := by
  have hany : (Raw.finalizeBlock (failing fun _ => none)
    (holding (aliceAs "alicekey")) paid
      true).any (fun r => decide (r.2 = .ok ())) = true := by
    decide +kernel
  obtain ⟨⟨p', res⟩, hcall, hok⟩ := (Option.any_eq_true _ _).mp hany
  obtain rfl : res = .ok () := of_decide_eq_true hok
  exact ⟨p', hcall, (Raw.finalizeBlock_frame hcall).2.1 (.account "bob")
    (by decide +kernel)⟩

/-- **An account written elsewhere.** The record under the address of the
sender carries another address; paying from it writes the account of that
address, which no transaction names. -/
theorem written_elsewhere :
    ∃ p', Raw.finalizeBlock (failing fun _ => none)
      (holding (aliceAs "bob")) paid true
        = some (p', .ok ()) ∧
      Key.account "bob" ∉ (holding (aliceAs "bob")).db.footprint paid id ∧
      p'.db (Key.account "bob").bytes
        ≠ (holding (aliceAs "bob")).db (Key.account "bob").bytes := by
  have hany : (Raw.finalizeBlock (failing fun _ => none)
    (holding (aliceAs "bob")) paid
      true).any (fun r => decide (r.2 = .ok () ∧ r.1.db (Key.account "bob").bytes
        ≠ (holding (aliceAs "bob")).db (Key.account "bob").bytes)) = true := by
    decide +kernel
  obtain ⟨⟨p', res⟩, hcall, htest⟩ := (Option.any_eq_true _ _).mp hany
  obtain ⟨hok, hchanged⟩ := of_decide_eq_true htest
  obtain rfl : res = .ok () := hok
  exact ⟨p', hcall, by decide +kernel, hchanged⟩

/-- The accounts cannot be read: the payment is still in flight. -/
theorem failed_finalization_accounts :
    ∃ p' err, Raw.finalizeBlock
      (failing fun c => if c = .accounts then some "io" else none)
        (holding (aliceAs "alicekey")) paid false = some (p', .error err) ∧
      (holding (aliceAs "alicekey")).SameAs p' := by
  have hany :
    (Raw.finalizeBlock (failing fun c => if c = .accounts then some "io" else none)
      (holding (aliceAs "alicekey")) paid false).any (fun r => !r.2.isOk) = true := by
    decide +kernel
  obtain ⟨⟨p', res⟩, hcall, herr⟩ := (Option.any_eq_true _ _).mp hany
  cases res with
  | ok => cases herr
  | error err =>
    refine ⟨p', err, hcall, (failed_finalization_iff hcall).mpr
      (Or.inl (Or.inr ⟨?_, rfl⟩))⟩
    decide +kernel

/-- **A transaction that is forgotten.** The batch cannot be written; the
block is not applied, and the payment is not in flight any more. -/
theorem failed_write_forgets :
    ∃ p' err, Raw.finalizeBlock
      (failing fun c => if c = .write then some "io" else none)
        (holding (aliceAs "alicekey")) paid false = some (p', .error err) ∧
      ¬(holding (aliceAs "alicekey")).SameAs p' := by
  have hany :
    (Raw.finalizeBlock (failing fun c => if c = .write then some "io" else none)
      (holding (aliceAs "alicekey")) paid false).any (fun r => !r.2.isOk &&
        decide (r.1.tracker.processingTxs.lookup (Transaction.hash (some payment))
          ≠ (holding (aliceAs "alicekey")).tracker.processingTxs.lookup
            (Transaction.hash (some payment)))) = true := by
    decide +kernel
  obtain ⟨⟨p', res⟩, hcall, htest⟩ := (Option.any_eq_true _ _).mp hany
  obtain ⟨herr, hgone⟩ := Bool.and_eq_true_iff.mp htest
  cases res with
  | ok => cases herr
  | error err =>
    exact ⟨p', err, hcall, fun hsame => of_decide_eq_true hgone (hsame.2.2 _)⟩

end Sample

end Mmn
