import Mmn.Ledger

/-!
# What running a block does

The facts about `Store.executeBlock` that the invariants of the development
rest on: which accounts and records it can write, what those writes depend
on, and that the transfers act on the loaded accounts exactly as a fold of
`applyTx`.
-/

namespace Mmn

/-! ## One transfer -/

namespace LedgerState

variable (state : LedgerState) (a b : String)

theorem balance_insert (acc : Account a) :
    LedgerState.balance (state.insert a acc) b
      = if b = a then acc.balance else state.balance b := by
  by_cases hb : b = a
  · subst hb
    rw [if_pos rfl, balance, account, AList.lookup_insert]
    rfl
  · rw [if_neg hb, balance, account, AList.lookup_insert_ne hb]
    rfl

@[simp] theorem balance_touch : (state.touch a).balance b = state.balance b := by
  unfold touch
  split
  · rfl
  · next ha =>
    rw [balance_insert]
    split
    · next hb =>
      subst hb
      rw [balance, account, AList.lookup_eq_none.mpr ha]
      rfl
    · rfl

@[simp] theorem mem_touch : b ∈ state.touch a ↔ b = a ∨ b ∈ state := by
  unfold touch
  split
  · next ha => exact ⟨Or.inr, fun h => h.elim (fun h => h ▸ ha) id⟩
  · exact AList.mem_insert state

@[simp] theorem mem_debit (amount : BitVec 256) :
    b ∈ state.debit a amount ↔ b = a ∨ b ∈ state := AList.mem_insert state

@[simp] theorem mem_credit (amount : BitVec 256) :
    b ∈ state.credit a amount ↔ b = a ∨ b ∈ state := AList.mem_insert state

@[simp] theorem mem_setNonce (nonce : UInt64) :
    b ∈ state.setNonce a nonce ↔ b = a ∨ b ∈ state := AList.mem_insert state

end LedgerState

/-- The accounts a transfer finds: those loaded, and the two it names. -/
def ApplyCall.touched (c : ApplyCall) : LedgerState :=
  (c.state.touch c.tx.sender).touch c.tx.recipient

/-- **What a transfer can do**: fail for want of an amount and change
nothing, fail for want of funds and only create accounts, or move the
amount. -/
theorem applyTx_cases (state : LedgerState) (tx : Transaction) :
    (tx.amount = none ∧
        applyTx state tx = (state, .error "transaction amount cannot be nil")) ∨
      (∃ amount, tx.amount = some amount ∧ state.balance tx.sender < amount ∧
        applyTx state tx = ((state.touch tx.sender).touch tx.recipient,
          .error "insufficient balance")) ∨
      ∃ amount, tx.amount = some amount ∧ amount ≤ state.balance tx.sender ∧
        applyTx state tx
          = (((((state.touch tx.sender).touch tx.recipient).debit tx.sender
            amount).credit
              tx.recipient amount).setNonce tx.sender tx.nonce, .ok ()) := by
  unfold applyTx
  cases hamount : tx.amount with
  | none => exact Or.inl ⟨rfl, rfl⟩
  | some amount =>
    refine Or.inr ?_
    simp only [LedgerState.balance_touch]
    split
    · next hlt => exact Or.inl ⟨amount, rfl, hlt, rfl⟩
    · next hge => exact Or.inr ⟨amount, rfl, BitVec.not_lt.mp hge, rfl⟩

/-- A transfer creates no account but the two it names. -/
theorem mem_applyTx {state : LedgerState} {tx : Transaction} {a : String}
    (h : a ∈ (applyTx state tx).1) :
    a ∈ state ∨ a = tx.sender ∨ a = tx.recipient := by
  rcases applyTx_cases state tx with ⟨-, heq⟩ | ⟨_, -, -, heq⟩ | ⟨_, -, -, heq⟩ <;>
    rw [heq] at h
  · exact Or.inl h
  · simp only [LedgerState.mem_touch] at h
    tauto
  · simp only [LedgerState.mem_setNonce, LedgerState.mem_credit,
      LedgerState.mem_debit, LedgerState.mem_touch] at h
    tauto

theorem mem_applyTx_of_mem {state : LedgerState} (tx : Transaction) {a : String}
    (h : a ∈ state) : a ∈ (applyTx state tx).1 := by
  rcases applyTx_cases state tx with ⟨-, heq⟩ | ⟨_, -, -, heq⟩ | ⟨_, -, -, heq⟩ <;>
    rw [heq] <;> simp [h]

/-! ## The transfers of a block -/

/-- The transfers of a list applied one after the other. -/
def applyAll (state : LedgerState) (txs : List Transaction) : LedgerState :=
  txs.foldl (fun state tx =>
    if tx.type = txTypeUserContent then state else (applyTx state tx).1) state

theorem applyAll_cons (state : LedgerState) (tx : Transaction)
    (txs : List Transaction) :
    applyAll state (tx :: txs)
      = applyAll (if tx.type = txTypeUserContent then state else (applyTx state tx).1)
          txs := rfl

theorem mem_addOnce {l : List String} {a b : String} :
    b ∈ addOnce l a ↔ b ∈ l ∨ b = a := by
  unfold addOnce
  split
  · next ha => exact ⟨Or.inl, fun h => h.elim id (fun h => h ▸ ha)⟩
  · rw [List.mem_append, List.mem_singleton]

/-- **The addresses loaded for a block are those its transfers name.** -/
theorem mem_accAddrs {txs : List Transaction} {a : String} :
    a ∈ accAddrs txs ↔
      ∃ tx ∈ txs, tx.type ≠ txTypeUserContent ∧
      (a = tx.sender ∨ a = tx.recipient) := by
  have hloop : ∀ (txs : List Transaction) (acc : List String),
      a ∈ txs.foldl (fun addrs tx => if tx.type = txTypeUserContent then addrs
          else addOnce (addOnce addrs tx.sender) tx.recipient) acc ↔
        a ∈ acc ∨ ∃ tx ∈ txs, tx.type ≠ txTypeUserContent ∧
          (a = tx.sender ∨ a = tx.recipient) := by
    intro txs
    induction txs with
    | nil => simp
    | cons tx txs ih =>
      intro acc
      rw [List.foldl_cons, ih, List.exists_mem_cons_iff]
      split
      · next htype => simp [htype]
      · next htype => simp [mem_addOnce, htype, or_assoc]
  rw [accAddrs, hloop]
  simp

/-- The fold of the transfers creates accounts only at the addresses loaded
for them. -/
theorem mem_applyAll {txs : List Transaction} {state : LedgerState} {a : String}
    (h : a ∈ applyAll state txs) : a ∈ state ∨ a ∈ accAddrs txs := by
  have hloop : ∀ (txs : List Transaction) (state : LedgerState),
    a ∈ applyAll state txs →
      a ∈ state ∨ ∃ tx ∈ txs, tx.type ≠ txTypeUserContent ∧
        (a = tx.sender ∨ a = tx.recipient) := by
    intro txs
    induction txs with
    | nil => exact fun state h => Or.inl h
    | cons tx txs ih =>
      intro state h
      rw [List.exists_mem_cons_iff]
      rw [applyAll_cons] at h
      rcases ih _ h with hmem | hex
      · split at hmem
        · exact Or.inl hmem
        · next htype =>
          rcases mem_applyTx hmem with hmem | hnamed
          · exact Or.inl hmem
          · exact Or.inr (Or.inl ⟨htype, hnamed⟩)
      · exact Or.inr (Or.inr hex)
  rw [mem_accAddrs]
  exact hloop txs state h

/-- The fold of the transfers removes no account. -/
theorem mem_applyAll_of_mem {txs : List Transaction} {state : LedgerState}
    {a : String} (h : a ∈ state) : a ∈ applyAll state txs := by
  induction txs generalizing state with
  | nil => exact h
  | cons tx txs ih =>
    rw [applyAll_cons]
    refine ih ?_
    split
    · exact h
    · exact mem_applyTx_of_mem tx h

/-! ## The run of a block -/

variable [Primitives]

/-- The meta record of a transaction of a block. -/
def Block.txMeta (b : Block) (tx : Transaction) (status : TxStatus) (err : String) :
    TransactionMeta (Transaction.hash (some tx)) :=
  newTxMeta (some tx) b.slot b.hashString status err

/-- **What one transaction of a block can do**: it is content that does not
decode and fails, it is content and set aside, or it is a transfer and
applied. Every record says what became of it. -/
theorem runTx_cases (b : Block) (r : BlockRun) (tx : Transaction) :
    (tx.type = txTypeUserContent ∧ unmarshalUserContent tx.extraInfo = none ∧
        runTx b r tx = { r with
          txMetas := r.txMetas.insert _
            (b.txMeta tx .failed "User content data is invalid") }) ∨
      (tx.type = txTypeUserContent ∧
        (unmarshalUserContent tx.extraInfo).isSome = true ∧
        ∃ related roots, runTx b r tx = { r with
          txContents := r.txContents ++ [tx]
          relatedContentHashes := related
          rootContentHashes := roots }) ∨
      (tx.type ≠ txTypeUserContent ∧ ∃ status err,
        ((status = .success ∧ (applyTx r.state tx).2 = .ok ()) ∨
          (status = .failed ∧ (applyTx r.state tx).2 ≠ .ok ())) ∧
        runTx b r tx = { r with
          state := (applyTx r.state tx).1
          txMetas := r.txMetas.insert _ (b.txMeta tx status err) }) := by
  unfold runTx
  dsimp only
  split
  · next htype =>
    split
    · next hnone => exact Or.inl ⟨htype, hnone, rfl⟩
    · next content hsome =>
      exact Or.inr (Or.inl ⟨htype, by rw [hsome]; rfl, _, _, rfl⟩)
  · next htype =>
    refine Or.inr (Or.inr ⟨htype, ?_⟩)
    cases happly : applyTx r.state tx with
    | mk state res =>
      cases res with
      | error err => exact ⟨.failed, err, Or.inr ⟨rfl, fun h => by cases h⟩, rfl⟩
      | ok => exact ⟨.success, "", Or.inl ⟨rfl, rfl⟩, rfl⟩

/-- The accounts after one transaction of a block. -/
theorem runTx_state (b : Block) (r : BlockRun) (tx : Transaction) :
    (runTx b r tx).state
      = if tx.type = txTypeUserContent then r.state else (applyTx r.state tx).1 := by
  obtain ⟨htype, -, heq⟩ | ⟨htype, -, _, _, heq⟩ | ⟨htype, _, _, -, heq⟩ :=
    runTx_cases b r tx
  · rw [heq, if_pos htype]
  · rw [heq, if_pos htype]
  · rw [heq, if_neg htype]

/-- **The loop over a block's transactions moves the accounts as the fold of
its transfers.** -/
theorem foldl_runTx_state (b : Block) (txs : List Transaction) (r : BlockRun) :
    (txs.foldl (runTx b) r).state = applyAll r.state txs := by
  induction txs generalizing r with
  | nil => rfl
  | cons tx txs ih =>
    rw [List.foldl_cons, ih, runTx_state]
    rfl

theorem executeBlock_state (s : Store) (b : Block) :
    (s.executeBlock b).state
      = applyAll (s.getAccountBatch (accAddrs (s.txsInBlock b))) (s.txsInBlock b) :=
  foldl_runTx_state b _ _

/-! ## The meta records of a run -/

/-- What the check of a content can do: it notes how the content ended. -/
theorem runContent_cases (b : Block) (related : AList (fun _ : String => Transaction))
    (r : AList TransactionMeta × LatestVersions) (tx : Transaction) :
    ∃ status err, (status = .success ∨ status = .failed) ∧
      (runContent b related r tx).1 = r.1.insert _ (b.txMeta tx status err) := by
  unfold runContent
  obtain ⟨latest, res⟩ := validateUserContent tx related r.2
  cases res with
  | error err => exact ⟨.failed, err, Or.inr rfl, rfl⟩
  | ok => exact ⟨.success, "", Or.inl rfl, rfl⟩

/-- **The records are of a block's transactions**: each is of one of the
list, names the block, and says how the transaction ended. -/
def Block.Records (b : Block) (txs : List Transaction)
    (metas : AList TransactionMeta) : Prop :=
  ∀ h m, metas.lookup h = some m → (∃ tx ∈ txs, Transaction.hash (some tx) = h) ∧
    m.slot = b.slot ∧ m.blockHash = b.hashString ∧
    (m.status = .success ∨ m.status = .failed)

/-- **What the first pass keeps up**: its records, and that what it sets
aside is content of the list. -/
structure BlockRun.Tracks (r : BlockRun) (b : Block) (txs : List Transaction) :
    Prop where
  records : b.Records txs r.txMetas
  contents : ∀ tx ∈ r.txContents, tx ∈ txs ∧ tx.type = txTypeUserContent

section Records

variable {b : Block} {txs : List Transaction}

theorem Block.Records.insert {metas : AList TransactionMeta} (h : b.Records txs metas)
    {tx : Transaction} (htx : tx ∈ txs) {status : TxStatus}
    (hstatus : status = .success ∨ status = .failed) (err : String) :
    b.Records txs (metas.insert (Transaction.hash (some tx))
      (b.txMeta tx status err)) := by
  intro k m hlook
  by_cases hk : k = Transaction.hash (some tx)
  · subst hk
    rw [AList.lookup_insert] at hlook
    cases hlook
    exact ⟨⟨tx, htx, rfl⟩, rfl, rfl, hstatus⟩
  · rw [AList.lookup_insert_ne hk] at hlook
    exact h k m hlook

theorem BlockRun.Tracks.runTx {r : BlockRun} (h : r.Tracks b txs) {tx : Transaction}
    (htx : tx ∈ txs) : (runTx b r tx).Tracks b txs := by
  obtain ⟨-, -, heq⟩ | ⟨htype, -, related, roots, heq⟩ | ⟨-, status, err,
    hstatus, heq⟩ :=
    runTx_cases b r tx <;> rw [heq]
  · exact ⟨h.records.insert htx (Or.inr rfl) _, h.contents⟩
  · refine ⟨h.records, fun tx' htx' => ?_⟩
    obtain htx' | htx' := List.mem_append.mp htx'
    · exact h.contents tx' htx'
    · rw [List.mem_singleton.mp htx']
      exact ⟨htx, htype⟩
  · exact ⟨h.records.insert htx (hstatus.imp And.left And.left) _, h.contents⟩

theorem tracks_runTxs (b : Block) (state : LedgerState) (txs : List Transaction) :
    (runTxs b state txs).Tracks b txs := by
  have hloop : ∀ (l : List Transaction) (r : BlockRun), l ⊆ txs → r.Tracks b txs →
      (l.foldl (runTx b) r).Tracks b txs := by
    intro l
    induction l with
    | nil => exact fun r _ h => h
    | cons tx l ih =>
      intro r hl h
      obtain ⟨htx, hl⟩ := List.cons_subset.mp hl
      exact ih _ hl (h.runTx htx)
  refine hloop txs _ (List.Subset.refl txs) ⟨fun k m hlook => ?_, fun tx htx => ?_⟩
  · cases hlook
  · cases htx

theorem Block.Records.foldl_runContent
    {related : AList (fun _ : String => Transaction)} {l : List Transaction}
    (hl : l ⊆ txs) {r : AList TransactionMeta × LatestVersions}
    (h : b.Records txs r.1) : b.Records txs (l.foldl (runContent b related) r).1 := by
  induction l generalizing r with
  | nil => exact h
  | cons tx l ih =>
    obtain ⟨htx, hl⟩ := List.cons_subset.mp hl
    obtain ⟨status, err, hstatus, heq⟩ := runContent_cases b related r tx
    rw [List.foldl_cons]
    refine ih hl ?_
    rw [heq]
    exact h.insert htx hstatus err

/-- **The records of a run are of the block's transactions**, whatever the
contents are checked against. -/
theorem records_run (b : Block) (state : LedgerState) (txs : List Transaction)
    (related : AList (fun _ : String => Transaction)) (latest : LatestVersions) :
    b.Records txs ((runTxs b state txs).txContents.foldl (runContent b related)
      ((runTxs b state txs).txMetas, latest)).1 :=
  (tracks_runTxs b state txs).records.foldl_runContent fun tx htx =>
    ((tracks_runTxs b state txs).contents tx htx).1

theorem records_executeBlock (s : Store) (b : Block) :
    b.Records (s.txsInBlock b) (s.executeBlock b).txMetas :=
  records_run b _ _ _ _

end Records

/-! ## The store after a block -/

/-- **The store after a block is applied to it.** -/
def Store.applyBlock (s : Store) (b : Block) : Store :=
  s.putFinalized b (s.executeBlock b).txMetas (s.executeBlock b).state
    (s.executeBlock b).latest

/-- **The blocks after a stored one is applied**: its status is set, and
every other block is as before. -/
theorem Store.block_applyBlock {s : Store} {b : Block} (hb : s.block b.slot = some b)
    (slot : UInt64) :
    (s.applyBlock b).block slot
      = (s.block slot).map
          (fun b' => if slot = b.slot then { b' with status := .finalized }
            else b') := by
  unfold applyBlock
  rw [block_putFinalized]
  by_cases h : slot = b.slot
  · subst h
    rw [if_pos rfl, hb, Option.map_some, if_pos rfl]
  · rw [if_neg h]
    simp only [if_neg h, Option.map_id']

/-- **What finalizing a block can do to the store**: nothing, or apply the
block. It does nothing for a block whose entries did not follow, and when it
fails; it applies the block only at a slot that has one. -/
theorem finalizeBlock_cases {s s' : Store} {t t' : TransactionTracker} {b : Block}
    {isListener : Bool} {r : Except String Unit}
    (h : Ledger.finalizeBlock s t b isListener = some (s', t', r)) :
    (s' = s ∧ (b.invalidPoH = true ∨ r ≠ .ok ())) ∨
      (s' = s.applyBlock b ∧ b.invalidPoH = false ∧ b.slot ∈ s.blocks ∧
        r = .ok ()) := by
  unfold Ledger.finalizeBlock at h
  split at h
  · next hpoh =>
    obtain ⟨rfl, -⟩ := Prod.mk.inj (Option.some.inj h)
    exact Or.inl ⟨rfl, Or.inl hpoh⟩
  · next hpoh =>
    split at h
    · cases h
    · dsimp only at h
      split at h
      · next err _ =>
        obtain ⟨rfl, htail⟩ := Prod.mk.inj (Option.some.inj h)
        obtain ⟨-, rfl⟩ := Prod.mk.inj htail
        exact Or.inl ⟨rfl, Or.inr (by simp)⟩
      · next s₁ hfin =>
        obtain ⟨rfl, htail⟩ := Prod.mk.inj (Option.some.inj h)
        obtain ⟨-, rfl⟩ := Prod.mk.inj htail
        obtain ⟨hmem, -, rfl⟩ := Store.finalizeBlock_eq_ok.mp hfin
        exact Or.inr ⟨rfl, by simpa using hpoh, hmem, rfl⟩

/-! ## What the checks of contents write -/

/-- Does a content found a root of its own? -/
def founds (tx : Transaction) : Prop :=
  let content := (unmarshalUserContent tx.extraInfo).getD UserContent.empty
  content.parentHash = "" ∧ content.rootHash = ""

instance (tx : Transaction) : Decidable (founds tx) :=
  inferInstanceAs (Decidable (_ ∧ _))

/-- A check of content moves the latest version of a root it found, or
founds its own. -/
theorem mem_validateUserContent {tx : Transaction}
    {related : AList (fun _ : String => Transaction)} {latest : LatestVersions}
    {root : String} (h : root ∈ (validateUserContent tx related latest).1) :
    root ∈ latest ∨ founds tx ∧ root = Transaction.hash (some tx) := by
  unfold validateUserContent at h
  dsimp only at h
  split_ifs at h with h₁ h₂ h₃ h₄ h₅ h₆
  · exact Or.inl h
  · exact Or.inl h
  · exact Or.inl h
  · exact Or.inl h
  · exact ((AList.mem_insert _).mp h).symm.imp_right (⟨h₅, ·⟩)
  · exact Or.inl h
  · split at h
    · exact Or.inl h
    · split at h
      · exact Or.inl h
      · split at h
        · exact Or.inl h
        · next latestHash hlookup =>
          split at h
          · exact Or.inl h
          · obtain rfl | h := (AList.mem_insert _).mp h
            · exact Or.inl (AList.lookup_isSome.mp (by rw [hlookup]; rfl))
            · exact Or.inl h

/-- The checks of the content note only it, and move only the versions
loaded and its own. -/
theorem foldl_runContent_mem (b : Block)
    (related : AList (fun _ : String => Transaction)) (txs : List Transaction)
    (r : AList TransactionMeta × LatestVersions) :
    (∀ h ∈ (txs.foldl (runContent b related) r).1,
        h ∈ r.1 ∨ ∃ tx ∈ txs, h = Transaction.hash (some tx)) ∧
      ∀ root ∈ (txs.foldl (runContent b related) r).2,
        root ∈ r.2 ∨ ∃ tx ∈ txs, founds tx ∧ root = Transaction.hash (some tx) := by
  induction txs generalizing r with
  | nil => exact ⟨fun _ => Or.inl, fun _ => Or.inl⟩
  | cons tx txs ih =>
    have hstep : (∀ h ∈ (runContent b related r tx).1,
          h = Transaction.hash (some tx) ∨ h ∈ r.1) ∧
        (runContent b related r tx).2 = (validateUserContent tx related r.2).1 := by
      unfold runContent
      obtain ⟨latest, res⟩ := validateUserContent tx related r.2
      cases res <;> exact ⟨fun h hmem => (AList.mem_insert _).mp hmem, rfl⟩
    obtain ⟨ihmetas, ihlatest⟩ := ih (runContent b related r tx)
    refine ⟨fun h hmem => ?_, fun root hmem => ?_⟩
    · obtain hmem | ⟨tx', htx', rfl⟩ := ihmetas h hmem
      · obtain rfl | hmem := hstep.1 h hmem
        · exact Or.inr ⟨tx, List.mem_cons_self, rfl⟩
        · exact Or.inl hmem
      · exact Or.inr ⟨tx', List.mem_cons_of_mem _ htx', rfl⟩
    · obtain hmem | ⟨tx', htx', hroot⟩ := ihlatest root hmem
      · rw [hstep.2] at hmem
        obtain hmem | hroot := mem_validateUserContent hmem
        · exact Or.inl hmem
        · exact Or.inr ⟨tx, List.mem_cons_self, hroot⟩
      · exact Or.inr ⟨tx', List.mem_cons_of_mem _ htx', hroot⟩

end Mmn
