import Mmn.Effect
import Mmn.Supply

/-!
# A block as sequential transfers

What applying a block is for: the transfers of a block are made one after
the other, each if its sender has the amount. The specification says just
that, on a total map from addresses to holdings (`Holdings.execute`). Its
balances are numbers without an upper end; an address nobody has used holds
nothing; and a transfer that cannot be made leaves no trace.

The ledger gets there by another way. It loads the accounts of all addresses
the transfers name, works on the loaded accounts in machine words, creates
accounts while it is at it, and writes all of them back. Three facts connect
the two. On loaded accounts a transfer is the specified one
(`LedgerState.holdings_applyTx`), because balances that add up to less than
`2 ^ 256` do not wrap and an account that was just created holds nothing.
The specification never looks at an address the transfers do not name, and
never changes one (`Holdings.execute_eqOn`,
`Holdings.execute_apply_of_notMem`). And what is written back is what was
loaded and changed (`Store.holdings_applyBlock`).

The meta records are kept in a map from hashes, in two passes: transfers in
the first and the contents that decode in the second. If the hashes differ,
no record is overwritten by another transaction's, so that a transfer's
record is the one made when it was tried.
-/

namespace Mmn

/-! ## The specification -/

/-- **What an address holds**: a balance, and the nonce of its last outgoing
transfer. -/
@[ext] structure Holding where
  balance : ℕ
  nonce : UInt64
deriving DecidableEq

/-- **The holdings of all addresses.** -/
abbrev Holdings : Type := String → Holding

namespace Holdings

/-- **Can the transfer be made?** Its amount is there, and the sender holds
it. -/
def CanMove (w : Holdings) (tx : Transaction) : Prop :=
  ∃ amount ∈ tx.amount, amount.toNat ≤ (w tx.sender).balance

/-- Move an amount, and set the nonce of the sender. -/
def move (w : Holdings) (sender recipient : String) (amount : ℕ) (nonce : UInt64) :
    Holdings :=
  let w := Function.update w sender ⟨(w sender).balance - amount, nonce⟩
  Function.update w recipient ⟨(w recipient).balance + amount, (w recipient).nonce⟩

/-- **One transfer**: made if it can be, and else nothing. -/
def transfer (w : Holdings) (tx : Transaction) : Holdings :=
  match tx.amount with
  | some amount =>
    if amount.toNat ≤ (w tx.sender).balance then
      w.move tx.sender tx.recipient amount.toNat tx.nonce
    else w
  | none => w

/-- **The transfers of a list, one after the other.** User content is
skipped. -/
def execute (w : Holdings) (txs : List Transaction) : Holdings :=
  txs.foldl (fun w tx => if tx.type = txTypeUserContent then w else w.transfer tx) w

theorem execute_cons (w : Holdings) (tx : Transaction) (txs : List Transaction) :
    w.execute (tx :: txs)
      = execute (if tx.type = txTypeUserContent then w else w.transfer tx) txs := rfl

/-- **What a transfer does**: it can be made and moves the amount, or it
cannot and does nothing. -/
theorem transfer_cases (w : Holdings) (tx : Transaction) :
    (∃ amount ∈ tx.amount, amount.toNat ≤ (w tx.sender).balance ∧
        w.transfer tx = w.move tx.sender tx.recipient amount.toNat tx.nonce) ∨
      (¬w.CanMove tx ∧ w.transfer tx = w) := by
  unfold transfer CanMove
  cases htx : tx.amount with
  | none => exact Or.inr ⟨by simp, rfl⟩
  | some amount =>
    by_cases hle : amount.toNat ≤ (w tx.sender).balance
    · exact Or.inl ⟨amount, rfl, hle, if_pos hle⟩
    · exact Or.inr ⟨by simpa using hle, if_neg hle⟩

variable {A : Set String} {w w' : Holdings}

/-- What a transfer looks at is the two addresses it names. -/
theorem canMove_congr {tx : Transaction} (h : Set.EqOn w w' A) (hs : tx.sender ∈ A) :
    w.CanMove tx ↔ w'.CanMove tx := by
  unfold CanMove
  rw [h hs]

theorem transfer_eqOn {tx : Transaction} (h : Set.EqOn w w' A) (hs : tx.sender ∈ A)
    (hr : tx.recipient ∈ A) : Set.EqOn (w.transfer tx) (w'.transfer tx) A := by
  intro a ha
  unfold transfer
  rw [h hs]
  cases tx.amount with
  | none => exact h ha
  | some amount =>
    by_cases hle : amount.toNat ≤ (w' tx.sender).balance
    · simp only [if_pos hle]
      unfold move
      simp only [Function.update_apply, h hs, h hr, h ha]
    · simp only [if_neg hle]
      exact h ha

/-- Do the transfers of a list only name addresses of a set? -/
def Within (A : Set String) (txs : List Transaction) : Prop :=
  ∀ tx ∈ txs, tx.type ≠ txTypeUserContent → tx.sender ∈ A ∧ tx.recipient ∈ A

/-- **The specification looks at the named addresses only.** -/
theorem execute_eqOn {txs : List Transaction} (htxs : Within A txs)
    (h : Set.EqOn w w' A) :
    Set.EqOn (w.execute txs) (w'.execute txs) A := by
  induction txs generalizing w w' with
  | nil => exact h
  | cons tx txs ih =>
    rw [execute_cons, execute_cons]
    refine ih (fun tx' htx' => htxs tx' (List.mem_cons_of_mem tx htx')) ?_
    split
    · exact h
    · next htype =>
      obtain ⟨hs, hr⟩ := htxs tx List.mem_cons_self htype
      exact transfer_eqOn h hs hr

theorem transfer_apply_of_ne {tx : Transaction} {a : String} (hs : a ≠ tx.sender)
    (hr : a ≠ tx.recipient) : w.transfer tx a = w a := by
  obtain ⟨amount, -, -, heq⟩ | ⟨-, heq⟩ := w.transfer_cases tx
  · rw [heq]
    unfold move
    rw [Function.update_of_ne hr, Function.update_of_ne hs]
  · rw [heq]

/-- **The specification changes the named addresses only.** -/
theorem execute_apply_of_notMem {txs : List Transaction} (htxs : Within A txs)
    {a : String} (ha : a ∉ A) : w.execute txs a = w a := by
  induction txs generalizing w with
  | nil => rfl
  | cons tx txs ih =>
    rw [execute_cons, ih (fun tx' htx' => htxs tx' (List.mem_cons_of_mem tx htx'))]
    split
    · rfl
    · next htype =>
      obtain ⟨hs, hr⟩ := htxs tx List.mem_cons_self htype
      exact transfer_apply_of_ne (fun h => ha (h ▸ hs)) (fun h => ha (h ▸ hr))

end Holdings

/-! ## The loaded accounts -/

namespace LedgerState

/-- **What loaded accounts hold.** An address without an account holds
nothing. -/
def holdings (state : LedgerState) : Holdings :=
  fun a => ⟨(state.balance a).toNat, (state.account a).nonce⟩

variable (state : LedgerState) (a : String)

theorem holdings_insert (acc : Account a) :
    holdings (state.insert a acc)
      = Function.update state.holdings a ⟨acc.balance.toNat, acc.nonce⟩ := by
  funext c
  unfold holdings balance account
  by_cases hc : c = a
  · subst hc
    rw [Function.update_self, AList.lookup_insert]
    rfl
  · rw [Function.update_of_ne hc, AList.lookup_insert_ne hc]

@[simp] theorem holdings_touch : (state.touch a).holdings = state.holdings := by
  unfold touch
  split
  · rfl
  · next ha =>
    rw [holdings_insert, Function.update_eq_self_iff]
    unfold holdings balance account
    rw [AList.lookup_eq_none.mpr ha]
    rfl

theorem holdings_debit {amount : BitVec 256} (h : amount ≤ state.balance a) :
    (state.debit a amount).holdings
      = Function.update state.holdings a
          ⟨(state.holdings a).balance - amount.toNat, (state.holdings a).nonce⟩ := by
  unfold debit
  rw [holdings_insert, BitVec.toNat_sub_of_le h]
  rfl

theorem holdings_credit {amount : BitVec 256}
    (h : (state.balance a).toNat + amount.toNat < 2 ^ 256) :
    (state.credit a amount).holdings
      = Function.update state.holdings a
          ⟨(state.holdings a).balance + amount.toNat, (state.holdings a).nonce⟩ := by
  unfold credit
  rw [holdings_insert, BitVec.toNat_add, Nat.mod_eq_of_lt h]
  rfl

theorem holdings_setNonce (nonce : UInt64) :
    (state.setNonce a nonce).holdings
      = Function.update state.holdings a ⟨(state.holdings a).balance, nonce⟩ :=
  holdings_insert state a _

end LedgerState

/-- The three writes of a transfer, on holdings: the nonce may be set first. -/
theorem Holdings.update_move (w : Holdings) (sender recipient : String) (amount : ℕ)
    (nonce : UInt64) :
    let w₁ := Function.update w sender ⟨(w sender).balance - amount, (w sender).nonce⟩
    let w₂ := Function.update w₁ recipient
      ⟨(w₁ recipient).balance + amount, (w₁ recipient).nonce⟩
    Function.update w₂ sender ⟨(w₂ sender).balance, nonce⟩
      = w.move sender recipient amount nonce := by
  funext a
  unfold move
  by_cases hr : recipient = sender
  · subst hr
    by_cases ha : a = recipient <;> simp [ha]
  · by_cases ha : a = sender
    · subst ha
      simp [Ne.symm hr]
    · simp [Function.update_apply, ha, hr]

/-- **A transfer goes through if it can be made.** -/
theorem applyTx_eq_ok_iff (state : LedgerState) (tx : Transaction) :
    (applyTx state tx).2 = .ok () ↔ state.holdings.CanMove tx := by
  unfold Holdings.CanMove
  obtain ⟨hnone, heq⟩ | ⟨amount, hsome, hlt, heq⟩ | ⟨amount, hsome, hle, heq⟩ :=
    applyTx_cases state tx
  · simp [heq, hnone]
  · simp only [heq, hsome, reduceCtorEq, Option.mem_some_iff, exists_eq_left',
      false_iff, not_le]
    exact BitVec.lt_def.mp hlt
  · simp only [heq, hsome, Option.mem_some_iff, exists_eq_left', true_iff]
    exact BitVec.le_def.mp hle

namespace LedgerState

/-- **On loaded accounts a transfer is the specified one.** -/
theorem holdings_applyTx {state : LedgerState} (tx : Transaction)
    (hw : state.wealth < 2 ^ 256) :
    (applyTx state tx).1.holdings = state.holdings.transfer tx := by
  unfold Holdings.transfer
  obtain ⟨hnone, heq⟩ | ⟨amount, hsome, hlt, heq⟩ | ⟨amount, hsome, hle, heq⟩ :=
    applyTx_cases state tx <;> rw [heq]
  · rw [hnone]
  · have hnot : ¬amount.toNat ≤ (state.holdings tx.sender).balance :=
      Nat.not_le.mpr (BitVec.lt_def.mp hlt)
    simp only [hsome, if_neg hnot, holdings_touch]
  · set loaded := (state.touch tx.sender).touch tx.recipient with hloaded
    have hw' : loaded.wealth = state.wealth := by simp [hloaded]
    have hle' : amount ≤ loaded.balance tx.sender := by simpa [hloaded] using hle
    have hsame : loaded.holdings = state.holdings := by simp [hloaded]
    have hroom := credit_lt hle' (hw' ▸ hw)
    have hcan : amount.toNat ≤ (state.holdings tx.sender).balance :=
      BitVec.le_def.mp hle
    simp only [hsome, if_pos hcan]
    rw [holdings_setNonce, holdings_credit _ _ hroom, holdings_debit _ _ hle', hsame]
    exact Holdings.update_move state.holdings tx.sender tx.recipient
      amount.toNat tx.nonce

/-- **On loaded accounts the transfers of a block are the specified ones.** -/
theorem holdings_applyAll {state : LedgerState} (txs : List Transaction)
    (hw : state.wealth < 2 ^ 256) :
    (applyAll state txs).holdings = state.holdings.execute txs := by
  induction txs generalizing state with
  | nil => rfl
  | cons tx txs ih =>
    rw [applyAll_cons, Holdings.execute_cons]
    split
    · exact ih hw
    · rw [ih (by rwa [wealth_applyTx tx hw]), holdings_applyTx tx hw]

end LedgerState

section

variable [Primitives]

/-! ## The store -/

namespace Store

/-- **What the store's accounts hold.** An address without an account holds
nothing. -/
def holdings (s : Store) : Holdings := LedgerState.holdings s.accounts

omit [Primitives] in
/-- The accounts loaded hold what the store's do. -/
theorem holdings_getAccountBatch (s : Store) (addrs : List String) :
    Set.EqOn (LedgerState.holdings (s.getAccountBatch addrs)) s.holdings
      {a | a ∈ addrs} := by
  intro a ha
  unfold holdings LedgerState.holdings LedgerState.balance LedgerState.account
    getAccountBatch
  rw [AList.lookup_loadAll, if_pos (show a ∈ addrs from ha)]

omit [Primitives] in
theorem within_accAddrs (txs : List Transaction) :
    Holdings.Within {a | a ∈ accAddrs txs} txs :=
  fun tx htx htype =>
    ⟨mem_accAddrs.mpr ⟨tx, htx, htype, Or.inl rfl⟩,
      mem_accAddrs.mpr ⟨tx, htx, htype, Or.inr rfl⟩⟩

/-- **Applying a block makes its transfers one after the other.** -/
theorem holdings_applyBlock {s : Store} (b : Block) (hs : s.supply < 2 ^ 256) :
    (s.applyBlock b).holdings = s.holdings.execute (s.txsInBlock b) := by
  set txs := s.txsInBlock b with htxs
  set loaded : LedgerState := s.getAccountBatch (accAddrs txs) with hloaded
  have hwithin := within_accAddrs txs
  have hstate : (s.executeBlock b).state = applyAll loaded txs :=
    executeBlock_state s b
  have hrun : (applyAll loaded txs).holdings = loaded.holdings.execute txs :=
    LedgerState.holdings_applyAll txs ((s.wealth_getAccountBatch_le _).trans_lt hs)
  funext a
  have hwrite : (s.applyBlock b).accounts.lookup a
      = ((applyAll loaded txs).lookup a).or (s.accounts.lookup a) := by
    show (AList.writeAll (fun _ acc => acc) (s.executeBlock b).state
      s.accounts).lookup a = _
    rw [AList.lookup_writeAll, hstate, Option.map_id']
  by_cases ha : a ∈ accAddrs txs
  · have hspec : (applyAll loaded txs).holdings a = s.holdings.execute txs a := by
      rw [hrun]
      exact Holdings.execute_eqOn hwithin (s.holdings_getAccountBatch _) ha
    rw [← hspec]
    -- an address that is still without an account had none in the store
    have hlook : (s.applyBlock b).accounts.lookup a
        = (applyAll loaded txs).lookup a := by
      rw [hwrite]
      cases hfinal : (applyAll loaded txs).lookup a with
      | some acc => rfl
      | none =>
        have hnot : a ∉ loaded :=
          fun h => AList.lookup_eq_none.mp hfinal (mem_applyAll_of_mem h)
        rw [← AList.lookup_eq_none, hloaded, getAccountBatch, AList.lookup_loadAll,
          if_pos ha] at hnot
        rw [hnot]
        rfl
    unfold holdings LedgerState.holdings LedgerState.balance LedgerState.account
    rw [hlook]
  · have hnone : (applyAll loaded txs).lookup a = none := by
      refine AList.lookup_eq_none.mpr fun hmem => ?_
      obtain hmem | hmem := mem_applyAll hmem
      · exact ha (AList.mem_of_mem_loadAll hmem)
      · exact ha hmem
    rw [Holdings.execute_apply_of_notMem hwithin ha]
    unfold holdings LedgerState.holdings LedgerState.balance LedgerState.account
    rw [hwrite, hnone, Option.none_or]

end Store

/-! ## The meta records -/

variable {b : Block} {txs : List Transaction}

/-- **One record for each transaction**, if their hashes differ. -/
theorem keys_executeBlock {s : Store} {b : Block}
    (hnodup : ((s.txsInBlock b).map (fun tx => Transaction.hash (some tx))).Nodup) :
    (s.executeBlock b).txMetas.keys.Perm
      ((s.txsInBlock b).map (fun tx => Transaction.hash (some tx))) := by
  refine (List.perm_ext_iff_of_nodup (AList.keys_nodup _) hnodup).mpr fun h => ?_
  rw [← AList.mem_keys, List.mem_map]
  constructor
  · intro hmem
    obtain ⟨m, hlook⟩ := Option.isSome_iff_exists.mp (AList.lookup_isSome.mpr hmem)
    exact (records_executeBlock s b h m hlook).1
  · rintro ⟨tx, htx, rfl⟩
    obtain ⟨m, hlook, -⟩ := settled_executeBlock htx
    exact AList.lookup_isSome.mp (by rw [hlook]; rfl)

/-! ## The record of a transfer -/

theorem lookup_foldl_runTx_of_ne {h : String} {l : List Transaction}
    (hne : ∀ tx ∈ l, Transaction.hash (some tx) ≠ h) (r : BlockRun) :
    (l.foldl (runTx b) r).txMetas.lookup h = r.txMetas.lookup h := by
  induction l generalizing r with
  | nil => rfl
  | cons tx l ih =>
    have hh : h ≠ Transaction.hash (some tx) := (hne tx List.mem_cons_self).symm
    rw [List.foldl_cons, ih (fun tx' htx' => hne tx' (List.mem_cons_of_mem tx htx'))]
    obtain ⟨-, -, heq⟩ | ⟨-, -, _, _, heq⟩ | ⟨-, _, _, -, heq⟩ :=
      runTx_cases b r tx <;> rw [heq]
    · exact AList.lookup_insert_ne hh
    · exact AList.lookup_insert_ne hh

theorem lookup_foldl_runContent_of_ne
    {related : AList (fun _ : String => Transaction)} {h : String}
    {l : List Transaction} (hne : ∀ tx ∈ l, Transaction.hash (some tx) ≠ h)
    (r : AList TransactionMeta × LatestVersions) :
    (l.foldl (runContent b related) r).1.lookup h = r.1.lookup h := by
  induction l generalizing r with
  | nil => rfl
  | cons tx l ih =>
    have hh : h ≠ Transaction.hash (some tx) := (hne tx List.mem_cons_self).symm
    rw [List.foldl_cons, ih (fun tx' htx' => hne tx' (List.mem_cons_of_mem tx htx'))]
    obtain ⟨_, _, -, heq⟩ := runContent_cases b related r tx
    rw [heq]
    exact AList.lookup_insert_ne hh

/-- **A transfer's record says whether it went through** on the accounts the
transfers before it left, if no other transaction of the block has its hash. -/
theorem status_executeBlock {s : Store} {before after : List Transaction}
    {tx : Transaction} (htxs : s.txsInBlock b = before ++ tx :: after)
    (htype : tx.type ≠ txTypeUserContent)
    (hnodup : ((s.txsInBlock b).map (fun tx => Transaction.hash (some tx))).Nodup) :
    ∃ m, (s.executeBlock b).txMetas.lookup (Transaction.hash (some tx)) = some m ∧
      (m.status = .success ↔
        (applyTx (applyAll (s.getAccountBatch (accAddrs (s.txsInBlock b))) before)
          tx).2 = .ok ()) := by
  set state : LedgerState := s.getAccountBatch (accAddrs (s.txsInBlock b)) with hstate
  have hinj := List.inj_on_of_nodup_map hnodup
  have htx : tx ∈ s.txsInBlock b := by simp [htxs]
  -- the second pass writes records of contents only
  have hsecond : (s.executeBlock b).txMetas.lookup (Transaction.hash (some tx))
      = (runTxs b state (s.txsInBlock b)).txMetas.lookup
          (Transaction.hash (some tx)) := by
    refine lookup_foldl_runContent_of_ne (fun tx' htx' heq => htype ?_) _
    obtain ⟨hmem, hcontent⟩ :=
      (tracks_runTxs b state (s.txsInBlock b)).contents tx' htx'
    rwa [← hinj hmem htx heq]
  -- in the first pass the record is written once
  have hafter : ∀ tx' ∈ after, Transaction.hash (some tx')
      ≠ Transaction.hash (some tx) := by
    rw [htxs, List.map_append, List.map_cons] at hnodup
    intro tx' htx' heq
    have hcons := (List.nodup_append.mp hnodup).2.1
    exact (List.nodup_cons.mp hcons).1 (heq ▸ List.mem_map_of_mem htx')
  rw [hsecond, htxs]
  unfold runTxs
  rw [List.foldl_append, List.foldl_cons, lookup_foldl_runTx_of_ne hafter]
  generalize hr : before.foldl (runTx b) _ = r
  have hrstate : r.state = applyAll state before := by
    rw [← hr]
    exact foldl_runTx_state b before _
  rw [← hrstate]
  obtain ⟨hcontent, -⟩ | ⟨hcontent, -⟩ | ⟨-, status, err, hstatus, heq⟩ :=
    runTx_cases b r tx
  · exact absurd hcontent htype
  · exact absurd hcontent htype
  · rw [heq]
    refine ⟨_, AList.lookup_insert _, ?_⟩
    obtain ⟨rfl, hok⟩ | ⟨rfl, herr⟩ := hstatus
    · exact ⟨fun _ => hok, fun _ => rfl⟩
    · refine ⟨fun hsuccess => ?_, fun hok => absurd hok herr⟩
      cases hsuccess

/-! ## Finalizing a block -/

omit [Primitives] in
/-- The transactions of a block that are all stored, as the ledger reads
them. -/
theorem txsInBlock_eq {s : Store} {b : Block} {txs : List Transaction}
    (h : b.txHashes.map s.getTxByHash = txs.map some) : s.txsInBlock b = txs := by
  unfold Store.txsInBlock Store.getTxBatch
  calc b.txHashes.filterMap s.getTxByHash
      = (b.txHashes.map s.getTxByHash).filterMap id := by rw [List.filterMap_map]; rfl
    _ = (txs.map some).filterMap id := by rw [h]
    _ = txs := by rw [List.filterMap_map]; exact List.filterMap_some

namespace Ledger

/-- **Finalizing a block refines sequential execution.** A block that is not
marked invalid, whose transactions – those of the entries that are no ticks,
in order – are all stored and have different hashes, is applied to accounts
that add up to less than `2 ^ 256`. Then the persisted balances and nonces
are those of the transfers made one after the other, and what is written to
the meta records is one record for each transaction, of the block's slot;
that of a transfer says success exactly if the sequence made it. -/
theorem finalizeBlock_refines {s s' : Store} {t t' : TransactionTracker} {b : Block}
    {isListener : Bool} {txs : List Transaction} (hpoh : b.invalidPoH = false)
    (htxs : b.txHashes.map s.getTxByHash = txs.map some)
    (hnodup : (txs.map (fun tx => Transaction.hash (some tx))).Nodup)
    (hsupply : s.supply < 2 ^ 256)
    (hfin : Ledger.finalizeBlock s t b isListener = some (s', t', .ok ())) :
    s'.holdings = s.holdings.execute txs ∧
      ∃ metas : AList TransactionMeta,
        s'.txMetas = AList.writeAll (fun _ m => m) metas s.txMetas ∧
        metas.keys.Perm (txs.map (fun tx => Transaction.hash (some tx))) ∧
        (∀ h m, metas.lookup h = some m → m.slot = b.slot) ∧
        ∀ before tx after, txs = before ++ tx :: after → tx.type ≠ txTypeUserContent →
          ∃ m, metas.lookup (Transaction.hash (some tx)) = some m ∧
            (m.status = .success ↔ (s.holdings.execute before).CanMove tx) := by
  obtain rfl : s.txsInBlock b = txs := txsInBlock_eq htxs
  obtain rfl : s' = s.applyBlock b := by
    obtain ⟨-, hinvalid | herr⟩ | ⟨heq, -⟩ := finalizeBlock_cases hfin
    · rw [hpoh] at hinvalid
      cases hinvalid
    · exact absurd rfl herr
    · exact heq
  refine ⟨Store.holdings_applyBlock b hsupply, (s.executeBlock b).txMetas, rfl,
    keys_executeBlock hnodup, fun h m hlook =>
      (records_executeBlock s b h m hlook).2.1,
    fun before tx after hsplit htype => ?_⟩
  obtain ⟨m, hlook, hstatus⟩ := status_executeBlock hsplit htype hnodup
  refine ⟨m, hlook, hstatus.trans ?_⟩
  -- the transfers before this one, on the loaded accounts and on all of
  -- them
  have hwithin := Store.within_accAddrs (s.txsInBlock b)
  have htx : tx ∈ s.txsInBlock b := by simp [hsplit]
  have hbefore : Holdings.Within {a | a ∈ accAddrs (s.txsInBlock b)} before :=
    fun tx' htx' => hwithin tx' (by rw [hsplit]; exact List.mem_append_left _ htx')
  rw [applyTx_eq_ok_iff, LedgerState.holdings_applyAll before
    ((s.wealth_getAccountBatch_le _).trans_lt hsupply)]
  exact Holdings.canMove_congr
    (Holdings.execute_eqOn hbefore (s.holdings_getAccountBatch _))
    (hwithin tx htx htype).1

end Ledger

end

section Sample

attribute [local instance] Sample.primitives

namespace Sample

/-- A transfer from the first account of the sample. -/
def pay (recipient : String) (amount : BitVec 256) (nonce : UInt64) : Transaction :=
  { Transaction.zero with
    sender := "a", recipient := recipient, amount := some amount, nonce := nonce }

/-- Three transfers: one that leaves little, one to oneself, and one that is
too large then. -/
def threeTransfers : List Transaction := [pay "b" 80 1, pay "a" 10 2, pay "b" 30 3]

/-- A store with one account and a block of the three transfers. -/
def threeStored : Store :=
  Store.addBlock
    { Store.empty with
      accounts := (∅ : AList Account).insert "a" { balance := 100, nonce := 0 } }
    (blockWith 1 1 0 threeTransfers)

/-- The block of the three transfers, as stored. -/
def threeBlock : Block := broadcastedBlockToBlock (blockWith 1 1 0 threeTransfers)

end Sample

/-- The first two of three transfers are made, and the third finds too
little. -/
theorem three_transfers_in_sequence :
    ∃ s' t', Ledger.finalizeBlock Sample.threeStored TransactionTracker.new
      Sample.threeBlock true
        = some (s', t', .ok ()) ∧
      s'.holdings "a" = ⟨20, 2⟩ ∧ s'.holdings "b" = ⟨80, 0⟩ := by
  have htest : (Ledger.finalizeBlock Sample.threeStored TransactionTracker.new
    Sample.threeBlock
      true).any (fun r => r.2.2.isOk) = true := by
    decide +kernel
  obtain ⟨s', t', hfin⟩ : ∃ s' t', Ledger.finalizeBlock Sample.threeStored
    TransactionTracker.new
      Sample.threeBlock true = some (s', t', .ok ()) := by
    revert htest
    cases Ledger.finalizeBlock Sample.threeStored TransactionTracker.new
      Sample.threeBlock true with
    | none => exact fun h => by cases h
    | some r =>
      obtain ⟨s', t', _ | _⟩ := r
      · exact fun h => by cases h
      · exact fun _ => ⟨s', t', rfl⟩
  have htxs : Sample.threeBlock.txHashes.map Sample.threeStored.getTxByHash
      = Sample.threeTransfers.map some := by
    decide +kernel
  have hsupply : Sample.threeStored.supply < 2 ^ 256 := by decide +kernel
  obtain ⟨hholdings, -⟩ :=
    Ledger.finalizeBlock_refines rfl htxs (by decide +kernel) hsupply hfin
  refine ⟨s', t', hfin, ?_, ?_⟩
  · rw [hholdings]
    decide +kernel
  · rw [hholdings]
    decide +kernel

end Sample

end Mmn
