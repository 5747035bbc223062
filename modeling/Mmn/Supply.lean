import Mmn.Execution
import Mmn.Runs
import Mmn.Sample

/-!
# Conservation of supply

The sum of all persisted balances is fixed at genesis. No transfer, failing
or not, and no block, however often it is applied, changes it, and no
addition or subtraction on a balance wraps.

The argument has three floors. On the loaded accounts, a transfer moves an
amount it has checked to be there, so the total stays, and the credited
balance is bounded by the total; this needs the total to be below `2 ^ 256`,
which is where the addition could wrap otherwise. On the store, the accounts
loaded for a block are all those its transfers name, so what is written back
replaces exactly what was loaded. Over a run, the supply of genesis is
therefore the supply of every state.
-/

namespace Mmn

open Machine

/-! ## The loaded accounts -/

namespace LedgerState

/-- **The sum of the balances**, as a natural number. -/
def wealth (state : LedgerState) : ℕ :=
  AList.total (fun _ acc => acc.balance.toNat) state

variable (state : LedgerState) (a : String)

theorem weight_eq_balance :
    AList.weight (fun _ acc => acc.balance.toNat) state a
      = (state.balance a).toNat := by
  unfold AList.weight balance account
  cases state.lookup a <;> rfl

theorem balance_le_wealth : (state.balance a).toNat ≤ state.wealth := by
  have h := AList.sum_weight_le_total (w := fun _ acc => acc.balance.toNat) state {a}
  rwa [Finset.sum_singleton, weight_eq_balance] at h

/-- Writing an account replaces one balance by another in the sum. -/
theorem wealth_insert (acc : Account a) :
    wealth (state.insert a acc) + (state.balance a).toNat
      = state.wealth + acc.balance.toNat := by
  rw [← weight_eq_balance]
  exact AList.total_insert state a acc

@[simp] theorem wealth_touch : (state.touch a).wealth = state.wealth := by
  unfold touch
  split
  · rfl
  · next ha =>
    have h := wealth_insert state a { balance := 0, nonce := 0 }
    have hzero : state.balance a = 0 := by
      rw [balance, account, AList.lookup_eq_none.mpr ha]
      rfl
    rw [hzero] at h
    simpa using h

theorem wealth_debit {amount : BitVec 256} (h : amount ≤ state.balance a) :
    (state.debit a amount).wealth + amount.toNat = state.wealth := by
  have hins := wealth_insert state a
    { state.account a with balance := state.balance a - amount }
  have hle : amount.toNat ≤ (state.balance a).toNat := BitVec.le_def.mp h
  rw [BitVec.toNat_sub_of_le h] at hins
  unfold debit
  omega

theorem wealth_credit {amount : BitVec 256}
    (h : (state.balance a).toNat + amount.toNat < 2 ^ 256) :
    (state.credit a amount).wealth = state.wealth + amount.toNat := by
  have hins := wealth_insert state a
    { state.account a with balance := state.balance a + amount }
  rw [BitVec.toNat_add, Nat.mod_eq_of_lt h] at hins
  unfold credit
  omega

@[simp] theorem wealth_setNonce (nonce : UInt64) :
    (state.setNonce a nonce).wealth = state.wealth := by
  have hins := wealth_insert state a { state.account a with nonce := nonce }
  exact Nat.add_right_cancel hins

end LedgerState

/-- **No operation of the call wraps**: if the transfer goes through, the
amount is there to be subtracted, and the balance it is added to – which is
the debited one in a transfer to oneself – stays below `2 ^ 256`. -/
def ApplyCall.NoWrap (c : ApplyCall) : Prop :=
  c.succeeds → ∀ amount ∈ c.tx.amount,
    amount.toNat ≤ (c.touched.balance c.tx.sender).toNat ∧
      ((c.touched.debit c.tx.sender amount).balance c.tx.recipient).toNat
        + amount.toNat < 2 ^ 256

/-- The credit of a transfer has room for it, because the balance credited
and the amount are parts of the same total. -/
theorem credit_lt {state : LedgerState} {tx : Transaction} {amount : BitVec 256}
    (hle : amount ≤ state.balance tx.sender) (hw : state.wealth < 2 ^ 256) :
    ((state.debit tx.sender amount).balance tx.recipient).toNat + amount.toNat
      < 2 ^ 256 := by
  have hdebit := state.wealth_debit tx.sender hle
  have hbal := (state.debit tx.sender amount).balance_le_wealth tx.recipient
  omega

theorem wealth_applyTx {state : LedgerState} (tx : Transaction)
    (hw : state.wealth < 2 ^ 256) : (applyTx state tx).1.wealth = state.wealth := by
  rcases applyTx_cases state tx with ⟨-, heq⟩ | ⟨_, -, -, heq⟩ | ⟨amount, -, hle, heq⟩
    <;>
    rw [heq]
  · simp only [LedgerState.wealth_touch]
  · set loaded := (state.touch tx.sender).touch tx.recipient with hloaded
    have hw' : loaded.wealth = state.wealth := by simp [hloaded]
    have hle' : amount ≤ loaded.balance tx.sender := by simpa [hloaded] using hle
    have hroom := credit_lt hle' (hw' ▸ hw)
    rw [LedgerState.wealth_setNonce, LedgerState.wealth_credit _ _ hroom,
      loaded.wealth_debit tx.sender hle', hw']

/-- A transfer on accounts that add up to less than `2 ^ 256` does not wrap. -/
theorem noWrap_of_wealth {c : ApplyCall} (hw : c.state.wealth < 2 ^ 256) :
    c.NoWrap := by
  intro hok amount hamount
  have hw' : c.touched.wealth = c.state.wealth := by simp [ApplyCall.touched]
  have hle : amount ≤ c.touched.balance c.tx.sender := by
    rcases applyTx_cases c.state c.tx with ⟨-, heq⟩ | ⟨_, -, -, heq⟩ | ⟨m, hm, hle, -⟩
    · rw [ApplyCall.succeeds, heq] at hok
      cases hok
    · rw [ApplyCall.succeeds, heq] at hok
      cases hok
    · rw [Option.mem_def.mp hamount, Option.some.injEq] at hm
      simpa [ApplyCall.touched, hm] using hle
  exact ⟨BitVec.le_def.mp hle, credit_lt hle (hw' ▸ hw)⟩

theorem wealth_applyAll {state : LedgerState} (txs : List Transaction)
    (hw : state.wealth < 2 ^ 256) : (applyAll state txs).wealth = state.wealth := by
  induction txs generalizing state with
  | nil => rfl
  | cons tx txs ih =>
    have hstep : (if tx.type = txTypeUserContent then state
        else (applyTx state tx).1).wealth = state.wealth := by
      split
      · rfl
      · exact wealth_applyTx tx hw
    rw [applyAll_cons, ih (hstep ▸ hw), hstep]

/-- None of the calls made for a list of transactions wraps. -/
theorem noWrap_applyCallsFrom {state : LedgerState} {txs : List Transaction}
    (hw : state.wealth < 2 ^ 256) : ∀ c ∈ applyCallsFrom state txs, c.NoWrap := by
  induction txs generalizing state with
  | nil => simp [applyCallsFrom]
  | cons tx txs ih =>
    intro c hc
    unfold applyCallsFrom at hc
    split at hc
    · exact ih hw c hc
    · rcases List.mem_cons.mp hc with rfl | hc
      · exact noWrap_of_wealth hw
      · exact ih (by rwa [wealth_applyTx tx hw]) c hc

/-! ## The store -/

section

variable [Primitives]

namespace Store

/-- **The supply**: the sum over all persisted accounts of their balance, as
a natural number. -/
def supply (s : Store) : ℕ := LedgerState.wealth s.accounts

omit [Primitives] in
/-- The accounts loaded for a block hold at most the supply. -/
theorem wealth_getAccountBatch_le (s : Store) (addrs : List String) :
    LedgerState.wealth (s.getAccountBatch addrs) ≤ s.supply :=
  AList.total_loadAll_le addrs s.accounts

/-- **Applying a block keeps the supply.** -/
theorem supply_applyBlock {s : Store} (b : Block) (hs : s.supply < 2 ^ 256) :
    (s.applyBlock b).supply = s.supply := by
  set addrs := accAddrs (s.txsInBlock b) with haddrs
  have hloaded := s.wealth_getAccountBatch_le addrs
  have hks : ∀ a ∈ (s.executeBlock b).state, a ∈ addrs := by
    intro a ha
    rw [executeBlock_state] at ha
    obtain ha | ha := mem_applyAll ha
    · by_contra hnot
      refine AList.lookup_eq_none.mp ?_ ha
      rw [getAccountBatch, AList.lookup_loadAll, if_neg hnot]
    · exact ha
  have hkeep : ∀ a ∈ addrs, a ∈ s.accounts → a ∈ (s.executeBlock b).state := by
    intro a ha hmem
    rw [executeBlock_state]
    refine mem_applyAll_of_mem (AList.lookup_isSome.mp ?_)
    rw [getAccountBatch, AList.lookup_loadAll, if_pos ha]
    exact AList.lookup_isSome.mpr hmem
  have hsame : LedgerState.wealth (s.executeBlock b).state
      = LedgerState.wealth (s.getAccountBatch addrs) := by
    rw [executeBlock_state]
    exact wealth_applyAll _ (hloaded.trans_lt hs)
  have hcycle : LedgerState.wealth
        (AList.writeAll (fun _ a => a) (s.executeBlock b).state s.accounts)
        + LedgerState.wealth (s.getAccountBatch addrs)
      = s.supply + LedgerState.wealth (s.executeBlock b).state :=
    AList.total_writeAll_loadAll hks hkeep
  show LedgerState.wealth
      (AList.writeAll (fun _ a => a) (s.executeBlock b).state s.accounts) = s.supply
  omega

end Store

/-! ## Genesis -/

omit [Primitives] in
/-- Genesis accounts with distinct new addresses are all created, and the
supply grows by their balances. -/
theorem createAccountsFromGenesis_eq_ok {alloc : List Ledger.Address} {s : Store}
    (hnodup : (alloc.map Ledger.Address.address).Nodup)
    (hnew : ∀ a ∈ alloc, a.address ∉ s.accounts) :
    ∃ s', Ledger.createAccountsFromGenesis s alloc = .ok s' ∧
      s'.supply = s.supply + (alloc.map (fun a => a.amount.toNat)).sum := by
  induction alloc generalizing s with
  | nil => exact ⟨s, rfl, rfl⟩
  | cons a alloc ih =>
    rw [List.map_cons, List.nodup_cons] at hnodup
    have ha : a.address ∉ s.accounts := hnew a List.mem_cons_self
    set s₁ : Store := { s with
      accounts := s.accounts.insert a.address { balance := a.amount, nonce := 0 } }
        with hs₁
    have hsupply : s₁.supply = s.supply + a.amount.toNat := by
      have hins := LedgerState.wealth_insert s.accounts a.address
        { balance := a.amount, nonce := 0 }
      have hzero : LedgerState.balance s.accounts a.address = 0 := by
        rw [LedgerState.balance, LedgerState.account, AList.lookup_eq_none.mpr ha]
        rfl
      rw [hzero] at hins
      exact hins
    have hnew₁ : ∀ c ∈ alloc, c.address ∉ s₁.accounts := by
      intro c hc hmem
      obtain heq | hmem := (AList.mem_insert s.accounts).mp hmem
      · exact hnodup.1 (heq ▸ List.mem_map_of_mem hc)
      · exact hnew c (List.mem_cons_of_mem a hc) hmem
    obtain ⟨s', hok, hs'⟩ := ih hnodup.2 hnew₁
    refine ⟨s', ?_, ?_⟩
    · rw [Ledger.createAccountsFromGenesis, Ledger.createAccountWithoutLocking,
        if_neg ha]
      exact hok
    · rw [hs', hsupply, List.map_cons, List.sum_cons]
      ring

/-! ## Runs -/

/-- A ledger in use: the database, the tracker, and every call of `applyTx`
made so far. -/
structure LedgerRun where
  store : Store
  tracker : TransactionTracker
  /-- The calls made so far, oldest first. -/
  calls : List ApplyCall

/-- What is asked of a ledger: to store any broadcast block, or to apply any
block. -/
inductive LedgerRequest where
  | addBlockPending (b : BroadcastedBlock)
  | finalizeBlock (b : Block) (isListener : Bool)

/-- One request. A request that fails leaves the ledger as it finds it. -/
def LedgerRun.step (r : LedgerRun) : LedgerRequest → Option LedgerRun
  | .addBlockPending b =>
    match r.store.addBlockPending b with
    | .ok s => some { r with store := s }
    | .error _ => some r
  | .finalizeBlock b isListener =>
    match Ledger.finalizeBlock r.store r.tracker b isListener with
    | none => none
    | some (s, t, _) =>
      some { store := s, tracker := t, calls := r.calls ++ r.store.applyCalls b }

/-- The supply is the given one, and no call has wrapped. -/
structure LedgerRun.Conserves (supply : ℕ) (r : LedgerRun) : Prop where
  supply_eq : r.store.supply = supply
  noWrap : ∀ c ∈ r.calls, c.NoWrap

theorem LedgerRun.conserves_step {supply : ℕ} (hlt : supply < 2 ^ 256)
    {r r' : LedgerRun} {i : LedgerRequest} (hr : r.Conserves supply)
    (h : r.step i = some r') : r'.Conserves supply := by
  have hs : r.store.supply < 2 ^ 256 := hr.supply_eq ▸ hlt
  cases i with
  | addBlockPending b =>
    dsimp only [step] at h
    split at h
    · next s hok =>
      obtain ⟨-, rfl⟩ := Store.addBlockPending_eq_ok.mp hok
      cases h
      refine ⟨?_, hr.noWrap⟩
      rw [← hr.supply_eq]
      unfold Store.supply
      rw [Store.accounts_addBlock]
    · cases h
      exact hr
  | finalizeBlock b isListener =>
    dsimp only [step] at h
    split at h
    · cases h
    · next s t res hfin =>
      cases h
      refine ⟨?_, ?_⟩
      · obtain ⟨rfl, -⟩ | ⟨rfl, -⟩ := finalizeBlock_cases hfin
        · exact hr.supply_eq
        · exact (Store.supply_applyBlock b hs).trans hr.supply_eq
      · intro c hc
        obtain hc | hc := List.mem_append.mp hc
        · exact hr.noWrap c hc
        · unfold Store.applyCalls at hc
          split at hc
          · cases hc
          · refine noWrap_applyCallsFrom ?_ c hc
            exact (r.store.wealth_getAccountBatch_le _).trans_lt hs

/-- **Conservation of supply.** On a store without accounts, the genesis
allocations are created if their addresses are distinct; and when they add
up to less than `2 ^ 256`, then after any requests – blocks stored and
applied in any order, any number of times, with any transactions in them –
the persisted balances add up to the genesis allocations, and no subtraction
or addition on a balance has wrapped. -/
theorem supply_conserved (s : Store) (t : TransactionTracker)
    (alloc : List Ledger.Address) (hempty : s.accounts = ∅)
    (hnodup : (alloc.map Ledger.Address.address).Nodup)
    (hsum : (alloc.map (fun a => a.amount.toNat)).sum < 2 ^ 256) :
    ∃ genesis, Ledger.createAccountsFromGenesis s alloc = .ok genesis ∧
      ∀ r, Run LedgerRun.step Always ⟨genesis, t, []⟩ r →
        r.store.supply = (alloc.map (fun a => a.amount.toNat)).sum ∧
          ∀ c ∈ r.calls, c.NoWrap := by
  obtain ⟨genesis, hok, hsupply⟩ := createAccountsFromGenesis_eq_ok hnodup
    (s := s) (fun a _ => by rw [hempty]; exact AList.notMem_empty _)
  have hzero : s.supply = 0 := by
    unfold Store.supply
    rw [hempty]
    rfl
  rw [hzero, Nat.zero_add] at hsupply
  refine ⟨genesis, hok, fun r hrun => ?_⟩
  have hinv : r.Conserves (alloc.map (fun a => a.amount.toNat)).sum := by
    refine hrun.invariant ⟨hsupply, by simp⟩ ?_
    intro r₁ i r₂ h₁ _ hstep
    exact LedgerRun.conserves_step hsum h₁ hstep
  exact ⟨hinv.supply_eq, hinv.noWrap⟩

end

section Sample

attribute [local instance] Sample.primitives

/-- Two genesis accounts meet the hypotheses. -/
theorem supply_conserved_two_accounts :
    ∃ genesis,
      Ledger.createAccountsFromGenesis Store.empty [⟨"alice", 70⟩, ⟨"bob", 30⟩]
          = .ok genesis ∧
        ∀ r, Run LedgerRun.step Always ⟨genesis, TransactionTracker.new, []⟩ r →
          r.store.supply = 100 ∧ ∀ c ∈ r.calls, c.NoWrap :=
  supply_conserved Store.empty TransactionTracker.new [⟨"alice", 70⟩, ⟨"bob", 30⟩] rfl
    (by decide) (by decide)

end Sample

end Mmn
