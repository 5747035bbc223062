import Mmn.Pipeline
import Mmn.Sample

/-!
# Authorisation of debits

A transfer that takes money from an account should be one its owner agreed
to: `Transaction.verify` accepts it. Transactions reach `applyTx` only
through the store, so the property rests on an invariant of the store: every
transaction in it verifies. Live blocks and blocks of the sync have their
transactions checked, and the node's own blocks are made of checked ones
(`Pipeline`). Blocks of the empty-block topic are stored without a look at
their entries. They need not be empty, and a vote then applies what they
carry (`unverified_debit_of_emptyBlocks`).

Where every block on that topic whose slot is free carries only transactions
that verify, every debit of every run is authorised (`debits_verified`).
-/

namespace Mmn

/-- The calls made for a list of transactions are for transactions of the
list. -/
theorem tx_mem_of_mem_applyCallsFrom {txs : List Transaction} {state : LedgerState}
    {call : ApplyCall} (h : call ∈ applyCallsFrom state txs) : call.tx ∈ txs := by
  induction txs generalizing state with
  | nil => cases h
  | cons tx txs ih =>
    unfold applyCallsFrom at h
    split at h
    · exact List.mem_cons_of_mem tx (ih h)
    · obtain rfl | h := List.mem_cons.mp h
      · exact List.mem_cons_self
      · exact List.mem_cons_of_mem tx (ih h)

theorem amount_ne_none_of_debits {call : ApplyCall} (h : call.Debits) :
    call.tx.amount ≠ none := by
  intro hnone
  obtain ⟨addr, hlt⟩ := h
  have hafter : call.after = call.state := by
    unfold ApplyCall.after applyTx
    rw [hnone]
  rw [hafter] at hlt
  exact BitVec.lt_irrefl _ hlt

section

variable [Primitives]

/-! ## The store -/

/-- **Every transaction in the store verifies.** -/
def Store.Verifies (s : Store) : Prop :=
  ∀ h tx, s.txs.lookup h = some (some tx) → tx.verify = true

theorem Store.Verifies.addBlock {s : Store} (hs : s.Verifies) {b : BroadcastedBlock}
    (hb : ∀ tx, some tx ∈ b.blockTxs → tx.verify = true) :
    (s.addBlock b).Verifies := by
  intro h tx hlook
  obtain ⟨tx', hmem, -, hnew⟩ | ⟨-, hold⟩ := s.lookup_txs_addBlock b h
  · rw [hnew] at hlook
    cases hlook
    exact hb tx hmem
  · exact hs h tx (hold ▸ hlook)

/-- **Debits of a block applied to a store that verifies are authorised.** A
stored null reads as a transaction without an amount, which debits nothing. -/
theorem Store.Verifies.applyCalls {s : Store} (hs : s.Verifies) {b : Block}
    {call : ApplyCall} (hcall : call ∈ s.applyCalls b) (hdebits : call.Debits) :
    call.tx.verify = true := by
  unfold Store.applyCalls at hcall
  split at hcall
  · cases hcall
  · have hmem := tx_mem_of_mem_applyCallsFrom hcall
    obtain ⟨h, -, hget⟩ := List.mem_filterMap.mp hmem
    obtain ⟨tx, hlook, htx⟩ := Option.map_eq_some_iff.mp hget
    cases tx with
    | some tx =>
      rw [← htx]
      exact hs h tx hlook
    | none =>
      refine absurd ?_ (amount_ne_none_of_debits hdebits)
      rw [← htx]
      rfl

/-! ## Runs -/

/-- The calls that debit an account are for transactions that verify. -/
def DebitsVerified (history : List Event) : Prop :=
  ∀ e ∈ history, ∀ call ∈ e.applyCalls, call.Debits → call.tx.verify = true

/-- The invariant of the core. -/
structure Authorised (c : Core) : Prop where
  store : c.store.Verifies
  debits : DebitsVerified c.history

/-- A history stays authorised when the new event is. -/
theorem DebitsVerified.append {history : List Event} (h : DebitsVerified history)
    {e : Event} (he : ∀ call ∈ e.applyCalls, call.Debits → call.tx.verify = true) :
    DebitsVerified (history ++ [e]) := by
  intro e' he'
  obtain he' | he' := List.mem_append.mp he'
  · exact h e' he'
  · obtain rfl := List.mem_singleton.mp he'
    exact he

/-- **The blocks on the empty-block topic carry only transactions that
verify**, as far as their slots are free. -/
def EmptyBlocksVerified (n : Node) (i : Input) : Prop :=
  ∀ blk ∈ i.emptyTopic, blk.slot ∉ n.store.blocks →
    ∀ tx ∈ blk.blockTxs.reduceOption, tx.verify = true

instance (n : Node) (i : Input) : Decidable (EmptyBlocksVerified n i) :=
  inferInstanceAs (Decidable (∀ _ ∈ _, _))

omit [Primitives] in
/-- The transactions a block stores are among those it carries. -/
theorem BroadcastedBlock.mem_allTxs {b : BroadcastedBlock} {tx : Option Transaction}
    (h : tx ∈ b.blockTxs) : tx ∈ b.allTxs := by
  obtain ⟨e, he, htx⟩ := List.mem_flatMap.mp h
  exact List.mem_flatMap.mpr ⟨e, List.mem_of_mem_filter he, htx⟩

/-- **Where a block comes from decides that its transactions verify.** -/
theorem Admits.verify {cfg : Config} {n : Node} {i : Input} {c : Core}
    {b : BroadcastedBlock} (h : Admits cfg n i c b) (hpipeline : Pipeline cfg n)
    (hempty : EmptyBlocksVerified n i) {tx : Transaction}
    (htx : some tx ∈ b.blockTxs) :
    tx.verify = true := by
  cases h with
  | live _ _ htxs =>
    rw [BroadcastedBlock.blockTxs_markPoH] at htx
    exact verify_of_verifyTxs htxs (BroadcastedBlock.mem_allTxs htx)
  | empty hmem hfree =>
    exact hempty b (List.reduceOption_mem_iff.mpr hmem) hfree tx
      (List.reduceOption_mem_iff.mpr htx)
  | synced _ _ htxs =>
    rw [BroadcastedBlock.blockTxs_markPoH] at htx
    exact verify_of_verifyTxs htxs (BroadcastedBlock.mem_allTxs htx)
  | own hmem =>
    obtain ⟨e, he, htx⟩ := List.mem_flatMap.mp (BroadcastedBlock.mem_allTxs htx)
    exact (hpipeline.outbox b (List.mem_of_getElem? hmem)).verified e he tx htx

theorem Authorised.move {cfg : Config} {A : Core → BroadcastedBlock → Prop}
    {V : Core → Vote → Prop} {c c' : Core} (h : Authorised c)
    (hA : ∀ b, A c b → ∀ tx, some tx ∈ b.blockTxs → tx.verify = true)
    (hmove : Core.Move cfg A V c c') : Authorised c' := by
  cases hmove with
  | addBlock horigin =>
    exact ⟨h.store.addBlock (hA _ horigin), h.debits.append fun _ hcall => by
      cases hcall⟩
  | sync horigin =>
    have hstore := h.store.addBlock (hA _ horigin)
    refine ⟨hstore, DebitsVerified.append ?_ fun _ hcall => hstore.applyCalls hcall⟩
    exact h.debits.append fun _ hcall => by cases hcall
  | cast => exact ⟨h.store, h.debits.append fun _ hcall => by cases hcall⟩
  | count => exact ⟨h.store, h.debits⟩
  | commit => exact ⟨h.store, h.debits.append fun _ hcall => h.store.applyCalls hcall⟩
  | cleanup => exact ⟨h.store, h.debits⟩

/-- **Authorisation of debits.** In every run in which the blocks of the
empty-block topic carry only transactions that verify, every call of
`applyTx` that decreases a balance is for a transaction that verifies. -/
theorem debits_verified (cfg : Config) (n : Node)
    (hrun : NodeRun cfg EmptyBlocksVerified n) : DebitsVerified n.history := by
  have hinv := hrun.invariant (J := Pipeline cfg) (I := Authorised)
    (Pipeline.new cfg) (fun n i n' hn _ hstep => hn.step hstep) ?_ ?_
  · exact hinv.2.debits
  · intro alloc now s hinit
    refine ⟨fun h tx hlook => ?_, fun e he => by cases he⟩
    have htxs := (isGenesis_of_initializeBlockchain hinit).txs
    rw [show (Node.new cfg s.reopen).store.txs = ∅ from htxs] at hlook
    cases hlook
  · intro n i c c' hpipeline hempty hc hmove
    exact hc.move (fun b hb tx htx => hb.verify hpipeline hempty htx) hmove

end

section Sample

attribute [local instance] Sample.primitives

/-- Does a call in the history take coins from the second account? -/
def Sample.debitsSecond (p : Transaction → Bool) (n : Node) : Bool :=
  n.history.any fun e => e.applyCalls.any fun call =>
    decide (call.after.balance (Sample.keyID 2) < call.state.balance (Sample.keyID 2))
      && p call.tx

/-- A block of the empty-block topic with a transfer its sender signed. -/
def Sample.giftBlock : BroadcastedBlock :=
  Sample.blockWith 1 1 0 [Sample.transfer 2 1 50 1 0]

/-- A run with a debit: the block comes on the empty-block topic, but its
transfer is signed. -/
theorem debits_verified_signed_transfer :
    ∃ n, NodeRun Sample.alone EmptyBlocksVerified n ∧
      Sample.debitsSecond (fun _ => true) n = true ∧ DebitsVerified n.history := by
  obtain ⟨n, hrun, htest⟩ := exists_nodeRun Sample.alone EmptyBlocksVerified
    (Sample.debitsSecond fun _ => true) [⟨Sample.keyID 2, 100⟩] 0
    [.emptyBlocks [some Sample.giftBlock],
      .vote (Sample.voteOf 1 1 Sample.giftBlock.hash)]
    (by decide +kernel)
  exact ⟨n, hrun, htest, debits_verified Sample.alone n hrun⟩

/-- Fifty coins of the second account, taken by the first without a
signature. -/
def Sample.theft : Transaction := { Sample.transfer 2 1 50 1 0 with signature := "" }

/-- The "empty" block it comes in. -/
def Sample.theftBlock : BroadcastedBlock := Sample.blockWith 1 1 0 [Sample.theft]

/-- **An unauthorised debit.** The forged transfer arrives in a block on the
empty-block topic, and the vote for that block has it applied. -/
theorem unverified_debit_of_emptyBlocks :
    ∃ n, NodeRun Sample.alone Machine.Always n ∧ ¬ DebitsVerified n.history := by
  obtain ⟨n, hrun, htest⟩ := exists_nodeRun Sample.alone Machine.Always
    (Sample.debitsSecond fun tx => !tx.verify) [⟨Sample.keyID 2, 100⟩] 0
    [.emptyBlocks [some Sample.theftBlock],
      .vote (Sample.voteOf 1 1 Sample.theftBlock.hash)]
    (by decide +kernel)
  refine ⟨n, hrun, fun hverified => ?_⟩
  simp only [Sample.debitsSecond, List.any_eq_true, Bool.and_eq_true,
    decide_eq_true_eq] at htest
  obtain ⟨e, he, call, hcall, hdebit, hforged⟩ := htest
  have hverify := hverified e he call hcall ⟨_, hdebit⟩
  rw [hverify] at hforged
  cases hforged

end Sample

end Mmn
