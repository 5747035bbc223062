import Mmn.Pool

/-!
# The pending totals

For each sender the mempool keeps the total amount of the transfers that
wait, and admission takes it off the sender's balance. The total is meant to
be the sum over the transfers in the pool. Putting a transaction adds its
amount unless it is user content; taking one out subtracts its amount
*whatever it is*, as soon as its sender has a total. So a piece of content
with an amount takes that amount off the total of its sender's transfers,
and one without an amount stops the process (`pending_too_small`). The
addition can wrap as well: a transfer to oneself is admitted with any
amount.

Where neither happens the totals are exact, no addition or subtraction wraps
and no missing amount is read (`pending_exact`). Admission against an exact
total is still not safe. The total is subtracted from the balance in machine
words, and a balance that has fallen below the total since the transfers
were admitted wraps to a large number. What admission then guarantees is
`admitted_pays_iff`: the sum stays within the balance exactly if what waited
was within it, or the amount is too large even for the wrapped number.
-/

namespace Mmn

section

variable [Primitives]

/-! ## Sums and totals -/

/-- What a transaction adds to the transfers of a sender: user content adds
nothing. -/
def Transaction.pendingFor (sender : String) (tx : Transaction) : ℕ :=
  if tx.type = txTypeUserContent ∨ tx.sender ≠ sender then 0
    else (tx.amount.getD 0).toNat

namespace Mempool

/-- **The transfers of a sender that wait**, added up as natural numbers. -/
def pendingAmount (mp : Mempool) (sender : String) : ℕ :=
  mp.txs.total (fun _ tx => tx.pendingFor sender)

/-- The total the mempool keeps for a sender, zero when there is none. -/
def totalAmount (mp : Mempool) (sender : String) : ℕ :=
  ((mp.senderTotalAmount.lookup sender).getD 0).toNat

/-- **The totals are exact**, and the transfers that wait have amounts. -/
structure Accounted (mp : Mempool) : Prop extends Guarded mp where
  /-- The total of a sender is the sum of its transfers. -/
  exact : ∀ sender, mp.totalAmount sender = mp.pendingAmount sender
  positive : ∀ sender total, mp.senderTotalAmount.lookup sender = some total →
    total ≠ 0
  priced : ∀ h tx, mp.txs.lookup h = some tx → tx.type ≠ txTypeUserContent →
    ∃ amount, tx.amount = some amount ∧ amount ≠ 0

/-! ## The arithmetic of the loop -/

/-- **Taking a transaction out subtracts without fault**: there is an amount
where there is a total, and it is not larger. -/
def subtractsSafely (mp : Mempool) (tx : Transaction) : Bool :=
  match mp.senderTotalAmount.lookup tx.sender, tx.amount with
  | none, _ => true
  | some _, none => false
  | some total, some amount => decide (amount ≤ total)

/-- Every round of the loop subtracts without fault. -/
def dropsSafely : Mempool → List String → Bool
  | _, [] => true
  | mp, h :: hs =>
    match mp.txs.lookup h with
    | none => mp.dropsSafely hs
    | some tx =>
      mp.subtractsSafely tx &&
        match mp.drop h tx with
        | none => false
        | some mp => mp.dropsSafely hs

/-- **The content among some hashes is harmless**: it moves nothing, or its
sender has no transfers waiting. -/
def HarmlessContent (mp : Mempool) (hs : List String) : Prop :=
  ∀ h ∈ hs, ∀ tx ∈ mp.txs.lookup h, tx.type = txTypeUserContent →
    tx.amount = some 0 ∨ mp.pendingAmount tx.sender = 0

instance (mp : Mempool) (hs : List String) : Decidable (mp.HarmlessContent hs) :=
  inferInstanceAs (Decidable (∀ _ ∈ _, ∀ _ ∈ _, _))

omit [Primitives] in
/-- A transaction that waits is part of the sum of its sender. -/
theorem pendingFor_le {mp : Mempool} {h : String} {tx : Transaction}
    (hlook : mp.txs.lookup h = some tx) (sender : String) :
    tx.pendingFor sender ≤ mp.pendingAmount sender := by
  have hle := mp.txs.weight_le_total (w := fun _ tx => tx.pendingFor sender) h
  unfold AList.weight at hle
  rwa [hlook] at hle

/-- The sums once a transaction is taken out. -/
theorem pendingAmount_without {mp : Mempool} {h : String} {tx : Transaction}
    (hlook : mp.txs.lookup h = some tx)
    (totals : AList (fun _ : String => BitVec 256)) (sender : String) :
    (mp.without h tx totals).pendingAmount sender + tx.pendingFor sender
      = mp.pendingAmount sender := by
  have herase := mp.txs.total_erase (w := fun _ tx => tx.pendingFor sender) h
  unfold AList.weight at herase
  rwa [hlook] at herase

/-- The sums once a transaction is put under a new hash. -/
theorem pendingAmount_put {mp : Mempool} {tx : Transaction}
    (hnew : Transaction.hash (some tx) ∉ mp.txs) (sender : String) :
    (mp.put tx).pendingAmount sender = mp.pendingAmount sender + tx.pendingFor
      sender := by
  have hinsert := mp.txs.total_insert (w := fun _ tx => tx.pendingFor sender)
    (Transaction.hash (some tx)) tx
  rw [AList.weight_eq_zero hnew, Nat.add_zero] at hinsert
  unfold pendingAmount
  rw [txs_put, hinsert]

/-- The totals once a transaction is put: its amount is added, if it is a
transfer. -/
theorem lookup_total_put (mp : Mempool) (tx : Transaction) (sender : String) :
    (mp.put tx).senderTotalAmount.lookup sender
      = if tx.type = txTypeUserContent ∨ tx.sender ≠ sender then
          mp.senderTotalAmount.lookup sender
        else some ((mp.senderTotalAmount.lookup sender).getD 0
          + tx.amount.getD 0) := by
  unfold put
  dsimp only
  split
  · next htype => rw [if_pos (Or.inl htype)]
  · next htype =>
    by_cases hsender : tx.sender = sender
    · subst hsender
      rw [if_neg (by simp [htype])]
      exact AList.lookup_insert _
    · rw [if_pos (Or.inr hsender)]
      exact AList.lookup_insert_ne (Ne.symm hsender)

/-- The addition does not wrap if the sum fits. -/
theorem totalAmount_put {mp : Mempool} {tx : Transaction}
    (hfits : tx.type = txTypeUserContent ∨
      mp.totalAmount tx.sender + (tx.amount.getD 0).toNat < 2 ^ 256)
    (sender : String) :
    (mp.put tx).totalAmount sender = mp.totalAmount sender + tx.pendingFor
      sender := by
  unfold totalAmount Transaction.pendingFor
  rw [lookup_total_put]
  split
  · rfl
  · next htransfer =>
    rw [not_or, not_not] at htransfer
    obtain ⟨htype, rfl⟩ := htransfer
    have hlt := hfits.resolve_left htype
    unfold totalAmount at hlt
    rw [Option.getD_some, BitVec.toNat_add, Nat.mod_eq_of_lt hlt]

/-! ## The invariant -/

namespace Accounted

variable {mp : Mempool} {tx : Transaction}

theorem new (maxSize : ℕ) : Accounted (Mempool.new maxSize) where
  toGuarded := .new maxSize
  exact _ := rfl
  positive _ _ hlook := by cases hlook
  priced _ _ hlook := by cases hlook

/-- A sender has a total exactly if it has transfers. -/
theorem lookup_eq_none (h : Accounted mp) {sender : String}
    (hzero : mp.pendingAmount sender = 0) :
    mp.senderTotalAmount.lookup sender = none := by
  cases hlook : mp.senderTotalAmount.lookup sender with
  | none => rfl
  | some total =>
    refine absurd ?_ (h.positive sender total hlook)
    have htotal := h.exact sender
    unfold totalAmount at htotal
    rw [hlook, hzero] at htotal
    exact BitVec.eq_of_toNat_eq htotal

theorem put (h : Accounted mp) (hfresh : tx.dedupHash ∉ mp.dedupTxHashSet)
    (hnew : Transaction.hash (some tx) ∉ mp.txs)
    (hpriced : tx.type ≠ txTypeUserContent → ∃ amount, tx.amount = some amount ∧
      amount ≠ 0)
    (hfits : tx.type = txTypeUserContent ∨
      mp.totalAmount tx.sender + (tx.amount.getD 0).toNat < 2 ^ 256) :
    Accounted (mp.put tx) where
  toGuarded := h.toGuarded.put hfresh
  exact sender := by
    rw [totalAmount_put hfits, pendingAmount_put hnew, h.exact]
  positive sender total hlook := by
    rw [lookup_total_put] at hlook
    split at hlook
    · exact h.positive sender total hlook
    · next htransfer =>
      rw [not_or, not_not] at htransfer
      obtain ⟨htype, rfl⟩ := htransfer
      obtain ⟨amount, hamount, hpos⟩ := hpriced htype
      obtain rfl := Option.some.inj hlook
      have hlt := hfits.resolve_left htype
      unfold totalAmount at hlt
      -- the sum does not wrap and has a positive part
      intro hzero
      have hsum := congrArg BitVec.toNat hzero
      rw [BitVec.toNat_add, Nat.mod_eq_of_lt hlt, hamount] at hsum
      exact hpos (BitVec.eq_of_toNat_eq (Nat.eq_zero_of_add_eq_zero_left hsum))
  priced k tx' hlook := by
    obtain ⟨-, rfl⟩ | ⟨-, hold⟩ := lookup_put hlook
    · exact hpriced
    · exact h.priced k tx' hold

/-- **What is taken out is worth what is subtracted**, where there is a
total. -/
theorem amount_of_total (h : Accounted mp) {k : String}
    (hlook : mp.txs.lookup k = some tx) (hcontent : tx.type = txTypeUserContent →
      tx.amount = some 0 ∨ mp.pendingAmount tx.sender = 0)
    {total : BitVec 256}
    (htotal : mp.senderTotalAmount.lookup tx.sender = some total) :
    ∃ amount, tx.amount = some amount ∧ amount.toNat = tx.pendingFor tx.sender := by
  by_cases htype : tx.type = txTypeUserContent
  · refine ⟨0, (hcontent htype).resolve_right fun hzero => ?_, ?_⟩
    · rw [h.lookup_eq_none hzero] at htotal
      cases htotal
    · rw [Transaction.pendingFor, if_pos (Or.inl htype)]
      rfl
  · obtain ⟨amount, hamount, -⟩ := h.priced k tx hlook htype
    refine ⟨amount, hamount, ?_⟩
    rw [Transaction.pendingFor, if_neg (by simp [htype]), hamount]
    rfl

/-- Taking out a transaction whose sender has no total changes no sum. -/
theorem without_of_none (h : Accounted mp) {k : String}
    (hlook : mp.txs.lookup k = some tx)
    (hnone : mp.senderTotalAmount.lookup tx.sender = none) :
    Accounted (mp.without k tx mp.senderTotalAmount) where
  toGuarded := h.toGuarded.without hlook _
  exact sender := by
    have hworth : tx.pendingFor sender = 0 := by
      by_cases hsender : tx.sender = sender
      · subst hsender
        have htotal : 0 = mp.pendingAmount tx.sender := by
          rw [← h.exact tx.sender, totalAmount, hnone]
          rfl
        exact Nat.le_zero.mp (htotal ▸ pendingFor_le hlook tx.sender)
      · rw [Transaction.pendingFor, if_pos (Or.inr hsender)]
    have hsum := pendingAmount_without hlook mp.senderTotalAmount sender
    rw [hworth, Nat.add_zero] at hsum
    rw [hsum]
    exact h.exact sender
  positive := h.positive
  priced k' tx' hlook' := h.priced k' tx' (lookup_without hlook').2

omit [Primitives] in
/-- The totals after one is replaced, or deleted when it is zero. -/
theorem lookup_replaced {m totals : AList (fun _ : String => BitVec 256)}
    {key : String} {v : BitVec 256}
    (h : totals = if v = 0 then m.erase key else m.insert key v) (sender : String) :
    totals.lookup sender
      = if key = sender then (if v = 0 then none else some v)
        else m.lookup sender := by
  rw [h]
  by_cases hkey : key = sender
  · subst hkey
    rw [if_pos rfl]
    split
    · exact AList.lookup_erase key m
    · exact AList.lookup_insert m
  · rw [if_neg hkey]
    split
    · exact AList.lookup_erase_ne (Ne.symm hkey)
    · exact AList.lookup_insert_ne (Ne.symm hkey)

/-- Taking out a transaction that is worth its amount. -/
theorem without_of_some (h : Accounted mp) {k : String}
    (hlook : mp.txs.lookup k = some tx) {total amount : BitVec 256}
    (htotal : mp.senderTotalAmount.lookup tx.sender = some total)
    (hworth : amount.toNat = tx.pendingFor tx.sender) (hle : amount ≤ total)
    {totals : AList (fun _ : String => BitVec 256)}
    (htotals : totals = if total - amount
      = 0 then mp.senderTotalAmount.erase tx.sender
      else mp.senderTotalAmount.insert tx.sender (total - amount)) :
    Accounted (mp.without k tx totals) := by
  have hnew := lookup_replaced htotals
  refine ⟨h.toGuarded.without hlook _, fun sender => ?_, fun sender total' hlook' =>
    ?_, fun k' tx' hlook' => h.priced k' tx' (lookup_without hlook').2⟩
  · have hsum := pendingAmount_without hlook totals sender
    have hbefore := h.exact sender
    show ((totals.lookup sender).getD 0).toNat = _
    rw [hnew]
    split
    · next hsender =>
      subst hsender
      have hafter :
        ((if total - amount = 0 then none else some (total - amount)).getD 0).toNat
          = total.toNat - amount.toNat := by
        rw [← BitVec.toNat_sub_of_le hle]
        split
        · next hzero => rw [hzero]; rfl
        · rfl
      unfold totalAmount at hbefore
      rw [htotal, Option.getD_some] at hbefore
      rw [hafter, hbefore, hworth]
      omega
    · next hsender =>
      rw [Transaction.pendingFor, if_pos (Or.inr hsender), Nat.add_zero] at hsum
      rw [hsum]
      exact hbefore
  · have hlook' : totals.lookup sender = some total' := hlook'
    rw [hnew] at hlook'
    split at hlook'
    · split at hlook'
      · cases hlook'
      · next hne =>
        obtain rfl := Option.some.inj hlook'
        exact hne
    · exact h.positive sender total' hlook'

/-- **Taking out a transaction that is harmless** subtracts without fault
and keeps the totals exact. -/
theorem without (h : Accounted mp) {k : String} (hlook : mp.txs.lookup k = some tx)
    (hcontent : tx.type = txTypeUserContent →
      tx.amount = some 0 ∨ mp.pendingAmount tx.sender = 0) :
    mp.subtractsSafely tx = true ∧
      ∃ totals, mp.totalsWithout tx = some totals ∧
      Accounted (mp.without k tx totals) := by
  unfold subtractsSafely totalsWithout
  cases htotal : mp.senderTotalAmount.lookup tx.sender with
  | none => exact ⟨rfl, _, rfl, h.without_of_none hlook htotal⟩
  | some total =>
    obtain ⟨amount, hamount, hworth⟩ := h.amount_of_total hlook hcontent htotal
    have hle : amount ≤ total := by
      have hsum := pendingFor_le hlook tx.sender
      have hexact := h.exact tx.sender
      unfold totalAmount at hexact
      rw [htotal, Option.getD_some] at hexact
      rw [← hworth, ← hexact] at hsum
      exact BitVec.le_def.mpr hsum
    rw [hamount]
    refine ⟨decide_eq_true hle, _, ?_, h.without_of_some hlook htotal hworth hle rfl⟩
    dsimp only
    split <;> rfl

theorem of_order (h : mp.Accounted) (order : List String) :
    Accounted { mp with txOrder := order } :=
  ⟨⟨h.mem, h.distinct⟩, h.exact, h.positive, h.priced⟩

end Accounted

/-- What is left after one round is harmless still. -/
theorem HarmlessContent.without {mp : Mempool} {k : String} {hs : List String}
    {tx : Transaction} {totals : AList (fun _ : String => BitVec 256)}
    (h : mp.HarmlessContent (k :: hs)) (hlook : mp.txs.lookup k = some tx) :
    (mp.without k tx totals).HarmlessContent hs := by
  intro k' hk' tx' hlook' htype
  refine (h k' (List.mem_cons_of_mem k hk') tx' (lookup_without hlook').2
    htype).imp_right ?_
  intro hzero
  have hsum := pendingAmount_without hlook totals tx'.sender
  rw [hzero] at hsum
  exact Nat.eq_zero_of_add_eq_zero_right hsum

/-- **The loop over harmless hashes** ends, subtracts without fault in every
round, and leaves exact totals. -/
theorem Accounted.dropAll {hs : List String} {mp : Mempool} (h : Accounted mp)
    (hcontent : mp.HarmlessContent hs) :
    mp.dropsSafely hs = true ∧
      ∃ mp' txs, mp.dropAll hs = some (mp', txs) ∧ Accounted mp' := by
  induction hs generalizing mp with
  | nil => exact ⟨rfl, mp, [], rfl, h⟩
  | cons k hs ih =>
    unfold dropsSafely Mempool.dropAll
    cases hlook : mp.txs.lookup k with
    | none => exact ih h fun k' hk' => hcontent k' (List.mem_cons_of_mem k hk')
    | some tx =>
      obtain ⟨hsafe, totals, htotals, hnext⟩ :=
        h.without hlook (hcontent k List.mem_cons_self tx hlook)
      obtain ⟨hrest, mp', txs, hdrop, hlast⟩ := ih hnext (hcontent.without hlook)
      have hone : mp.drop k tx = some (mp.without k tx totals) := by
        rw [drop_eq, htotals]
        rfl
      dsimp only
      rw [hsafe, hone]
      refine ⟨hrest, mp', tx :: txs, ?_, hlast⟩
      dsimp only
      rw [hdrop]
      rfl

/-! ## The check of the balance -/

omit [Primitives] in
/-- **What the wrapped subtraction leaves**: the amount is within it exactly
if the sum is within the balance, or the balance is below what waits and the
sum is within the balance and one turn of the word. -/
theorem le_sub_iff (amount balance total : BitVec 256) :
    amount ≤ balance - total ↔
      (total.toNat + amount.toNat ≤ balance.toNat) ∨
        (balance.toNat < total.toNat ∧
          total.toNat + amount.toNat ≤ 2 ^ 256 + balance.toNat) := by
  rw [BitVec.le_def]
  by_cases hle : total ≤ balance
  · rw [BitVec.toNat_sub_of_le hle]
    have hle := BitVec.le_def.mp hle
    omega
  · have hlt := BitVec.lt_def.mp (BitVec.not_le.mp hle)
    have htotal := total.isLt
    rw [BitVec.toNat_sub, Nat.mod_eq_of_lt (by omega)]
    omega

omit [Primitives] in
/-- The check of the balance, as an inequality of machine words. -/
theorem validateBalance_eq_ok {mp : Mempool} {s : Store} {tx : Transaction}
    (hself : tx.sender ≠ tx.recipient) :
    mp.validateBalance s tx = .ok () ↔ ∃ acc, s.accounts.lookup tx.sender = some acc ∧
      tx.amount.getD 0 ≤ acc.balance - (mp.senderTotalAmount.lookup tx.sender).getD
        0 := by
  unfold validateBalance
  rw [if_neg hself]
  cases s.accounts.lookup tx.sender with
  | none => simp
  | some acc =>
    cases mp.senderTotalAmount.lookup tx.sender with
    | none => simp
    | some total => simp

end Mempool

/-! ## Runs -/

namespace Pool

/-- An admission adds without fault: a transfer that is admitted has an
amount, and the sum does not wrap. -/
def addsSafely (p : Pool) (s : Store) (tx : Transaction) : Bool :=
  match (p.mempool.addTx p.dedup s tx).2 with
  | .error _ => true
  | .ok _ => decide (tx.type = txTypeUserContent) ||
      tx.amount.any (fun amount =>
        decide (p.mempool.totalAmount tx.sender + amount.toNat < 2 ^ 256))

/-- **The arithmetic of a call is without fault**: no addition or
subtraction of it wraps, and no missing amount is read. -/
def safely (p : Pool) : PoolCall → Bool
  | .addTx s tx => p.addsSafely s tx
  | .pullBatch _ batchSize => p.mempool.dropsSafely (p.mempool.txOrder.take batchSize)
  | .blockCleanup txHashSet => p.mempool.dropsSafely txHashSet
  | .receiveBlock txs =>
    p.mempool.dropsSafely (txs.map (fun tx => Transaction.hash (some tx)))
  | .setCurrentSlot _ => true
  | .expireDedup _ => true

/-- **The calls that the totals follow.** A transaction that is submitted
does not collide with one that waits, and as a transfer leaves the sum of
its sender's transfers below `2 ^ 256`; the content that is taken out is
harmless. -/
def Accountable (p : Pool) : PoolCall → Prop
  | .addTx _ tx =>
    (∀ tx' ∈ p.mempool.txs.lookup (Transaction.hash (some tx)),
      tx'.dedupHash = tx.dedupHash) ∧
    (tx.type = txTypeUserContent ∨
      p.mempool.pendingAmount tx.sender + (tx.amount.getD 0).toNat < 2 ^ 256)
  | .pullBatch _ batchSize =>
    p.mempool.HarmlessContent (p.mempool.txOrder.take batchSize)
  | .blockCleanup txHashSet => p.mempool.HarmlessContent txHashSet
  | .receiveBlock txs =>
    p.mempool.HarmlessContent (txs.map (fun tx => Transaction.hash (some tx)))
  | .setCurrentSlot _ => True
  | .expireDedup _ => True

instance (p : Pool) : (c : PoolCall) → Decidable (p.Accountable c)
  | .addTx _ _ => inferInstanceAs (Decidable (_ ∧ _))
  | .pullBatch _ _ => inferInstanceAs (Decidable (Mempool.HarmlessContent _ _))
  | .blockCleanup _ => inferInstanceAs (Decidable (Mempool.HarmlessContent _ _))
  | .receiveBlock _ => inferInstanceAs (Decidable (Mempool.HarmlessContent _ _))
  | .setCurrentSlot _ => isTrue trivial
  | .expireDedup _ => isTrue trivial

variable {p : Pool}

/-- **An accountable admission** adds without fault and keeps the totals
exact. -/
theorem accounted_addTx (h : p.mempool.Accounted) {s : Store} {tx : Transaction}
    (hc : p.Accountable (.addTx s tx)) :
    p.addsSafely s tx = true ∧ (p.mempool.addTx p.dedup s tx).1.Accounted := by
  obtain ⟨hhash, hfits⟩ := hc
  rw [← h.exact] at hfits
  unfold addsSafely
  by_cases hadm : p.mempool.Admissible p.dedup s tx
  · rw [Mempool.addTx_of_admissible hadm]
    have hpriced := (Mempool.amount_of_cheapValidateTransaction hadm.1).1
    have hfresh := (Mempool.validateTransaction_eq_ok.mp hadm.2).1
    have hnew : Transaction.hash (some tx) ∉ p.mempool.txs := by
      intro hmem
      obtain ⟨tx', hlook⟩ :=
        Option.isSome_iff_exists.mp (AList.lookup_isSome.mpr hmem)
      exact hfresh (hhash tx' hlook ▸ h.mem _ tx' hlook)
    refine ⟨?_, h.put hfresh hnew hpriced hfits⟩
    by_cases htype : tx.type = txTypeUserContent
    · simp [htype]
    · obtain ⟨amount, hamount, -⟩ := hpriced htype
      rw [hamount] at hfits ⊢
      simpa [htype] using hfits
  · obtain ⟨err, herr⟩ := Mempool.addTx_of_not_admissible hadm
    rw [herr]
    exact ⟨rfl, h⟩

theorem accounted_blockCleanup (h : p.mempool.Accounted) {hs : List String}
    {mp : Mempool} (hc : p.mempool.HarmlessContent hs)
    (hclean : p.mempool.blockCleanup hs = some mp) :
    mp.Accounted := by
  obtain ⟨mp₁, txs, hdrop, rfl⟩ := Mempool.blockCleanup_cases hclean
  obtain ⟨-, mp₂, txs₂, hdrop₂, hlast⟩ := h.dropAll hc
  cases hdrop.symm.trans hdrop₂
  exact hlast.of_order _

/-- **An accountable call is without fault.** -/
theorem safely_of_accountable (h : p.mempool.Accounted) {c : PoolCall}
    (hc : p.Accountable c) : p.safely c = true := by
  cases c with
  | addTx s tx => exact (accounted_addTx h hc).1
  | pullBatch t size => exact (h.dropAll hc).1
  | blockCleanup hs => exact (h.dropAll hc).1
  | receiveBlock txs => exact (h.dropAll hc).1
  | setCurrentSlot slot => rfl
  | expireDedup hashes => rfl

/-- **An accountable call keeps the totals exact.** -/
theorem accounted_step (h : p.mempool.Accounted) {c : PoolCall} (hc : p.Accountable c)
    {p' : Pool} (hstep : p.step c = some p') : p'.mempool.Accounted := by
  cases c with
  | addTx s tx =>
    cases hstep
    exact (accounted_addTx h hc).2
  | pullBatch t size =>
    obtain ⟨⟨mp, ds, t', batch⟩, hpull, rfl⟩ := Option.map_eq_some_iff.mp hstep
    obtain ⟨mp₁, hdrop, rfl, -⟩ := Mempool.pullBatch_cases hpull
    obtain ⟨-, mp₂, txs₂, hdrop₂, hlast⟩ := h.dropAll hc
    cases hdrop.symm.trans hdrop₂
    exact hlast.of_order _
  | blockCleanup hs =>
    obtain ⟨mp, hclean, rfl⟩ := Option.map_eq_some_iff.mp hstep
    exact accounted_blockCleanup h hc hclean
  | receiveBlock txs =>
    obtain ⟨mp, hclean, rfl⟩ := Option.map_eq_some_iff.mp hstep
    exact accounted_blockCleanup h hc hclean
  | setCurrentSlot slot =>
    cases hstep
    dsimp only [Mempool.setCurrentSlot]
    split
    · exact h
    · exact ⟨⟨h.mem, h.distinct⟩, h.exact, h.positive, h.priced⟩
  | expireDedup hashes =>
    cases hstep
    exact h

theorem accounted_of_run {maxSize : ℕ} {ds : DedupService}
    (hrun : Machine.Run Pool.step Accountable (Pool.new maxSize ds) p) :
    p.mempool.Accounted :=
  hrun.invariant (I := fun p => p.mempool.Accounted) (.new maxSize)
    (fun _ _ _ h hc hstep => accounted_step h hc hstep)

/-- **The pending totals.** After accountable calls the total of every
sender is the sum of its transfers that wait, and the next accountable call
is without fault. -/
theorem pending_exact {maxSize : ℕ} {ds : DedupService}
    (hrun : Machine.Run Pool.step Accountable (Pool.new maxSize ds) p) :
    (∀ sender, p.mempool.totalAmount sender = p.mempool.pendingAmount sender) ∧
      ∀ c, p.Accountable c → p.safely c = true :=
  ⟨(accounted_of_run hrun).exact, fun _ hc =>
    safely_of_accountable (accounted_of_run hrun) hc⟩

/-! ## Admission against the balance -/

/-- A check other than that of the balance refuses the transfer. -/
def Refuses (p : Pool) (tx : Transaction) : Prop :=
  p.mempool.cheapValidateTransaction tx ≠ .ok () ∨
    tx.dedupHash ∈ p.mempool.dedupTxHashSet ∨ tx.dedupHash ∈ p.dedup.cache

/-- The transfer passes the other checks and the balance covers it, in
machine words. -/
theorem admissible_iff {s : Store} {tx : Transaction}
    (htype : tx.type ≠ txTypeUserContent) (hself : tx.sender ≠ tx.recipient) :
    p.mempool.Admissible p.dedup s tx ↔
      ¬ p.Refuses tx ∧ ∃ acc, s.accounts.lookup tx.sender = some acc ∧
        tx.amount.getD 0
          ≤ acc.balance - (p.mempool.senderTotalAmount.lookup tx.sender).getD 0 := by
  unfold Mempool.Admissible Refuses
  rw [Mempool.validateTransaction_eq_ok, if_neg htype,
    Mempool.validateBalance_eq_ok hself,
    not_or, not_or, not_not, and_assoc, and_assoc]

/-- **What admission guarantees.** After accountable calls, and whatever the
balance has become: a transfer to another account is admitted only within
the balance, counting what waits – exactly if another check refuses it, or
what waits is within the balance, or the amount is too large for the wrapped
difference. -/
theorem admitted_pays_iff {maxSize : ℕ} {ds : DedupService}
    (hrun : Machine.Run Pool.step Accountable (Pool.new maxSize ds) p) (s : Store)
    {tx : Transaction} (htype : tx.type ≠ txTypeUserContent)
    (hself : tx.sender ≠ tx.recipient) :
    (∀ hash, (p.mempool.addTx p.dedup s tx).2 = .ok hash →
      ∃ acc, s.accounts.lookup tx.sender = some acc ∧
        p.mempool.pendingAmount tx.sender + (tx.amount.getD 0).toNat
          ≤ acc.balance.toNat) ↔
    (p.Refuses tx ∨ ∀ acc, s.accounts.lookup tx.sender = some acc →
      p.mempool.pendingAmount tx.sender ≤ acc.balance.toNat ∨
        2 ^ 256 + acc.balance.toNat
          < p.mempool.pendingAmount tx.sender + (tx.amount.getD 0).toNat) := by
  have hexact := (accounted_of_run hrun).exact tx.sender
  unfold Mempool.totalAmount at hexact
  constructor
  · intro hpays
    refine or_iff_not_imp_left.mpr fun hpass acc hacc => ?_
    by_contra hnot
    rw [not_or, Nat.not_le, Nat.not_lt] at hnot
    -- what waits is beyond the balance, so the difference wraps and the
    -- transfer is admitted
    have hadm : p.mempool.Admissible p.dedup s tx := by
      refine (admissible_iff htype hself).mpr ⟨hpass, acc, hacc, ?_⟩
      rw [Mempool.le_sub_iff, hexact]
      exact Or.inr hnot
    obtain ⟨acc', hacc', hle⟩ :=
      hpays _ (congrArg Prod.snd (Mempool.addTx_of_admissible hadm))
    cases hacc.symm.trans hacc'
    omega
  · intro hcond hash hok
    have hadm : p.mempool.Admissible p.dedup s tx := by
      by_contra hnot
      obtain ⟨err, herr⟩ := Mempool.addTx_of_not_admissible hnot
      rw [herr] at hok
      cases hok
    obtain ⟨hpass, acc, hacc, hle⟩ := (admissible_iff htype hself).mp hadm
    rw [Mempool.le_sub_iff, hexact] at hle
    have hwithin := hcond.resolve_left hpass acc hacc
    exact ⟨acc, hacc, by omega⟩

end Pool

end

/-! ## Examples -/

section Sample

attribute [local instance] Sample.primitives

open Sample

/-- A transfer waits and another is admitted, pulled and gone: the total is
what is left. -/
theorem pending_exact_transfers :
    ∃ p, Machine.Run Pool.step Pool.Accountable (Pool.new 10 DedupService.new) p ∧
      p.mempool.pendingAmount (keyID 2) = 40 ∧
      (∀ sender, p.mempool.totalAmount sender = p.mempool.pendingAmount sender) ∧
      ∀ c, p.Accountable c → p.safely c = true := by
  obtain ⟨p, hrun, htest⟩ := Pool.exists_run Pool.Accountable
    (fun p => decide (p.mempool.pendingAmount (keyID 2) = 40))
    (Pool.new 10 DedupService.new)
    [.setCurrentSlot 2, .addTx (ledger 100) (transfer 2 1 30 1 0),
      .addTx (ledger 100) (transfer 2 1 40 2 0), .pullBatch TransactionTracker.new 1]
    (by decide +kernel)
  exact ⟨p, hrun, of_decide_eq_true htest, Pool.pending_exact hrun⟩

/-- **The balance falls and the next transfer passes.** With a balance of
100 a transfer of 80 is admitted; with a balance of 50 a transfer of 90 is
admitted on top. -/
theorem admitted_beyond_balance :
    ∃ p, Machine.Run Pool.step Machine.Always (Pool.new 10 DedupService.new) p ∧
      p.mempool.pendingAmount (keyID 2) = 80 ∧
      ((ledger 50).accounts.lookup (keyID 2)).map Account.balance = some 50 ∧
      (p.mempool.addTx p.dedup (ledger 50) (transfer 2 1 90 1 0)).2.isOk = true := by
  obtain ⟨p, hrun, htest⟩ := Pool.exists_run Machine.Always
    (fun p => decide (p.mempool.pendingAmount (keyID 2) = 80) &&
      (p.mempool.addTx p.dedup (ledger 50) (transfer 2 1 90 1 0)).2.isOk)
    (Pool.new 10 DedupService.new)
    [.setCurrentSlot 1, .addTx (ledger 100) (transfer 2 1 80 1 0)]
    (by decide +kernel)
  rw [Bool.and_eq_true, decide_eq_true_eq] at htest
  exact ⟨p, hrun, htest.1, by decide +kernel, htest.2⟩

/-- With the balance still at 100 the second transfer is within it or
refused. -/
theorem admitted_pays_within_balance :
    ∃ p, Machine.Run Pool.step Pool.Accountable (Pool.new 10 DedupService.new) p ∧
      p.mempool.pendingAmount (keyID 2) = 80 ∧
      ∀ hash, (p.mempool.addTx p.dedup (ledger 100) (transfer 2 1 15 1 0)).2 =
        .ok hash →
        ∃ acc, (ledger 100).accounts.lookup (transfer 2 1 15 1 0).sender = some acc ∧
          p.mempool.pendingAmount (transfer 2 1 15 1 0).sender
            + ((transfer 2 1 15 1 0).amount.getD 0).toNat ≤ acc.balance.toNat := by
  obtain ⟨p, hrun, htest⟩ := Pool.exists_run Pool.Accountable
    (fun p => decide (p.mempool.pendingAmount (keyID 2) = 80))
    (Pool.new 10 DedupService.new)
    [.setCurrentSlot 1, .addTx (ledger 100) (transfer 2 1 80 1 0)]
    (by decide +kernel)
  have hpending := of_decide_eq_true htest
  refine ⟨p, hrun, hpending, (Pool.admitted_pays_iff hrun (ledger 100) (by decide)
    (by decide +kernel)).mpr (Or.inr fun acc hacc => Or.inl ?_)⟩
  have hbalance : acc = { balance := 100, nonce := 0 } := by
    refine Option.some.inj (hacc.symm.trans ?_)
    exact AList.lookup_insert _
  rw [hbalance]
  show p.mempool.pendingAmount (keyID 2) ≤ 100
  rw [hpending]
  decide

end Sample

section Content

/-- What the sample scheme accepts is as long as what it signs. -/
theorem Sample.length_of_signWith (pub msg sig : Bytes)
    (h : decide (sig = Sample.signWith pub msg) = true) : sig.length = 64 := by
  rw [of_decide_eq_true h]
  exact Sample.length_signWith pub msg

/-- Primitives that accept user content: every text reads as content, and
every signature of ninety-six bytes as a key with a signature by it. -/
@[reducible] def Sample.contentPrimitives : Primitives where
  sha256 := Sample.digest
  ed25519Verify pub msg sig := sig = Sample.signWith pub msg
  ed25519Sign := Sample.signWith
  zkVerify _ _ _ _ := true
  edwards25519Point _ := true
  marshalVote slot blockHash voterID :=
    putUint64 slot ++ blockHash.toList ++ textBytes voterID
  unmarshalUserSig bs :=
    if bs.length = 96 then some ⟨bs.take 32, bs.drop 32⟩ else none
  unmarshalUserContent _ := some
    { type := "post", title := "a", description := "b", parentHash := "",
      rootHash := "", referenceTxHashes := [] }
  ed25519Verify_length := Sample.length_of_signWith
  unmarshalUserSig_length bs userSig h := by
    split at h
    · obtain rfl := Option.some.inj h
      rw [List.length_take, List.length_drop]
      omega
    · cases h

attribute [local instance] Sample.contentPrimitives

open Sample

/-- User content of the second key, with an amount. -/
def Sample.content (amount : Option (BitVec 256)) (nonce : UInt64) : Transaction :=
  let tx : Transaction :=
    { Transaction.zero with
      type := txTypeUserContent
      sender := keyID 2
      recipient := keyID 1
      amount := amount
      nonce := nonce
      zkProof := "proof"
      zkPub := "input" }
  { tx with
    signature := Base58.encode (keyBytes 2 ++ signWith (keyBytes 2) tx.serialize) }

/-- **Content takes from the total.** A transfer of 30 and a piece of
content with an amount of 20 wait; once the content is gone, the total is
10. -/
theorem pending_too_small :
    ∃ p, Machine.Run Pool.step Machine.Always (Pool.new 10 DedupService.new) p ∧
      p.mempool.totalAmount (keyID 2) = 10 ∧
      p.mempool.pendingAmount (keyID 2) = 30 := by
  obtain ⟨p, hrun, htest⟩ := Pool.exists_run Machine.Always
    (fun p => decide (p.mempool.totalAmount (keyID 2) = 10 ∧
      p.mempool.pendingAmount (keyID 2) = 30))
    (Pool.new 10 DedupService.new)
    [.setCurrentSlot 1, .addTx (ledger 100) (content (some 20) 1),
      .addTx (ledger 100) (transfer 2 1 30 1 0), .pullBatch TransactionTracker.new 1]
    (by decide +kernel)
  exact ⟨p, hrun, of_decide_eq_true htest⟩

end Content

end Mmn
