import Mmn.Emission

/-!
# How full the pool gets

`AddTx` looks at the number of transactions that wait before it takes the
lock, and not again under it. Calls that have passed the check and wait for
the lock are let in whatever has come in between. With `K` calls at most
between the check and the lock, the pool holds `K - 1` transactions more
than its limit at the most (`size_le`), and with two it does hold one more
(`size_le_two`). Calls that do not overlap keep the limit.

What is counted is the transactions that wait together with the calls that
have passed the check: the lock turns one into the other, and only a check
that finds room adds to the sum.
-/

namespace Mmn

section

variable [Primitives]

namespace Mempool

/-- The number of transactions that wait. -/
def size (mp : Mempool) : ℕ := mp.txs.entries.length

theorem size_put_le (mp : Mempool) (tx : Transaction) :
    (mp.put tx).size ≤ mp.size + 1 ∧ (mp.put tx).max = mp.max := by
  have hins : (mp.txs.insert (Transaction.hash (some tx)) tx).entries.length
      ≤ mp.txs.entries.length + 1 := by
    rw [AList.entries_insert, List.length_cons]
    exact Nat.succ_le_succ (List.kerase_sublist _ _).length_le
  unfold put
  dsimp only
  split
  · exact ⟨hins, rfl⟩
  · exact ⟨hins, rfl⟩

theorem size_drop_le {mp mp' : Mempool} {txHash : String} {tx : Transaction}
    (h : mp.drop txHash tx = some mp') :
    mp'.size ≤ mp.size ∧ mp'.max = mp.max := by
  have herase : (mp.txs.erase txHash).entries.length ≤ mp.txs.entries.length :=
    (List.kerase_sublist _ _).length_le
  unfold drop at h
  dsimp only at h
  split at h
  · cases h
    exact ⟨herase, rfl⟩
  · cases h
  · split at h <;> cases h <;> exact ⟨herase, rfl⟩

theorem size_dropAll_le {hs : List String} {mp mp' : Mempool}
    {batch : List Transaction} (h : mp.dropAll hs = some (mp', batch)) :
    mp'.size ≤ mp.size ∧ mp'.max = mp.max := by
  induction hs generalizing mp mp' batch with
  | nil =>
    cases h
    exact ⟨le_rfl, rfl⟩
  | cons k hs ih =>
    unfold dropAll at h
    split at h
    · exact ih h
    · split at h
      · cases h
      · next mp₁ hdrop =>
        obtain ⟨⟨mp₂, batch₂⟩, hrest, heq⟩ := Option.map_eq_some_iff.mp h
        cases heq
        obtain ⟨hle, hmax⟩ := size_drop_le hdrop
        obtain ⟨hle', hmax'⟩ := ih hrest
        exact ⟨hle'.trans hle, hmax'.trans hmax⟩

/-- A transaction that passes the first checks finds room. -/
theorem size_lt_of_cheapValidateTransaction {mp : Mempool} {tx : Transaction}
    (h : mp.cheapValidateTransaction tx = .ok ()) : mp.size < mp.max := by
  unfold cheapValidateTransaction at h
  dsimp only at h
  split at h
  · cases h
  · split at h
    · cases h
    · split at h
      · cases h
      · next hroom => exact Nat.lt_of_not_le hroom

omit [Primitives] in
theorem size_setCurrentSlot (mp : Mempool) (slot : UInt64) :
    (mp.setCurrentSlot slot).size = mp.size ∧
      (mp.setCurrentSlot slot).max = mp.max := by
  unfold setCurrentSlot
  split
  · exact ⟨rfl, rfl⟩
  · exact ⟨rfl, rfl⟩

end Mempool

namespace Emission

/-- **Fewer than so many calls** have passed the check when another one
does. -/
def Fewer (calls : ℕ) (e : Emission) : Section → Prop
  | .check _ => e.checked.length < calls
  | _ => True

instance (calls : ℕ) (e : Emission) : (c : Section) → Decidable (e.Fewer calls c)
  | .check _ => inferInstanceAs (Decidable (_ < _))
  | .enter _ _ | .take _ | .remember _ | .cleanup _ | .setCurrentSlot _ =>
    isTrue trivial

/-- **What waits and what is about to**, together. -/
structure Within (maxSize calls : ℕ) (e : Emission) : Prop where
  max : e.mempool.max = maxSize
  /-- The calls that have passed the check count as if they were through. -/
  sum : e.mempool.size + e.checked.length ≤ maxSize + calls - 1

theorem size_admitTx_le (e : Emission) (s : Store) (tx : Transaction) :
    (e.admitTx s tx).size ≤ e.mempool.size + 1 ∧
      (e.admitTx s tx).max = e.mempool.max := by
  unfold admitTx
  split
  · exact ⟨Nat.le_succ _, rfl⟩
  · exact e.mempool.size_put_le tx

theorem Within.step {maxSize calls : ℕ} {e e' : Emission} (h : Within maxSize calls e)
    {c : Section} (hfewer : e.Fewer calls c) (hstep : e.step c = some e') :
    Within maxSize calls e' := by
  have hsum := h.sum
  cases c with
  | check tx =>
    dsimp only [Emission.step] at hstep
    split at hstep
    · cases hstep
      exact h
    · next hok =>
      cases hstep
      refine ⟨h.max, ?_⟩
      have hroom := Mempool.size_lt_of_cheapValidateTransaction hok
      have hcalls : e.checked.length < calls := hfewer
      rw [h.max] at hroom
      show e.mempool.size + (e.checked ++ [tx]).length ≤ _
      rw [List.length_append, List.length_singleton]
      omega
  | enter i s =>
    dsimp only [Emission.step] at hstep
    split at hstep
    · cases hstep
      exact h
    · next tx htx =>
      cases hstep
      obtain ⟨hle, hmax⟩ := e.size_admitTx_le s tx
      refine ⟨hmax.trans h.max, ?_⟩
      have hi : i < e.checked.length := (List.getElem?_eq_some_iff.mp htx).1
      show (e.admitTx s tx).size + (e.checked.eraseIdx i).length ≤ _
      rw [List.length_eraseIdx_of_lt hi]
      omega
  | take size =>
    dsimp only [Emission.step] at hstep
    split at hstep
    · cases hstep
    · next mp batch hdrop =>
      cases hstep
      obtain ⟨hle, hmax⟩ := Mempool.size_dropAll_le hdrop
      exact ⟨hmax.trans h.max, (Nat.add_le_add_right hle _).trans hsum⟩
  | remember i =>
    dsimp only [Emission.step] at hstep
    split at hstep <;> cases hstep
    · exact h
    · exact ⟨h.max, hsum⟩
  | cleanup hs =>
    obtain ⟨mp, hclean, rfl⟩ := Option.map_eq_some_iff.mp hstep
    obtain ⟨mp₁, txs, hdrop, rfl⟩ := Mempool.blockCleanup_cases hclean
    obtain ⟨hle, hmax⟩ := Mempool.size_dropAll_le hdrop
    exact ⟨hmax.trans h.max, (Nat.add_le_add_right hle _).trans hsum⟩
  | setCurrentSlot slot =>
    cases hstep
    obtain ⟨hsize, hmax⟩ := e.mempool.size_setCurrentSlot slot
    refine ⟨hmax.trans h.max, ?_⟩
    show (e.mempool.setCurrentSlot slot).size + e.checked.length ≤ _
    rw [hsize]
    exact hsum

/-- **How full the pool gets.** In every interleaving in which at most so
many calls of `AddTx` are between their check and the lock at a time, no
more transactions wait than the limit and one less than that number. -/
theorem size_le {maxSize calls : ℕ} {ds : DedupService} {e : Emission}
    (hrun : Machine.Run Emission.step (Fewer calls) (Emission.new maxSize ds) e) :
    e.mempool.size ≤ maxSize + calls - 1 := by
  have hwithin : Within maxSize calls e :=
    hrun.invariant ⟨rfl, Nat.zero_le _⟩ fun _ _ _ h hfewer hstep =>
      h.step hfewer hstep
  exact (Nat.le_add_right _ _).trans hwithin.sum

end Emission

end

/-! ## Examples -/

section Sample

attribute [local instance] Sample.primitives

open Sample

/-- A pool for one transaction, and two calls that overlap: two transactions
wait. -/
theorem size_le_two :
    ∃ e, Machine.Run Emission.step (Emission.Fewer 2)
      (Emission.new 1 DedupService.new) e ∧
      e.mempool.size = 2 ∧ e.mempool.size ≤ 1 + 2 - 1 := by
  have hexec : (Machine.exec Emission.step (Emission.Fewer 2)
    (Emission.new 1 DedupService.new)
      [.setCurrentSlot 1, .check (transfer 2 1 30 1 0), .check (transfer 2 1 20 1 0),
        .enter 0 (ledger 100),
        .enter 0 (ledger 100)]).any (fun e => decide (e.mempool.size = 2))
            = true := by
    decide +kernel
  obtain ⟨e, hrun, htest⟩ := Machine.exists_run_of_exec hexec
  exact ⟨e, hrun, of_decide_eq_true htest, Emission.size_le hrun⟩

end Sample

end Mmn
