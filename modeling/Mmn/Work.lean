import Mmn.Sample
import Mathlib.Algebra.Order.BigOperators.Group.List

/-!
# The work of checking a block's entries

A follower makes the hashes of a block again, as many as its entries claim,
and the bounds on entries are there to bound that work: a hundred hashes for
an entry, a hundred entries for a slot. The loop makes one hash less than
the entry claims and the last one is made outside it, with the transactions
mixed in if there are any.

For an entry that claims no hashes the bound of the loop is `0 - 1`, in
machine words. No check refuses such an entry, and the loop makes `2 ^ 64 -
1` hashes for it (`zero_hashes_not_bounded`). For every other entry that
passes its check the steps are the hashes it claims, and the whole check
makes ten thousand at most; the one condition is that no entry that is
reached claims zero (`verifyEntries_work_iff`).

To count, the check is written once more with a counter at every hash, and
shown to give the same answer (`verifyEntriesCounted_fst`).
-/

namespace Mmn

section

variable [Primitives]

/-! ## The check with a counter -/

/-- The hash an entry must end in, with the number of hashes made on the
way. -/
def entryHashCounted (cur : Hash) (e : Entry) : Hash × ℕ :=
  -- the number of rounds is `2 ^ 64 - 1` for an entry that claims no hashes
  let loop := (fun p : Hash × ℕ => (hashChain p.1, p.2 + 1))^[(e.numHashes - 1).toNat]
    (cur, 0)
  if e.transactions.length = 0 then (hashChain loop.1, loop.2 + 1)
  else (sha256 (loop.1.toList ++ (hashTransactions e.transactions).toList),
    loop.2 + 1)

/-- The entries of a slot checked from an index on, with the hashes made for
each entry that is reached and passes its own check. -/
def verifyEntriesFromCounted (slot : UInt64) :
    ℕ → Hash → List Entry → Except String Unit × List (Entry × ℕ)
  | _, _, [] => (.ok (), [])
  | i, cur, e :: es =>
    match validateEntry e with
    | .error err => (.error s!"invalid entry {i} in slot {slot}: {err}", [])
    | .ok () =>
      let got := entryHashCounted cur e
      if got.1 ≠ e.hash then
        (.error ("PoH mismatch: entry=" ++ toString i ++ " slot=" ++ toString slot
          ++ " expected=" ++ hexEncode e.hash.toList ++ " got="
            ++ hexEncode got.1.toList),
          [(e, got.2)])
      else
        let rest := verifyEntriesFromCounted slot (i + 1) got.1 es
        (rest.1, (e, got.2) :: rest.2)

/-- The check of a block's entries, with the hashes made for each. -/
def verifyEntriesCounted (prev : Hash) (entries : List Entry) (slot : UInt64) :
    Except String Unit × List (Entry × ℕ) :=
  let count := entries.length
  if count > maxEntriesPerSlot then
    (.error s!"too many entries in slot {slot}: {count} > {maxEntriesPerSlot}", [])
  else verifyEntriesFromCounted slot 0 prev entries

/-- The hashes the check makes for an entry: those of the loop, whose number
is computed in machine words, and the last. -/
def entrySteps (e : Entry) : ℕ := (e.numHashes - 1).toNat + 1

theorem entryHashCounted_eq (cur : Hash) (e : Entry) :
    entryHashCounted cur e = (entryHash cur e, entrySteps e) := by
  have hloop : ∀ (k : ℕ) (h : Hash) (n : ℕ),
      (fun p : Hash × ℕ => (hashChain p.1, p.2 + 1))^[k] (h, n)
          = (hashChain^[k] h, n + k) := by
    intro k
    induction k with
    | zero => exact fun h n => rfl
    | succ k ih =>
      intro h n
      rw [Function.iterate_succ_apply, ih, Function.iterate_succ_apply, Nat.add_assoc,
        Nat.add_comm 1 k]
  unfold entryHashCounted entryHash entrySteps
  rw [hloop, Nat.zero_add]
  dsimp only
  split <;> rfl

theorem verifyEntriesFromCounted_fst (slot : UInt64) (i : ℕ) (cur : Hash)
    (es : List Entry) :
    (verifyEntriesFromCounted slot i cur es).1 = verifyEntriesFrom slot i cur es := by
  induction es generalizing i cur with
  | nil => rfl
  | cons e es ih =>
    unfold verifyEntriesFromCounted verifyEntriesFrom
    cases validateEntry e with
    | error err => rfl
    | ok _ =>
      dsimp only
      rw [entryHashCounted_eq]
      dsimp only
      split
      · rfl
      · exact ih (i + 1) _

/-- **Counting does not change the answer.** -/
theorem verifyEntriesCounted_fst (prev : Hash) (entries : List Entry)
    (slot : UInt64) :
    (verifyEntriesCounted prev entries slot).1 = verifyEntries prev entries slot := by
  unfold verifyEntriesCounted verifyEntries
  dsimp only
  split
  · rfl
  · exact verifyEntriesFromCounted_fst slot 0 prev entries

/-! ## The entries that are reached -/

/-- **The entry is reached and checked**: the entries before it follow from
the hash before the block, and it passes its own check. -/
def Reached (prev : Hash) (entries : List Entry) (e : Entry) : Prop :=
  ∃ pre post, entries = pre ++ e :: post ∧ (∀ x ∈ pre, validateEntry x = .ok ()) ∧
    recomputed prev pre = pre.map Entry.hash ∧ validateEntry e = .ok ()

/-- The first entry, or one that is reached after it. -/
theorem reached_cons_iff {prev : Hash} {x e : Entry} {es : List Entry} :
    Reached prev (x :: es) e ↔ validateEntry x = .ok () ∧
      (e = x ∨ entryHash prev x = x.hash ∧ Reached (entryHash prev x) es e) := by
  constructor
  · rintro ⟨_ | ⟨y, pre⟩, post, hsplit, hpre, hhash, he⟩
    · cases hsplit
      exact ⟨he, Or.inl rfl⟩
    · cases hsplit
      obtain ⟨hfirst, hrest⟩ := List.forall_mem_cons.mp hpre
      obtain ⟨hx, htail⟩ := List.cons.inj hhash
      exact ⟨hfirst, Or.inr ⟨hx, pre, post, rfl, hrest, htail, he⟩⟩
  · rintro ⟨hx, rfl | ⟨hhash, pre, post, rfl, hpre, htail, he⟩⟩
    · exact ⟨[], es, rfl, by simp, rfl, hx⟩
    · refine ⟨x :: pre, post, rfl, List.forall_mem_cons.mpr ⟨hx, hpre⟩, ?_, he⟩
      show entryHash prev x :: recomputed (entryHash prev x) pre = x.hash
        :: pre.map Entry.hash
      rw [htail, hhash]

/-- **The work of the check** is that of the entries that are reached. -/
theorem mem_verifyEntriesFromCounted {slot : UInt64} {i : ℕ} {cur : Hash}
    {es : List Entry} {p : Entry × ℕ} :
    p ∈ (verifyEntriesFromCounted slot i cur es).2 ↔ Reached cur es p.1 ∧
      p.2 = entrySteps p.1 := by
  induction es generalizing i cur with
  | nil =>
    refine iff_of_false List.not_mem_nil ?_
    rintro ⟨⟨pre, post, hsplit, -⟩, -⟩
    simp at hsplit
  | cons x es ih =>
    rw [reached_cons_iff]
    unfold verifyEntriesFromCounted
    cases hvalid : validateEntry x with
    | error err => simp
    | ok _ =>
      dsimp only
      rw [entryHashCounted_eq]
      dsimp only
      have hhead : p = (x, entrySteps x) ↔ p.1 = x ∧ p.2 = entrySteps p.1 := by
        rw [Prod.ext_iff]
        exact and_congr_right fun h => by rw [h]
      by_cases hhash : entryHash cur x = x.hash
      · rw [if_neg (not_not.mpr hhash), List.mem_cons, ih, hhead]
        simp only [hhash, true_and, or_and_right]
      · rw [if_pos hhash, List.mem_singleton, hhead]
        simp only [hhash, false_and, or_false, true_and]

theorem length_verifyEntriesFromCounted_le (slot : UInt64) (i : ℕ) (cur : Hash)
    (es : List Entry) :
    (verifyEntriesFromCounted slot i cur es).2.length ≤ es.length := by
  induction es generalizing i cur with
  | nil => exact le_rfl
  | cons x es ih =>
    unfold verifyEntriesFromCounted
    cases validateEntry x with
    | error err => exact Nat.zero_le _
    | ok _ =>
      dsimp only
      split
      · exact Nat.succ_le_succ (Nat.zero_le _)
      · exact Nat.succ_le_succ (ih (i + 1) _)

/-! ## The bound -/

omit [Primitives] in
/-- **The steps are the hashes claimed**, unless none is claimed. -/
theorem entrySteps_eq_iff {e : Entry} :
    entrySteps e = e.numHashes.toNat ↔ e.numHashes ≠ 0 := by
  unfold entrySteps
  constructor
  · rintro h hzero
    rw [hzero] at h
    cases h
  · intro hne
    have hpos : 1 ≤ e.numHashes.toNat :=
      Nat.one_le_iff_ne_zero.mpr fun h => hne (UInt64.toNat_inj.mp h)
    have hone : (1 : UInt64) ≤ e.numHashes := UInt64.le_iff_toNat_le.mpr hpos
    rw [UInt64.toNat_sub_of_le _ _ hone, UInt64.toNat_one, Nat.sub_add_cancel hpos]

omit [Primitives] in
/-- An entry that passes its check claims a hundred hashes at most. -/
theorem numHashes_le_of_validateEntry {e : Entry} (h : validateEntry e = .ok ()) :
    e.numHashes.toNat ≤ maxNumHashes.toNat := by
  unfold validateEntry at h
  dsimp only at h
  split at h
  · cases h
  · next hle => exact UInt64.le_iff_toNat_le.mp (UInt64.not_lt.mp hle)

/-- **The work of the check is bounded** as the limits say, exactly if no
entry that it reaches claims zero hashes: every entry then takes the steps
it claims, a hundred at most, and all of them together ten thousand. -/
theorem verifyEntries_work_iff (prev : Hash) (entries : List Entry) (slot : UInt64) :
    ((∀ p ∈ (verifyEntriesCounted prev entries slot).2,
        p.2 = p.1.numHashes.toNat ∧ p.2 ≤ maxNumHashes.toNat) ∧
      ((verifyEntriesCounted prev entries slot).2.map Prod.snd).sum
        ≤ maxNumHashes.toNat * maxEntriesPerSlot) ↔
    (entries.length ≤ maxEntriesPerSlot → ∀ e, Reached prev entries e →
      e.numHashes ≠ 0) := by
  unfold verifyEntriesCounted
  dsimp only
  split
  · next hmany => simp [Nat.not_le.mpr hmany]
  · next hfew =>
    have hlen : entries.length ≤ maxEntriesPerSlot := Nat.le_of_not_lt hfew
    rw [forall_prop_of_true hlen]
    constructor
    · rintro ⟨hall, -⟩ e he
      have hstep :=
        (hall (e, entrySteps e) (mem_verifyEntriesFromCounted.mpr ⟨he, rfl⟩)).1
      exact entrySteps_eq_iff.mp hstep
    · intro hne
      have hall : ∀ p ∈ (verifyEntriesFromCounted slot 0 prev entries).2,
          p.2 = p.1.numHashes.toNat ∧ p.2 ≤ maxNumHashes.toNat := by
        intro p hp
        obtain ⟨hreached, hsteps⟩ := mem_verifyEntriesFromCounted.mp hp
        have heq := hsteps.trans (entrySteps_eq_iff.mpr (hne _ hreached))
        obtain ⟨-, -, -, -, -, hvalid⟩ := hreached
        exact ⟨heq, heq ▸ numHashes_le_of_validateEntry hvalid⟩
      refine ⟨hall, ?_⟩
      calc ((verifyEntriesFromCounted slot 0 prev entries).2.map Prod.snd).sum
          ≤ (verifyEntriesFromCounted slot 0 prev entries).2.length •
              maxNumHashes.toNat := by
            refine (List.sum_le_card_nsmul _ _ fun n hn => ?_).trans
              (by rw [List.length_map])
            obtain ⟨p, hp, rfl⟩ := List.mem_map.mp hn
            exact (hall p hp).2
        _ ≤ maxEntriesPerSlot * maxNumHashes.toNat :=
            Nat.mul_le_mul_right _
              ((length_verifyEntriesFromCounted_le slot 0 prev entries).trans hlen)
        _ = maxNumHashes.toNat * maxEntriesPerSlot := Nat.mul_comm _ _

/-- **An entry that claims no hashes** passes its check, and `2 ^ 64` hashes
are made for it. -/
theorem steps_zero_hashes (prev hash : Hash) (slot : UInt64) :
    validateEntry (newTickEntry 0 hash) = .ok () ∧
      (verifyEntriesCounted prev [newTickEntry 0 hash] slot).2
        = [(newTickEntry 0 hash, 2 ^ 64)] := by
  have hvalid : validateEntry (newTickEntry 0 hash) = .ok () := rfl
  have hsteps : entrySteps (newTickEntry 0 hash) = 2 ^ 64 := by
    show (0 - 1 : UInt64).toNat + 1 = 2 ^ 64
    decide
  refine ⟨hvalid, ?_⟩
  show (verifyEntriesFromCounted slot 0 prev [newTickEntry 0 hash]).2 = _
  unfold verifyEntriesFromCounted
  rw [hvalid, entryHashCounted_eq, hsteps]
  dsimp only
  split <;> rfl

end

section

attribute [local instance] Sample.primitives

/-- **The bound fails**: a block of one entry that claims no hashes keeps a
follower at work for `2 ^ 64` of them, although the entry passes its check. -/
theorem zero_hashes_not_bounded :
    validateEntry (newTickEntry 0 zeroHash) = .ok () ∧
      ∃ p ∈ (verifyEntriesCounted zeroHash [newTickEntry 0 zeroHash] 1).2,
        p.2 ≠ p.1.numHashes.toNat ∧ maxNumHashes.toNat * maxEntriesPerSlot < p.2 := by
  obtain ⟨hvalid, hwork⟩ := steps_zero_hashes zeroHash zeroHash 1
  refine ⟨hvalid, (newTickEntry 0 zeroHash, 2 ^ 64), ?_, by decide, by decide⟩
  rw [hwork]
  exact List.mem_singleton_self _

end

end Mmn
