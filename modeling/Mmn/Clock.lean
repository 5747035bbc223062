import Mmn.Recorder

/-!
# The hash clock and its check

A leader's engine makes hashes one at a time, mixes a digest in for an entry
with transactions, and closes a tick with the last hash of the tick; a
follower only has the entries, and makes the hashes again from the number
each entry claims. The two agree whatever the engine is asked for, in
whatever order, and whatever it refuses (`recomputed_produce`).

What carries the induction is that the engine's hash is always as many plain
hashes away from the last entry as its counter says (`Poh.Since`). The
counter is a machine word; it does not wrap, because the hashes left in the
tick bound it.
-/

namespace Mmn

variable [Primitives]

/-! ## The producer -/

/-- What the engine can be asked for. -/
inductive PohOp where
  | autoHash
  /-- An entry with some transactions, one at least. -/
  | record (txs : List Transaction) (hne : txs ≠ [])
  | tick

namespace Poh

/-- **One operation**: the engine after it, and the entry built from its
answer if it was not refused. -/
def perform (p : Poh) : PohOp → Poh × Option Entry
  | .autoHash => (p.autoHash, none)
  | .record txs _ =>
    let (p, pohEntry) := p.record (hashTransactions (txs.map some))
    (p, pohEntry.map (fun e => newTxEntry e.numHashes e.hash txs))
  | .tick =>
    let (p, pohEntry) := p.tick
    (p, pohEntry.map (fun e => newTickEntry e.numHashes e.hash))

/-- The entries of a sequence of operations, in the order they are produced. -/
def produce (p : Poh) : List PohOp → List Entry
  | [] => []
  | op :: ops => (p.perform op).2.toList ++ (p.perform op).1.produce ops

end Poh

/-! ## The verifier -/

/-- The hash the check computes for an entry with transactions. -/
theorem entryHash_newTxEntry {cur : Hash} (numHashes : UInt64) (hash : Hash)
    {txs : List Transaction} (hne : txs ≠ []) :
    entryHash cur (newTxEntry numHashes hash txs)
      = sha256 ((hashChain^[(numHashes - 1).toNat] cur).toList
        ++ (hashTransactions (txs.map some)).toList) :=
  if_neg (by simpa [newTxEntry] using hne)

/-- The hash the check computes for a tick. -/
theorem entryHash_newTickEntry {cur : Hash} (numHashes : UInt64) (hash : Hash) :
    entryHash cur (newTickEntry numHashes hash)
      = hashChain (hashChain^[(numHashes - 1).toNat] cur) := rfl

/-! ## They agree -/

namespace Poh

/-- **The engine since its last entry**: its hash is as many plain hashes on
as it has counted, and it has counted no more than have been made in the
tick. -/
structure Since (p : Poh) (last : Hash) : Prop where
  hash : p.hash = hashChain^[p.numHashes.toNat] last
  bound : p.numHashes.toNat + p.remainingHashes.toNat ≤ p.hashesPerTick.toNat

variable {p : Poh} {last : Hash}

theorem since_reset (p : Poh) (seed : Hash) : (p.reset seed).Since seed :=
  ⟨rfl, (Nat.zero_add _).le⟩

/-- The counter does not wrap as long as a hash is left. -/
theorem Since.toNat_succ (h : p.Since last) (hleft : 1 ≤ p.remainingHashes.toNat) :
    (p.numHashes + 1).toNat = p.numHashes.toNat + 1 := by
  have hbound := h.bound
  have hlt := p.hashesPerTick.toNat_lt
  exact UInt64.toNat_succ_of_lt (by omega)

theorem Since.autoHash (h : p.Since last) : p.autoHash.Since last := by
  unfold Poh.autoHash
  split
  · next hleft =>
    have hmore : 1 < p.remainingHashes.toNat := UInt64.lt_iff_toNat_lt.mp hleft
    have hsucc := h.toNat_succ hmore.le
    have hsub : (p.remainingHashes - 1).toNat = p.remainingHashes.toNat - 1 :=
      UInt64.toNat_sub_of_le _ _ (UInt64.le_iff_toNat_le.mpr hmore.le)
    refine ⟨?_, ?_⟩
    · show sha256 p.hash.toList = hashChain^[(p.numHashes + 1).toNat] last
      rw [hsucc, Function.iterate_succ_apply', ← h.hash]
      rfl
    · show (p.numHashes + 1).toNat + (p.remainingHashes - 1).toNat
        ≤ p.hashesPerTick.toNat
      have hbound := h.bound
      omega
  · exact h

/-- **An entry with transactions** ends in the hash the check computes. -/
theorem Since.record (h : p.Since last) {txs : List Transaction} (hne : txs ≠ [])
    {p' : Poh} {e : PohEntry}
    (hrecord : p.record (hashTransactions (txs.map some)) = (p', some e)) :
    entryHash last (newTxEntry e.numHashes e.hash txs) = e.hash ∧
      p'.Since e.hash := by
  unfold Poh.record at hrecord
  split at hrecord
  · cases hrecord
  · next hleft =>
    cases hrecord
    have hmore : 1 < p.remainingHashes.toNat := by
      rw [UInt64.le_iff_toNat_le] at hleft
      exact Nat.lt_of_not_le hleft
    have hsub : (p.remainingHashes - 1).toNat = p.remainingHashes.toNat - 1 :=
      UInt64.toNat_sub_of_le _ _ (UInt64.le_iff_toNat_le.mpr hmore.le)
    refine ⟨?_, rfl, ?_⟩
    · rw [entryHash_newTxEntry _ _ hne]
      dsimp only [hashOnce]
      rw [UInt64.add_sub_cancel, ← h.hash]
    · show (0 : UInt64).toNat + (p.remainingHashes - 1).toNat ≤ p.hashesPerTick.toNat
      have hbound := h.bound
      rw [hsub, UInt64.toNat_zero]
      omega

theorem eq_of_record_eq_none {p' : Poh} {mixin : Hash}
    (h : p.record mixin = (p', none)) :
    p' = p := by
  unfold Poh.record at h
  split at h
  · cases h
    rfl
  · cases h

theorem eq_of_tick_eq_none {p' : Poh} (h : p.tick = (p', none)) : p' = p := by
  unfold Poh.tick at h
  split at h
  · cases h
    rfl
  · cases h

/-- **The entry of a tick** ends in the hash the check computes. -/
theorem Since.tick (h : p.Since last) {p' : Poh} {e : PohEntry}
    (htick : p.tick = (p', some e)) :
    entryHash last (newTickEntry e.numHashes e.hash) = e.hash ∧ p'.Since e.hash := by
  unfold Poh.tick at htick
  split at htick
  · cases htick
  · cases htick
    refine ⟨?_, rfl, (Nat.zero_add _).le⟩
    rw [entryHash_newTickEntry]
    dsimp only [hashOnce]
    rw [UInt64.add_sub_cancel, ← h.hash]
    rfl

/-- A tick is refused and changes nothing, or makes its entry. -/
theorem perform_tick_cases (p : Poh) :
    p.perform .tick = (p, none) ∨
      ∃ p' e, p.tick = (p', some e) ∧
        p.perform .tick = (p', some (newTickEntry e.numHashes e.hash)) := by
  dsimp only [Poh.perform]
  cases htick : p.tick with
  | mk p' e =>
    cases e with
    | none =>
      rw [eq_of_tick_eq_none htick]
      exact Or.inl rfl
    | some e => exact Or.inr ⟨p', e, rfl, rfl⟩

/-- **One operation**: a refused one and a plain hash leave the last entry,
an accepted one makes the next, and that is the one the check expects. -/
theorem Since.perform (h : p.Since last) (op : PohOp) :
    ((p.perform op).2 = none ∧ (p.perform op).1.Since last) ∨
      ∃ e, (p.perform op).2 = some e ∧ entryHash last e = e.hash ∧
        (p.perform op).1.Since e.hash := by
  cases op with
  | autoHash => exact Or.inl ⟨rfl, h.autoHash⟩
  | record txs hne =>
    dsimp only [Poh.perform]
    cases hrecord : p.record (hashTransactions (txs.map some)) with
    | mk p' e =>
      cases e with
      | none =>
        rw [eq_of_record_eq_none hrecord]
        exact Or.inl ⟨rfl, h⟩
      | some e =>
        obtain ⟨hhash, hafter⟩ := h.record hne hrecord
        exact Or.inr ⟨_, rfl, hhash, hafter⟩
  | tick =>
    obtain hnone | ⟨p', e, htick, hsome⟩ := p.perform_tick_cases
    · rw [hnone]
      exact Or.inl ⟨rfl, h⟩
    · obtain ⟨hhash, hafter⟩ := h.tick htick
      rw [hsome]
      exact Or.inr ⟨_, rfl, hhash, hafter⟩

/-- All operations, from any state the engine can be in. -/
theorem Since.recomputed_eq (h : p.Since last) (ops : List PohOp) :
    recomputed last (p.produce ops) = (p.produce ops).map Entry.hash := by
  induction ops generalizing p last with
  | nil => rfl
  | cons op ops ih =>
    dsimp only [produce]
    obtain ⟨hnone, hafter⟩ | ⟨e, hsome, hhash, hafter⟩ := h.perform op
    · rw [hnone]
      exact ih hafter
    · rw [hsome, Option.toList_some, List.singleton_append, List.map_cons,
        recomputed, hhash, ih hafter]

end Poh

/-- **Producer and check agree**: from any seed and at any pace, the hashes
the check computes for the entries of any sequence of operations are the
entries' own. -/
theorem recomputed_produce (p : Poh) (seed : Hash) (ops : List PohOp) :
    recomputed seed ((p.reset seed).produce ops)
      = ((p.reset seed).produce ops).map Entry.hash :=
  (Poh.since_reset p seed).recomputed_eq ops

end Mmn
