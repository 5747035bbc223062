import Mmn.Transaction

/-!
# Proof of history

A leader proves the passing of time by hashing: an entry of a block says how
many hashes were made since the entry before it and what the last one was,
and an entry with transactions mixes their digest into the last hash. A
block is checked by making the same hashes again (`verifyEntries`).

The file has the entries and their check, the engine that makes the hashes
(`Poh`), the recorder that turns transactions into entries (`PohRecorder`),
the queue of slot hashes it keeps for the next leader, and the schedule that
says who leads which slot. All counters are machine words and wrap where the
source's do: an entry that claims zero hashes is checked by making `2 ^ 64 -
1` of them.
-/

namespace Mmn

variable [Primitives]

/-! ## Entries -/

/-- The most hashes one entry may claim. -/
abbrev maxNumHashes : UInt64 := 100

/-- The most entries of a slot. -/
abbrev maxEntriesPerSlot : ℕ := 100

/-- The most transactions of an entry. -/
abbrev maxTransactionsPerEntry : ℕ := 6000

/-- The largest entry, in bytes. -/
abbrev maxEntrySize : ℕ := 1024 * 1024

/-- An entry of a block as it is broadcast. -/
structure Entry where
  numHashes : UInt64
  hash : Hash
  /-- The transactions mixed in. A message may hold null transactions. -/
  transactions : List (Option Transaction)
  /-- Does the entry only mark time? The flag is taken from the message and
  not derived from the transactions. -/
  tick : Bool
deriving DecidableEq

/-- An entry of a block as it is stored: transactions are named by hash. -/
structure PersistentEntry where
  numHashes : UInt64
  hash : Hash
  txHashes : List String
  tick : Bool
deriving DecidableEq

/-- An entry without transactions. -/
def newTickEntry (numHashes : UInt64) (hash : Hash) : Entry :=
  { numHashes := numHashes, hash := hash, transactions := [], tick := true }

/-- An entry with transactions. -/
def newTxEntry (numHashes : UInt64) (hash : Hash) (txs : List Transaction) : Entry :=
  { numHashes := numHashes, hash := hash, transactions := txs.map some,
    tick := false }

/-- The digest of a list of transactions: that of their JSON, joined. -/
def hashTransactions (txs : List (Option Transaction)) : Hash :=
  sha256 (txs.flatMap Transaction.bytes)

/-- One hash of the chain. -/
def hashChain (h : Hash) : Hash := sha256 h.toList

/-! ## Checking a block's entries -/

/-- The size an entry is taken to have. -/
def estimateEntrySize (e : Entry) : ℕ :=
  8 + 32 + 1 + e.transactions.length * 32

/-- The checks on one transaction of an entry, at its index. -/
def validateEntryTx (i : ℕ) (tx : Option Transaction) : Except String Unit :=
  match tx with
  | none => .error s!"transaction {i} is nil"
  | some t =>
    let size := (Transaction.bytes tx).length
    if t.sender = "" then .error s!"transaction {i} has empty sender"
    else if t.recipient = "" then .error s!"transaction {i} has empty recipient"
    else if size > maxEntrySize / maxTransactionsPerEntry then
      .error s!"transaction {i} too large: {size} bytes"
    else .ok ()

/-- The checks on the transactions of an entry, from an index on. -/
def validateEntryTxs : ℕ → List (Option Transaction) → Except String Unit
  | _, [] => .ok ()
  | i, tx :: txs =>
    match validateEntryTx i tx with
    | .error err => .error err
    | .ok () => validateEntryTxs (i + 1) txs

/-- The bounds an entry must keep. -/
def validateEntry (e : Entry) : Except String Unit :=
  let count := e.transactions.length
  let size := estimateEntrySize e
  if e.numHashes > maxNumHashes then
    .error s!"NumHashes too large: {e.numHashes} > {maxNumHashes}"
  else if count > maxTransactionsPerEntry then
    .error s!"too many transactions: {count} > {maxTransactionsPerEntry}"
  else match validateEntryTxs 0 e.transactions with
    | .error err => .error err
    | .ok () =>
      if size > maxEntrySize then
        .error s!"entry too large: {size} bytes > {maxEntrySize}"
      else .ok ()

/-- The hash an entry must end in, from the hash before it. The number of
plain hashes is one less than the entry claims, in machine words. -/
def entryHash (cur : Hash) (e : Entry) : Hash :=
  let cur := hashChain^[(e.numHashes - 1).toNat] cur
  if e.transactions.length = 0 then hashChain cur
  else sha256 (cur.toList ++ (hashTransactions e.transactions).toList)

/-- The entries of a slot checked from an index on. -/
def verifyEntriesFrom (slot : UInt64) : ℕ → Hash → List Entry → Except String Unit
  | _, _, [] => .ok ()
  | i, cur, e :: es =>
    match validateEntry e with
    | .error err => .error s!"invalid entry {i} in slot {slot}: {err}"
    | .ok () =>
      let got := entryHash cur e
      if got ≠ e.hash then
        .error ("PoH mismatch: entry=" ++ toString i ++ " slot=" ++ toString slot
          ++ " expected=" ++ hexEncode e.hash.toList ++ " got="
            ++ hexEncode got.toList)
      else verifyEntriesFrom slot (i + 1) got es

/-- **The check of a block's entries**: each ends in the hash it claims,
from the hash the block declares as the one before. -/
def verifyEntries (prev : Hash) (entries : List Entry) (slot : UInt64) :
    Except String Unit :=
  let count := entries.length
  if count > maxEntriesPerSlot then
    .error s!"too many entries in slot {slot}: {count} > {maxEntriesPerSlot}"
  else verifyEntriesFrom slot 0 prev entries

/-- The hashes the check computes for the entries, from a hash on. -/
def recomputed : Hash → List Entry → List Hash
  | _, [] => []
  | cur, e :: es => entryHash cur e :: recomputed (entryHash cur e) es

/-- **The check of the entries** is the check of each by itself and of the
hashes computed. -/
theorem verifyEntriesFrom_eq_ok_iff {slot : UInt64} {i : ℕ} {cur : Hash}
    {es : List Entry} :
    verifyEntriesFrom slot i cur es = .ok () ↔
      (∀ e ∈ es, validateEntry e = .ok ()) ∧
      recomputed cur es = es.map Entry.hash := by
  induction es generalizing i cur with
  | nil => simp [verifyEntriesFrom, recomputed]
  | cons e es ih =>
    unfold verifyEntriesFrom recomputed
    rw [List.forall_mem_cons, List.map_cons, List.cons.injEq]
    cases hvalid : validateEntry e with
    | error err => simp
    | ok _ =>
      dsimp only
      by_cases hhash : entryHash cur e = e.hash
      · rw [if_neg (not_not.mpr hhash), ih]
        simp [hhash]
      · rw [if_pos hhash]
        simp [hhash]

/-- **What the check of a block's entries has found out when it accepts.** -/
theorem recomputed_of_verifyEntries {prev : Hash} {es : List Entry} {slot : UInt64}
    (h : verifyEntries prev es slot = .ok ()) :
    (∀ e ∈ es, validateEntry e = .ok ()) ∧
      recomputed prev es = es.map Entry.hash := by
  unfold verifyEntries at h
  dsimp only at h
  split_ifs at h
  exact verifyEntriesFrom_eq_ok_iff.mp h

/-! ### No transaction that verifies is accepted -/

omit [Primitives] in
/-- The transactions of an accepted entry are there, and small. -/
theorem length_of_validateEntryTxs {txs : List (Option Transaction)} {i : ℕ}
    (h : validateEntryTxs i txs = .ok ()) {tx : Option Transaction}
    (hmem : tx ∈ txs) :
    tx.isSome ∧ (Transaction.bytes tx).length ≤ maxEntrySize
      / maxTransactionsPerEntry := by
  induction txs generalizing i with
  | nil => cases hmem
  | cons t txs ih =>
    unfold validateEntryTxs at h
    split at h
    · cases h
    · next hfirst =>
      obtain rfl | hmem := List.mem_cons.mp hmem
      · cases tx with
        | none => cases hfirst
        | some tx =>
          dsimp only [validateEntryTx] at hfirst
          split_ifs at hfirst with _ _ hsize
          exact ⟨rfl, Nat.le_of_not_lt hsize⟩
      · exact ih h hmem

omit [Primitives] in
theorem validateEntryTxs_of_validateEntry {e : Entry} (h : validateEntry e = .ok ()) :
    validateEntryTxs 0 e.transactions = .ok () := by
  unfold validateEntry at h
  dsimp only at h
  split at h
  · cases h
  split at h
  · cases h
  split at h
  · cases h
  · next hok => exact hok

/-- **An accepted block carries no transaction that verifies**: such a
transaction is larger than the share of an entry that each of the most
transactions would have. -/
theorem not_verify_of_verifyEntries {prev : Hash} {es : List Entry} {slot : UInt64}
    (h : verifyEntries prev es slot = .ok ()) {e : Entry} (he : e ∈ es)
    {tx : Option Transaction} (hmem : tx ∈ e.transactions) :
    ∃ t, tx = some t ∧ ¬ t.verify = true := by
  obtain ⟨hsome, hsize⟩ := length_of_validateEntryTxs
    (validateEntryTxs_of_validateEntry ((recomputed_of_verifyEntries h).1 e he)) hmem
  obtain ⟨t, rfl⟩ := Option.isSome_iff_exists.mp hsome
  refine ⟨t, rfl, fun hverify => ?_⟩
  exact absurd (Transaction.length_of_verify hverify) (Nat.not_lt.mpr hsize)

/-! ### Empty slots -/

/-- The loop of `generateTickOnlyEntries`. -/
def tickOnlyEntriesFrom (hashesPerTick : UInt64) : ℕ → Hash → List Entry
  | 0, _ => []
  | k + 1, cur =>
    let cur := hashChain (hashChain^[hashesPerTick.toNat - 1] cur)
    newTickEntry hashesPerTick cur :: tickOnlyEntriesFrom hashesPerTick k cur

/-- The entries of a slot in which nothing happens. -/
def generateTickOnlyEntries (seed : Hash) (numEntries : ℤ) (hashesPerTick : UInt64) :
    List Entry :=
  if numEntries ≤ 0 ∨ hashesPerTick = 0 then []
  else tickOnlyEntriesFrom hashesPerTick numEntries.toNat seed

/-! ## The leader schedule -/

/-- The leader of a range of slots, ends included. -/
structure LeaderScheduleEntry where
  startSlot : UInt64
  endSlot : UInt64
  leader : String
deriving DecidableEq

/-- **A leader schedule**: ranges in order of their first slot, each
beginning after the one before it ends, repeated with period `maxSlot`. The
fields that are propositions are what construction checks; a schedule whose
period is zero stops the node at its first lookup and is not one. -/
structure LeaderSchedule where
  entries : List LeaderScheduleEntry
  maxSlot : UInt64
  /-- The ranges are in order and do not overlap. -/
  ordered : entries.IsChain
    (fun a b => a.startSlot ≤ b.startSlot ∧ a.endSlot < b.startSlot)
  /-- `maxSlot` is where the last range ends. -/
  maxSlot_eq : ∃ e ∈ entries.getLast?, e.endSlot = maxSlot
  maxSlot_ne_zero : maxSlot ≠ 0

/-- The loop of a binary search for the first index at which `f` holds. -/
def searchLoop (f : ℕ → Bool) : ℕ → ℕ → ℕ → ℕ
  | 0, i, _ => i
  | k + 1, i, j =>
    if i < j then
      let h := (i + j) / 2
      if f h then searchLoop f k i h else searchLoop f k (h + 1) j
    else i

/-- The first index below `n` at which `f` holds, if `f` is monotone. -/
def search (n : ℕ) (f : ℕ → Bool) : ℕ := searchLoop f n 0 n

namespace LeaderSchedule

/-- **The leader of a slot**, if one is assigned. -/
def leaderAt (ls : LeaderSchedule) (slot : UInt64) : Option String :=
  let slot := if slot % ls.maxSlot = 0 then ls.maxSlot else slot % ls.maxSlot
  let i := search ls.entries.length (fun i => match ls.entries[i]? with
    | some e => decide (e.startSlot > slot)
    | none => false)
  if i > 0 then
    match ls.entries[i - 1]? with
    | some e => if e.startSlot ≤ slot ∧ slot ≤ e.endSlot then some e.leader else none
    | none => none
  else none

/-- Is this the leader of the slot? -/
def isLeaderAt (ls : LeaderSchedule) (slot : UInt64) (leaderID : String) : Bool :=
  ls.leaderAt slot = some leaderID

/-- The number of ranges, which is the number of validators votes are
counted against. -/
def len (ls : LeaderSchedule) : ℕ := ls.entries.length

end LeaderSchedule

end Mmn
