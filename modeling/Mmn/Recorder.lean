import Mmn.Poh

/-!
# The proof-of-history recorder

The engine `Poh` makes hashes: `Poh.autoHash` one at a time as the clock
runs, `Poh.record` one that mixes a digest in, `Poh.tick` the last one of a
tick. It refuses to record when only the tick's hash is left, and to tick
before that. The recorder `PohRecorder` counts ticks, keeps the entries of
the slot until they are drained, and remembers the hash each slot ended in.

An operation that fails late leaves its mark: the recorder has already moved
the engine on when it finds that the entry claims too many hashes.
-/

namespace Mmn

variable [Primitives]

/-! ## The engine -/

/-- The state of the hash engine. -/
structure Poh where
  hash : Hash
  numHashes : UInt64
  hashesPerTick : UInt64
  remainingHashes : UInt64

/-- What the engine says of an entry. -/
structure PohEntry where
  numHashes : UInt64
  hash : Hash

namespace Poh

/-- The engine of a fresh process. -/
def new (seed : Bytes) (hashesPerTick : UInt64) : Poh :=
  { hash := sha256 seed, numHashes := 0, hashesPerTick := hashesPerTick,
    remainingHashes := hashesPerTick }

/-- Start a slot from a hash. -/
def reset (p : Poh) (seed : Hash) : Poh :=
  { p with hash := seed, remainingHashes := p.hashesPerTick, numHashes := 0 }

/-- One hash of a byte string. -/
def hashOnce (p : Poh) (bs : Bytes) : Poh :=
  { p with hash := sha256 bs, numHashes := p.numHashes + 1,
           remainingHashes := p.remainingHashes - 1 }

/-- Mix a digest in, if there is a hash left besides the tick's. -/
def record (p : Poh) (mixin : Hash) : Poh × Option PohEntry :=
  if p.remainingHashes ≤ 1 then (p, none)
  else
    let p := p.hashOnce (p.hash.toList ++ mixin.toList)
    ({ p with numHashes := 0 }, some { numHashes := p.numHashes, hash := p.hash })

/-- Make the tick's hash, if it is the one left. -/
def tick (p : Poh) : Poh × Option PohEntry :=
  if p.remainingHashes ≠ 1 then (p, none)
  else
    let p := p.hashOnce p.hash.toList
    ({ p with remainingHashes := p.hashesPerTick, numHashes := 0 },
      some { numHashes := p.numHashes, hash := p.hash })

/-- Run the clock from one tick to another, from a hash. The distance is a
machine word. -/
def tickFastForward (p : Poh) (seenHash : Hash) (fromTick toTick : UInt64) : Poh :=
  { p with
    hash := hashChain^[((toTick - fromTick) * p.hashesPerTick).toNat] seenHash
    numHashes := 0
    remainingHashes := p.hashesPerTick }

/-- One step of the background loop. -/
def autoHash (p : Poh) : Poh :=
  if p.remainingHashes > 1 then p.hashOnce p.hash.toList else p

end Poh

/-! ## The queue of slot hashes -/

/-- The hash each recent slot ended in. -/
structure SlotHashQueue where
  slotMap : AList (fun _ : UInt64 => Hash)
  maxSize : ℕ

namespace SlotHashQueue

/-- The queue of a fresh process: slot zero ends in the zero hash. -/
def new : SlotHashQueue :=
  { slotMap := (∅ : AList _).insert 0 zeroHash, maxSize := 10000 }

/-- Set the hash of a slot. A new slot pushes out the one `maxSize` below it
when the queue is full. -/
def put (q : SlotHashQueue) (slot : UInt64) (hash : Hash) : SlotHashQueue :=
  let slotMap := q.slotMap.insert slot hash
  if slot ∈ q.slotMap then { q with slotMap := slotMap }
  else if slotMap.entries.length > q.maxSize then
    { q with slotMap := slotMap.erase (slot - UInt64.ofNat q.maxSize) }
  else { q with slotMap := slotMap }

/-- The hash of a slot, if it is still there. -/
def get (q : SlotHashQueue) (slot : UInt64) : Option Hash := q.slotMap.lookup slot

omit [Primitives] in
@[simp] theorem maxSize_put (q : SlotHashQueue) (slot : UInt64) (hash : Hash) :
    (q.put slot hash).maxSize = q.maxSize := by
  unfold put
  dsimp only
  split_ifs <;> rfl

omit [Primitives] in
/-- **What is found after a hash is set**: that hash at its slot, and what
was there at every other slot but the one that is pushed out. -/
theorem get_put (q : SlotHashQueue) (slot : UInt64) (hash : Hash) {s : UInt64}
    (hs : s ≠ slot - UInt64.ofNat q.maxSize) :
    (q.put slot hash).get s = if s = slot then some hash else q.get s := by
  have hinsert : (q.slotMap.insert slot hash).lookup s
      = if s = slot then some hash else q.slotMap.lookup s := by
    by_cases hslot : s = slot
    · subst hslot
      rw [if_pos rfl, AList.lookup_insert]
    · rw [if_neg hslot, AList.lookup_insert_ne hslot]
  unfold put get
  dsimp only
  rw [← hinsert]
  split_ifs
  · rfl
  · exact AList.lookup_erase_ne hs
  · rfl

end SlotHashQueue

/-! ## The recorder -/

/-- The recorder's state. A slot has at least one tick: with none, the first
division by `ticksPerSlot` would stop the process. -/
structure PohRecorder where
  poh : Poh
  ticksPerSlot : UInt64
  tickHeight : UInt64
  entries : List Entry
  slotHashQueue : SlotHashQueue

namespace PohRecorder

/-- The recorder of a process that starts at a slot. -/
def new (poh : Poh) (ticksPerSlot latestSlot : UInt64) : PohRecorder :=
  { poh := poh, ticksPerSlot := ticksPerSlot, tickHeight := latestSlot * ticksPerSlot,
    entries := [], slotHashQueue := SlotHashQueue.new }

/-- Jump to the end of a slot, with the hash it ended in. -/
def reset (r : PohRecorder) (lastHash : Hash) (slot : UInt64) : PohRecorder :=
  { r with
    tickHeight := slot * r.ticksPerSlot
    poh := r.poh.reset lastHash
    entries := []
    slotHashQueue := r.slotHashQueue.put slot lastHash }

/-- Run the clock from the end of one slot to the end of another. -/
def fastForward (r : PohRecorder) (seenHash : Hash) (fromSlot toSlot : UInt64) :
    PohRecorder :=
  { r with
    poh := r.poh.tickFastForward seenHash (fromSlot * r.ticksPerSlot)
      (toSlot * r.ticksPerSlot) }

/-- **Turn transactions into an entry.** -/
def recordTxs (r : PohRecorder) (txs : List Transaction) :
    PohRecorder × Except String Entry :=
  let count := txs.length
  let recorded := r.entries.length
  if count > maxTransactionsPerEntry then
    (r, .error s!"too many transactions: {count} > {maxTransactionsPerEntry}")
  else if recorded ≥ maxEntriesPerSlot then
    (r, .error s!"slot full: {recorded} entries >= {maxEntriesPerSlot}")
  else match r.poh.record (hashTransactions (txs.map some)) with
    | (poh, none) =>
      ({ r with poh := poh }, .error "PoH refused to record, tick required")
    | (poh, some pohEntry) =>
      -- the engine has moved on, whatever the checks below say
      let r := { r with poh := poh }
      let entry := newTxEntry pohEntry.numHashes pohEntry.hash txs
      let size := estimateEntrySize entry
      if pohEntry.numHashes > maxNumHashes then
        (r, .error s!"NumHashes too large: {pohEntry.numHashes} > {maxNumHashes}")
      else if size > maxEntrySize then
        (r, .error s!"entry too large: {size} bytes > {maxEntrySize}")
      else ({ r with entries := r.entries ++ [entry] }, .ok entry)

/-- **What recording leaves**: on an error the entries that were there, else
these and the one returned. -/
theorem recordTxs_spec (r : PohRecorder) (txs : List Transaction) :
    (∃ err, (r.recordTxs txs).2 = .error err ∧
      (r.recordTxs txs).1.entries = r.entries) ∨
      ∃ numHashes hash, (r.recordTxs txs).2 = .ok (newTxEntry numHashes hash txs) ∧
        (r.recordTxs txs).1.entries = r.entries
          ++ [newTxEntry numHashes hash txs] := by
  unfold recordTxs
  dsimp only
  split
  · exact Or.inl ⟨_, rfl, rfl⟩
  split
  · exact Or.inl ⟨_, rfl, rfl⟩
  split
  · exact Or.inl ⟨_, rfl, rfl⟩
  split
  · exact Or.inl ⟨_, rfl, rfl⟩
  split
  · exact Or.inl ⟨_, rfl, rfl⟩
  · exact Or.inr ⟨_, _, rfl, rfl⟩

/-- Has a slot just ended? -/
def isLastTickOfSlot (r : PohRecorder) : Bool := r.tickHeight % r.ticksPerSlot = 0

/-- **Close a tick**, and at the end of a slot remember its hash. -/
def tick (r : PohRecorder) : PohRecorder × Option Entry :=
  match r.poh.tick with
  | (poh, none) => ({ r with poh := poh }, none)
  | (poh, some pohEntry) =>
    let r := { r with poh := poh }
    if pohEntry.numHashes > maxNumHashes then (r, none)
    else
      let entry := newTickEntry pohEntry.numHashes pohEntry.hash
      let r := { r with tickHeight := r.tickHeight + 1 }
      if r.isLastTickOfSlot then
        ({ r with slotHashQueue :=
            r.slotHashQueue.put (r.tickHeight / r.ticksPerSlot) entry.hash },
            some entry)
      else (r, some entry)

/-- Take the recorded entries. -/
def drainEntries (r : PohRecorder) : PohRecorder × List Entry :=
  ({ r with entries := [] }, r.entries)

/-- The slot that ended last. -/
def currentPassedSlot (r : PohRecorder) : UInt64 := r.tickHeight / r.ticksPerSlot

/-- The slot under way. -/
def currentSlot (r : PohRecorder) : UInt64 := r.tickHeight / r.ticksPerSlot + 1

/-- The hash a slot ended in, or zeros when it is no longer known. -/
def getSlotHash (r : PohRecorder) (slot : UInt64) : Hash :=
  (r.slotHashQueue.get slot).getD zeroHash

/-- The hash a slot ended in, if it is still known. -/
def getSlotHashFromQueue (r : PohRecorder) (slot : UInt64) : Option Hash :=
  r.slotHashQueue.get slot

/-- One step of the engine's background loop. -/
def autoHash (r : PohRecorder) : PohRecorder := { r with poh := r.poh.autoHash }

end PohRecorder

end Mmn
