import Mmn.Node

/-!
# The leader's loops

While a node leads, four loops run: the batch loop pulls transactions and
records them, the flush loop drains the recorded entries and ticks, the role
loop begins and ends leader terms, and every assembled block is broadcast by
a task of its own. Each function here is one round of a loop; the two halves
of a flush, the start and the end of the wait for the slot before, and
assembly and broadcast are separate rounds, because the code runs other
handlers between them.
-/

namespace Mmn

variable [Primitives]

namespace Node

/-- May the batch loop and the collection of entries work for the slot? -/
def readyToStart (cfg : Config) (n : Node) (slot : UInt64) : Bool :=
  isLeader cfg slot && n.leaderStartAtSlot ≠ noSlot

/-- The transactions to record next; none when nothing is pending. -/
def peekPendingTxs (n : Node) (size : ℕ) : Option (List Transaction) :=
  if n.pendingTxs.length = 0 then none else some (n.pendingTxs.take size)

/-- **One round of the batch loop**: pull transactions, record as many as
fit into one entry, and forget those that were recorded. -/
def leaderBatch (cfg : Config) (n : Node) : Option Node :=
  let slot := n.recorder.currentSlot
  if !isLeader cfg slot then some n
  else if !n.readyToStart cfg slot then some n
  else match n.mempool.pullBatch n.dedup n.tracker cfg.batchSize with
    | none => none
    | some (mempool, dedup, tracker, batch) =>
      let n := { n with
        mempool := mempool, dedup := dedup, tracker := tracker
        pendingTxs := n.pendingTxs ++ batch }
      match n.peekPendingTxs cfg.batchSize with
      | none => some n
      | some recordTxs =>
        match n.recorder.recordTxs recordTxs with
        | (recorder, .error _) => some { n with recorder := recorder }
        | (recorder, .ok _) => some { n with
            recorder := recorder
            pendingTxs := n.pendingTxs.drop recordTxs.length }

/-- **What a round of the batch loop does**: nothing out of turn, else it
adds what it pulls to the pending transactions, and may record the first of
them as one entry. -/
theorem leaderBatch_cases {cfg : Config} {n n' : Node}
    (h : n.leaderBatch cfg = some n') :
    (n.readyToStart cfg n.recorder.currentSlot = false ∧ n' = n) ∨
      ∃ mempool dedup tracker batch recorder pending,
        n.readyToStart cfg n.recorder.currentSlot = true ∧
        n.mempool.pullBatch n.dedup n.tracker cfg.batchSize
          = some (mempool, dedup, tracker, batch) ∧
        n' = { n with
          mempool := mempool, dedup := dedup, tracker := tracker
          recorder := recorder, pendingTxs := pending } ∧
        ((pending = n.pendingTxs ++ batch ∧ recorder.entries = n.recorder.entries) ∨
          ∃ recorded numHashes hash, n.pendingTxs ++ batch = recorded ++ pending ∧
            recorder.entries = n.recorder.entries
              ++ [newTxEntry numHashes hash recorded]) := by
  unfold leaderBatch at h
  dsimp only at h
  split at h
  · next hlead =>
    cases h
    refine Or.inl ⟨?_, rfl⟩
    unfold readyToStart
    rw [Bool.not_eq_true' _ |>.mp hlead, Bool.false_and]
  split at h
  · next hready =>
    cases h
    exact Or.inl ⟨Bool.not_eq_true' _ |>.mp hready, rfl⟩
  next hready =>
  rw [Bool.not_eq_true', Bool.not_eq_false] at hready
  split at h
  · cases h
  next mempool dedup tracker batch hpull =>
  split at h
  · cases h
    exact Or.inr ⟨_, _, _, _, _, _, hready, hpull, rfl, Or.inl ⟨rfl, rfl⟩⟩
  next recordTxs hpeek =>
  unfold peekPendingTxs at hpeek
  split at hpeek
  · cases hpeek
  cases hpeek
  have hspec := n.recorder.recordTxs_spec ((n.pendingTxs ++ batch).take cfg.batchSize)
  split at h
  · next recorder err hrecord =>
    cases h
    rw [hrecord] at hspec
    obtain ⟨-, -, hentries⟩ | ⟨_, _, hok, -⟩ := hspec
    · exact Or.inr ⟨_, _, _, _, _, _, hready, hpull, rfl, Or.inl ⟨rfl, hentries⟩⟩
    · cases hok
  · next recorder entry hrecord =>
    cases h
    rw [hrecord] at hspec
    obtain ⟨_, herr, -⟩ | ⟨numHashes, hash, -, hentries⟩ := hspec
    · cases herr
    · refine Or.inr ⟨_, _, _, _, _, _, hready, hpull, rfl,
        Or.inr ⟨_, numHashes, hash, ?_, hentries⟩⟩
      exact (List.prefix_iff_eq_append.mp (List.take_prefix _ _)).symm

/-- Is the last entry a tick? -/
def endsInTick (entries : List Entry) : Bool :=
  match entries.getLast? with
  | some e => e.tick
  | none => false

/-- **Entries of a flush.** At the last tick of a slot the node led, they
complete its block, which is signed and put out for broadcast; during the
node's own slot they are collected. -/
def handleEntry (cfg : Config) (n : Node) (entries : List Entry)
    (now : UInt64) : Node :=
  let currentSlot := n.recorder.currentSlot
  let lastSlot := currentSlot - 1
  if n.recorder.isLastTickOfSlot && isLeader cfg lastSlot && endsInTick entries
      && decide (n.collectedEntries.length > 0) then
    let blk := (assembleBlock lastSlot (n.recorder.getSlotHash (lastSlot - 1))
      cfg.selfPubKey (n.collectedEntries ++ entries) now).sign cfg.selfPrivKey
    { n with collectedEntries := [], outbox := n.outbox ++ [blk] }
  else if isLeader cfg currentSlot && n.readyToStart cfg currentSlot then
    { n with collectedEntries := n.collectedEntries ++ entries }
  else n

/-- The first half of a flush: drain the recorded entries. -/
def drainEntries (n : Node) : Node :=
  match n.flushing with
  | some _ => n
  | none =>
    let (recorder, entries) := n.recorder.drainEntries
    { n with recorder := recorder, flushing := some entries }

/-- The second half of a flush: tick, and hand the entries on. -/
def tickAndFlush (cfg : Config) (n : Node) (now : UInt64) : Node :=
  match n.flushing with
  | none => n
  | some entries =>
    let (recorder, tickEntry) := n.recorder.tick
    let entries := entries ++ tickEntry.toList
    let n := { n with recorder := recorder, flushing := none }
    if entries.length > 0 then n.handleEntry cfg entries now else n

/-- One round of the role loop. A leader outside a term begins to wait for
the block of the slot before; a follower inside a term ends it. -/
def roleMonitor (cfg : Config) (n : Node) : Node :=
  if n.waitingFor.isSome then n
  else
    let slot := n.recorder.currentSlot
    if isLeader cfg slot then
      if n.leaderStartAtSlot = noSlot then { n with waitingFor := some slot } else n
    else if n.leaderStartAtSlot ≠ noSlot then { n with leaderStartAtSlot := noSlot }
    else n

/-- Begin a leader term at a slot, from the hash its predecessor ended in.
Entries and transactions of an earlier term are dropped. -/
def startTerm (n : Node) (slot : UInt64) (seedHash : Hash) : Node :=
  { n with
    recorder := n.recorder.reset seedHash (slot - 1)
    collectedEntries := []
    pendingTxs := []
    leaderStartAtSlot := slot
    waitingFor := none }

/-- **One round of the wait for the slot before.** The block of that slot
ends the wait; at the deadline the clock is run forward from the latest slot
known. -/
def leaderWait (n : Node) (deadline : Bool) : Node :=
  match n.waitingFor with
  | none => n
  | some slot =>
    let prevSlot := slot - 1
    if deadline then
      let lastSeenSlot := n.store.latestStore
      let (hash, fromSlot) := match n.recorder.getSlotHashFromQueue lastSeenSlot with
        | some hash => (hash, lastSeenSlot)
        | none => ((n.store.lastEntryInfoAtSlot lastSeenSlot).hash,
            (n.store.lastEntryInfoAtSlot lastSeenSlot).slot)
      let n := { n with recorder := n.recorder.fastForward hash fromSlot prevSlot }
      n.startTerm slot n.recorder.poh.hash
    else if n.store.hasCompleteBlock prevSlot then
      n.startTerm slot (n.store.lastEntryInfoAtSlot prevSlot).hash
    else n

/-- **Broadcast an assembled block**: store it, publish it, and vote for it
if it could be published. -/
def broadcastBlockWithProcessing (cfg : Config) (n : Node) (blk : BroadcastedBlock)
    (published : Bool) : Answer :=
  match n.addBlockPending blk with
  | (n, .error err) => some (n, .error err)
  | (n, .ok ()) =>
    if published then n.castVote cfg blk.slot blk.hash else some (n, .ok ())

/-- The task of one assembled block. -/
def broadcastTask (cfg : Config) (n : Node) (i : ℕ) (published : Bool) :
    Option Node :=
  match n.outbox[i]? with
  | none => some n
  | some blk =>
    (({ n with outbox := n.outbox.eraseIdx i } : Node).broadcastBlockWithProcessing
      cfg blk published).map Prod.fst

end Node

end Mmn
