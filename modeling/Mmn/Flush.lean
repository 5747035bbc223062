import Mmn.Clock
import Mmn.Runs
import Mmn.Sample

/-!
# The order of flushed entries

The batch loop records entries and the flush loop delivers them. An
iteration of the flush loop takes the recorded entries, makes a tick, and
hands on what it took with the tick behind it; taking and ticking are two
critical sections. An entry that is recorded between the two is before the
tick in the hash chain and after it in what is delivered, because it waits
for the next iteration (`tick_overtakes_entry`).

`PohService` is the flush loop with two ghost logs: what the engine has
produced, and what was delivered. Under the condition that no entry waits
when an iteration closes a tick, the second log is the first less what still
waits, in order (`ordered_of_run`). The other part of the condition is about
entries the engine has made and the recorder refuses, which no log but the
engine's ever has: those that claim more than `maxNumHashes` hashes, and at
a pace of at most `maxNumHashes` to a tick there are none.
-/

namespace Mmn

section

variable [Primitives]

/-! ## What the recorder does with the engine's entries -/

namespace PohRecorder

/-- The entry the engine makes when transactions are recorded, whatever the
recorder does with it. -/
def recordedEntry (r : PohRecorder) (txs : List Transaction) : Option Entry :=
  if txs.length > maxTransactionsPerEntry ∨
    r.entries.length ≥ maxEntriesPerSlot then none
  else (r.poh.record (hashTransactions (txs.map some))).2.map
    (fun e => newTxEntry e.numHashes e.hash txs)

/-- The entry the engine makes when a tick is closed, whatever the recorder
does with it. -/
def tickEntry (r : PohRecorder) : Option Entry :=
  r.poh.tick.2.map (fun e => newTickEntry e.numHashes e.hash)

omit [Primitives] in
/-- No entry of at most `maxTransactionsPerEntry` transactions is too large. -/
theorem estimateEntrySize_newTxEntry {txs : List Transaction}
    (h : txs.length ≤ maxTransactionsPerEntry) (numHashes : UInt64) (hash : Hash) :
    estimateEntrySize (newTxEntry numHashes hash txs) ≤ maxEntrySize := by
  unfold estimateEntrySize
  rw [show (newTxEntry numHashes hash txs).transactions.length = txs.length from
    List.length_map _]
  have hcount : maxTransactionsPerEntry = 6000 := rfl
  have hsize : maxEntrySize = 1048576 := rfl
  omega

omit [Primitives] in
theorem not_maxNumHashes_lt {numHashes : UInt64} (h : numHashes < maxNumHashes) :
    ¬numHashes + 1 > maxNumHashes := by
  have hlt := UInt64.lt_iff_toNat_lt.mp h
  have hmax : maxNumHashes.toNat = 100 := rfl
  rw [gt_iff_lt, UInt64.lt_iff_toNat_lt, UInt64.toNat_add, UInt64.toNat_one]
  omega

/-- **Recording, while the counter is in bounds**: nothing happens, or the
engine's entry is kept. -/
theorem recordTxs_cases (r : PohRecorder) (txs : List Transaction)
    (h : r.poh.remainingHashes > 1 → r.poh.numHashes < maxNumHashes) :
    (r.recordedEntry txs = none ∧ (r.recordTxs txs).1 = r) ∨
      ∃ e, r.recordedEntry txs = some e ∧ e.tick = false ∧ r.poh.remainingHashes > 1 ∧
        (r.recordTxs txs).1 = { r with
          poh := (r.poh.record (hashTransactions (txs.map some))).1
          entries := r.entries ++ [e] } := by
  unfold recordTxs recordedEntry
  by_cases hcount : txs.length > maxTransactionsPerEntry
  · exact Or.inl (by simp [hcount])
  by_cases hfull : r.entries.length ≥ maxEntriesPerSlot
  · exact Or.inl (by simp [hcount, hfull])
  rw [if_neg (not_or.mpr ⟨hcount, hfull⟩)]
  dsimp only
  rw [if_neg hcount, if_neg hfull]
  by_cases hleft : r.poh.remainingHashes ≤ 1
  · have hrefused : r.poh.record (hashTransactions (txs.map some)) = (r.poh, none) :=
      if_pos hleft
    rw [hrefused]
    exact Or.inl ⟨rfl, rfl⟩
  · have hleft' : r.poh.remainingHashes > 1 := UInt64.not_le.mp hleft
    have hbound := not_maxNumHashes_lt (h hleft')
    cases hrecord : r.poh.record (hashTransactions (txs.map some)) with
    | mk poh e =>
      unfold Poh.record at hrecord
      rw [if_neg hleft] at hrecord
      cases hrecord
      refine Or.inr ⟨_, rfl, rfl, hleft', ?_⟩
      dsimp only [Poh.hashOnce]
      rw [if_neg hbound, if_neg (Nat.not_lt.mpr
        (estimateEntrySize_newTxEntry (Nat.not_lt.mp hcount) _ _))]

/-- The recorder after a tick that made an entry. -/
def ticked (r : PohRecorder) (e : Entry) : PohRecorder :=
  { r with
    poh := r.poh.tick.1
    tickHeight := r.tickHeight + 1
    slotHashQueue := if (r.tickHeight + 1) % r.ticksPerSlot = 0 then
        r.slotHashQueue.put ((r.tickHeight + 1) / r.ticksPerSlot) e.hash
      else r.slotHashQueue }

/-- Would a tick now close, and its entry be handed on? -/
def closesTick (r : PohRecorder) : Bool :=
  decide (r.poh.remainingHashes = 1) && decide (r.poh.numHashes + 1 ≤ maxNumHashes)

/-- The entry of a tick that closes. -/
def closingTick (r : PohRecorder) : Entry :=
  newTickEntry (r.poh.numHashes + 1) (sha256 r.poh.hash.toList)

/-- The engine makes the tick's entry when the tick's hash is the one left. -/
theorem tickEntry_eq (r : PohRecorder) :
    r.tickEntry = if r.poh.remainingHashes = 1 then some r.closingTick else none := by
  unfold tickEntry Poh.tick
  by_cases hleft : r.poh.remainingHashes = 1
  · rw [if_neg (not_not.mpr hleft), if_pos hleft]
    rfl
  · rw [if_pos hleft, if_neg hleft]
    rfl

/-- **A tick**, whatever the counters are at. -/
theorem tick_eq (r : PohRecorder) :
    r.tick = if r.closesTick then (r.ticked r.closingTick, some r.closingTick)
      else ({ r with poh := r.poh.tick.1 }, none) := by
  unfold tick
  by_cases hleft : r.poh.remainingHashes = 1
  · have hpoh : r.poh.tick = ({ r.poh.hashOnce r.poh.hash.toList with
        remainingHashes := r.poh.hashesPerTick, numHashes := 0 },
        some ⟨r.poh.numHashes + 1, sha256 r.poh.hash.toList⟩) :=
          if_neg (not_not.mpr hleft)
    by_cases hmax : r.poh.numHashes + 1 > maxNumHashes
    · have hopen : r.closesTick = false := by
        unfold closesTick
        rw [decide_eq_false (UInt64.not_le.mpr hmax), Bool.and_false]
      rw [hopen, hpoh]
      dsimp only
      rw [if_pos hmax]
      rfl
    · have hcloses : r.closesTick = true := by
        unfold closesTick
        rw [decide_eq_true hleft, decide_eq_true (UInt64.not_lt.mp hmax),
          Bool.and_true]
      rw [hcloses, if_pos rfl]
      unfold ticked isLastTickOfSlot
      rw [hpoh]
      dsimp only
      rw [if_neg hmax]
      simp only [decide_eq_true_eq]
      split_ifs <;> rfl
  · have hopen : r.closesTick = false := by
      unfold closesTick
      rw [decide_eq_false hleft, Bool.false_and]
    have hpoh : r.poh.tick = (r.poh, none) := if_pos hleft
    rw [hopen, hpoh]
    rfl

/-- **Closing a tick, while the counter is in bounds**: nothing happens, or
the engine's entry is handed on. -/
theorem tick_cases (r : PohRecorder)
    (h : r.poh.remainingHashes = 1 → r.poh.numHashes < maxNumHashes) :
    (r.poh.remainingHashes ≠ 1 ∧ r.tickEntry = none ∧ r.tick = (r, none)) ∨
      ∃ e, r.poh.remainingHashes = 1 ∧ r.tickEntry = some e ∧ e.tick = true ∧
        r.tick = (r.ticked e, some e) := by
  rw [tickEntry_eq, tick_eq]
  unfold closesTick
  by_cases hleft : r.poh.remainingHashes = 1
  · have hbound := UInt64.not_lt.mp (not_maxNumHashes_lt (h hleft))
    refine Or.inr ⟨r.closingTick, hleft, if_pos hleft, rfl, ?_⟩
    rw [decide_eq_true hleft, decide_eq_true hbound]
    rfl
  · refine Or.inl ⟨hleft, if_neg hleft, ?_⟩
    have hpoh : r.poh.tick = (r.poh, none) := if_pos hleft
    rw [decide_eq_false hleft, hpoh]
    rfl

end PohRecorder

/-! ## The flush loop -/

/-- **The flush loop** and the recorder it shares with the batch loop. -/
structure PohService where
  /-- The recorder. -/
  recorder : PohRecorder
  flushing : Option (List Entry)
  delivered : List Entry
  produced : List Entry

namespace PohService

/-- The loop before its first iteration. -/
def start (r : PohRecorder) : PohService :=
  { recorder := r, flushing := none, delivered := [], produced := r.entries }

/-- The critical sections. -/
inductive Op where
  | recordTxs (txs : List Transaction)
  | autoHash
  | drainEntries
  /-- The iteration makes its tick and hands on. -/
  | tick

/-- **One critical section.** An iteration ends before the next begins. -/
def step (s : PohService) : Op → Option PohService
  | .recordTxs txs => some { s with
      recorder := (s.recorder.recordTxs txs).1
      produced := s.produced ++ (s.recorder.recordedEntry txs).toList }
  | .autoHash => some { s with recorder := s.recorder.autoHash }
  | .drainEntries =>
    match s.flushing with
    | some _ => none
    | none =>
      let (recorder, entries) := s.recorder.drainEntries
      some { s with recorder := recorder, flushing := some entries }
  | .tick =>
    match s.flushing with
    | none => none
    | some entries =>
      let (recorder, tickEntry) := s.recorder.tick
      some {
        recorder := recorder
        flushing := none
        delivered := s.delivered ++ entries ++ tickEntry.toList
        produced := s.produced ++ s.recorder.tickEntry.toList }

/-- **In order**: what was delivered, what is on its way and what waits is
what the engine produced, as it produced it. -/
def Ordered (s : PohService) : Prop :=
  s.delivered ++ s.flushing.getD [] ++ s.recorder.entries = s.produced

/-- **No overtaking**: when a tick closes, no entry has been recorded since
the recorded ones were taken; and no entry claims too many hashes. -/
def NoOvertaking (s : PohService) : Op → Prop
  | .recordTxs _ =>
    s.recorder.poh.remainingHashes > 1 → s.recorder.poh.numHashes < maxNumHashes
  | .tick => s.recorder.poh.remainingHashes = 1 →
      s.recorder.poh.numHashes < maxNumHashes ∧ s.recorder.entries = []
  | .autoHash => True
  | .drainEntries => True

instance (s : PohService) (op : Op) : Decidable (s.NoOvertaking op) := by
  cases op <;> unfold NoOvertaking <;> infer_instance

/-- **One critical section** keeps the order. -/
theorem Ordered.step {s s' : PohService} {op : Op} (h : s.Ordered)
    (hC : s.NoOvertaking op) (hstep : s.step op = some s') : s'.Ordered := by
  unfold Ordered at h ⊢
  cases op with
  | recordTxs txs =>
    cases hstep
    obtain ⟨hnone, hsame⟩ | ⟨e, hsome, -, -, hafter⟩ :=
      s.recorder.recordTxs_cases txs hC
    · dsimp only
      rw [hnone, hsame, Option.toList_none, List.append_nil]
      exact h
    · dsimp only
      rw [hsome, hafter, Option.toList_some, ← h,
        List.append_assoc _ s.recorder.entries]
  | autoHash =>
    cases hstep
    exact h
  | drainEntries =>
    dsimp only [PohService.step] at hstep
    cases hflush : s.flushing with
    | some entries =>
      rw [hflush] at hstep
      cases hstep
    | none =>
      rw [hflush] at hstep h
      cases hstep
      simpa [PohRecorder.drainEntries] using h
  | tick =>
    dsimp only [PohService.step] at hstep
    cases hflush : s.flushing with
    | none =>
      rw [hflush] at hstep
      cases hstep
    | some entries =>
      rw [hflush] at hstep h
      cases hstep
      obtain ⟨-, hnone, hsame⟩ | ⟨e, hleft, hsome, -, hafter⟩ :=
        s.recorder.tick_cases (fun hleft => (hC hleft).1)
      · dsimp only
        rw [hnone, hsame]
        simpa using h
      · -- the tick goes behind what was taken, and nothing waits
        dsimp only
        rw [hsome, hafter]
        have hempty := (hC hleft).2
        rw [hempty] at h
        dsimp only [PohRecorder.ticked]
        rw [hempty, ← h]
        simp

/-- **Entries are delivered in the order they were produced** in every run
without overtaking. -/
theorem ordered_of_run {r : PohRecorder} {s : PohService}
    (hrun : Machine.Run step NoOvertaking (start r) s) : s.Ordered := by
  refine Machine.Run.invariant hrun ?_ (fun t op t' h hC hstep => h.step hC hstep)
  show [] ++ [] ++ r.entries = r.entries
  rfl

end PohService

end

/-! ## Examples -/

section Sample

attribute [local instance] Sample.primitives

open Sample PohService

/-- A recorder at two hashes to a tick. -/
def shortTick : PohRecorder := PohRecorder.new (Poh.new [] 2) 4 0

/-- **A tick that overtakes an entry**: recorded after the entries were
taken and before the tick, the entry is produced first and delivered second. -/
theorem tick_overtakes_entry :
    ∃ s, Machine.Run step Machine.Always (start shortTick) s ∧
      (s.produced.map Entry.tick == [false, true] &&
        s.delivered.map Entry.tick == [true, false] && s.flushing.isNone &&
        s.recorder.entries.isEmpty) = true := by
  have hexec : (Machine.exec step Machine.Always (start shortTick)
      [.drainEntries, .recordTxs [transfer 1 2 5 1 0], .tick, .drainEntries,
        .tick]).any (fun s => s.produced.map Entry.tick == [false, true] &&
          s.delivered.map Entry.tick == [true, false] && s.flushing.isNone &&
          s.recorder.entries.isEmpty) = true := by
    decide +kernel
  exact Machine.exists_run_of_exec hexec

/-- A run in which the entry is recorded before it is taken. -/
theorem ordered_entry_then_tick :
    ∃ s : PohService, s.Ordered ∧
      (s.delivered.map Entry.tick == [false, true]) = true := by
  have hexec : (Machine.exec step NoOvertaking (start shortTick)
      [.recordTxs [transfer 1 2 5 1 0], .drainEntries, .autoHash, .tick]).any
        (fun s => s.delivered.map Entry.tick == [false, true]) = true := by
    decide +kernel
  obtain ⟨s, hrun, hs⟩ := Machine.exists_run_of_exec hexec
  exact ⟨s, ordered_of_run hrun, hs⟩

end Sample

end Mmn
