import Mmn.Batches
import Mmn.RoundTrip
import Mmn.Stream

/-!
# Sending blocks over a stream

A peer that asks for blocks from a slot on is answered on a stream: the
request itself, and then the stored blocks in batches of a hundred at most.
The sender goes through windows of slots. The first is the one asked for,
cut off at the latest finalized slot; the next begins after the end of the
one before and has a hundred slots, cut off in the same way; and it goes on
until the latest finalized slot is passed, beyond the end that was asked
for. A batch goes out when it is full and at the end of every window.

The slots are machine words, and both loops end because none of them wraps:
a hundred slots beyond the latest finalized one there are still slots. Then
the answer is complete: the batches hold the stored blocks from the first
slot asked for to the latest finalized one, in order and each once, and no
batch is empty (`sendBlocksOverStream_complete`). The last matters to
whoever reads the stream, for an empty batch stops them.
-/

namespace Mmn

/-- The most blocks in a batch, and the slots in every window but the first. -/
abbrev syncBlocksBatchSize : UInt64 := 100

/-- What is written into a stream. -/
structure SentStream where
  request : SyncRequest
  batches : List (List BroadcastedBlock)

namespace Store

variable {s : Store}

/-- The message of the block of a slot, if there is one. -/
def messageAt (s : Store) (slot : UInt64) : Option BroadcastedBlock :=
  s.convertBlockToBroadcastedBlock (s.block slot)

/-- **The loop over the slots of a window.** It ends when the slot has
passed the end of the window; `none` is a loop that has not ended yet. -/
def sendWindow (s : Store) (toSlot : UInt64) :
    ℕ → UInt64 → Batches BroadcastedBlock → Option (Batches BroadcastedBlock)
  | 0, _, _ => none
  | fuel + 1, slot, batches =>
    if slot ≤ toSlot then
      s.sendWindow toSlot fuel (slot + 1)
        (batches.push syncBlocksBatchSize.toNat (s.messageAt slot))
    else some batches

/-- **The loop over windows.** -/
def sendWindows (s : Store) (windowFuel : ℕ) :
    ℕ → UInt64 → UInt64 → Batches BroadcastedBlock → Option (Batches BroadcastedBlock)
  | 0, _, _, _ => none
  | fuel + 1, fromSlot, toSlot, batches =>
    let localLatestSlot := s.latestFinalized
    if fromSlot > localLatestSlot then some batches
    else
      -- the end that was asked for ends the first window only
      let toSlot := if toSlot > localLatestSlot then localLatestSlot else toSlot
      match s.sendWindow toSlot windowFuel fromSlot batches with
      | none => none
      | some batches =>
        let nextFrom := toSlot + 1
        s.sendWindows windowFuel fuel nextFrom (nextFrom + syncBlocksBatchSize - 1)
          batches.close

/-- **Answer a request on a stream**, all writes succeeding. A request from
beyond the latest finalized slot gets no batches. -/
def sendBlocksOverStream (s : Store) (req : SyncRequest) (fuel : ℕ) :
    Option SentStream :=
  let localLatestSlot := s.latestFinalized
  if localLatestSlot > 0 ∧ req.fromSlot > localLatestSlot then
    some { request := req, batches := [] }
  else
    (s.sendWindows fuel fuel req.fromSlot req.toSlot .empty).map
      (fun batches => { request := req, batches := batches.closed })

/-- The messages of the stored blocks of some slots, in order. -/
def messagesIn (s : Store) (slot count : ℕ) : List BroadcastedBlock :=
  (List.range' slot count).filterMap (fun k => s.messageAt (UInt64.ofNat k))

theorem messagesIn_succ (s : Store) (slot count : ℕ) :
    s.messagesIn slot (count + 1)
      = (s.messageAt (UInt64.ofNat slot)).toList ++ s.messagesIn (slot + 1)
        count := by
  unfold messagesIn
  rw [List.range'_succ, List.filterMap_cons]
  cases s.messageAt (UInt64.ofNat slot) <;> rfl

theorem messagesIn_add (s : Store) (slot m k : ℕ) :
    s.messagesIn slot (m + k) = s.messagesIn slot m ++ s.messagesIn (slot + m) k := by
  unfold messagesIn
  rw [← List.range'_append_1, List.filterMap_append]

/-! ## The loops end -/

/-- **A window is gone through**: the buffer has the messages of its slots
after those it had. -/
theorem sendWindow_spec (s : Store) {toSlot : UInt64}
    (htop : toSlot.toNat + 1 < 2 ^ 64) {fuel : ℕ} {slot : UInt64}
    (hslot : slot.toNat ≤ toSlot.toNat + 1)
    (hfuel : toSlot.toNat + 1 < slot.toNat + fuel) {b : Batches BroadcastedBlock}
    (hb : b.Bounded syncBlocksBatchSize.toNat) :
    ∃ b', s.sendWindow toSlot fuel slot b = some b' ∧
      b'.Bounded syncBlocksBatchSize.toNat ∧
      b'.content = b.content ++ s.messagesIn slot.toNat
        (toSlot.toNat + 1 - slot.toNat) := by
  induction fuel generalizing slot b with
  | zero => omega
  | succ fuel ih =>
    unfold sendWindow
    by_cases hle : slot ≤ toSlot
    · have hnat : slot.toNat ≤ toSlot.toNat := UInt64.le_iff_toNat_le.mp hle
      have hnext : (slot + 1).toNat = slot.toNat + 1 :=
        UInt64.toNat_succ_of_lt (by omega)
      rw [if_pos hle]
      obtain ⟨b', hsend, hbounded, hcontent⟩ := ih
        (show (slot + 1).toNat ≤ toSlot.toNat + 1 by omega) (by omega)
          (hb.push (s.messageAt slot))
      refine ⟨b', hsend, hbounded, ?_⟩
      have hcount : toSlot.toNat + 1 - slot.toNat
          = toSlot.toNat + 1 - (slot.toNat + 1) + 1 := by
        omega
      rw [hcontent, Batches.content_push, hnext, hcount, messagesIn_succ,
        UInt64.ofNat_toNat, List.append_assoc]
    · have hnat : toSlot.toNat < slot.toNat :=
        Nat.lt_of_not_le fun h => hle (UInt64.le_iff_toNat_le.mpr h)
      refine ⟨b, if_neg hle, hb, ?_⟩
      have hnone : toSlot.toNat + 1 - slot.toNat = 0 := by omega
      rw [hnone]
      exact (List.append_nil _).symm

/-- The window after a slot is not empty, if the words do not wrap in it. -/
theorem le_next_window {cut : UInt64} (h : cut.toNat + 101 < 2 ^ 64) :
    cut + 1 ≤ cut + 1 + syncBlocksBatchSize - 1 := by
  have hnext : (cut + 1).toNat = cut.toNat + 1 := UInt64.toNat_succ_of_lt (by omega)
  have hsum : (cut + 1 + syncBlocksBatchSize).toNat = cut.toNat + 1 + 100 := by
    rw [UInt64.toNat_add, hnext]
    exact Nat.mod_eq_of_lt (by show cut.toNat + 1 + 100 < 2 ^ 64; omega)
  have hone : (1 : UInt64) ≤ cut + 1 + syncBlocksBatchSize := by
    rw [UInt64.le_iff_toNat_le, hsum, UInt64.toNat_one]
    omega
  rw [UInt64.le_iff_toNat_le, UInt64.toNat_sub_of_le _ _ hone, hsum, hnext,
    UInt64.toNat_one]
  omega

/-- **All windows are gone through**: from any first window on, the buffer
has the messages of all slots to the latest finalized one. -/
theorem sendWindows_spec (htop : s.latestFinalized.toNat < 2 ^ 64 - 101)
    {windowFuel fuel : ℕ} (hwindow : s.latestFinalized.toNat + 1 < windowFuel)
    {fromSlot toSlot : UInt64} (hfrom : fromSlot ≤ toSlot) (hpos : 1 ≤ fuel)
    (hfuel : s.latestFinalized.toNat + 1 < fromSlot.toNat + fuel)
    {b : Batches BroadcastedBlock} (hb : b.Bounded syncBlocksBatchSize.toNat)
    (hclosed : b.pending = []) :
    ∃ b', s.sendWindows windowFuel fuel fromSlot toSlot b = some b' ∧
      b'.Bounded syncBlocksBatchSize.toNat ∧ b'.pending = [] ∧
      b'.content = b.content
        ++ s.messagesIn fromSlot.toNat
          (s.latestFinalized.toNat + 1 - fromSlot.toNat) := by
  induction fuel generalizing fromSlot toSlot b with
  | zero => omega
  | succ fuel ih =>
    unfold sendWindows
    dsimp only
    by_cases hdone : fromSlot > s.latestFinalized
    · have hnat : s.latestFinalized.toNat < fromSlot.toNat :=
        UInt64.lt_iff_toNat_lt.mp hdone
      have hnone : s.latestFinalized.toNat + 1 - fromSlot.toNat = 0 := by omega
      refine ⟨b, if_pos hdone, hb, hclosed, ?_⟩
      rw [hnone]
      exact (List.append_nil _).symm
    · rw [if_neg hdone]
      have hnat : fromSlot.toNat ≤ s.latestFinalized.toNat :=
        UInt64.le_iff_toNat_le.mp (UInt64.not_lt.mp hdone)
      -- where the window ends, cut off at the latest finalized slot
      generalize hcut : (if toSlot > s.latestFinalized then s.latestFinalized
        else toSlot) = cut
      have hends : fromSlot.toNat ≤ cut.toNat ∧
          cut.toNat ≤ s.latestFinalized.toNat := by
        rw [← hcut]
        split
        · exact ⟨hnat, le_rfl⟩
        · next hle =>
          exact ⟨UInt64.le_iff_toNat_le.mp hfrom,
            UInt64.le_iff_toNat_le.mp (UInt64.not_lt.mp hle)⟩
      obtain ⟨b₁, hsend, hb₁, hcontent⟩ := sendWindow_spec s
        (show cut.toNat + 1 < 2 ^ 64 by omega)
          (show fromSlot.toNat ≤ cut.toNat + 1 by omega)
        (show cut.toNat + 1 < fromSlot.toNat + windowFuel by omega) hb
      rw [hsend]
      have hnext : (cut + 1).toNat = cut.toNat + 1 :=
        UInt64.toNat_succ_of_lt (by omega)
      obtain ⟨b', hrest, hb', hclosed', hcontent'⟩ := ih
        (le_next_window (show cut.toNat + 101 < 2 ^ 64 by omega)) (by omega)
          (by omega) hb₁.close
        b₁.pending_close
      refine ⟨b', hrest, hb', hclosed', ?_⟩
      have hcount : s.latestFinalized.toNat + 1 - fromSlot.toNat
          = (cut.toNat + 1 - fromSlot.toNat)
              + (s.latestFinalized.toNat + 1 - (cut.toNat + 1)) := by
        omega
      have hstart : fromSlot.toNat + (cut.toNat + 1 - fromSlot.toNat)
          = cut.toNat + 1 := by omega
      rw [hcontent', Batches.content_close, hcontent, hnext, hcount,
        messagesIn_add, hstart, List.append_assoc]

/-- **The answer is complete.** For every request whose end is not before
its beginning, and every store whose latest finalized slot leaves room for
the next window: the loops end, and the batches hold the stored blocks from
the first slot asked for to the latest finalized one, in order and each
once. No batch is empty, and none has more than a hundred blocks. -/
theorem sendBlocksOverStream_complete (s : Store) (req : SyncRequest)
    (hreq : req.fromSlot ≤ req.toSlot) (htop : s.latestFinalized.toNat < 2 ^ 64 - 101)
    {fuel : ℕ} (hfuel : s.latestFinalized.toNat + 1 < fuel) :
    ∃ batches, s.sendBlocksOverStream req fuel = some
      { request := req, batches := batches } ∧
      batches.flatten = s.messagesIn req.fromSlot.toNat
        (s.latestFinalized.toNat + 1 - req.fromSlot.toNat) ∧
      ∀ batch ∈ batches, 1 ≤ batch.length ∧
      batch.length ≤ syncBlocksBatchSize.toNat := by
  unfold sendBlocksOverStream
  dsimp only
  split
  · next hbeyond =>
    have hnat : s.latestFinalized.toNat < req.fromSlot.toNat :=
      UInt64.lt_iff_toNat_lt.mp hbeyond.2
    have hnone : s.latestFinalized.toNat + 1 - req.fromSlot.toNat = 0 := by omega
    exact ⟨[], rfl, by rw [hnone]; rfl, fun _ h => absurd h List.not_mem_nil⟩
  · obtain ⟨b, hsend, hb, hclosed, hcontent⟩ := sendWindows_spec htop hfuel hreq
      (Nat.one_le_of_lt hfuel) (by omega) (Batches.bounded_empty (by decide)) rfl
    refine ⟨b.closed, by rw [hsend]; rfl, ?_, hb.closed⟩
    unfold Batches.content at hcontent
    rw [hclosed, List.append_nil] at hcontent
    exact hcontent

end Store

section

attribute [local instance] Sample.primitives

/-- A store with blocks at slots one and three and none at slot two,
finalized to slot three. -/
def Sample.gapStore : Store :=
  { (Store.empty.addBlock (blockWith 1 1 0 [])).addBlock (blockWith 3 3 0 []) with
    latestFinalized := 3 }

/-- A request for slot one alone is answered with both blocks. -/
theorem sendBlocksOverStream_gap :
    ∃ batches, Sample.gapStore.sendBlocksOverStream ⟨"request", 1, 1⟩ 5
        = some { request := ⟨"request", 1, 1⟩, batches := batches } ∧
      batches.flatten.map (fun b => b.slot) = [1, 3] := by
  obtain ⟨batches, hsend, hflatten, -⟩ :=
    Store.sendBlocksOverStream_complete Sample.gapStore
    ⟨"request", 1, 1⟩ (by decide) (by decide +kernel) (show _ < 5 by decide +kernel)
  refine ⟨batches, hsend, ?_⟩
  rw [hflatten]
  decide +kernel

end

end Mmn
