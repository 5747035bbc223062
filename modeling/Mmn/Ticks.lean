import Mmn.Refusals

/-!
# The hashes of a tick

The engine has two counters. One counts the hashes since the last entry, and
goes back to zero with every entry. The other counts down the hashes left in
the tick, and goes back to the full number with every tick. A hash moves
both of them by one. The last hash of a tick is kept for the tick: the
background loop and the recording stop when no other is left, and only then
can the tick be closed.

A tick therefore takes exactly the hashes it is configured with, whatever
the engine is asked for and in whatever order (`ticks_take_hashesPerTick`).
Neither counter wraps on the way, also in the mode in which a tick has as
many hashes as a machine word can count.

To say so the engine is written once more with three ghosts beside it
(`Meter`): the hashes made since the last tick, the entries produced since,
and the entries of every tick that was closed. Without the ghosts it is the
engine (`Meter.poh_run`), and no entry is lost or made up
(`Meter.produced_run`).
-/

namespace Mmn

section

variable [Primitives]

/-! ## The engine with its ghosts -/

/-- What the engine is asked for, with any digest. -/
inductive EngineOp where
  | autoHash
  /-- An entry with a digest mixed in. -/
  | record (mixin : Hash)
  | tick

/-- The engine after an operation, and the entry it makes. -/
def Poh.apply (p : Poh) : EngineOp → Poh × Option PohEntry
  | .autoHash => (p.autoHash, none)
  | .record mixin => p.record mixin
  | .tick => p.tick

/-- The engine after some operations, and the entries it makes. -/
def Poh.applyAll (p : Poh) : List EngineOp → Poh × List PohEntry
  | [] => (p, [])
  | op :: ops =>
    let rest := (p.apply op).1.applyAll ops
    (rest.1, (p.apply op).2.toList ++ rest.2)

/-- **The engine with its ghosts.** -/
structure Meter where
  poh : Poh
  /-- The hashes made since the last tick, or since the reset. -/
  hashes : ℕ
  entries : List PohEntry
  /-- The entries of the ticks that were closed, each with the tick's own at
  its end. -/
  ticks : List (List PohEntry)

namespace Meter

/-- The engine is reset. -/
def start (p : Poh) (seed : Hash) : Meter :=
  { poh := p.reset seed, hashes := 0, entries := [], ticks := [] }

/-- One hash, which is counted. -/
def hashOnce (m : Meter) (bs : Bytes) : Meter :=
  { m with poh := m.poh.hashOnce bs, hashes := m.hashes + 1 }

/-- The entry of the hashes since the last one. -/
def entry (m : Meter) :
    PohEntry := { numHashes := m.poh.numHashes, hash := m.poh.hash }

/-- One step of the background loop. -/
def autoHash (m : Meter) : Meter :=
  if m.poh.remainingHashes > 1 then m.hashOnce m.poh.hash.toList else m

/-- Mix a digest in. -/
def record (m : Meter) (mixin : Hash) : Meter :=
  if m.poh.remainingHashes ≤ 1 then m
  else
    let m := m.hashOnce (m.poh.hash.toList ++ mixin.toList)
    { m with poh := { m.poh with numHashes := 0 }, entries := m.entries ++ [m.entry] }

/-- Close the tick. -/
def tick (m : Meter) : Meter :=
  if m.poh.remainingHashes ≠ 1 then m
  else
    let m := m.hashOnce m.poh.hash.toList
    { poh := { m.poh with remainingHashes := m.poh.hashesPerTick, numHashes := 0 }
      hashes := 0
      entries := []
      ticks := m.ticks ++ [m.entries ++ [m.entry]] }

/-- One operation. -/
def perform (m : Meter) : EngineOp → Meter
  | .autoHash => m.autoHash
  | .record mixin => m.record mixin
  | .tick => m.tick

/-- Some operations. -/
def run (m : Meter) (ops : List EngineOp) : Meter := ops.foldl perform m

/-- All entries. -/
def produced (m : Meter) : List PohEntry := m.ticks.flatten ++ m.entries

variable {m : Meter}

/-- **One operation is that of the engine**, and the entry it makes is the
next. -/
theorem perform_eq (m : Meter) (op : EngineOp) :
    (m.perform op).poh = (m.poh.apply op).1 ∧
      (m.perform op).produced = m.produced ++ (m.poh.apply op).2.toList := by
  cases op with
  | autoHash =>
    show m.autoHash.poh = m.poh.autoHash ∧ m.autoHash.produced = m.produced ++ []
    unfold Meter.autoHash Poh.autoHash
    split
    · exact ⟨rfl, (List.append_nil _).symm⟩
    · exact ⟨rfl, (List.append_nil _).symm⟩
  | record mixin =>
    show (m.record mixin).poh = (m.poh.record mixin).1 ∧
      (m.record mixin).produced = m.produced ++ (m.poh.record mixin).2.toList
    unfold Meter.record Poh.record
    split
    · exact ⟨rfl, (List.append_nil _).symm⟩
    · exact ⟨rfl, (List.append_assoc _ _ _).symm⟩
  | tick =>
    show m.tick.poh = m.poh.tick.1 ∧ m.tick.produced = m.produced
      ++ m.poh.tick.2.toList
    unfold Meter.tick Poh.tick
    split
    · exact ⟨rfl, (List.append_nil _).symm⟩
    · refine ⟨rfl, ?_⟩
      show (m.ticks ++ [m.entries ++ [_]]).flatten ++ [] = m.ticks.flatten
        ++ m.entries ++ [_]
      rw [List.append_nil, List.flatten_append, List.flatten_singleton,
        List.append_assoc]
      rfl

/-- **Without the ghosts it is the engine.** -/
theorem poh_run (m : Meter) (ops : List EngineOp) :
    (m.run ops).poh = (m.poh.applyAll ops).1 := by
  induction ops generalizing m with
  | nil => rfl
  | cons op ops ih =>
    rw [run, List.foldl_cons, Poh.applyAll, ← (m.perform_eq op).1]
    exact ih _

/-- **The ghosts have the engine's entries**, in order. -/
theorem produced_run (m : Meter) (ops : List EngineOp) :
    (m.run ops).produced = m.produced ++ (m.poh.applyAll ops).2 := by
  induction ops generalizing m with
  | nil => exact (List.append_nil _).symm
  | cons op ops ih =>
    obtain ⟨hpoh, hproduced⟩ := m.perform_eq op
    rw [run, List.foldl_cons, Poh.applyAll, ← List.append_assoc, ← hproduced, ← hpoh]
    exact ih _

/-! ## The counters -/

/-- The hashes some entries claim. -/
def claimed (es : List PohEntry) : ℕ := (es.map fun e => e.numHashes.toNat).sum

omit [Primitives] in
theorem claimed_append (es : List PohEntry) (e : PohEntry) :
    claimed (es ++ [e]) = claimed es + e.numHashes.toNat := by
  unfold claimed
  rw [List.map_append, List.sum_append, List.map_singleton, List.sum_singleton]

/-- **The counters fit the hashes made**: those made and those left are the
hashes of a tick, and those that no entry claims yet are the ones counted
since the last entry. -/
structure Fits (m : Meter) : Prop where
  total : m.poh.remainingHashes.toNat + m.hashes = m.poh.hashesPerTick.toNat
  claimed : Meter.claimed m.entries + m.poh.numHashes.toNat = m.hashes
  ticks : ∀ es ∈ m.ticks, Meter.claimed es = m.poh.hashesPerTick.toNat

/-- **The engine between two operations**: the tick's own hash is left. -/
structure Ready (m : Meter) : Prop extends Fits m where
  left : 1 ≤ m.poh.remainingHashes

omit [Primitives] in
theorem ready_start {p : Poh} (h : 1 ≤ p.hashesPerTick) (seed : Hash) :
    (start p seed).Ready where
  total := Nat.add_zero _
  claimed := rfl
  ticks := fun _ hes => absurd hes List.not_mem_nil
  left := h

/-- **A hash moves both counters by one**, and neither wraps. -/
theorem Ready.hashOnce (h : m.Ready) (bs : Bytes) :
    (m.hashOnce bs).Fits ∧
      (m.hashOnce bs).poh.remainingHashes.toNat + 1
        = m.poh.remainingHashes.toNat := by
  have hleft : 1 ≤ m.poh.remainingHashes.toNat := UInt64.le_iff_toNat_le.mp h.left
  have hsub : (m.poh.remainingHashes - 1).toNat = m.poh.remainingHashes.toNat - 1 :=
    UInt64.toNat_sub_of_le _ _ h.left
  have htotal := h.total
  have hclaimed := h.claimed
  -- No more hashes are counted than a tick has, so the count does not wrap.
  have hsucc : (m.poh.numHashes + 1).toNat = m.poh.numHashes.toNat + 1 := by
    have hlt := m.poh.hashesPerTick.toNat_lt
    exact UInt64.toNat_succ_of_lt (by omega)
  refine ⟨⟨?_, ?_, h.ticks⟩, ?_⟩
  · show (m.poh.remainingHashes - 1).toNat + (m.hashes + 1)
      = m.poh.hashesPerTick.toNat
    omega
  · show Meter.claimed m.entries + (m.poh.numHashes + 1).toNat = m.hashes + 1
    omega
  · show (m.poh.remainingHashes - 1).toNat + 1 = m.poh.remainingHashes.toNat
    omega

theorem Ready.autoHash (h : m.Ready) : m.autoHash.Ready := by
  unfold Meter.autoHash
  split
  · next hmore =>
    obtain ⟨hfits, hleft⟩ := h.hashOnce m.poh.hash.toList
    have hone := UInt64.lt_iff_toNat_lt.mp hmore
    rw [UInt64.toNat_one] at hone
    refine ⟨hfits, UInt64.le_iff_toNat_le.mpr ?_⟩
    rw [UInt64.toNat_one]
    omega
  · exact h

/-- An entry claims what was counted, and the count begins again. -/
theorem Ready.record (h : m.Ready) (mixin : Hash) : (m.record mixin).Ready := by
  unfold Meter.record
  split
  · exact h
  · next hmore =>
    obtain ⟨hfits, hleft⟩ := h.hashOnce (m.poh.hash.toList ++ mixin.toList)
    have hone := UInt64.lt_iff_toNat_lt.mp (UInt64.not_le.mp hmore)
    rw [UInt64.toNat_one] at hone
    dsimp only
    generalize m.hashOnce (m.poh.hash.toList ++ mixin.toList) = m' at hfits hleft
    refine ⟨⟨hfits.total, ?_, hfits.ticks⟩, UInt64.le_iff_toNat_le.mpr ?_⟩
    · show Meter.claimed (m'.entries ++ [m'.entry]) + 0 = m'.hashes
      rw [claimed_append]
      exact hfits.claimed
    · show (1 : UInt64).toNat ≤ m'.poh.remainingHashes.toNat
      rw [UInt64.toNat_one]
      omega

/-- **A tick that is closed has its hashes**: none is left, so all are made,
and its entries claim them. -/
theorem Ready.tick (h : m.Ready) : m.tick.Ready := by
  unfold Meter.tick
  split
  · exact h
  · next hlast =>
    rw [not_not] at hlast
    obtain ⟨hfits, hleft⟩ := h.hashOnce m.poh.hash.toList
    rw [hlast, UInt64.toNat_one] at hleft
    dsimp only
    have hhashes : 1 ≤ (m.hashOnce m.poh.hash.toList).hashes := Nat.le_add_left 1 _
    generalize m.hashOnce m.poh.hash.toList = m' at hfits hleft hhashes
    have htotal := hfits.total
    -- The hash just made was the last one, and the tick's own entry claims
    -- what no entry has claimed.
    refine ⟨⟨Nat.add_zero _, rfl, ?_⟩, UInt64.le_iff_toNat_le.mpr ?_⟩
    · intro es hes
      obtain hes | hes := List.mem_append.mp hes
      · exact hfits.ticks es hes
      · rw [List.mem_singleton.mp hes, claimed_append]
        show Meter.claimed m'.entries + m'.poh.numHashes.toNat
          = m'.poh.hashesPerTick.toNat
        rw [hfits.claimed]
        omega
    · show (1 : UInt64).toNat ≤ m'.poh.hashesPerTick.toNat
      rw [UInt64.toNat_one]
      omega

theorem Ready.perform (h : m.Ready) (op : EngineOp) : (m.perform op).Ready := by
  cases op with
  | autoHash => exact h.autoHash
  | record mixin => exact h.record mixin
  | tick => exact h.tick

theorem Ready.run (h : m.Ready) (ops : List EngineOp) : (m.run ops).Ready := by
  induction ops generalizing m with
  | nil => exact h
  | cons op ops ih => exact ih (h.perform op)

/-- No operation changes the number of hashes in a tick. -/
theorem hashesPerTick_run (m : Meter) (ops : List EngineOp) :
    (m.run ops).poh.hashesPerTick = m.poh.hashesPerTick := by
  induction ops generalizing m with
  | nil => rfl
  | cons op ops ih =>
    refine (ih (m.perform op)).trans ?_
    cases op with
    | autoHash =>
      show m.autoHash.poh.hashesPerTick = _
      unfold Meter.autoHash
      split <;> rfl
    | record mixin =>
      show (m.record mixin).poh.hashesPerTick = _
      unfold Meter.record
      split <;> rfl
    | tick =>
      show m.tick.poh.hashesPerTick = _
      unfold Meter.tick
      split <;> rfl

end Meter

/-- **Every tick takes exactly its hashes.** Whatever number of hashes the
engine is configured with, and whatever it is asked for after a reset: one
hash at least is left and no more than a tick has, those left and those made
since the last tick or the reset are the hashes of a tick, and so are those
that the entries of a closed tick claim together.

The counting changes nothing: the counted engine is the engine, and the
entries of the closed ticks followed by those since are the entries it
makes, in order. -/
theorem ticks_take_hashesPerTick {seed : Bytes}
    {hashesPerTickOpt : Option UInt64} {p : Poh}
    (h : newPoh seed hashesPerTickOpt = some p) (lastHash : Hash)
    (ops : List EngineOp) :
    ((Meter.start p lastHash).run ops).poh = ((p.reset lastHash).applyAll ops).1 ∧
      ((Meter.start p lastHash).run ops).ticks.flatten
          ++ ((Meter.start p lastHash).run ops).entries
        = ((p.reset lastHash).applyAll ops).2 ∧
      1 ≤ ((Meter.start p lastHash).run ops).poh.remainingHashes ∧
      ((Meter.start p lastHash).run ops).poh.remainingHashes ≤ p.hashesPerTick ∧
      ((Meter.start p lastHash).run ops).poh.remainingHashes.toNat
        + ((Meter.start p lastHash).run ops).hashes = p.hashesPerTick.toNat ∧
      ∀ es ∈ ((Meter.start p lastHash).run ops).ticks,
        Meter.claimed es = p.hashesPerTick.toNat := by
  have hone : 1 ≤ p.hashesPerTick := by
    unfold newPoh at h
    dsimp only at h
    split at h
    · cases h
    · next hmore =>
      cases h
      exact UInt64.le_of_lt (UInt64.not_le.mp hmore)
  have hready := (Meter.ready_start hone lastHash).run ops
  have hpace : ((Meter.start p lastHash).run ops).poh.hashesPerTick
      = p.hashesPerTick :=
    Meter.hashesPerTick_run _ ops
  have htotal := hready.total
  have hticks := hready.ticks
  rw [hpace] at htotal hticks
  exact ⟨Meter.poh_run _ ops, Meter.produced_run _ ops, hready.left,
    UInt64.le_iff_toNat_le.mpr (htotal ▸ Nat.le_add_right _ _), htotal, hticks⟩

end

section

attribute [local instance] Sample.primitives

/-- With four hashes in a tick: a plain one and a digest mixed in, a plain
one and a digest that is refused, and the tick. -/
theorem ticks_take_four_hashes :
    (((Meter.start (Poh.new [] 4) zeroHash).run
        [.autoHash, .record zeroHash, .autoHash, .record zeroHash, .tick]).ticks.map
          fun es => es.map fun e => e.numHashes) = [[2, 2]] ∧
      ∀ es ∈ ((Meter.start (Poh.new [] 4) zeroHash).run
        [.autoHash, .record zeroHash, .autoHash, .record zeroHash, .tick]).ticks,
        Meter.claimed es = 4 := by
  refine ⟨by decide +kernel, ?_⟩
  exact (ticks_take_hashesPerTick
    (show newPoh [] (some 4) = some (Poh.new [] 4) from rfl) zeroHash
    [.autoHash, .record zeroHash, .autoHash, .record zeroHash, .tick]).2.2.2.2.2

end

end Mmn
