import Mmn.Idle

/-!
# What a refused record leaves behind

The recorder refuses an entry for five reasons and a tick for two. The
number of transactions, the number of entries and the hashes left in the
tick are looked at first; but whether the entry claims too many hashes, and
whether it is too large, is only known once the engine has made the entry's
hash and set its counter back. A refusal then does not put the engine back,
and the hashes it has made belong to no entry: the chain of the entries that
follow is broken.

An entry is never too large, since its size counts thirty-two bytes for a
transaction and there are six thousand at most. It claims too many hashes
only if a tick has more than a hundred of them. So a refusal leaves the
engine and the entries alone, in every state the recorder can reach, exactly
if the configured ticks are that short (`refusals_leave_recorder_iff`). What
carries this over the run is that the hashes made since the last entry and
those left are never more than those of a tick (`Poh.InTick`).
-/

namespace Mmn

section

variable [Primitives]

/-! ## The engine -/

/-- The ticks of an engine that is configured with none: they practically
never end. -/
def lowPowerMode : UInt64 := ~~~0

/-- **The engine of a configuration.** Without a hash besides the tick's the
process stops. -/
def newPoh (seed : Bytes) (hashesPerTickOpt : Option UInt64) : Option Poh :=
  let hashesPerTick := hashesPerTickOpt.getD lowPowerMode
  if hashesPerTick ≤ 1 then none else some (Poh.new seed hashesPerTick)

theorem hashesPerTick_of_newPoh {seed : Bytes}
    {hashesPerTickOpt : Option UInt64} {p : Poh}
    (h : newPoh seed hashesPerTickOpt = some p) :
    p.hashesPerTick = hashesPerTickOpt.getD lowPowerMode := by
  unfold newPoh at h
  dsimp only at h
  split at h
  · cases h
  · cases h
    rfl

namespace Poh

variable {p : Poh}

/-- **The hashes of a tick**: those since the last entry and those left are
no more. -/
def InTick (p : Poh) : Prop :=
  p.numHashes.toNat + p.remainingHashes.toNat ≤ p.hashesPerTick.toNat

omit [Primitives] in
/-- The count of the next hash. It does not wrap. -/
theorem InTick.toNat_succ (h : p.InTick) (hleft : 1 ≤ p.remainingHashes) :
    (p.numHashes + 1).toNat = p.numHashes.toNat + 1 ∧
      (p.remainingHashes - 1).toNat = p.remainingHashes.toNat - 1 := by
  have hone : 1 ≤ p.remainingHashes.toNat := UInt64.le_iff_toNat_le.mp hleft
  have hlt := p.hashesPerTick.toNat_lt
  unfold InTick at h
  refine ⟨?_, UInt64.toNat_sub_of_le _ _ hleft⟩
  exact UInt64.toNat_succ_of_lt (by omega)

omit [Primitives] in
theorem inTick_reset (p : Poh) (seed : Hash) : (p.reset seed).InTick :=
  (Nat.zero_add _).le

theorem InTick.hashOnce (h : p.InTick) (hleft : 1 ≤ p.remainingHashes) (bs : Bytes) :
    (p.hashOnce bs).InTick := by
  obtain ⟨hsucc, hsub⟩ := h.toNat_succ hleft
  have hone : 1 ≤ p.remainingHashes.toNat := UInt64.le_iff_toNat_le.mp hleft
  show (p.numHashes + 1).toNat + (p.remainingHashes - 1).toNat ≤ p.hashesPerTick.toNat
  unfold InTick at h
  omega

theorem InTick.autoHash (h : p.InTick) : p.autoHash.InTick := by
  unfold Poh.autoHash
  split
  · next hleft => exact h.hashOnce (UInt64.le_of_lt hleft) _
  · exact h

/-- A digest mixed in: one more hash than were counted, and the tick's is
left. -/
theorem InTick.record (h : p.InTick) (mixin : Hash) :
    (p.record mixin).1.InTick ∧ (p.record mixin).1.hashesPerTick = p.hashesPerTick ∧
      ∀ e ∈ (p.record mixin).2, e.numHashes.toNat < p.hashesPerTick.toNat := by
  unfold Poh.record
  split
  · exact ⟨h, rfl, by simp⟩
  · next hmore =>
    have hleft : 1 ≤ p.remainingHashes := UInt64.le_of_lt (UInt64.not_le.mp hmore)
    have htwo : 1 < p.remainingHashes.toNat :=
      UInt64.lt_iff_toNat_lt.mp (UInt64.not_le.mp hmore)
    obtain ⟨hsucc, hsub⟩ := h.toNat_succ hleft
    unfold InTick at h
    refine ⟨?_, rfl, ?_⟩
    · show (0 : UInt64).toNat + (p.remainingHashes - 1).toNat ≤ p.hashesPerTick.toNat
      rw [hsub, UInt64.toNat_zero]
      omega
    · rintro e ⟨⟩
      show (p.numHashes + 1).toNat < p.hashesPerTick.toNat
      omega

/-- A tick: the hashes counted and its own are no more than those of a tick. -/
theorem InTick.tick (h : p.InTick) :
    p.tick.1.InTick ∧ p.tick.1.hashesPerTick = p.hashesPerTick ∧
      ∀ e ∈ p.tick.2, e.numHashes.toNat ≤ p.hashesPerTick.toNat := by
  unfold Poh.tick
  split
  · exact ⟨h, rfl, by simp⟩
  · next hone =>
    rw [not_not] at hone
    obtain ⟨hsucc, -⟩ := h.toNat_succ (UInt64.le_of_eq hone.symm)
    unfold InTick at h
    rw [hone, UInt64.toNat_one] at h
    refine ⟨(Nat.zero_add _).le, rfl, ?_⟩
    rintro e ⟨⟩
    show (p.numHashes + 1).toNat ≤ p.hashesPerTick.toNat
    omega

/-- **The engine left to itself** after a reset: it hashes until only the
tick's hash is left. -/
theorem Paced.iterate_autoHash {last : Hash} (h : p.Paced last) {k : ℕ}
    (hk : k < p.remainingHashes.toNat) :
    (Poh.autoHash^[k] p).Paced last ∧
      (Poh.autoHash^[k] p).remainingHashes.toNat = p.remainingHashes.toNat - k ∧
      (Poh.autoHash^[k] p).hashesPerTick = p.hashesPerTick := by
  induction k with
  | zero => exact ⟨h, rfl, rfl⟩
  | succ k ih =>
    obtain ⟨hpaced, hleft, htick⟩ := ih (Nat.lt_of_succ_lt hk)
    rw [Function.iterate_succ_apply']
    generalize Poh.autoHash^[k] p = q at hpaced hleft htick
    have hmore : q.remainingHashes > 1 := by
      refine UInt64.lt_iff_toNat_lt.mpr ?_
      rw [hleft, UInt64.toNat_one]
      omega
    have hstep : q.autoHash = q.hashOnce q.hash.toList := if_pos hmore
    refine ⟨hpaced.autoHash, ?_, by rw [hstep]; exact htick⟩
    rw [hstep]
    show (q.remainingHashes - 1).toNat = _
    rw [UInt64.toNat_sub_of_le _ _ (UInt64.le_of_lt hmore), hleft, UInt64.toNat_one]
    omega

end Poh

/-! ## The recorder -/

namespace PohRecorder

variable {r : PohRecorder}

/-- **The engine and the entries are as they were.** -/
structure Untouched (r r' : PohRecorder) : Prop where
  hash : r'.poh.hash = r.poh.hash
  numHashes : r'.poh.numHashes = r.poh.numHashes
  remainingHashes : r'.poh.remainingHashes = r.poh.remainingHashes
  entries : r'.entries = r.entries

/-- **A refusal leaves the engine and the entries alone**, of any list of
transactions and of a tick. -/
structure KeepsOnRefusal (r : PohRecorder) : Prop where
  recordTxs : ∀ txs err, (r.recordTxs txs).2 = .error err →
    r.Untouched (r.recordTxs txs).1
  tick : r.tick.2 = none → r.Untouched r.tick.1

/-- What a leader's recorder is asked for within a slot. -/
inductive Op where
  | autoHash
  | recordTxs (txs : List Transaction)
  | tick

/-- One operation. -/
def perform (r : PohRecorder) : Op → Option PohRecorder
  | .autoHash => some r.autoHash
  | .recordTxs txs => some (r.recordTxs txs).1
  | .tick => some r.tick.1

/-- **The states a recorder can reach** after it was reset, with a number of
hashes in a tick. -/
def Reachable (hashesPerTick : UInt64) (r : PohRecorder) : Prop :=
  ∃ (r₀ : PohRecorder) (lastHash : Hash) (slot : UInt64),
    r₀.poh.hashesPerTick = hashesPerTick ∧ r₀.ticksPerSlot ≠ 0 ∧
      Machine.Run perform Machine.Always (r₀.reset lastHash slot) r

theorem poh_recordTxs (r : PohRecorder) (txs : List Transaction) :
    (r.recordTxs txs).1.poh = r.poh ∨
      (r.recordTxs txs).1.poh
        = (r.poh.record (hashTransactions (txs.map some))).1 := by
  unfold recordTxs
  dsimp only
  split
  · exact Or.inl rfl
  split
  · exact Or.inl rfl
  cases hrecord : r.poh.record (hashTransactions (txs.map some)) with
  | mk p e =>
    cases e with
    | none => exact Or.inr rfl
    | some e =>
      dsimp only
      split
      · exact Or.inr rfl
      split <;> exact Or.inr rfl

theorem poh_tick (r : PohRecorder) : r.tick.1.poh = r.poh.tick.1 := by
  unfold tick
  cases htick : r.poh.tick with
  | mk p e =>
    cases e with
    | none => rfl
    | some e =>
      dsimp only
      split
      · rfl
      split <;> rfl

/-- One operation keeps the hashes of a tick. -/
theorem inTick_perform (h : r.poh.InTick) {op : Op} {r' : PohRecorder}
    (hop : r.perform op = some r') :
    r'.poh.InTick ∧ r'.poh.hashesPerTick = r.poh.hashesPerTick := by
  cases op with
  | autoHash =>
    cases hop
    refine ⟨h.autoHash, ?_⟩
    show r.poh.autoHash.hashesPerTick = _
    unfold Poh.autoHash
    split <;> rfl
  | recordTxs txs =>
    cases hop
    obtain hpoh | hpoh := r.poh_recordTxs txs
    · rw [hpoh]
      exact ⟨h, rfl⟩
    · rw [hpoh]
      exact ⟨(h.record _).1, (h.record _).2.1⟩
  | tick =>
    cases hop
    rw [poh_tick]
    exact ⟨h.tick.1, h.tick.2.1⟩

/-- **The hashes of a tick**, in every state the recorder can reach. -/
theorem Reachable.inTick {hashesPerTick : UInt64} (h : Reachable hashesPerTick r) :
    r.poh.InTick ∧ r.poh.hashesPerTick = hashesPerTick := by
  obtain ⟨r₀, lastHash, slot, hticks, -, hrun⟩ := h
  refine hrun.invariant (I := fun r => r.poh.InTick ∧
    r.poh.hashesPerTick = hashesPerTick)
    ⟨Poh.inTick_reset r₀.poh lastHash, hticks⟩ fun t op t' ht _ hop => ?_
  obtain ⟨hin, hsame⟩ := inTick_perform ht.1 hop
  exact ⟨hin, hsame.trans ht.2⟩

/-- With short ticks, transactions are refused before the engine has moved
on or not at all. -/
theorem untouched_of_recordTxs (h : r.poh.InTick)
    (hshort : r.poh.hashesPerTick ≤ maxNumHashes) {txs : List Transaction}
    {err : String} (herr : (r.recordTxs txs).2 = .error err) :
    r.Untouched (r.recordTxs txs).1 := by
  unfold recordTxs at herr ⊢
  dsimp only at herr ⊢
  by_cases hmany : txs.length > maxTransactionsPerEntry
  · rw [if_pos hmany]
    exact ⟨rfl, rfl, rfl, rfl⟩
  rw [if_neg hmany] at herr ⊢
  by_cases hfull : r.entries.length ≥ maxEntriesPerSlot
  · rw [if_pos hfull]
    exact ⟨rfl, rfl, rfl, rfl⟩
  rw [if_neg hfull] at herr ⊢
  cases hrecord : r.poh.record (hashTransactions (txs.map some)) with
  | mk p e =>
    cases e with
    | none =>
      rw [Poh.eq_of_record_eq_none hrecord]
      exact ⟨rfl, rfl, rfl, rfl⟩
    | some e =>
      -- the two checks that are left pass
      rw [hrecord] at herr
      dsimp only at herr
      have hnum : ¬e.numHashes > maxNumHashes := by
        have hlt := (h.record (hashTransactions (txs.map some))).2.2 e
          (by rw [hrecord]; rfl)
        exact UInt64.not_lt.mpr
          (UInt64.le_trans (UInt64.le_iff_toNat_le.mpr hlt.le) hshort)
      have hsize : ¬estimateEntrySize (newTxEntry e.numHashes e.hash txs)
          > maxEntrySize := by
        unfold estimateEntrySize newTxEntry maxEntrySize
        unfold maxTransactionsPerEntry at hmany
        rw [List.length_map]
        omega
      rw [if_neg hnum, if_neg hsize] at herr
      cases herr

/-- With short ticks, a tick is refused before the engine has moved on or
not at all. -/
theorem untouched_of_tick (h : r.poh.InTick)
    (hshort : r.poh.hashesPerTick ≤ maxNumHashes) (hnone : r.tick.2 = none) :
    r.Untouched r.tick.1 := by
  unfold tick at hnone ⊢
  cases htick : r.poh.tick with
  | mk p e =>
    cases e with
    | none =>
      rw [Poh.eq_of_tick_eq_none htick]
      exact ⟨rfl, rfl, rfl, rfl⟩
    | some e =>
      rw [htick] at hnone
      dsimp only at hnone
      have hnum : ¬e.numHashes > maxNumHashes := by
        have hle := h.tick.2.2 e (by rw [htick]; rfl)
        exact UInt64.not_lt.mpr
          (UInt64.le_trans (UInt64.le_iff_toNat_le.mpr hle) hshort)
      rw [if_neg hnum] at hnone
      split at hnone <;> cases hnone

/-! ## Long ticks -/

theorem Reachable.iterate_autoHash {hashesPerTick : UInt64}
    (h : Reachable hashesPerTick r) (k : ℕ) :
    Reachable hashesPerTick { r with poh := Poh.autoHash^[k] r.poh } := by
  obtain ⟨r₀, lastHash, slot, hticks, hne, hrun⟩ := h
  refine ⟨r₀, lastHash, slot, hticks, hne, ?_⟩
  induction k with
  | zero => exact hrun
  | succ k ih =>
    rw [Function.iterate_succ_apply']
    exact ih.tail ⟨.autoHash, trivial, rfl⟩

/-- **With long ticks a tick is lost**: an engine left to itself counts all
hashes of the tick, and when the tick is closed they are too many for an
entry. -/
theorem exists_reachable_not_keepsOnRefusal {hashesPerTick : UInt64}
    (hlong : maxNumHashes < hashesPerTick) :
    ∃ r, Reachable hashesPerTick r ∧ r.tick.2 = none ∧ ¬r.Untouched r.tick.1 := by
  have hmore : 100 < hashesPerTick.toNat := UInt64.lt_iff_toNat_lt.mp hlong
  let r₀ : PohRecorder := .new (Poh.new [] hashesPerTick) 1 0
  have hreset : Reachable hashesPerTick (r₀.reset zeroHash 0) :=
    ⟨r₀, zeroHash, 0, rfl, (by decide : (1 : UInt64) ≠ 0), Relation.ReflTransGen.refl⟩
  have hpaced : (r₀.reset zeroHash 0).poh.Paced zeroHash :=
    Poh.paced_reset (p := r₀.poh) (by show 1 ≤ hashesPerTick.toNat; omega) zeroHash
  -- the background loop makes all hashes of the tick but the last
  obtain ⟨hafter, hleft, htick⟩ :=
    hpaced.iterate_autoHash (k := hashesPerTick.toNat - 1)
    (by show _ < hashesPerTick.toNat; omega)
  refine ⟨_, hreset.iterate_autoHash (hashesPerTick.toNat - 1), ?_⟩
  generalize Poh.autoHash^[hashesPerTick.toNat - 1] (r₀.reset zeroHash 0).poh = q
    at hafter hleft htick
  have hone : q.remainingHashes = 1 := by
    refine UInt64.toNat_inj.mp (hleft.trans ?_)
    show hashesPerTick.toNat - (hashesPerTick.toNat - 1) = 1
    omega
  have hnum : (q.numHashes + 1).toNat = hashesPerTick.toNat := by
    have hexact := hafter.exact
    rw [hone, htick] at hexact
    rw [hafter.toNat_succ hafter.left]
    exact hexact
  have hmany : q.numHashes + 1 > maxNumHashes :=
    UInt64.lt_iff_toNat_lt.mpr (hnum ▸ UInt64.lt_iff_toNat_lt.mp hlong)
  -- the engine closes the tick, and only then are its hashes found to be
  -- too many
  have hmoved : q.tick = ({ q.hashOnce q.hash.toList with
      remainingHashes := q.hashesPerTick, numHashes := 0 },
      some { numHashes := q.numHashes + 1, hash := sha256 q.hash.toList }) :=
    if_neg (not_not.mpr hone)
  have hlost : ∀ r : PohRecorder, r.poh = q →
      r.tick = ({ r with poh := q.tick.1 }, none) := by
    intro r hr
    unfold tick
    rw [hr, hmoved]
    exact if_pos hmany
  rw [hlost _ rfl]
  refine ⟨rfl, fun hsame => ?_⟩
  have hzero : (0 : UInt64) = q.numHashes := by
    have := hsame.numHashes
    rwa [hmoved] at this
  rw [← hzero] at hmany
  exact absurd hmany (by decide)

/-- **A refusal leaves the engine and the entries alone**, in every state
that a recorder with the configured ticks can reach, exactly if a tick has a
hundred hashes at most. -/
theorem refusals_leave_recorder_iff (hashesPerTickOpt : Option UInt64) :
    (∀ seed poh r, newPoh seed hashesPerTickOpt = some poh →
      Reachable poh.hashesPerTick r →
      r.KeepsOnRefusal) ↔ hashesPerTickOpt.getD lowPowerMode ≤ maxNumHashes := by
  constructor
  · intro hkeeps
    refine UInt64.not_lt.mp fun hlong => ?_
    obtain ⟨r, hreach, hnone, htouched⟩ := exists_reachable_not_keepsOnRefusal hlong
    have hnew : newPoh [] hashesPerTickOpt
        = some (Poh.new [] (hashesPerTickOpt.getD lowPowerMode)) :=
      if_neg (UInt64.not_le.mpr (UInt64.lt_trans (by decide) hlong))
    exact htouched ((hkeeps [] _ r hnew hreach).tick hnone)
  · intro hshort seed poh r hnew hreach
    obtain ⟨hin, hticks⟩ := hreach.inTick
    have hle : r.poh.hashesPerTick ≤ maxNumHashes := by
      rw [hticks, hashesPerTick_of_newPoh hnew]
      exact hshort
    exact ⟨fun _ _ => untouched_of_recordTxs hin hle, untouched_of_tick hin hle⟩

end PohRecorder

end

section

attribute [local instance] Sample.primitives

/-- **A refused tick is lost** when a tick has 101 hashes: the engine
accepts that configuration, and after a hundred hashes of the background
loop the tick is closed and not returned. -/
theorem tick_lost_of_long_ticks :
    (newPoh [] (some 101)).isSome = true ∧
      ∃ r, PohRecorder.Reachable 101 r ∧ r.tick.2 = none ∧ ¬r.Untouched r.tick.1 :=
  ⟨by decide, PohRecorder.exists_reachable_not_keepsOnRefusal (by decide)⟩

end

end Mmn
