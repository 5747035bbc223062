import Mmn.Clock
import Mmn.Sample

/-!
# The clock when nothing happens

Three functions make the hashes of slots in which nothing is recorded: a
leader that has waited too long runs the clock forward
(`PohRecorder.fastForward`), a node makes up the entries of an empty block
(`generateTickOnlyEntries`), and the engine itself goes on hashing and
closing ticks. The first is one flat loop, the second a loop in a loop, and
the third answers to calls that come in any order and refuses those that
come too early.

They make the same hashes. The tick with number `i`, counted from zero, ends
in the hash that is `(i + 1) * hashesPerTick` plain hashes from the seed
(`tickOnlyEntriesFrom_eq_map`), and the entries of an idle engine are the
first of these, as many as it has closed ticks (`Poh.Paced.produce_eq`).
-/

namespace Mmn

section

variable [Primitives]

/-! ## The generated entries -/

/-- The hashes of one tick, from the hash before it. -/
theorem hashChain_tick {hashesPerTick : UInt64} (h : 1 ≤ hashesPerTick.toNat)
    (cur : Hash) :
    hashChain (hashChain^[hashesPerTick.toNat - 1] cur)
      = hashChain^[hashesPerTick.toNat] cur := by
  rw [← Function.iterate_succ_apply' hashChain, Nat.succ_eq_add_one,
    Nat.sub_add_cancel h]

/-- **The entries of idle ticks**, each by its number. -/
theorem tickOnlyEntriesFrom_eq_map {hashesPerTick : UInt64}
    (h : 1 ≤ hashesPerTick.toNat) (k : ℕ) (seed : Hash) :
    tickOnlyEntriesFrom hashesPerTick k seed
      = (List.range k).map (fun i =>
          newTickEntry hashesPerTick
            (hashChain^[(i + 1) * hashesPerTick.toNat] seed)) := by
  induction k generalizing seed with
  | zero => rfl
  | succ k ih =>
    rw [tickOnlyEntriesFrom, hashChain_tick h, ih, List.range_succ_eq_map,
      List.map_cons, List.map_map, Nat.zero_add, Nat.one_mul]
    refine congrArg _ (List.map_congr_left fun i _ => ?_)
    rw [Function.comp_apply, ← Function.iterate_add_apply, Nat.succ_eq_add_one,
      ← Nat.succ_mul]

theorem length_tickOnlyEntriesFrom (hashesPerTick : UInt64) (k : ℕ) (seed : Hash) :
    (tickOnlyEntriesFrom hashesPerTick k seed).length = k := by
  induction k generalizing seed with
  | zero => rfl
  | succ k ih => rw [tickOnlyEntriesFrom, List.length_cons, ih]

/-- A shorter run is the beginning of a longer one. -/
theorem take_tickOnlyEntriesFrom {hashesPerTick : UInt64}
    (h : 1 ≤ hashesPerTick.toNat) {k m : ℕ} (hk : k ≤ m) (seed : Hash) :
    (tickOnlyEntriesFrom hashesPerTick m seed).take k
      = tickOnlyEntriesFrom hashesPerTick k seed := by
  rw [tickOnlyEntriesFrom_eq_map h, tickOnlyEntriesFrom_eq_map h, ← List.map_take,
    List.take_range, Nat.min_eq_left hk]

/-- The loop, entered with a number of entries and of hashes that are not
zero. -/
theorem generateTickOnlyEntries_eq {hashesPerTick : UInt64}
    (h : 1 ≤ hashesPerTick.toNat) (k : ℕ) (seed : Hash) :
    generateTickOnlyEntries seed k hashesPerTick = tickOnlyEntriesFrom hashesPerTick k
      seed := by
  have hne : hashesPerTick ≠ 0 := by
    rintro rfl
    exact absurd h (by decide)
  unfold generateTickOnlyEntries
  cases k with
  | zero => exact if_pos (Or.inl le_rfl)
  | succ k => rw [if_neg (by simp [hne]), Int.toNat_natCast]

/-! ## The idle engine -/

/-- The engine is asked for a hash or a tick, and not to record. -/
def PohOp.Idle : PohOp → Prop
  | .autoHash => True
  | .record _ _ => False
  | .tick => True

instance : DecidablePred PohOp.Idle
  | .autoHash => isTrue trivial
  | .record _ _ => isFalse id
  | .tick => isTrue trivial

namespace Poh

/-- **An idle engine since its last tick**: the hashes made and those left
are those of a tick, and the tick's own is left. -/
structure Paced (p : Poh) (last : Hash) : Prop extends Since p last where
  exact : p.numHashes.toNat + p.remainingHashes.toNat = p.hashesPerTick.toNat
  left : 1 ≤ p.remainingHashes.toNat

variable {p : Poh} {last : Hash}

theorem paced_reset {p : Poh} (h : 1 ≤ p.hashesPerTick.toNat) (seed : Hash) :
    (p.reset seed).Paced seed :=
  ⟨since_reset p seed, Nat.zero_add _, h⟩

/-- A hash of the background loop, which is refused when only the tick's is
left. -/
theorem Paced.autoHash (h : p.Paced last) : p.autoHash.Paced last := by
  by_cases hleft : p.remainingHashes > 1
  · have hstep : p.autoHash = p.hashOnce p.hash.toList := if_pos hleft
    have hmore : 1 < p.remainingHashes.toNat := UInt64.lt_iff_toNat_lt.mp hleft
    have hsub : (p.remainingHashes - 1).toNat = p.remainingHashes.toNat - 1 :=
      UInt64.toNat_sub_of_le _ _ (UInt64.le_iff_toNat_le.mpr hmore.le)
    refine ⟨h.toSince.autoHash, ?_, ?_⟩
    · rw [hstep]
      show (p.numHashes + 1).toNat + (p.remainingHashes - 1).toNat
        = p.hashesPerTick.toNat
      have hexact := h.exact
      rw [h.toNat_succ hmore.le, hsub]
      omega
    · rw [hstep]
      show 1 ≤ (p.remainingHashes - 1).toNat
      omega
  · have hstep : p.autoHash = p := if_neg hleft
    rw [hstep]
    exact h

/-- **A tick that is not refused** has all hashes of a tick. -/
theorem Paced.tick (h : p.Paced last) {p' : Poh} {e : PohEntry}
    (htick : p.tick = (p', some e)) :
    e.numHashes = p.hashesPerTick ∧ e.hash = hashChain^[p.hashesPerTick.toNat] last ∧
      p'.Paced e.hash ∧ p'.hashesPerTick = p.hashesPerTick := by
  have hafter := (h.toSince.tick htick).2
  unfold Poh.tick at htick
  split at htick
  · cases htick
  · next hone =>
    rw [not_not] at hone
    cases htick
    have hcount : (p.numHashes + 1).toNat = p.hashesPerTick.toNat := by
      have hexact := h.exact
      rw [h.toNat_succ h.left]
      rw [hone] at hexact
      exact hexact
    have htotal : 1 ≤ p.hashesPerTick.toNat := by
      rw [← hcount, h.toNat_succ h.left]
      exact Nat.le_add_left 1 _
    refine ⟨UInt64.toNat_inj.mp hcount, ?_, ⟨hafter, Nat.zero_add _, htotal⟩, rfl⟩
    show sha256 p.hash.toList = hashChain^[p.hashesPerTick.toNat] last
    rw [← hcount, h.toNat_succ h.left, Function.iterate_succ_apply', ← h.hash]
    rfl

/-- **The entries of an idle engine** are those of idle ticks, as many as it
has closed. -/
theorem Paced.produce_eq (h : p.Paced last) {ops : List PohOp}
    (hops : ∀ op ∈ ops, op.Idle) :
    p.produce ops
      = tickOnlyEntriesFrom p.hashesPerTick (p.produce ops).length last := by
  have hone : 1 ≤ p.hashesPerTick.toNat := by
    rw [← h.exact]
    exact h.left.trans (Nat.le_add_left _ _)
  induction ops generalizing p last with
  | nil => rfl
  | cons op ops ih =>
    obtain ⟨hop, hrests⟩ := List.forall_mem_cons.mp hops
    dsimp only [produce]
    cases op with
    | record txs hne => exact hop.elim
    | autoHash =>
      have hpace : p.autoHash.hashesPerTick = p.hashesPerTick := by
        unfold Poh.autoHash
        split <;> rfl
      have hrest := ih h.autoHash hrests (hpace ▸ hone)
      rw [hpace] at hrest
      exact hrest
    | tick =>
      obtain hnone | ⟨p', e, htick, hsome⟩ := p.perform_tick_cases
      · rw [hnone]
        exact ih h hrests hone
      · obtain ⟨hnum, hhash, hpaced, hpace⟩ := h.tick htick
        have hrest := ih hpaced hrests (hpace ▸ hone)
        rw [hpace] at hrest
        rw [hsome]
        show newTickEntry e.numHashes e.hash :: p'.produce ops
          = tickOnlyEntriesFrom p.hashesPerTick
              (newTickEntry e.numHashes e.hash :: p'.produce ops).length last
        rw [List.length_cons, tickOnlyEntriesFrom, hashChain_tick hone, ← hhash,
          ← hrest, hnum]

end Poh

/-! ## They agree -/

omit [Primitives] in
/-- **The number of hashes** of a run of the clock, as it is computed in
machine words, is that of the slots in between, as long as that number fits. -/
theorem toNat_fastForward_hashes {fromSlot toSlot ticksPerSlot hashesPerTick : UInt64}
    (hle : fromSlot ≤ toSlot)
    (hbound : (toSlot.toNat - fromSlot.toNat) * ticksPerSlot.toNat
      * hashesPerTick.toNat < 2 ^ 64) :
    ((toSlot * ticksPerSlot - fromSlot * ticksPerSlot) * hashesPerTick).toNat
      = (toSlot.toNat - fromSlot.toNat) * ticksPerSlot.toNat
        * hashesPerTick.toNat := by
  have hword : (toSlot * ticksPerSlot - fromSlot * ticksPerSlot) * hashesPerTick
      = (toSlot - fromSlot) * ticksPerSlot * hashesPerTick :=
    congrArg (· * hashesPerTick) UInt64.sub_mul.symm
  rw [hword, UInt64.toNat_mul, UInt64.toNat_mul, UInt64.toNat_sub_of_le _ _ hle,
    Nat.mod_mul_mod, Nat.mod_eq_of_lt hbound]

/-- **Running the clock forward** over some slots makes the hashes of all
their ticks. -/
theorem hash_fastForward (r : PohRecorder) (seed : Hash) {fromSlot toSlot : UInt64}
    (hle : fromSlot ≤ toSlot)
    (hbound : (toSlot.toNat - fromSlot.toNat) * r.ticksPerSlot.toNat
      * r.poh.hashesPerTick.toNat < 2 ^ 64) :
    (r.fastForward seed fromSlot toSlot).poh.hash
      = hashChain^[(toSlot.toNat - fromSlot.toNat) * r.ticksPerSlot.toNat
          * r.poh.hashesPerTick.toNat] seed := by
  show hashChain^[((toSlot * r.ticksPerSlot - fromSlot * r.ticksPerSlot)
    * r.poh.hashesPerTick).toNat] seed = _
  rw [toNat_fastForward_hashes hle hbound]

/-- **Three ways to run an idle clock agree.** Let `k` be the number of
ticks from the end of one slot to the end of another. The hash the clock is
run forward to, that of the last of `k` generated entries, and that of the
`k`-th tick of an engine that starts from the same seed and is asked for
hashes and ticks in any order, are the same; and the first `k` entries of
that engine are the generated ones. -/
theorem idle_clocks_agree (r : PohRecorder) (p : Poh) (seed : Hash)
    {fromSlot toSlot : UInt64} (hpace : 2 ≤ r.poh.hashesPerTick)
    (hsame : p.hashesPerTick = r.poh.hashesPerTick) (hle : fromSlot ≤ toSlot) {k : ℕ}
    (hk : k = (toSlot.toNat - fromSlot.toNat) * r.ticksPerSlot.toNat)
    (hbound : k * r.poh.hashesPerTick.toNat < 2 ^ 64) :
    (1 ≤ k →
      ((generateTickOnlyEntries seed k r.poh.hashesPerTick).getLast?.map Entry.hash)
        = some (r.fastForward seed fromSlot toSlot).poh.hash) ∧
      ∀ ops, (∀ op ∈ ops, PohOp.Idle op) → k ≤ ((p.reset seed).produce ops).length →
        ((p.reset seed).produce ops).take k
            = generateTickOnlyEntries seed k r.poh.hashesPerTick ∧
          (1 ≤ k → (((p.reset seed).produce ops)[k - 1]?.map Entry.hash)
            = some (r.fastForward seed fromSlot toSlot).poh.hash) := by
  have hone : 1 ≤ r.poh.hashesPerTick.toNat :=
    Nat.le_of_lt (UInt64.le_iff_toNat_le.mp hpace)
  have hforward : (r.fastForward seed fromSlot toSlot).poh.hash
      = hashChain^[k * r.poh.hashesPerTick.toNat] seed := by
    rw [hash_fastForward r seed hle (hk ▸ hbound), hk]
  -- the entry of the last tick, in any run of at least `k` ticks
  have hlast : ∀ m, k ≤ m → 1 ≤ k →
      ((tickOnlyEntriesFrom r.poh.hashesPerTick m seed)[k - 1]?.map Entry.hash)
        = some (r.fastForward seed fromSlot toSlot).poh.hash := by
    intro m hm hpos
    rw [tickOnlyEntriesFrom_eq_map hone, List.getElem?_map,
      List.getElem?_range (by omega), hforward, Option.map_some, Option.map_some,
      Nat.sub_add_cancel hpos]
    rfl
  rw [generateTickOnlyEntries_eq hone]
  refine ⟨fun hpos => ?_, fun ops hops hcount => ?_⟩
  · rw [List.getLast?_eq_getElem?, length_tickOnlyEntriesFrom]
    exact hlast k le_rfl hpos
  · have hpaced : (p.reset seed).Paced seed := Poh.paced_reset (hsame ▸ hone) seed
    have hengine := hpaced.produce_eq hops
    rw [show (p.reset seed).hashesPerTick = r.poh.hashesPerTick from hsame] at hengine
    rw [hengine]
    exact ⟨take_tickOnlyEntriesFrom hone hcount seed, hlast _ hcount⟩

end

section Sample

attribute [local instance] Sample.primitives

/-- A clock of two hashes a tick and two ticks a slot. -/
def Sample.recorder : PohRecorder := .new (.new [] 2) 2 0

/-- An engine that is asked for three ticks too early and closes three
others. -/
def Sample.idleOps : List PohOp :=
  [.tick, .autoHash, .autoHash, .tick, .tick, .autoHash, .tick, .tick,
    .autoHash, .tick]

/-- Slot four to slot five: two ticks. -/
theorem idle_clocks_agree_two :
    ((Poh.reset (.new [1] 2) zeroHash).produce Sample.idleOps).take 2
        = generateTickOnlyEntries zeroHash 2 2 ∧
      ((Poh.reset (.new [1] 2) zeroHash).produce Sample.idleOps).length = 3 ∧
      ((generateTickOnlyEntries zeroHash 2 2).getLast?.map Entry.hash)
        = some (Sample.recorder.fastForward zeroHash 4 5).poh.hash := by
  have hslots : (4 : UInt64) ≤ 5 := by decide
  have hagree := idle_clocks_agree Sample.recorder (.new [1] 2) zeroHash (k := 2)
    (by decide) rfl hslots rfl (by decide)
  refine ⟨(hagree.2 Sample.idleOps (by decide) (by decide +kernel)).1, by
    decide +kernel, ?_⟩
  exact hagree.1 (by decide)

end Sample

end Mmn
