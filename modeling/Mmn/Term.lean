import Mmn.Flush

/-!
# The blocks of a leader term

A leader term begins with the hash the slot before ended in. While it lasts,
the batch loop records entries, the flush loop hands them on with a tick
behind them, and at the last tick of a slot the validator makes a block of
everything handed on since the last one. The blocks of a term are then the
slots of the term, in order and without a gap: each has exactly the ticks of
its slot, ends in the last of them, and names as its previous hash the one
the block before ended in (`blocks_cover_slots`).

The tick counter is a machine word that the start of a term sets to a
product. The slots of the term have to be small enough for their ticks to be
counted; a term that starts beyond makes blocks for other slots
(`blocks_of_other_slots`).

The invariant `InTerm` says where in its slot the term is: how many ticks
were handed on, that everything handed on or waiting since the slot began is
paid for with hashes, and which hash the last slot ended in.
-/

namespace Mmn

section

variable [Primitives]

/-! ## A term -/

/-- What happens during a term. An iteration of the flush loop is one step. -/
inductive TermOp where
  | autoHash
  | recordTxs (txs : List Transaction)
  /-- An iteration of the flush loop, at a time. -/
  | flush (now : UInt64)

/-- **One step of a term.** -/
def Node.termStep (cfg : Config) (n : Node) : TermOp → Node
  | .autoHash => { n with recorder := n.recorder.autoHash }
  | .recordTxs txs => { n with recorder := (n.recorder.recordTxs txs).1 }
  | .flush now => n.drainEntries.tickAndFlush cfg now

/-- **A block that covers its slot.** -/
structure Covers (ticksPerSlot hashesPerTick : ℕ) (b : BroadcastedBlock) : Prop where
  ticks : b.entries.countP Entry.tick = ticksPerSlot
  ends : Node.endsInTick b.entries = true
  length_le : b.entries.length ≤ hashesPerTick * ticksPerSlot

/-- **Blocks that cover consecutive slots**, each from the hash the one
before ended in. -/
def CoverSlots (ticksPerSlot hashesPerTick : ℕ) :
    ℕ → Hash → List BroadcastedBlock → Prop
  | _, _, [] => True
  | slot, prev, b :: bs =>
    b.slot.toNat = slot ∧ b.prevHash = prev ∧ Covers ticksPerSlot hashesPerTick b ∧
      CoverSlots ticksPerSlot hashesPerTick (slot + 1) b.lastEntryHash bs

/-- The hash some blocks end in, from a hash on. -/
def endHash (seed : Hash) (bs : List BroadcastedBlock) : Hash :=
  bs.foldl (fun _ b => b.lastEntryHash) seed

omit [Primitives] in
theorem endHash_append (seed : Hash) (bs : List BroadcastedBlock)
    (b : BroadcastedBlock) :
    endHash seed (bs ++ [b]) = b.lastEntryHash := by
  unfold endHash
  rw [List.foldl_append]
  rfl

omit [Primitives] in
theorem CoverSlots.append {tps H slot : ℕ} {prev : Hash} {bs : List BroadcastedBlock}
    (h : CoverSlots tps H slot prev bs) {b : BroadcastedBlock}
    (hslot : b.slot.toNat = slot + bs.length) (hprev : b.prevHash = endHash prev bs)
    (hb : Covers tps H b) : CoverSlots tps H slot prev (bs ++ [b]) := by
  induction bs generalizing slot prev with
  | nil => exact ⟨hslot, hprev, hb, trivial⟩
  | cons a bs ih =>
    obtain ⟨haslot, haprev, ha, hrest⟩ := h
    refine ⟨haslot, haprev, ha, ih hrest ?_ hprev⟩
    rw [hslot, List.length_cons]
    omega

/-! ## Where a term is in its slot -/

/-- **The state of a term** that began with `n₀` at slot `S`: the blocks it
has made, and the ticks of the slot under way that were handed on. -/
structure InTerm (n₀ : Node) (S : UInt64) (seed : Hash)
    (blocks : List BroadcastedBlock) (t : ℕ) (n : Node) : Prop where
  ticksPerSlot_eq : n.recorder.ticksPerSlot = n₀.recorder.ticksPerSlot
  hashesPerTick_eq : n.recorder.poh.hashesPerTick = n₀.recorder.poh.hashesPerTick
  maxSize_eq : n.recorder.slotHashQueue.maxSize = n₀.recorder.slotHashQueue.maxSize
  flushing_eq : n.flushing = none
  leaderStart_eq : n.leaderStartAtSlot = S
  outbox_eq : n.outbox = n₀.outbox ++ blocks
  cover : CoverSlots n₀.recorder.ticksPerSlot.toNat
    n₀.recorder.poh.hashesPerTick.toNat S.toNat seed blocks
  /-- The tick counter: whole slots and the ticks of this one. -/
  height : n.recorder.tickHeight.toNat
    = (S.toNat - 1 + blocks.length) * n₀.recorder.ticksPerSlot.toNat + t
  lt : t < n₀.recorder.ticksPerSlot.toNat
  /-- The ticks of this slot are collected; what waits has none. -/
  ticks : n.collectedEntries.countP Entry.tick = t
  recorded : ∀ e ∈ n.recorder.entries, e.tick = false
  paid : n.collectedEntries.length + n.recorder.entries.length
      + n.recorder.poh.remainingHashes.toNat
    ≤ n₀.recorder.poh.hashesPerTick.toNat * (t + 1)
  /-- The engine's counter stays within a tick, and the tick's hash is left. -/
  counter : n.recorder.poh.numHashes.toNat + n.recorder.poh.remainingHashes.toNat
    ≤ n₀.recorder.poh.hashesPerTick.toNat
  left : 1 ≤ n.recorder.poh.remainingHashes.toNat
  prev : n.recorder.slotHashQueue.get (UInt64.ofNat (S.toNat - 1 + blocks.length))
    = some (endHash seed blocks)

/-- What is asked of a term: its pace, a slot that begins after another, and
that the ticks of its slots can be counted. -/
structure TermBounds (n₀ : Node) (S E : UInt64) : Prop where
  two_le_ticksPerSlot : 2 ≤ n₀.recorder.ticksPerSlot.toNat
  two_le_hashesPerTick : 2 ≤ n₀.recorder.poh.hashesPerTick.toNat
  hashesPerTick_le : n₀.recorder.poh.hashesPerTick.toNat ≤ maxNumHashes.toNat
  maxSize_eq : n₀.recorder.slotHashQueue.maxSize = 10000
  start_pos : 1 ≤ S.toNat
  start_le : S.toNat ≤ E.toNat
  countable : E.toNat * n₀.recorder.ticksPerSlot.toNat < 2 ^ 64

/-! ## The pieces of a step -/

namespace Node

variable {cfg : Config}

/-- The node with the recorder a flush leaves. -/
def flushed (n : Node) (r : PohRecorder) :
    Node := { n with recorder := r, flushing := none }

/-- **An iteration of the flush loop**, by what its tick does. -/
theorem termStep_flush {n : Node} (h : n.flushing = none) (now : UInt64)
    {r : PohRecorder} {tickEntry : Option Entry}
    (htick : n.recorder.drainEntries.1.tick = (r, tickEntry)) :
    n.termStep cfg (.flush now)
      = if (n.recorder.entries ++ tickEntry.toList).length > 0 then
          (n.flushed r).handleEntry cfg (n.recorder.entries ++ tickEntry.toList) now
        else n.flushed r := by
  unfold termStep drainEntries
  rw [h]
  dsimp only [tickAndFlush]
  rw [htick]
  rfl

/-- Entries handed on within a slot are collected. -/
theorem handleEntry_of_open {n : Node} {entries : List Entry} (now : UInt64)
    (hopen : n.recorder.isLastTickOfSlot = false ∨ endsInTick entries = false)
    (hlead : isLeader cfg n.recorder.currentSlot = true)
    (hterm : n.leaderStartAtSlot ≠ noSlot) :
    n.handleEntry cfg entries now
      = { n with collectedEntries := n.collectedEntries ++ entries } := by
  have hready : n.readyToStart cfg n.recorder.currentSlot = true := by
    unfold readyToStart
    rw [hlead, Bool.true_and]
    exact decide_eq_true hterm
  unfold handleEntry
  dsimp only
  rw [if_neg, hlead, hready]
  · rfl
  · obtain hmid | hend := hopen
    · simp [hmid]
    · simp [hend]

/-- Entries that end in the last tick of a slot complete its block. -/
theorem handleEntry_of_close {n : Node} {entries : List Entry} (now : UInt64)
    (hlast : n.recorder.isLastTickOfSlot = true) (hends : endsInTick entries = true)
    (hlead : isLeader cfg (n.recorder.currentSlot - 1) = true)
    (hne : 0 < n.collectedEntries.length) :
    n.handleEntry cfg entries now
      = { n with
          collectedEntries := []
          outbox := n.outbox ++ [(assembleBlock (n.recorder.currentSlot - 1)
            (n.recorder.getSlotHash (n.recorder.currentSlot - 1 - 1)) cfg.selfPubKey
            (n.collectedEntries ++ entries) now).sign cfg.selfPrivKey] } := by
  unfold handleEntry
  dsimp only
  rw [if_pos]
  simp [hlast, hends, hlead, hne]

omit [Primitives] in
theorem endsInTick_append_tick (es : List Entry) {e : Entry} (he : e.tick = true) :
    endsInTick (es ++ [e]) = true := by
  unfold endsInTick
  rw [List.getLast?_append_cons]
  exact he

omit [Primitives] in
theorem endsInTick_of_forall {es : List Entry} (h : ∀ e ∈ es, e.tick = false) :
    endsInTick es = false := by
  unfold endsInTick
  cases hlast : es.getLast? with
  | none => rfl
  | some e => exact h e (List.mem_of_getLast? hlast)

end Node

namespace Poh

theorem record_of_left {p : Poh} (h : p.remainingHashes > 1) (mixin : Hash) :
    (p.record mixin).1 = { p with
      hash := sha256 (p.hash.toList ++ mixin.toList)
      numHashes := 0
      remainingHashes := p.remainingHashes - 1 } := by
  unfold record
  rw [if_neg (UInt64.not_le.mpr h)]
  rfl

theorem tick_of_left {p : Poh} (h : p.remainingHashes = 1) :
    p.tick.1 = { p with
      hash := sha256 p.hash.toList
      numHashes := 0
      remainingHashes := p.hashesPerTick } := by
  unfold tick
  rw [if_neg (not_not.mpr h)]
  rfl

omit [Primitives] in
theorem toNat_remainingHashes_sub {p : Poh} (h : p.remainingHashes > 1) :
    (p.remainingHashes - 1).toNat = p.remainingHashes.toNat - 1 ∧
      1 < p.remainingHashes.toNat := by
  have hlt : 1 < p.remainingHashes.toNat := UInt64.lt_iff_toNat_lt.mp h
  exact ⟨UInt64.toNat_sub_of_le _ _ (UInt64.le_iff_toNat_le.mpr hlt.le), hlt⟩

end Poh

namespace InTerm

variable {cfg : Config} {n₀ n : Node} {S E : UInt64} {seed : Hash}
  {blocks : List BroadcastedBlock} {t : ℕ}

/-- The slots of the term can be counted in machine words. -/
theorem slot_lt (h : InTerm n₀ S seed blocks t n) (hb : TermBounds n₀ S E) :
    2 * (S.toNat - 1 + blocks.length) < 2 ^ 64 := by
  have hlt := n.recorder.tickHeight.toNat_lt
  rw [h.height] at hlt
  have hmul := Nat.mul_le_mul_left (S.toNat - 1 + blocks.length)
    hb.two_le_ticksPerSlot
  omega

theorem toNat_passedSlot (h : InTerm n₀ S seed blocks t n) :
    (n.recorder.tickHeight / n.recorder.ticksPerSlot).toNat
      = S.toNat - 1 + blocks.length := by
  rw [UInt64.toNat_div, h.ticksPerSlot_eq, h.height, Nat.mul_comm,
    Nat.mul_add_div (Nat.zero_lt_of_lt h.lt), Nat.div_eq_of_lt h.lt, Nat.add_zero]

theorem toNat_currentSlot (h : InTerm n₀ S seed blocks t n) (hb : TermBounds n₀ S E) :
    n.recorder.currentSlot.toNat = S.toNat + blocks.length := by
  have hlt := h.slot_lt hb
  have hpos := hb.start_pos
  unfold PohRecorder.currentSlot
  rw [UInt64.toNat_add, h.toNat_passedSlot, UInt64.toNat_one,
    Nat.mod_eq_of_lt (by omega)]
  omega

/-- The counter of an entry stays in bounds. -/
theorem numHashes_lt (h : InTerm n₀ S seed blocks t n) (hb : TermBounds n₀ S E) :
    n.recorder.poh.numHashes < maxNumHashes := by
  have hcounter := h.counter
  have hleft := h.left
  have hle := hb.hashesPerTick_le
  rw [UInt64.lt_iff_toNat_lt]
  omega

theorem leaderStart_ne (h : InTerm n₀ S seed blocks t n) (hb : TermBounds n₀ S E) :
    n.leaderStartAtSlot ≠ noSlot := by
  have hlt := h.slot_lt hb
  have hnone : noSlot.toNat = 2 ^ 64 - 1 := rfl
  rw [h.leaderStart_eq]
  intro heq
  rw [heq, hnone] at hlt
  omega

/-- Within a tick, only the engine and what waits change. -/
theorem withPoh (h : InTerm n₀ S seed blocks t n) {poh : Poh} {es : List Entry}
    (hpace : poh.hashesPerTick = n₀.recorder.poh.hashesPerTick)
    (hes : ∀ e ∈ es, e.tick = false)
    (hpaid : n.collectedEntries.length + es.length + poh.remainingHashes.toNat
      ≤ n₀.recorder.poh.hashesPerTick.toNat * (t + 1))
    (hcounter : poh.numHashes.toNat + poh.remainingHashes.toNat
      ≤ n₀.recorder.poh.hashesPerTick.toNat)
    (hleft : 1 ≤ poh.remainingHashes.toNat) :
    InTerm n₀ S seed blocks t
      { n with recorder := { n.recorder with poh := poh, entries := es } } :=
  { h with
    hashesPerTick_eq := hpace
    recorded := hes
    paid := hpaid
    counter := hcounter
    left := hleft }

theorem autoHash (h : InTerm n₀ S seed blocks t n) :
    InTerm n₀ S seed blocks t (n.termStep cfg .autoHash) := by
  show InTerm n₀ S seed blocks t
    { n with recorder := { n.recorder with poh := n.recorder.poh.autoHash } }
  by_cases hmore : n.recorder.poh.remainingHashes > 1
  · obtain ⟨hsub, hlt⟩ := Poh.toNat_remainingHashes_sub hmore
    have hpaid := h.paid
    have hcounter := h.counter
    have hword := n₀.recorder.poh.hashesPerTick.toNat_lt
    have hsucc : (n.recorder.poh.numHashes + 1).toNat
        = n.recorder.poh.numHashes.toNat + 1 :=
      UInt64.toNat_succ_of_lt (by omega)
    have hauto : n.recorder.poh.autoHash
        = n.recorder.poh.hashOnce n.recorder.poh.hash.toList :=
      if_pos hmore
    rw [hauto]
    refine h.withPoh h.hashesPerTick_eq h.recorded ?_ ?_ ?_
    · show _ + _ + (n.recorder.poh.remainingHashes - 1).toNat ≤ _
      omega
    · show (n.recorder.poh.numHashes + 1).toNat
        + (n.recorder.poh.remainingHashes - 1).toNat ≤ _
      omega
    · show 1 ≤ (n.recorder.poh.remainingHashes - 1).toNat
      omega
  · have hauto : n.recorder.poh.autoHash = n.recorder.poh := if_neg hmore
    rw [hauto]
    exact h

theorem recordTxs (h : InTerm n₀ S seed blocks t n) (hb : TermBounds n₀ S E)
    (txs : List Transaction) :
    InTerm n₀ S seed blocks t (n.termStep cfg (.recordTxs txs)) := by
  show InTerm n₀ S seed blocks t { n with recorder := (n.recorder.recordTxs txs).1 }
  obtain ⟨-, hsame⟩ | ⟨e, -, hnotick, hmore, hafter⟩ :=
    n.recorder.recordTxs_cases txs (fun _ => h.numHashes_lt hb)
  · rw [hsame]
    exact h
  · obtain ⟨hsub, hlt⟩ := Poh.toNat_remainingHashes_sub hmore
    have hpaid := h.paid
    have hcounter := h.counter
    rw [hafter, Poh.record_of_left hmore]
    refine h.withPoh h.hashesPerTick_eq ?_ ?_ ?_ ?_
    · intro e' he'
      obtain hold | hnew := List.mem_append.mp he'
      · exact h.recorded e' hold
      · rw [List.mem_singleton.mp hnew]
        exact hnotick
    · rw [List.length_append, List.length_singleton]
      show _ + _ + (n.recorder.poh.remainingHashes - 1).toNat ≤ _
      omega
    · show (0 : UInt64).toNat + (n.recorder.poh.remainingHashes - 1).toNat ≤ _
      rw [UInt64.toNat_zero]
      omega
    · show 1 ≤ (n.recorder.poh.remainingHashes - 1).toNat
      omega

theorem leads (h : InTerm n₀ S seed blocks t n) (hb : TermBounds n₀ S E)
    (hlead : ∀ s, S ≤ s → s ≤ E → Node.isLeader cfg s = true)
    (hE : n.recorder.currentSlot ≤ E) :
    Node.isLeader cfg n.recorder.currentSlot = true := by
  refine hlead _ ?_ hE
  rw [UInt64.le_iff_toNat_le, h.toNat_currentSlot hb]
  omega

/-- **A flush without a tick** hands on what waits. -/
theorem flush_of_no_tick (h : InTerm n₀ S seed blocks t n) (hb : TermBounds n₀ S E)
    (hlead : ∀ s, S ≤ s → s ≤ E → Node.isLeader cfg s = true)
    (hE : n.recorder.currentSlot ≤ E) (now : UInt64)
    (htick : n.recorder.drainEntries.1.tick = (n.recorder.drainEntries.1, none)) :
    InTerm n₀ S seed blocks t (n.termStep cfg (.flush now)) := by
  have hcollected : InTerm n₀ S seed blocks t
      { n.flushed n.recorder.drainEntries.1 with
        collectedEntries := n.collectedEntries ++ n.recorder.entries } :=
    { h with
      flushing_eq := rfl
      ticks := by
        rw [List.countP_append, h.ticks, List.countP_eq_zero.mpr, Nat.add_zero]
        exact fun e he => by simp [h.recorded e he]
      recorded := fun _ he => absurd he List.not_mem_nil
      paid := by
        have hpaid := h.paid
        rw [List.length_append]
        exact hpaid }
  rw [Node.termStep_flush h.flushing_eq now htick, Option.toList_none,
    List.append_nil]
  by_cases hsome : n.recorder.entries.length > 0
  · rw [if_pos hsome, Node.handleEntry_of_open
      (n := n.flushed n.recorder.drainEntries.1) now
      (Or.inr (Node.endsInTick_of_forall h.recorded)) (h.leads hb hlead hE)
      (h.leaderStart_ne hb)]
    exact hcollected
  · have hnone : n.recorder.entries = [] :=
      List.length_eq_zero_iff.mp (Nat.eq_zero_of_not_pos hsome)
    rw [if_neg hsome]
    rw [hnone, List.append_nil] at hcollected
    exact hcollected

theorem toNat_tickHeight_succ (h : InTerm n₀ S seed blocks t n)
    (hb : TermBounds n₀ S E) (hE : n.recorder.currentSlot ≤ E) :
    (n.recorder.tickHeight + 1).toNat
      = (S.toNat - 1 + blocks.length) * n₀.recorder.ticksPerSlot.toNat + (t + 1) := by
  have hslot := UInt64.le_iff_toNat_le.mp hE
  rw [h.toNat_currentSlot hb] at hslot
  have hmul := Nat.mul_le_mul_right n₀.recorder.ticksPerSlot.toNat
    (show S.toNat - 1 + blocks.length + 1 ≤ E.toNat by have := hb.start_pos; omega)
  rw [Nat.succ_mul] at hmul
  have hlt := h.lt
  have hcount := hb.countable
  rw [UInt64.toNat_add, h.height, UInt64.toNat_one, Nat.mod_eq_of_lt (by omega)]
  omega

/-- What is paid for once the tick is closed. -/
theorem paid_tick (h : InTerm n₀ S seed blocks t n)
    (hleft : n.recorder.poh.remainingHashes = 1) (e : Entry) :
    (n.collectedEntries ++ (n.recorder.entries ++ [e])).length
      ≤ n₀.recorder.poh.hashesPerTick.toNat * (t + 1) := by
  have hpaid := h.paid
  rw [hleft, UInt64.toNat_one] at hpaid
  simp only [List.length_append, List.length_singleton]
  omega

theorem countP_tick (h : InTerm n₀ S seed blocks t n) {e : Entry}
    (he : e.tick = true) :
    (n.collectedEntries ++ (n.recorder.entries ++ [e])).countP Entry.tick
      = t + 1 := by
  have hnone : n.recorder.entries.countP Entry.tick = 0 :=
    List.countP_eq_zero.mpr (fun e' he' => by simp [h.recorded e' he'])
  rw [List.countP_append, List.countP_append, h.ticks, hnone, List.countP_singleton,
    if_pos he]

theorem poh_ticked (h : InTerm n₀ S seed blocks t n) (hb : TermBounds n₀ S E)
    (hleft : n.recorder.poh.remainingHashes = 1) (e : Entry) :
    (n.recorder.drainEntries.1.ticked e).poh.hashesPerTick =
      n₀.recorder.poh.hashesPerTick ∧
      (n.recorder.drainEntries.1.ticked e).poh.remainingHashes
        = n₀.recorder.poh.hashesPerTick ∧
      (n.recorder.drainEntries.1.ticked e).poh.numHashes.toNat
        + (n.recorder.drainEntries.1.ticked e).poh.remainingHashes.toNat
          ≤ n₀.recorder.poh.hashesPerTick.toNat ∧
      1 ≤ (n.recorder.drainEntries.1.ticked e).poh.remainingHashes.toNat := by
  have hpoh : (n.recorder.drainEntries.1.ticked e).poh = _ := Poh.tick_of_left hleft
  rw [hpoh, ← h.hashesPerTick_eq]
  refine ⟨rfl, rfl, (Nat.zero_add _).le, ?_⟩
  show 1 ≤ n.recorder.poh.hashesPerTick.toNat
  rw [h.hashesPerTick_eq]
  exact Nat.le_of_succ_le hb.two_le_hashesPerTick

/-- A tick within the slot is not the last one. -/
theorem mod_ne_zero (h : InTerm n₀ S seed blocks t n) (hb : TermBounds n₀ S E)
    (hE : n.recorder.currentSlot ≤ E)
    (hmid : t + 1 < n₀.recorder.ticksPerSlot.toNat) :
    ¬(n.recorder.tickHeight + 1) % n.recorder.ticksPerSlot = 0 := by
  intro hzero
  have hnat := congrArg UInt64.toNat hzero
  rw [UInt64.toNat_mod, h.toNat_tickHeight_succ hb hE, h.ticksPerSlot_eq,
    UInt64.toNat_zero, Nat.mul_comm, Nat.mul_add_mod, Nat.mod_eq_of_lt hmid] at hnat
  omega

/-- **After a tick within the slot**, with what waited and the tick
collected. -/
theorem collect_tick (h : InTerm n₀ S seed blocks t n) (hb : TermBounds n₀ S E)
    (hE : n.recorder.currentSlot ≤ E) {e : Entry} (he : e.tick = true)
    (hleft : n.recorder.poh.remainingHashes = 1)
    (hmid : t + 1 < n₀.recorder.ticksPerSlot.toNat) :
    InTerm n₀ S seed blocks (t + 1)
      { n.flushed (n.recorder.drainEntries.1.ticked e) with
        collectedEntries := n.collectedEntries ++ (n.recorder.entries ++ [e]) } := by
  obtain ⟨hpace, hfull, hcounter, hone⟩ := h.poh_ticked hb hleft e
  have hqueue : (n.recorder.drainEntries.1.ticked e).slotHashQueue
      = n.recorder.slotHashQueue := if_neg (h.mod_ne_zero hb hE hmid)
  have hpaid := h.paid_tick hleft e
  exact {
    ticksPerSlot_eq := h.ticksPerSlot_eq
    hashesPerTick_eq := hpace
    maxSize_eq := (congrArg SlotHashQueue.maxSize hqueue).trans h.maxSize_eq
    flushing_eq := rfl
    leaderStart_eq := h.leaderStart_eq
    outbox_eq := h.outbox_eq
    cover := h.cover
    height := h.toNat_tickHeight_succ hb hE
    lt := hmid
    ticks := h.countP_tick he
    recorded := fun _ hmem => absurd hmem List.not_mem_nil
    paid := by
      show (n.collectedEntries ++ (n.recorder.entries ++ [e])).length + 0
        + (n.recorder.drainEntries.1.ticked e).poh.remainingHashes.toNat ≤ _
      rw [hfull, Nat.mul_succ]
      omega
    counter := hcounter
    left := hone
    prev := (congrArg (fun q => SlotHashQueue.get q _) hqueue).trans h.prev }

/-- **A flush with a tick within the slot** hands on what waits and the
tick. -/
theorem flush_of_tick (h : InTerm n₀ S seed blocks t n) (hb : TermBounds n₀ S E)
    (hlead : ∀ s, S ≤ s → s ≤ E → Node.isLeader cfg s = true)
    (hE : n.recorder.currentSlot ≤ E) (now : UInt64) {e : Entry} (he : e.tick = true)
    (hleft : n.recorder.poh.remainingHashes = 1)
    (htick : n.recorder.drainEntries.1.tick
      = (n.recorder.drainEntries.1.ticked e, some e))
    (hmid : t + 1 < n₀.recorder.ticksPerSlot.toNat) :
    InTerm n₀ S seed blocks (t + 1) (n.termStep cfg (.flush now)) := by
  have hcollected := h.collect_tick hb hE he hleft hmid
  -- the slot under way is still the same
  have hE' : (n.recorder.drainEntries.1.ticked e).currentSlot ≤ E := by
    have hsame := (hcollected.toNat_currentSlot hb).trans
      (h.toNat_currentSlot hb).symm
    rw [UInt64.le_iff_toNat_le] at hE ⊢
    exact hsame.trans_le hE
  rw [Node.termStep_flush h.flushing_eq now htick, Option.toList_some,
    if_pos (by simp),
    Node.handleEntry_of_open (n := n.flushed (n.recorder.drainEntries.1.ticked e)) now
      (Or.inl (decide_eq_false (h.mod_ne_zero hb hE hmid)))
        (hcollected.leads hb hlead hE')
      (h.leaderStart_ne hb)]
  exact hcollected

omit [Primitives] in
/-- The slots the queue of slot hashes is asked about are not the one it
pushes out. -/
theorem slot_ne_pushed (slot : UInt64) :
    slot ≠ slot - UInt64.ofNat 10000 ∧ slot - 1 ≠ slot - UInt64.ofNat 10000 ∧
      slot - 1 ≠ slot := by
  have hlt := slot.toNat_lt
  have hsize : (UInt64.ofNat 10000).toNat = 10000 := rfl
  refine ⟨fun h => ?_, fun h => ?_, fun h => ?_⟩
  all_goals
    have hnat := congrArg UInt64.toNat h
    simp only [UInt64.toNat_sub, UInt64.toNat_one, hsize] at hnat
    omega

/-- The slot under way and the one before it, as machine words. -/
theorem ofNat_slot (h : InTerm n₀ S seed blocks t n) (hb : TermBounds n₀ S E) :
    UInt64.ofNat (S.toNat - 1 + blocks.length) = n.recorder.currentSlot - 1 ∧
      UInt64.ofNat (S.toNat - 1 + (blocks.length + 1)) = n.recorder.currentSlot := by
  have hlt := h.slot_lt hb
  have hstart := hb.start_pos
  have hsize : UInt64.size = 2 ^ 64 := rfl
  have hone : 1 ≤ n.recorder.currentSlot := by
    rw [UInt64.le_iff_toNat_le, h.toNat_currentSlot hb, UInt64.toNat_one]
    omega
  refine ⟨UInt64.toNat_inj.mp ?_, UInt64.toNat_inj.mp ?_⟩
  · rw [UInt64.toNat_sub_of_le _ _ hone, h.toNat_currentSlot hb, UInt64.toNat_one,
      UInt64.toNat_ofNat_of_lt' (by omega)]
    omega
  · rw [h.toNat_currentSlot hb, UInt64.toNat_ofNat_of_lt' (by omega)]
    omega

/-- **The last tick of a slot**: the counter comes to a whole number of
slots, and the slot that ends is the one that was under way. -/
theorem last_tick (h : InTerm n₀ S seed blocks t n) (hb : TermBounds n₀ S E)
    (hE : n.recorder.currentSlot ≤ E)
    (hlast : t + 1 = n₀.recorder.ticksPerSlot.toNat) :
    (n.recorder.tickHeight + 1).toNat
        = (S.toNat - 1 + (blocks.length + 1)) * n₀.recorder.ticksPerSlot.toNat ∧
      (n.recorder.tickHeight + 1) % n.recorder.ticksPerSlot = 0 ∧
      (n.recorder.tickHeight + 1) / n.recorder.ticksPerSlot
        = n.recorder.currentSlot := by
  have hheight : (n.recorder.tickHeight + 1).toNat
      = (S.toNat - 1 + (blocks.length + 1)) * n₀.recorder.ticksPerSlot.toNat := by
    rw [h.toNat_tickHeight_succ hb hE, hlast, ← Nat.add_assoc, Nat.succ_mul]
  have hstart := hb.start_pos
  refine ⟨hheight, UInt64.toNat_inj.mp ?_, UInt64.toNat_inj.mp ?_⟩
  · rw [UInt64.toNat_mod, hheight, h.ticksPerSlot_eq, Nat.mul_mod_left,
      UInt64.toNat_zero]
  · rw [UInt64.toNat_div, hheight, h.ticksPerSlot_eq,
      Nat.mul_div_cancel _ (Nat.zero_lt_of_lt h.lt), h.toNat_currentSlot hb]
    omega

/-- **The slot hashes after the last tick of a slot**: the one before is
still known, and the slot's own is the tick's. -/
theorem get_of_last_tick (h : InTerm n₀ S seed blocks t n) (hb : TermBounds n₀ S E)
    (hE : n.recorder.currentSlot ≤ E) (hlast : t + 1 = n₀.recorder.ticksPerSlot.toNat)
    (e : Entry) :
    (n.recorder.drainEntries.1.ticked e).slotHashQueue.get
      (n.recorder.currentSlot - 1)
        = some (endHash seed blocks) ∧
      (n.recorder.drainEntries.1.ticked e).slotHashQueue.get n.recorder.currentSlot
        = some e.hash ∧
      (n.recorder.drainEntries.1.ticked e).slotHashQueue.maxSize
        = n₀.recorder.slotHashQueue.maxSize := by
  obtain ⟨-, hmod, hslot⟩ := h.last_tick hb hE hlast
  have hqueue : (n.recorder.drainEntries.1.ticked e).slotHashQueue
      = n.recorder.slotHashQueue.put n.recorder.currentSlot e.hash := by
    rw [← hslot]
    exact if_pos hmod
  obtain ⟨hkept, hbefore, hne⟩ := slot_ne_pushed n.recorder.currentSlot
  rw [← hb.maxSize_eq, ← h.maxSize_eq] at hkept hbefore
  rw [hqueue, SlotHashQueue.get_put _ _ _ hbefore, if_neg hne,
    ← (h.ofNat_slot hb).1, h.prev,
    SlotHashQueue.get_put _ _ _ hkept, if_pos rfl, SlotHashQueue.maxSize_put,
    h.maxSize_eq]
  exact ⟨rfl, rfl, rfl⟩

end InTerm

/-- The block of the slot under way, if its last tick is `e`. -/
def Node.slotBlock (cfg : Config) (n : Node) (prevHash : Hash) (e : Entry)
    (now : UInt64) :
    BroadcastedBlock :=
  (assembleBlock n.recorder.currentSlot prevHash cfg.selfPubKey
    (n.collectedEntries ++ (n.recorder.entries ++ [e])) now).sign cfg.selfPrivKey

namespace InTerm

variable {cfg : Config} {n₀ n : Node} {S E : UInt64} {seed : Hash}
  {blocks : List BroadcastedBlock} {t : ℕ}

theorem covers_slotBlock (h : InTerm n₀ S seed blocks t n)
    (hlast : t + 1 = n₀.recorder.ticksPerSlot.toNat)
    (hleft : n.recorder.poh.remainingHashes = 1) {e : Entry} (he : e.tick = true)
    (prevHash : Hash) (now : UInt64) :
    Covers n₀.recorder.ticksPerSlot.toNat n₀.recorder.poh.hashesPerTick.toNat
      (n.slotBlock cfg prevHash e now) where
  ticks := (h.countP_tick he).trans hlast
  ends := by
    show Node.endsInTick (n.collectedEntries ++ (n.recorder.entries ++ [e])) = true
    rw [← List.append_assoc]
    exact Node.endsInTick_append_tick _ he
  length_le := by
    rw [← hlast]
    exact h.paid_tick hleft e

/-- What is handed on with a tick ends in its hash. -/
theorem lastEntryHash_slotBlock (n : Node) (prevHash : Hash) (e : Entry)
    (now : UInt64) : (n.slotBlock cfg prevHash e now).lastEntryHash = e.hash := by
  have hentries : (n.slotBlock cfg prevHash e now).entries
      = n.collectedEntries ++ n.recorder.entries ++ [e] :=
        (List.append_assoc _ _ _).symm
  unfold BroadcastedBlock.lastEntryHash
  rw [hentries, List.getLast?_concat]

/-- **A flush with the last tick of the slot** makes the block. -/
theorem termStep_last_tick (h : InTerm n₀ S seed blocks t n) (hb : TermBounds n₀ S E)
    (hlead : ∀ s, S ≤ s → s ≤ E → Node.isLeader cfg s = true)
    (hE : n.recorder.currentSlot ≤ E) (now : UInt64) {e : Entry} (he : e.tick = true)
    (htick : n.recorder.drainEntries.1.tick
      = (n.recorder.drainEntries.1.ticked e, some e))
    (hlast : t + 1 = n₀.recorder.ticksPerSlot.toNat) :
    n.termStep cfg (.flush now)
      = { n.flushed (n.recorder.drainEntries.1.ticked e) with
          collectedEntries := []
          outbox := n.outbox ++ [n.slotBlock cfg (endHash seed blocks) e now] } := by
  obtain ⟨-, hmod, hslot⟩ := h.last_tick hb hE hlast
  have hcurrent : (n.recorder.drainEntries.1.ticked e).currentSlot - 1
      = n.recorder.currentSlot := by
    show (n.recorder.tickHeight + 1) / n.recorder.ticksPerSlot + 1 - 1 = _
    rw [hslot, UInt64.add_sub_cancel]
  have hprev : (n.recorder.drainEntries.1.ticked e).getSlotHash
    (n.recorder.currentSlot - 1)
      = endHash seed blocks := by
    unfold PohRecorder.getSlotHash
    rw [(h.get_of_last_tick hb hE hlast e).1]
    rfl
  have hsome : 0 < n.collectedEntries.length := by
    have htwo := hb.two_le_ticksPerSlot
    have hle := List.countP_le_length (l := n.collectedEntries) (p := Entry.tick)
    rw [h.ticks] at hle
    omega
  rw [Node.termStep_flush h.flushing_eq now htick, Option.toList_some,
    if_pos (by simp),
    Node.handleEntry_of_close (n := n.flushed (n.recorder.drainEntries.1.ticked e))
      now (decide_eq_true hmod) (Node.endsInTick_append_tick _ he)
      (by rw [Node.flushed, hcurrent]; exact h.leads hb hlead hE) hsome]
  dsimp only [Node.flushed]
  rw [hcurrent, hprev]
  rfl

/-- **After the last tick of a slot** the next slot of the term is under
way. -/
theorem flush_of_last_tick (h : InTerm n₀ S seed blocks t n) (hb : TermBounds n₀ S E)
    (hlead : ∀ s, S ≤ s → s ≤ E → Node.isLeader cfg s = true)
    (hE : n.recorder.currentSlot ≤ E) (now : UInt64) {e : Entry} (he : e.tick = true)
    (hleft : n.recorder.poh.remainingHashes = 1)
    (htick : n.recorder.drainEntries.1.tick
      = (n.recorder.drainEntries.1.ticked e, some e))
    (hlast : t + 1 = n₀.recorder.ticksPerSlot.toNat) :
    InTerm n₀ S seed (blocks ++ [n.slotBlock cfg (endHash seed blocks) e now]) 0
      (n.termStep cfg (.flush now)) := by
  obtain ⟨hheight, -, -⟩ := h.last_tick hb hE hlast
  obtain ⟨-, hget, hsize⟩ := h.get_of_last_tick hb hE hlast e
  obtain ⟨hpace, hfull, hcounter, hone⟩ := h.poh_ticked hb hleft e
  rw [h.termStep_last_tick hb hlead hE now he htick hlast]
  exact {
    ticksPerSlot_eq := h.ticksPerSlot_eq
    hashesPerTick_eq := hpace
    maxSize_eq := hsize
    flushing_eq := rfl
    leaderStart_eq := h.leaderStart_eq
    outbox_eq := by
      rw [h.outbox_eq, List.append_assoc]
    cover := h.cover.append (h.toNat_currentSlot hb) rfl
      (h.covers_slotBlock hlast hleft he _ now)
    height := by
      rw [List.length_append, List.length_singleton]
      exact hheight
    lt := Nat.zero_lt_of_lt h.lt
    ticks := rfl
    recorded := fun _ hmem => absurd hmem List.not_mem_nil
    paid := by
      show 0 + 0 + (n.recorder.drainEntries.1.ticked e).poh.remainingHashes.toNat ≤ _
      rw [hfull]
      omega
    counter := hcounter
    left := hone
    prev := by
      rw [List.length_append, List.length_singleton, (h.ofNat_slot hb).2,
        endHash_append, lastEntryHash_slotBlock]
      exact hget }

/-- **An iteration of the flush loop.** -/
theorem flush (h : InTerm n₀ S seed blocks t n) (hb : TermBounds n₀ S E)
    (hlead : ∀ s, S ≤ s → s ≤ E → Node.isLeader cfg s = true)
    (hE : n.recorder.currentSlot ≤ E) (now : UInt64) :
    ∃ blocks' t', InTerm n₀ S seed blocks' t' (n.termStep cfg (.flush now)) := by
  obtain ⟨-, -, htick⟩ | ⟨e, hleft, -, he, htick⟩ :=
    n.recorder.drainEntries.1.tick_cases (fun _ => h.numHashes_lt hb)
  · exact ⟨blocks, t, h.flush_of_no_tick hb hlead hE now htick⟩
  · obtain hmid | hlast := Nat.lt_or_eq_of_le (Nat.succ_le_of_lt h.lt)
    · exact ⟨blocks, t + 1, h.flush_of_tick hb hlead hE now he hleft htick hmid⟩
    · exact ⟨_, 0, h.flush_of_last_tick hb hlead hE now he hleft htick hlast⟩

theorem start (hb : TermBounds n S E) (hflush : n.flushing = none) :
    InTerm n S seed [] 0 (n.startTerm S seed) := by
  have hpos := hb.start_pos
  have hle := Nat.mul_le_mul_right n.recorder.ticksPerSlot.toNat
    (show S.toNat - 1 ≤ E.toNat by have := hb.start_le; omega)
  have hcount := hb.countable
  have hprev : (S - 1).toNat = S.toNat - 1 :=
    UInt64.toNat_sub_of_le _ _ (UInt64.le_iff_toNat_le.mpr hpos)
  exact {
    ticksPerSlot_eq := rfl
    hashesPerTick_eq := rfl
    maxSize_eq := SlotHashQueue.maxSize_put _ _ _
    flushing_eq := hflush
    leaderStart_eq := rfl
    outbox_eq := (List.append_nil _).symm
    cover := trivial
    height := by
      show ((S - 1) * n.recorder.ticksPerSlot).toNat = (S.toNat - 1) * _
      rw [UInt64.toNat_mul, hprev, Nat.mod_eq_of_lt (hle.trans_lt hcount)]
    lt := Nat.lt_of_lt_of_le Nat.zero_lt_two hb.two_le_ticksPerSlot
    ticks := rfl
    recorded := fun _ hmem => absurd hmem List.not_mem_nil
    paid := by
      show 0 + 0 + n.recorder.poh.hashesPerTick.toNat
        ≤ n.recorder.poh.hashesPerTick.toNat * 1
      omega
    counter := by
      show 0 + n.recorder.poh.hashesPerTick.toNat ≤ _
      omega
    left := Nat.le_of_succ_le hb.two_le_hashesPerTick
    prev := by
      have hkept := (slot_ne_pushed (S - 1)).1
      rw [← hb.maxSize_eq] at hkept
      show (n.recorder.slotHashQueue.put (S - 1) seed).get
        (UInt64.ofNat (S.toNat - 1)) = some seed
      rw [← hprev, UInt64.ofNat_toNat, SlotHashQueue.get_put _ _ _ hkept,
        if_pos rfl] }

theorem step (h : InTerm n₀ S seed blocks t n) (hb : TermBounds n₀ S E)
    (hlead : ∀ s, S ≤ s → s ≤ E → Node.isLeader cfg s = true)
    (hE : n.recorder.currentSlot ≤ E) (op : TermOp) :
    ∃ blocks' t', InTerm n₀ S seed blocks' t' (n.termStep cfg op) := by
  cases op with
  | autoHash => exact ⟨blocks, t, h.autoHash⟩
  | recordTxs txs => exact ⟨blocks, t, h.recordTxs hb txs⟩
  | flush now => exact h.flush hb hlead hE now

end InTerm

/-- **The blocks of a term cover its slots**: in order, one to a slot, each
with the ticks of its slot and from the hash the slot before ended in. -/
theorem blocks_cover_slots {cfg : Config} {n n' : Node} {S E : UInt64} {seed : Hash}
    (hb : TermBounds n S E) (hlead : ∀ s, S ≤ s → s ≤ E → Node.isLeader cfg s = true)
    (hflush : n.flushing = none)
    (hrun : Machine.Run (fun n op => some (Node.termStep cfg n op))
      (fun n _ => n.recorder.currentSlot ≤ E) (n.startTerm S seed) n') :
    ∃ blocks, n'.outbox = n.outbox ++ blocks ∧
      CoverSlots n.recorder.ticksPerSlot.toNat n.recorder.poh.hashesPerTick.toNat
        S.toNat seed blocks ∧
      n'.recorder.currentSlot.toNat = S.toNat + blocks.length := by
  have hin : ∃ blocks t, InTerm n S seed blocks t n' := by
    refine Machine.Run.invariant
      (I := fun m => ∃ blocks t, InTerm n S seed blocks t m) hrun
      ⟨[], 0, InTerm.start hb hflush⟩ ?_
    rintro m op m' ⟨blocks, t, h⟩ hE hstep
    cases hstep
    exact h.step hb hlead hE op
  obtain ⟨blocks, t, h⟩ := hin
  exact ⟨blocks, h.outbox_eq, h.cover, h.toNat_currentSlot hb⟩

end

/-! ## Examples -/

section Sample

attribute [local instance] Sample.primitives

open Sample

/-- A validator that is alone, at some pace. -/
def aloneAtPace (pohCfg : PohConfig) : Node :=
  Node.new { alone with pohCfg := pohCfg } Store.empty

/-- A term of one slot in which a transfer is recorded. -/
theorem blocks_cover_slot_one :
    ∃ n' : Node, (∃ blocks, n'.outbox = [] ++ blocks ∧
      CoverSlots 2 2 1 zeroHash blocks ∧
        n'.recorder.currentSlot.toNat = 1 + blocks.length) ∧
      (n'.outbox.map (fun b => (b.slot, b.entries.map Entry.tick))
        == [(1, [false, true, true])]) = true := by
  have hexec : (Machine.exec (fun n op => some (Node.termStep alone n op))
      (fun n _ => n.recorder.currentSlot ≤ 1)
        ((aloneAtPace ⟨2, 2, by decide, by decide⟩).startTerm 1 zeroHash)
      [.recordTxs [transfer 1 2 5 1 0], .flush 10, .autoHash, .flush 20]).any
        (fun n => n.outbox.map (fun b => (b.slot, b.entries.map Entry.tick))
          == [(1, [false, true, true])]) = true := by
    decide +kernel
  have hlead : ∀ s : UInt64, 1 ≤ s → s ≤ 1 → Node.isLeader alone s = true := by
    intro s hlow hhigh
    rw [UInt64.le_antisymm hhigh hlow]
    decide +kernel
  obtain ⟨n', hrun, hout⟩ := Machine.exists_run_of_exec hexec
  exact ⟨n', blocks_cover_slots ⟨by decide, by decide, by decide, rfl, by decide, by
    decide, by decide⟩ hlead rfl hrun, hout⟩

/-- The slot the recorder is in when a term has begun, and the slots of the
blocks made in the four ticks after that. -/
def slotsOfTerm (pohCfg : PohConfig) (start : UInt64) :
    UInt64 × Option (List UInt64) :=
  let n := (aloneAtPace pohCfg).startTerm start zeroHash
  (n.recorder.currentSlot,
    (Machine.exec (fun n op => some (Node.termStep alone n op)) Machine.Always n
      [.autoHash, .flush 10, .autoHash, .flush 20, .autoHash, .flush 30, .autoHash,
        .flush 40]).map fun n => n.outbox.map (fun b => b.slot))

/-- **Terms whose ticks cannot be counted.** They begin at the last slot the
recorder can be in, at three ticks to a slot and at two. The recorder is in
that slot, and the node leads it; but the counter of the ticks wraps before
the slot is over, and the blocks that are made are those of slot one, or of
the slots zero and one. -/
theorem blocks_of_other_slots :
    (Node.isLeader alone 6148914691236517206 = true ∧
      slotsOfTerm ⟨2, 3, by decide, by decide⟩ 6148914691236517206
        = (6148914691236517206, some [1])) ∧
    Node.isLeader alone 9223372036854775808 = true ∧
      slotsOfTerm ⟨2, 2, by decide, by decide⟩ 9223372036854775808
        = (9223372036854775808, some [0, 1]) := by
  decide +kernel

end Sample

end Mmn
