import Mmn.Idle
import Mmn.Ordering

/-!
# The blocks a node makes up for its own slots

While it takes consecutive blocks off the ordering queue, a node fills the
slots it led and has no block for: `processConsecutiveBlocks` generates the
ticks of an idle slot, assembles a block of them and signs it. Three things
have to fit together. The ticks are checked by a function that does not
share its loop with the one that generates them
(`verifyEntries_tickOnlyEntriesFrom`); the signature is checked against the
key the block names; and the hash the block continues from is that of the
block before it, which is the last one of the batch being built, or, at the
start of a batch, a block of the store.

The first two hold whatever is in the queue (`valid_of_rounds`). The last
holds because the queue has every block under its own slot. The batch asks
its last block for the slot it carries, not for the slot it was taken for,
and a block that carries another slot is passed over
(`misplaced_block_is_passed_over`).

The loop is taken apart into its rounds here, so that what is said of a
batch is also said of a loop that does not end: it never does if the peers
report the last slot number and the node leads all slots. The settings of
the clock are those of the network layer, which are not bound to what the
engine accepts.
-/

namespace Mmn

section

variable [Primitives]

/-! ## Generated ticks pass the check -/

omit [Primitives] in
/-- A tick within the bound on hashes is a valid entry. -/
theorem validateEntry_newTickEntry {numHashes : UInt64} (h : numHashes ≤ maxNumHashes)
    (hash : Hash) : validateEntry (newTickEntry numHashes hash) = .ok () := by
  unfold validateEntry newTickEntry
  dsimp only
  rw [if_neg (UInt64.not_lt.mpr h)]
  rfl

/-- The check computes the hashes the ticks were generated with. -/
theorem recomputed_tickOnlyEntriesFrom {hashesPerTick : UInt64}
    (h : 1 ≤ hashesPerTick) (k : ℕ) (seed : Hash) :
    recomputed seed (tickOnlyEntriesFrom hashesPerTick k seed)
      = (tickOnlyEntriesFrom hashesPerTick k seed).map Entry.hash := by
  have hsub : (hashesPerTick - 1).toNat = hashesPerTick.toNat - 1 :=
    UInt64.toNat_sub_of_le _ _ h
  induction k generalizing seed with
  | zero => rfl
  | succ k ih =>
    rw [tickOnlyEntriesFrom, recomputed, entryHash_newTickEntry, hsub, ih,
      List.map_cons]
    rfl

theorem validateEntry_of_mem_tickOnlyEntriesFrom {hashesPerTick : UInt64}
    (h : hashesPerTick ≤ maxNumHashes) {k : ℕ} {seed : Hash} {e : Entry}
    (he : e ∈ tickOnlyEntriesFrom hashesPerTick k seed) :
    validateEntry e = .ok () := by
  induction k generalizing seed with
  | zero => cases he
  | succ k ih =>
    obtain rfl | he := List.mem_cons.mp he
    · exact validateEntry_newTickEntry h _
    · exact ih he

/-- **The ticks of an idle slot pass the check of a block's entries.** -/
theorem verifyEntries_tickOnlyEntriesFrom {hashesPerTick : UInt64}
    (hone : 1 ≤ hashesPerTick) (hmax : hashesPerTick ≤ maxNumHashes) {k : ℕ}
    (hk : k ≤ maxEntriesPerSlot) (seed : Hash) (slot : UInt64) :
    verifyEntries seed (tickOnlyEntriesFrom hashesPerTick k seed) slot = .ok () := by
  unfold verifyEntries
  dsimp only
  rw [length_tickOnlyEntriesFrom, if_neg (Nat.not_lt.mpr hk)]
  exact verifyEntriesFrom_eq_ok_iff.mpr
    ⟨fun _ he => validateEntry_of_mem_tickOnlyEntriesFrom hmax he,
      recomputed_tickOnlyEntriesFrom hone k seed⟩

/-! ## The loop, round by round -/

/-- **What the loop reads of the network layer.** -/
structure Filler where
  isLeaderOfSlot : UInt64 → Bool
  selfPubKey : String
  selfPrivKey : Bytes
  ticksPerSlot : UInt64
  hashesPerTick : UInt64
  keyPair : ∃ pub, getPublicKeyFromLeaderID selfPubKey = .ok pub ∧
    ∀ msg, (ed25519Sign selfPrivKey msg).length = 64 ∧
      ed25519Verify pub msg (ed25519Sign selfPrivKey msg) = true

/-- A block of the batch, with the slot it was taken for. -/
structure TakenBlock where
  slot : UInt64
  block : BroadcastedBlock
  /-- Was the block made up? If not, it was in the queue. -/
  generated : Bool

/-- What the loop has made so far. -/
structure Batch where
  queue : AList (fun _ : UInt64 => BroadcastedBlock)
  next : UInt64
  taken : List TakenBlock

/-- The blocks to process. -/
def Batch.processed (b : Batch) : List BroadcastedBlock :=
  b.taken.map TakenBlock.block

/-- What the loop accumulates, as `takeConsecutive` has it. -/
def Batch.plain (b : Batch) : Node.Consecutive :=
  ⟨b.queue, b.next, b.processed⟩

/-- The clock's settings are within the bounds of the check. -/
structure Filler.InBounds (f : Filler) : Prop where
  one_le_ticks : 1 ≤ f.ticksPerSlot.toNat
  ticks_le : f.ticksPerSlot.toNat ≤ maxEntriesPerSlot
  one_le_hashes : 1 ≤ f.hashesPerTick
  hashes_le : f.hashesPerTick ≤ maxNumHashes

namespace Filler

/-- The block made up for a slot. -/
def emptyBlock (f : Filler) (slot : UInt64) (prevHash : Hash) (now : UInt64) :
    BroadcastedBlock :=
  (assembleBlock slot prevHash f.selfPubKey
    (generateTickOnlyEntries prevHash f.ticksPerSlot.toInt64.toInt f.hashesPerTick)
      now).sign
    f.selfPrivKey

/-- **One round of the loop**, unless the loop ends. -/
def round (f : Filler) (s : Store) (worldLatestSlot : UInt64) (clock : ℕ → UInt64)
    (b : Batch) :
    Option Batch :=
  if b.next > worldLatestSlot then none
  else match b.queue.lookup b.next with
    | some blk => some
        { queue := b.queue.erase b.next
          next := b.next + 1
          taken := b.taken ++ [⟨b.next, blk, false⟩] }
    | none =>
      if f.isLeaderOfSlot b.next then
        let prevHash := Node.getPrevHashForSlot s b.next b.processed
        some
          { b with
            next := b.next + 1
            taken := b.taken ++
              [⟨b.next, f.emptyBlock b.next prevHash (clock b.taken.length), true⟩] }
      else none

/-- The loop after a number of rounds, if it has not ended before. -/
def rounds (f : Filler) (s : Store) (worldLatestSlot : UInt64) (clock : ℕ → UInt64) :
    ℕ → Batch → Option Batch
  | 0, b => some b
  | k + 1, b =>
    (f.round s worldLatestSlot clock b).bind (f.rounds s worldLatestSlot clock k)

variable {f : Filler} {s : Store} {w : UInt64} {clock : ℕ → UInt64} {b b' : Batch}

/-- **What a round can do**: take the block of the next slot off the queue,
or make one up. -/
theorem round_cases (h : f.round s w clock b = some b') :
    (∃ blk, b.queue.lookup b.next = some blk ∧
        b' = ⟨b.queue.erase b.next, b.next + 1, b.taken ++ [⟨b.next, blk, false⟩]⟩) ∨
      b' = ⟨b.queue, b.next + 1, b.taken ++ [⟨b.next, f.emptyBlock b.next
        (Node.getPrevHashForSlot s b.next b.processed) (clock b.taken.length),
        true⟩]⟩ := by
  unfold round at h
  split at h
  · cases h
  split at h
  · next blk hlook =>
    cases h
    exact Or.inl ⟨blk, hlook, rfl⟩
  · split at h
    · cases h
      exact Or.inr rfl
    · cases h

/-! ### The rounds of a node -/

/-- The settings of a configured node. -/
def ofConfig (cfg : Config) : Filler where
  isLeaderOfSlot := Node.isLeader cfg
  selfPubKey := cfg.selfPubKey
  selfPrivKey := cfg.selfPrivKey
  ticksPerSlot := cfg.pohCfg.ticksPerSlot
  hashesPerTick := cfg.pohCfg.hashesPerTick
  keyPair := cfg.keyPair

/-- The node's loop makes a round, or ends where there is none. -/
theorem takeConsecutive_succ (cfg : Config) (fuel : ℕ) (b : Batch) :
    Node.takeConsecutive cfg s w clock (fuel + 1) b.plain
      = match (ofConfig cfg).round s w clock b with
        | some b' => Node.takeConsecutive cfg s w clock fuel b'.plain
        | none => some b.plain := by
  have hplain :
    ∀ (queue : AList (fun _ : UInt64 => BroadcastedBlock)) (t : TakenBlock),
      Batch.plain ⟨queue, b.next + 1, b.taken ++ [t]⟩
        = ⟨queue, b.next + 1, b.processed ++ [t.block]⟩ := by
    intro queue t
    unfold Batch.plain Batch.processed
    rw [List.map_append, List.map_singleton]
  have hlength : b.processed.length = b.taken.length := List.length_map _
  have hleads : (ofConfig cfg).isLeaderOfSlot b.next = Node.isLeader cfg b.next := rfl
  rw [Node.takeConsecutive, round]
  show (if b.next > w then _ else _) = _
  by_cases hend : b.next > w
  · rw [if_pos hend, if_pos hend]
  rw [if_neg hend, if_neg hend]
  show (match b.queue.lookup b.next with | some blk => _ | none => _) = _
  cases b.queue.lookup b.next with
  | some blk =>
    dsimp only
    rw [hplain]
    rfl
  | none =>
    dsimp only
    rw [hleads]
    show (if Node.isLeader cfg b.next = true then _ else _) = _
    by_cases hlead : Node.isLeader cfg b.next = true
    · rw [if_pos hlead, if_pos hlead, ← hlength]
      dsimp only
      rw [hplain]
      rfl
    · rw [if_neg hlead, if_neg hlead]

/-- **The loop of a node is made of rounds**, and ends where there is none. -/
theorem exists_rounds {cfg : Config} {fuel : ℕ} {b : Batch} {c : Node.Consecutive}
    (h : Node.takeConsecutive cfg s w clock fuel b.plain = some c) :
    ∃ k b', (ofConfig cfg).rounds s w clock k b = some b' ∧
      (ofConfig cfg).round s w clock b' = none ∧ b'.plain = c := by
  induction fuel generalizing b with
  | zero => cases h
  | succ fuel ih =>
    rw [takeConsecutive_succ] at h
    cases hround : (ofConfig cfg).round s w clock b with
    | none =>
      rw [hround] at h
      exact ⟨0, b, rfl, hround, Option.some.inj h⟩
    | some b₁ =>
      rw [hround] at h
      obtain ⟨k, b', hrounds, hend⟩ := ih h
      refine ⟨k + 1, b', ?_, hend⟩
      rw [rounds, hround]
      exact hrounds

/-! ## What is made up is valid -/

/-- **A block made up for a slot is signed**, by the key it names. -/
theorem verifySignature_emptyBlock (f : Filler) (slot : UInt64) (prevHash : Hash)
    (now : UInt64) :
    (f.emptyBlock slot prevHash now).verifySignature = true := by
  obtain ⟨pub, hpub, hsign⟩ := f.keyPair
  exact BroadcastedBlock.verifySignature_iff.mpr ⟨pub, hpub, hsign _⟩

/-- The number of ticks survives the conversion to a signed number. -/
theorem InBounds.toInt_ticksPerSlot (h : f.InBounds) :
    f.ticksPerSlot.toInt64.toInt = (f.ticksPerSlot.toNat : ℤ) := by
  have hle : f.ticksPerSlot.toNat ≤ 100 := h.ticks_le
  show (f.ticksPerSlot.toBitVec).toInt = _
  rw [BitVec.toInt_eq_toNat_of_lt]
  · rfl
  · show 2 * f.ticksPerSlot.toNat < 2 ^ 64
    omega

/-- **The entries of a block made up for a slot follow** from the hash it
names. -/
theorem InBounds.verifyPoH_emptyBlock (h : f.InBounds) (slot : UInt64)
    (prevHash : Hash) (now : UInt64) :
    (f.emptyBlock slot prevHash now).verifyPoH = .ok () := by
  have hone : 1 ≤ f.hashesPerTick.toNat := UInt64.le_iff_toNat_le.mp h.one_le_hashes
  show verifyEntries prevHash
    (generateTickOnlyEntries prevHash f.ticksPerSlot.toInt64.toInt f.hashesPerTick)
      slot = _
  rw [h.toInt_ticksPerSlot, generateTickOnlyEntries_eq hone]
  exact verifyEntries_tickOnlyEntriesFrom h.one_le_hashes h.hashes_le h.ticks_le
    prevHash slot

/-- **A valid block of a batch**, by itself. -/
structure Valid (t : TakenBlock) : Prop where
  slot : t.block.slot = t.slot
  signed : t.block.verifySignature = true
  follows : t.block.verifyPoH = .ok ()

/-- **Every block made up is valid**, whatever the queue holds. -/
theorem valid_of_rounds (hbounds : f.InBounds) {k : ℕ}
    (hrounds : f.rounds s w clock k b = some b')
    (hvalid : ∀ t ∈ b.taken, t.generated = true → Valid t) :
    ∀ t ∈ b'.taken, t.generated = true → Valid t := by
  induction k generalizing b with
  | zero =>
    cases hrounds
    exact hvalid
  | succ k ih =>
    obtain ⟨b₁, hround, hrest⟩ := Option.bind_eq_some_iff.mp hrounds
    refine ih hrest fun t ht hgenerated => ?_
    obtain ⟨blk, -, rfl⟩ | rfl := round_cases hround
    · obtain ht | ht := List.mem_append.mp ht
      · exact hvalid t ht hgenerated
      · obtain rfl := List.mem_singleton.mp ht
        cases hgenerated
    · obtain ht | ht := List.mem_append.mp ht
      · exact hvalid t ht hgenerated
      · obtain rfl := List.mem_singleton.mp ht
        exact ⟨rfl, f.verifySignature_emptyBlock _ _ _,
          hbounds.verifyPoH_emptyBlock _ _ _⟩

/-! ## What is made up is linked -/

/-- **What a block made up in a batch continues from**, next to the block of
the batch before it. -/
structure Linked (s : Store) (before : Option TakenBlock) (t : TakenBlock) :
    Prop where
  first : t.slot - 1 = 0 → t.block.prevHash = zeroHash
  /-- The block before it in the batch was taken for the slot before. It
  continues from that. -/
  taken : t.slot - 1 ≠ 0 → ∀ t' ∈ before,
    t'.slot = t.slot - 1 ∧ t.block.prevHash = t'.block.lastEntryHash
  /-- Where there is none, it continues from the block stored at the slot
  before. -/
  stored : t.slot - 1 ≠ 0 → before = none → ∀ blk ∈ s.block (t.slot - 1),
    t.block.prevHash = blk.lastEntryHash

/-- The block of a batch before the one at an index. -/
def takenBefore (taken : List TakenBlock) : ℕ → Option TakenBlock
  | 0 => none
  | i + 1 => taken[i]?

/-- **A batch in good order.** -/
structure Orderly (s : Store) (b : Batch) : Prop where
  /-- Every block of the queue waits under its own slot. -/
  keyed : Node.Keyed b.queue
  /-- The last block was taken for the slot before the next, and carries it. -/
  last : ∀ t ∈ b.taken.getLast?, t.block.slot = t.slot ∧ t.slot + 1 = b.next
  linked : ∀ i t, b.taken[i]? = some t → t.generated = true →
    Linked s (takenBefore b.taken i) t

omit [Primitives] in
theorem takenBefore_append {taken : List TakenBlock} {i : ℕ} (hi : i ≤ taken.length)
    (t : TakenBlock) : takenBefore (taken ++ [t]) i = takenBefore taken i := by
  cases i with
  | zero => rfl
  | succ i => exact List.getElem?_append_left hi

omit [Primitives] in
theorem takenBefore_length (taken : List TakenBlock) :
    takenBefore taken taken.length = taken.getLast? := by
  rw [List.getLast?_eq_getElem?]
  cases taken with
  | nil => rfl
  | cons t taken => rfl

omit [Primitives] in
theorem Orderly.start {queue : AList (fun _ : UInt64 => BroadcastedBlock)}
    (h : Node.Keyed queue) (next : UInt64) : Orderly s ⟨queue, next, []⟩ where
  keyed := h
  last _ ht := by cases ht
  linked _ _ ht := by cases ht

omit [Primitives] in
/-- **A batch stays in good order with one block more**, if that is the
block of the next slot and, where it is made up, is linked to the last one. -/
theorem Orderly.snoc (h : Orderly s b)
    {queue : AList (fun _ : UInt64 => BroadcastedBlock)} (hqueue : Node.Keyed queue)
    {t : TakenBlock} (hslot : t.slot = b.next) (hown : t.block.slot = t.slot)
    (hlinked : t.generated = true → Linked s b.taken.getLast? t) :
    Orderly s ⟨queue, b.next + 1, b.taken ++ [t]⟩ where
  keyed := hqueue
  last := by
    intro t' ht'
    rw [List.getLast?_concat] at ht'
    cases ht'
    exact ⟨hown, congrArg (· + 1) hslot⟩
  linked := by
    intro i t' ht' hgenerated
    obtain hi | hi := Nat.lt_or_ge i b.taken.length
    · rw [takenBefore_append hi.le]
      rw [List.getElem?_append_left hi] at ht'
      exact h.linked i t' ht' hgenerated
    · obtain rfl : i = b.taken.length := by
        have hlt := (List.getElem?_eq_some_iff.mp ht').1
        rw [List.length_append, List.length_singleton] at hlt
        omega
      rw [List.getElem?_concat_length] at ht'
      cases ht'
      rw [takenBefore_append le_rfl, takenBefore_length]
      exact hlinked hgenerated

/-- **The hash a block of the batch continues from.** The block before it is
the last of the batch, and carries the slot before, so it is asked for its
hash. -/
theorem Orderly.linked_emptyBlock (h : Orderly s b) (now : UInt64) :
    Linked s b.taken.getLast?
      ⟨b.next, f.emptyBlock b.next (Node.getPrevHashForSlot s b.next b.processed) now,
        true⟩ := by
  have hlast : b.processed.getLast? = b.taken.getLast?.map TakenBlock.block :=
    List.getLast?_map
  refine ⟨?_, ?_, ?_⟩
  · exact fun hzero => if_pos hzero
  · intro hne t' ht'
    obtain ⟨hown, hnext⟩ := h.last t' ht'
    have hslot : t'.slot = b.next - 1 := by
      rw [← hnext, UInt64.add_sub_cancel]
    refine ⟨hslot, ?_⟩
    show Node.getPrevHashForSlot s b.next b.processed = _
    unfold Node.getPrevHashForSlot
    rw [if_neg hne, hlast, Option.mem_def.mp ht']
    exact if_pos (hown.trans hslot)
  · intro hne hnone blk hblk
    show Node.getPrevHashForSlot s b.next b.processed = _
    unfold Node.getPrevHashForSlot
    rw [if_neg hne, hlast, hnone, Option.map_none]
    dsimp only
    rw [Option.mem_def.mp hblk]

/-- A round keeps the batch in good order. -/
theorem Orderly.round (h : Orderly s b) (hround : f.round s w clock b = some b') :
    Orderly s b' := by
  obtain ⟨blk, hlook, rfl⟩ | rfl := round_cases hround
  · exact h.snoc (fun slot blk' hblk' =>
      h.keyed slot blk' (AList.lookup_of_lookup_erase hblk')) rfl
      (h.keyed _ _ hlook) (fun hgenerated => by cases hgenerated)
  · exact h.snoc h.keyed rfl rfl (fun _ => h.linked_emptyBlock _)

theorem Orderly.rounds (h : Orderly s b) {k : ℕ}
    (hrounds : f.rounds s w clock k b = some b') : Orderly s b' := by
  induction k generalizing b with
  | zero =>
    cases hrounds
    exact h
  | succ k ih =>
    obtain ⟨b₁, hround, hrest⟩ := Option.bind_eq_some_iff.mp hrounds
    exact ih (h.round hround) hrest

/-- **What a node's loop takes off its queue is in good order.** -/
theorem exists_orderly {cfg : Config}
    {queue : AList (fun _ : UInt64 => BroadcastedBlock)} (hkeyed : Node.Keyed queue)
    {next : UInt64} {fuel : ℕ} {c : Node.Consecutive}
    (h : Node.takeConsecutive cfg s w clock fuel ⟨queue, next, []⟩ = some c) :
    ∃ b : Batch, b.plain = c ∧ Orderly s b := by
  obtain ⟨k, b, hrounds, -, hplain⟩ := exists_rounds (b := ⟨queue, next, []⟩) h
  exact ⟨b, hplain, (Orderly.start hkeyed next).rounds hrounds⟩

/-- **The blocks a node makes up are valid and linked**, after any number of
rounds of the loop: valid with any queue, and linked if the queue has every
block under its own slot. -/
theorem generated_linked (hbounds : f.InBounds)
    {queue : AList (fun _ : UInt64 => BroadcastedBlock)} {next : UInt64} {k : ℕ}
    (hrounds : f.rounds s w clock k ⟨queue, next, []⟩ = some b) {i : ℕ}
    {t : TakenBlock} (ht : b.taken[i]? = some t) (hgenerated : t.generated = true) :
    Valid t ∧ (Node.Keyed queue → Linked s (takenBefore b.taken i) t) := by
  constructor
  · exact valid_of_rounds hbounds hrounds (fun _ hmem => absurd hmem List.not_mem_nil)
      t (List.mem_of_getElem? ht) hgenerated
  · intro hkeyed
    exact ((Orderly.start hkeyed next).rounds hrounds).linked i t ht hgenerated

end Filler

end

section Sample

attribute [local instance] Sample.primitives

/-- A queue with a block under the first slot. -/
def Sample.waiting (blk : BroadcastedBlock) :
    AList (fun _ : UInt64 => BroadcastedBlock) :=
  AList.singleton 1 blk

theorem Sample.keyed_waiting {blk : BroadcastedBlock} (h : blk.slot = 1) :
    Node.Keyed (Sample.waiting blk) := by
  intro slot b hb
  have hempty : Node.Keyed (∅ : AList (fun _ : UInt64 => BroadcastedBlock)) := by
    intro slot b hb
    rw [AList.lookup_empty] at hb
    cases hb
  have hinsert := hempty.insert blk
  rw [h] at hinsert
  exact hinsert slot b hb

/-- The block of the first slot waits, and the second slot is filled. -/
def Sample.filled (blk : BroadcastedBlock) : Option Batch :=
  (Filler.ofConfig Sample.alone).rounds .empty 2 (fun _ => 0) 2
    ⟨Sample.waiting blk, 1, []⟩

theorem Sample.alone_inBounds : (Filler.ofConfig Sample.alone).InBounds :=
  ⟨by decide, by decide, by decide, by decide⟩

/-- The block made up for the second slot continues from the one taken for
the first. -/
theorem generated_linked_second :
    ∃ b t₁ t₂, Sample.filled (Sample.blockWith 1 1 0 []) = some b ∧
      b.taken = [t₁, t₂] ∧ t₂.generated = true ∧ t₂.slot = 2 ∧ Filler.Valid t₂ ∧
      Filler.Linked .empty (some t₁) t₂ := by
  have hkeyed : Node.Keyed (Sample.waiting (Sample.blockWith 1 1 0 [])) :=
    Sample.keyed_waiting rfl
  obtain ⟨b, t₁, t₂, hrun, htaken, hgenerated, hslot⟩ :
      ∃ b t₁ t₂, Sample.filled (Sample.blockWith 1 1 0 []) = some b ∧
        b.taken = [t₁, t₂] ∧ t₂.generated = true ∧ t₂.slot = 2 :=
    ⟨_, _, _, rfl, rfl, rfl, rfl⟩
  have hsecond : b.taken[1]? = some t₂ := by rw [htaken]; rfl
  obtain ⟨hvalid, hlinked⟩ :=
    Filler.generated_linked Sample.alone_inBounds hrun hsecond hgenerated
  rw [htaken] at hlinked
  exact ⟨b, t₁, t₂, hrun, htaken, hgenerated, hslot, hvalid, hlinked hkeyed⟩

/-- **A block under another slot than its own is passed over**: the block
made up after it continues from zeros. -/
theorem misplaced_block_is_passed_over :
    (Filler.ofConfig Sample.alone).InBounds ∧ ∃ b t₁ t₂,
      Sample.filled (Sample.blockWith 1 7 0 []) = some b ∧ b.taken = [t₁, t₂] ∧
      t₁.slot = 1 ∧ t₂.slot = 2 ∧ t₂.generated = true ∧
      t₂.block.prevHash ≠ t₁.block.lastEntryHash := by
  refine ⟨Sample.alone_inBounds, _, _, _, rfl, rfl, rfl, rfl, rfl, ?_⟩
  decide +kernel

end Sample

end Mmn
