import Mmn.Ordering
import Mmn.Sequencer

/-!
# The order in which blocks of the sync arrive

What a node has after a sync should not depend on the order in which the
blocks reached it. It does: as soon as any block arrives, the loop over the
queue makes up blocks for the slots the node led whose own blocks are still
on their way, and those then come too late (`order_of_arrival_matters`).

While no block is made up the queue is a sequencer (`Sequencer`): it has
processed the blocks that the sequencer has released, and the same blocks
wait (`Follows`). The order does not matter then (`order_irrelevant`), from
any state of the queue: blocks may wait in it already, as long as none of
those that arrive is for a slot of theirs.

The converse does not hold. Two orders in which blocks are made up end alike
when the same blocks are made up in both, which is up to the clock: a
made-up block carries the time of the call that makes it.
-/

namespace Mmn

open Sequencing

section

variable [Primitives]

/-! ## Blocks that are made up -/

namespace Node

variable {cfg : Config}

/-- Blocks are put into the queue one after the other, each with the times
at which blocks may be made up. -/
def addAll (cfg : Config) :
    Node → List (BroadcastedBlock × (ℕ → UInt64)) → Option Node
  | n, [] => some n
  | n, (blk, clock) :: calls =>
    (n.addBlockToOrderingQueue cfg blk clock).bind fun r => addAll cfg r.1 calls

/-- The blocks of a list that are for free slots. -/
def news (n : Node) (blks : List BroadcastedBlock) : List BroadcastedBlock :=
  blks.filter fun b => !n.store.hasCompleteBlock b.slot

/-- A slot has its block: it waited in the queue from the start, or it is
among those that have arrived. -/
def Has (n : Node) (pre : List BroadcastedBlock) (slot : UInt64) : Prop :=
  slot ∈ n.blockOrderingQueue ∨ ∃ b ∈ pre, b.slot = slot

/-- **No block is made up.** Whenever some blocks have arrived and all slots
before one the node led have their blocks, that slot has its block too. -/
def NoneMadeUp (cfg : Config) (n : Node) (blks : List BroadcastedBlock) : Prop :=
  ∀ pre, pre <+: n.news blks → pre ≠ [] → ∀ slot, isLeader cfg slot = true →
    n.nextExpectedSlot ≤ slot → slot ≤ n.worldLatestSlot →
    (∀ t, n.nextExpectedSlot ≤ t → t < slot → n.Has pre t) → n.Has pre slot

/-- **A loop that makes up no block** takes what the queue has, up to the
first slot missing. -/
theorem processed_of_notLed {s : Store} {w : UInt64} {clock : ℕ → UInt64}
    {f : ℕ → Option BroadcastedBlock} :
    ∀ (fuel : ℕ) (c c' : Consecutive), NoWrap cfg w c.queue →
      takeConsecutive cfg s w clock fuel c = some c' →
      (∀ slot, c.next.toNat ≤ slot.toNat → c.queue.lookup slot = f slot.toNat) →
      (∀ slot, slot ≤ w → isLeader cfg slot = true → slot.toNat ≠ c.next.toNat
        + (takeFrom f (w.toNat + 1 - c.next.toNat) c.next.toNat).length) →
      c'.processed = c.processed ++ takeFrom f (w.toNat + 1 - c.next.toNat)
        c.next.toNat := by
  intro fuel
  induction fuel with
  | zero => exact fun c c' _ h => by cases h
  | succ fuel ih =>
    intro c c' hw h hqueue hled
    unfold takeConsecutive at h
    by_cases hle : c.next ≤ w
    swap
    · rw [if_pos (UInt64.not_le.mp hle)] at h
      cases h
      have hlt : w.toNat < c.next.toNat := UInt64.not_le.mp hle
      rw [show w.toNat + 1 - c.next.toNat = 0 by
        omega, takeFrom_zero, List.append_nil]
    rw [if_neg (UInt64.not_lt.mpr hle)] at h
    have hle' : c.next.toNat ≤ w.toNat := hle
    have hhead := hqueue c.next le_rfl
    split at h
    · next blk hlook =>
      have hsucc := hw.toNat_succ hle
        (Or.inl (by rw [hlook]; exact Option.some_ne_none _))
      have hmore : takeFrom f (w.toNat + 1 - c.next.toNat) c.next.toNat
          = blk :: takeFrom f (w.toNat + 1 - (c.next + 1).toNat)
              (c.next + 1).toNat := by
        rw [hsucc, ← takeFrom_of_some (hhead.symm.trans hlook)]
        congr 1
        omega
      rw [hmore] at hled ⊢
      have hrest := ih _ _ (hw.erase _) h
        (fun slot hslot => by
          dsimp only at hslot ⊢
          have hne : slot ≠ c.next := fun heq => by
            rw [heq, hsucc] at hslot
            omega
          rw [AList.lookup_erase_ne hne]
          exact hqueue slot (by omega))
        (fun slot hslot hleader => by
          have hnot := hled slot hslot hleader
          rw [List.length_cons] at hnot
          dsimp only
          omega)
      rw [hrest]
      exact List.append_assoc _ _ _
    · next hlook =>
      have hnil : takeFrom f (w.toNat + 1 - c.next.toNat) c.next.toNat = [] :=
        takeFrom_of_none (hhead.symm.trans hlook) _
      rw [hnil] at hled
      rw [if_neg (fun hl => hled c.next hle hl rfl)] at h
      cases h
      rw [hnil, List.append_nil]

/-- A block with its slot as its number. -/
def numbered (b : BroadcastedBlock) : Sigma fun _ : ℕ => BroadcastedBlock :=
  ⟨b.slot.toNat, b⟩

omit [Primitives] in
theorem keys_map_numbered (blks : List BroadcastedBlock) :
    (blks.map numbered).keys = blks.map fun b => b.slot.toNat := List.map_map

omit [Primitives] in
theorem mem_keys_map_numbered {blks : List BroadcastedBlock} {slot : UInt64} :
    slot.toNat ∈ (blks.map numbered).keys ↔ ∃ b ∈ blks, b.slot = slot := by
  rw [keys_map_numbered, List.mem_map]
  simp only [UInt64.toNat_inj]

/-- **The node follows a sequencer**: it has processed what the sequencer
has released. -/
structure Follows (n₀ n : Node) (s : Sequencer BroadcastedBlock) : Prop where
  core : n.toCore = s.released.foldl Core.sync n₀.toCore
  next : n.nextExpectedSlot.toNat = s.next
  /-- The same blocks wait. -/
  queue : ∀ slot, n.blockOrderingQueue.lookup slot = s.waiting slot.toNat
  /-- They wait under their slots. -/
  keyed : Keyed n.blockOrderingQueue
  world : n.worldLatestSlot = n₀.worldLatestSlot

/-- The blocks that wait in the queue, by the numbers of their slots. -/
def waiting (n : Node) (i : ℕ) : Option BroadcastedBlock :=
  n.blockOrderingQueue.lookup (UInt64.ofNat i)

theorem Follows.start {n : Node} (hkeyed : Keyed n.blockOrderingQueue) :
    Follows n n (.holding n.nextExpectedSlot.toNat n.waiting) where
  core := rfl
  next := rfl
  queue slot := by
    show _ = n.blockOrderingQueue.lookup (UInt64.ofNat slot.toNat)
    rw [UInt64.ofNat_toNat]
  keyed := hkeyed
  world := rfl

/-- **A call is an arrival**, for a block whose slot is free, if no block is
made up. -/
theorem Follows.add {n₀ n : Node} {s : Sequencer BroadcastedBlock}
    (h : Follows n₀ n s) {blk : BroadcastedBlock}
    (hw : NoWrap cfg n₀.worldLatestSlot (n.blockOrderingQueue.insert blk.slot blk))
    (hfree : blk.slot ∉ n.store.blocks)
    (hled : ∀ slot, slot ≤ n₀.worldLatestSlot → isLeader cfg slot = true →
      slot.toNat ≠ (s.arrive n₀.worldLatestSlot.toNat (numbered blk)).next)
    (clock : ℕ → UInt64) :
    ∃ n' latest, n.addBlockToOrderingQueue cfg blk clock = some (n', latest) ∧
      Follows n₀ n' (s.arrive n₀.worldLatestSlot.toNat (numbered blk)) := by
  have hlookup : ∀ slot, (n.blockOrderingQueue.insert blk.slot blk).lookup slot
      = Function.update s.waiting blk.slot.toNat (some blk) slot.toNat := by
    intro slot
    by_cases hslot : slot = blk.slot
    · rw [hslot, AList.lookup_insert, Function.update_self]
    · rw [AList.lookup_insert_ne hslot, h.queue,
        Function.update_of_ne (fun heq => hslot (UInt64.toNat_inj.mp heq))]
  rw [← h.world] at hw
  obtain ⟨c, blks, htake, htakes⟩ := exists_takes cfg n.store clock consecutiveFuel
    ⟨n.blockOrderingQueue.insert blk.slot blk, n.nextExpectedSlot, []⟩ hw
    (lt_consecutiveFuel _ _) (h.keyed.insert blk)
  have hnew : blks = takeFrom (Function.update s.waiting blk.slot.toNat (some blk))
      (n₀.worldLatestSlot.toNat + 1 - s.next) s.next := by
    have hprocessed := processed_of_notLed _ _ _ hw htake (fun slot _ => hlookup slot)
      (by rw [h.world, h.next]; exact hled)
    rw [h.world, h.next] at hprocessed
    exact htakes.processed.symm.trans hprocessed
  rw [addBlockToOrderingQueue_eq hfree, htake]
  refine ⟨_, _, rfl, ?_, ?_, ?_, htakes.keyed (h.keyed.insert blk), h.world⟩
  · show c.processed.foldl Core.sync n.toCore
      = (s.released ++ _).foldl Core.sync n₀.toCore
    have hprocessed : c.processed = blks := htakes.processed
    rw [hprocessed, h.core, ← List.foldl_append, hnew]
    rfl
  · show c.next.toNat = s.next + _
    rw [htakes.next, hnew, ← h.next]
    rfl
  · intro slot
    show c.queue.lookup slot = if s.next ≤ slot.toNat ∧ slot.toNat < s.next + _
      then none else _
    rw [htakes.queue, hlookup, hnew, ← h.next]
    rfl

theorem addAll_append (n : Node)
    (calls calls' : List (BroadcastedBlock × (ℕ → UInt64))) :
    n.addAll cfg (calls ++ calls') = (n.addAll cfg calls).bind fun n' =>
      n'.addAll cfg calls' := by
  induction calls generalizing n with
  | nil => rfl
  | cons call calls ih =>
    rw [List.cons_append, addAll, addAll, Option.bind_assoc]
    exact congrArg _ (funext fun r => ih r.1)

/-- The sequencer a node follows while blocks arrive. -/
def sequencer (n : Node) (blks : List BroadcastedBlock) :
    Sequencer BroadcastedBlock :=
  .run n.worldLatestSlot.toNat n.nextExpectedSlot.toNat n.waiting
    ((n.news blks).map numbered)

/-- **Blocks to put into the queue**: they are for different slots, those
that are for free slots are for no slot of the queue, and they do not make
the slot counter wrap. -/
structure Arrivals (cfg : Config) (n : Node) (blks : List BroadcastedBlock) :
    Prop where
  slots : (blks.map fun b => b.slot).Nodup
  queue : ∀ b ∈ n.news blks, b.slot ∉ n.blockOrderingQueue
  /-- The largest slot number is beyond the latest slot reported, or it has
  no block and the node did not lead it. -/
  noWrap : n.worldLatestSlot < noSlot ∨
    isLeader cfg noSlot = false ∧ ¬ n.Has blks noSlot

theorem news_append (n : Node) (blks : List BroadcastedBlock)
    (blk : BroadcastedBlock) :
    n.news (blks ++ [blk]) = n.news blks ++ n.news [blk] :=
  List.filter_append _ _

/-- All blocks but the last are arrivals too. -/
theorem Arrivals.of_append {n : Node} {blks : List BroadcastedBlock}
    {blk : BroadcastedBlock} (h : Arrivals cfg n (blks ++ [blk])) :
    Arrivals cfg n blks where
  slots := h.slots.sublist ((List.sublist_append_left _ _).map _)
  queue b hb := h.queue b (news_append n blks blk ▸ List.mem_append_left _ hb)
  noWrap := h.noWrap.imp_right fun hlast => ⟨hlast.1, fun hhas => hlast.2
    (hhas.imp_right fun ⟨b, hb, hslot⟩ => ⟨b, List.mem_append_left _ hb, hslot⟩)⟩

theorem Arrivals.perm {n : Node} {blks blks' : List BroadcastedBlock}
    (h : Arrivals cfg n blks) (hperm : blks.Perm blks') : Arrivals cfg n blks' where
  slots := (hperm.map fun b => b.slot).nodup_iff.mp h.slots
  queue b hb := h.queue b ((hperm.filter _).mem_iff.mpr hb)
  noWrap := h.noWrap.imp_right fun hlast => ⟨hlast.1, fun hhas => hlast.2
    (hhas.imp_right fun ⟨b, hb, hslot⟩ => ⟨b, hperm.mem_iff.mpr hb, hslot⟩)⟩

theorem nodupKeys_news {n : Node} {blks : List BroadcastedBlock}
    (hslots : (blks.map fun b => b.slot).Nodup) :
    ((n.news blks).map numbered).NodupKeys := by
  have hnews : ((n.news blks).map fun b => b.slot).Nodup :=
    hslots.sublist (List.filter_sublist.map _)
  have hnumbers := hnews.map fun a b => UInt64.toNat_inj.mp
  rw [List.map_map] at hnumbers
  show ((n.news blks).map numbered).keys.Nodup
  rw [keys_map_numbered]
  exact hnumbers

/-- None of the blocks has the number of one that waits. -/
theorem Arrivals.waiting_eq_none {n : Node} {blks : List BroadcastedBlock}
    (h : Arrivals cfg n blks) :
    ∀ i ∈ ((n.news blks).map numbered).keys, n.waiting i = none := by
  intro i hi
  rw [keys_map_numbered, List.mem_map] at hi
  obtain ⟨b, hb, rfl⟩ := hi
  rw [waiting, UInt64.ofNat_toNat, AList.lookup_eq_none]
  exact h.queue b hb

theorem Arrivals.tracks {n : Node} {blks : List BroadcastedBlock}
    (h : Arrivals cfg n blks) :
    Sequencer.Tracks n.worldLatestSlot.toNat n.nextExpectedSlot.toNat n.waiting
      ((n.news blks).map numbered) (n.sequencer blks) :=
  Sequencer.tracks_run (nodupKeys_news h.slots) h.waiting_eq_none _ _

/-- What a slot has is what the sequencer has had for its number. -/
theorem has_iff {n : Node} {pre : List BroadcastedBlock} {slot : UInt64} :
    n.Has pre slot ↔
      Sequencer.available n.waiting (pre.map numbered) slot.toNat ≠ none := by
  rw [Ne, Sequencer.available_eq_none, mem_keys_map_numbered, waiting,
    UInt64.ofNat_toNat, AList.lookup_eq_none, not_and_or, not_not, not_not, or_comm]
  rfl

/-- While no block is made up, the sequencer never waits for a slot the node
led. -/
theorem NoneMadeUp.ne_next {n : Node} {blks : List BroadcastedBlock}
    (h : NoneMadeUp cfg n blks) (harrivals : Arrivals cfg n blks)
    (hne : n.news blks ≠ []) {slot : UInt64} (hle : slot ≤ n.worldLatestSlot)
    (hleader : isLeader cfg slot = true) :
    slot.toNat ≠ (n.sequencer blks).next := by
  intro heq
  have htracks := harrivals.tracks
  have hk : n.nextExpectedSlot.toNat ≤ slot.toNat := by
    rw [heq, htracks.next]
    exact Nat.le_add_right _ _
  have hlast : (n.sequencer blks).next ≤ n.worldLatestSlot.toNat := heq ▸ hle
  have hnone := htracks.available_next (List.map_eq_nil_iff.not.mpr hne) hlast
  rw [← heq] at hnone
  refine has_iff.mp (h _ List.prefix_rfl hne slot hleader hk hle fun t ht hlt => ?_)
    hnone
  exact has_iff.mpr
    (Option.isSome_iff_ne_none.mp (htracks.isSome_available ht (heq ▸ hlt)))

/-- **A call for a slot with a block** changes neither the node nor the
sequencer. -/
theorem Follows.add_of_mem {n₀ n : Node} {blks : List BroadcastedBlock}
    (h : Follows n₀ n (n₀.sequencer blks)) {blk : BroadcastedBlock}
    (hstored : blk.slot ∈ n₀.store.blocks) (clock : ℕ → UInt64) :
    n.addAll cfg [(blk, clock)] = some n ∧
      Follows n₀ n (n₀.sequencer (blks ++ [blk])) := by
  have hcomplete : n.store.hasCompleteBlock blk.slot = true := by
    have hmem := Core.mem_blocks_foldl_sync_of_mem
      (n₀.sequencer blks).released hstored
    rw [← h.core] at hmem
    exact Store.hasCompleteBlock_iff.mpr hmem
  have hnone : n₀.news [blk] = [] := by
    simp [news, Store.hasCompleteBlock, hstored]
  constructor
  · show ((n.addBlockToOrderingQueue cfg blk clock).bind _) = some n
    unfold addBlockToOrderingQueue
    rw [if_pos hcomplete]
    rfl
  · unfold sequencer
    rw [news_append, hnone, List.append_nil]
    exact h

/-- A block released has arrived, or waited in the queue from the start. -/
theorem Arrivals.has_of_mem_released {n : Node} {blks : List BroadcastedBlock}
    (h : Arrivals cfg n blks) (hkeyed : Keyed n.blockOrderingQueue)
    {b : BroadcastedBlock} (hb : b ∈ (n.sequencer blks).released) :
    n.Has (n.news blks) b.slot := by
  obtain ⟨i, hi⟩ := h.tracks.exists_available hb
  obtain hi | ⟨-, hi⟩ := Option.or_eq_some_iff.mp hi
  · obtain ⟨b', hb', heq⟩ := List.mem_map.mp (List.of_mem_dlookup hi)
    cases heq
    exact Or.inr ⟨b, hb', rfl⟩
  · have hslot := hkeyed _ _ hi
    refine Or.inl (AList.lookup_isSome.mp ?_)
    rw [hslot, ← waiting, hi]
    rfl

/-- A slot that was free, and for which no block waited and none has
arrived, is still free. -/
theorem Follows.notMem_blocks {n₀ n : Node} {blks : List BroadcastedBlock}
    (h : Follows n₀ n (n₀.sequencer blks)) (hkeyed : Keyed n₀.blockOrderingQueue)
    (harrivals : Arrivals cfg n₀ blks) {slot : UInt64} (hnew : ¬ n₀.Has blks slot)
    (hfree : slot ∉ n₀.store.blocks) : slot ∉ n.store.blocks := by
  intro hmem
  rw [h.core] at hmem
  obtain ⟨b, hb, rfl⟩ | hmem := Core.mem_blocks_foldl_sync hmem
  · exact hnew ((harrivals.has_of_mem_released hkeyed hb).imp_right
      fun ⟨b', hb', hslot⟩ => ⟨b', List.mem_of_mem_filter hb', hslot⟩)
  · exact hfree hmem

/-- **A call for a free slot** is an arrival at the sequencer, if no block
is made up. -/
theorem Follows.add_of_notMem {n₀ n : Node} {blks : List BroadcastedBlock}
    (h : Follows n₀ n (n₀.sequencer blks)) (hkeyed : Keyed n₀.blockOrderingQueue)
    {blk : BroadcastedBlock} (harrivals : Arrivals cfg n₀ (blks ++ [blk]))
    (hmade : NoneMadeUp cfg n₀ (blks ++ [blk])) (hfree : blk.slot ∉ n₀.store.blocks)
    (clock : ℕ → UInt64) :
    ∃ n', n.addAll cfg [(blk, clock)] = some n' ∧
      Follows n₀ n' (n₀.sequencer (blks ++ [blk])) := by
  have hsome : n₀.news [blk] = [blk] := by
    simp [news, Store.hasCompleteBlock, hfree]
  have harrive : (n₀.sequencer blks).arrive n₀.worldLatestSlot.toNat (numbered blk)
      = n₀.sequencer (blks ++ [blk]) := by
    unfold sequencer Sequencer.run
    rw [news_append, hsome, List.map_append, List.foldl_append]
    rfl
  have hne : n₀.news (blks ++ [blk]) ≠ [] := by
    rw [news_append, hsome]
    exact List.append_ne_nil_of_right_ne_nil _ (List.cons_ne_nil _ _)
  have hnew : ¬ n₀.Has blks blk.slot := by
    rintro (hmem | ⟨b, hb, hslot⟩)
    · exact harrivals.queue blk
        (by rw [news_append, hsome]; exact List.mem_append_right _ List.mem_cons_self)
          hmem
    · have hsplit := harrivals.slots
      rw [List.map_append, List.nodup_append] at hsplit
      exact hsplit.2.2 _ (List.mem_map.mpr ⟨b, hb, hslot⟩) _ List.mem_cons_self rfl
  have hfree' := h.notMem_blocks hkeyed harrivals.of_append hnew hfree
  have hw : NoWrap cfg n₀.worldLatestSlot
      (n.blockOrderingQueue.insert blk.slot blk) := by
    refine harrivals.noWrap.imp_right fun hlast => ⟨?_, hlast.1⟩
    have hother : noSlot ≠ blk.slot := fun heq =>
      hlast.2 (Or.inr ⟨blk, List.mem_append_right _ List.mem_cons_self, heq.symm⟩)
    rw [AList.lookup_insert_ne hother, h.queue, harrivals.of_append.tracks.waiting]
    split
    · rfl
    · by_contra hsome'
      exact hlast.2 ((has_iff.mpr hsome').imp_right fun ⟨b, hb, hslot⟩ =>
        ⟨b, List.mem_append_left _ (List.mem_of_mem_filter hb), hslot⟩)
  obtain ⟨n', latest, hadd, hfollows⟩ := h.add hw hfree'
    (fun slot hle hleader => harrive ▸ hmade.ne_next harrivals hne hle hleader) clock
  refine ⟨n', ?_, harrive ▸ hfollows⟩
  show ((n.addBlockToOrderingQueue cfg blk clock).bind _) = some n'
  rw [hadd]
  rfl

/-- **The node follows the sequencer** through any number of calls, if the
blocks are such arrivals and none is made up. -/
theorem follows_addAll {n : Node} (hkeyed : Keyed n.blockOrderingQueue)
    (calls : List (BroadcastedBlock × (ℕ → UInt64)))
    (harrivals : Arrivals cfg n (calls.map Prod.fst))
    (hmade : NoneMadeUp cfg n (calls.map Prod.fst)) :
    ∃ n', n.addAll cfg calls = some n' ∧
      Follows n n' (n.sequencer (calls.map Prod.fst)) := by
  induction calls using List.reverseRecOn with
  | nil => exact ⟨n, rfl, .start hkeyed⟩
  | append_singleton calls call ih =>
    obtain ⟨blk, clock⟩ := call
    have hmap : (calls ++ [(blk, clock)]).map Prod.fst = calls.map Prod.fst
        ++ [blk] :=
      List.map_append
    rw [hmap] at harrivals hmade ⊢
    obtain ⟨n', hn', hfollows⟩ := ih harrivals.of_append fun pre hpre =>
      hmade pre (hpre.trans (news_append n _ _ ▸ List.prefix_append _ _))
    rw [addAll_append, hn', Option.bind_some]
    by_cases hstored : blk.slot ∈ n.store.blocks
    · exact ⟨n', hfollows.add_of_mem hstored clock⟩
    · exact hfollows.add_of_notMem hkeyed harrivals hmade hstored clock

/-- **The order of arrival does not matter if no block is made up.** Blocks
for different slots arrive in two orders, at any times, and none of them is
for a slot whose block waits in the queue already. If in neither order the
node makes up a block, both runs end with the same stores: the same blocks
are stored, and the same are applied.

The largest slot number is left out where the peers report it as their
latest slot: past it the loop would go on from slot 0. -/
theorem order_irrelevant (cfg : Config) {n : Node}
    (hkeyed : Keyed n.blockOrderingQueue)
    {calls calls' : List (BroadcastedBlock × (ℕ → UInt64))}
    (hperm : (calls.map Prod.fst).Perm (calls'.map Prod.fst))
    (harrivals : Arrivals cfg n (calls.map Prod.fst))
    (hmade : NoneMadeUp cfg n (calls.map Prod.fst))
    (hmade' : NoneMadeUp cfg n (calls'.map Prod.fst)) :
    ∃ n₁ n₂, n.addAll cfg calls = some n₁ ∧ n.addAll cfg calls' = some n₂ ∧
      n₁.toCore = n₂.toCore := by
  obtain ⟨n₁, hn₁, h₁⟩ := follows_addAll hkeyed calls harrivals hmade
  obtain ⟨n₂, hn₂, h₂⟩ := follows_addAll hkeyed calls' (harrivals.perm hperm) hmade'
  refine ⟨n₁, n₂, hn₁, hn₂, ?_⟩
  have hreleased : (n.sequencer (calls.map Prod.fst)).released
      = (n.sequencer (calls'.map Prod.fst)).released :=
    Sequencer.released_run_perm (nodupKeys_news harrivals.slots)
      harrivals.waiting_eq_none ((hperm.filter _).map _) _ _
  rw [h₁.core, h₂.core, hreleased]

end Node

end

/-! ## Examples -/

section Sample

attribute [local instance] Sample.primitives

namespace Sample

/-- Slot 1 is applied, with a block made at a time. -/
def madeAt (now : UInt64) (n : Node) : Bool :=
  1 ∈ n.store.finalized && (n.store.block 1).any fun b => b.timestamp = now

end Sample

open Sample

/-- **The order of arrival matters.** Slots 1 and 2 are to be synced, and
the node led slot 1. If its block comes first it is stored; if the block of
slot 2 comes first, the node stores a block of another time instead. Both
are applied. -/
theorem order_of_arrival_matters :
    (∀ b ∈ [blockOne, blockTwo], b.Applies ∧
      (oneOfFour false).leaderSchedule.isLeaderAt b.slot b.leaderID = true) ∧
    blockOne.slot = (behind 2).nextExpectedSlot ∧
    blockTwo.slot = (behind 2).worldLatestSlot ∧
    ∃ n₁ n₂, (behind 2).addAll (oneOfFour false)
      [(blockOne, fun _ => 20), (blockTwo, fun _ => 20)]
        = some n₁ ∧
      (behind 2).addAll (oneOfFour false)
        [(blockTwo, fun _ => 20), (blockOne, fun _ => 20)] = some n₂ ∧
      1 ∈ n₁.store.finalized ∧ 1 ∈ n₂.store.finalized ∧
      n₁.store.block 1 ≠ n₂.store.block 1 := by
  have hvalid : ∀ b ∈ [blockOne, blockTwo], b.Applies ∧
      (oneOfFour false).leaderSchedule.isLeaderAt b.slot b.leaderID = true := by
        decide +kernel
  have hfirst : ((behind 2).addAll (oneOfFour false)
      [(blockOne, fun _ => 20), (blockTwo, fun _ => 20)]).any (madeAt 7) = true := by
        decide +kernel
  have hlast : ((behind 2).addAll (oneOfFour false)
      [(blockTwo, fun _ => 20), (blockOne, fun _ => 20)]).any (madeAt 20) = true := by
        decide +kernel
  rw [Option.any_eq_true] at hfirst hlast
  obtain ⟨n₁, hn₁, htest₁⟩ := hfirst
  obtain ⟨n₂, hn₂, htest₂⟩ := hlast
  simp only [madeAt, Bool.and_eq_true, decide_eq_true_eq, Option.any_eq_true]
    at htest₁ htest₂
  obtain ⟨happlied₁, b₁, hb₁, htime₁⟩ := htest₁
  obtain ⟨happlied₂, b₂, hb₂, htime₂⟩ := htest₂
  refine ⟨hvalid, by decide, by decide, n₁, n₂, hn₁, hn₂, happlied₁, happlied₂,
    fun heq => ?_⟩
  obtain rfl := Option.some.inj (hb₁.symm.trans (heq.trans hb₂))
  rw [htime₁] at htime₂
  exact absurd htime₂ (by decide)

/-- Slots 2 and 3, which the node did not lead, may come in either order. -/
theorem two_orders_agree :
    ∃ n₁ n₂,
      ((behind 3).setNextExpectedSlot 2).addAll (oneOfFour false)
        [(blockTwo, fun _ => 20), (blockThree, fun _ => 21)] = some n₁ ∧
      ((behind 3).setNextExpectedSlot 2).addAll (oneOfFour false)
        [(blockThree, fun _ => 30), (blockTwo, fun _ => 31)] = some n₂ ∧
      n₁.toCore = n₂.toCore := by
  have hled : ∀ slot : UInt64, Node.isLeader (oneOfFour false) slot = true →
    2 ≤ slot →
      ¬ slot ≤ 3 := by
    intro slot hleader hge hle
    have hcases : slot = 2 ∨ slot = 3 := by
      have hge' : 2 ≤ slot.toNat := hge
      have hle' : slot.toNat ≤ 3 := hle
      obtain h | h : slot.toNat = 2 ∨ slot.toNat = 3 := by omega
      · exact Or.inl (UInt64.toNat_inj.mp h)
      · exact Or.inr (UInt64.toNat_inj.mp h)
    obtain rfl | rfl := hcases
    · exact absurd hleader (by decide +kernel)
    · exact absurd hleader (by decide +kernel)
  have harrivals : Node.Arrivals (oneOfFour false) ((behind 3).setNextExpectedSlot 2)
      [blockTwo, blockThree] :=
    ⟨by decide, fun _ _ => AList.notMem_empty _, Or.inl (by decide)⟩
  have hkeyed : Node.Keyed ((behind 3).setNextExpectedSlot 2).blockOrderingQueue :=
    keyed_behind 3
  exact Node.order_irrelevant (oneOfFour false) hkeyed
    (List.Perm.swap _ _ _) harrivals
    (fun _ _ _ slot hleader hge hle => absurd hle (hled slot hleader hge))
    (fun _ _ _ slot hleader hge hle => absurd hle (hled slot hleader hge))

end Sample

end Mmn
