import Mmn.Sample

/-!
# The latest finalized slot

The block store keeps the latest finalized slot twice: in memory, where the
node reads it, and as a record of the database, from which a restart reads
it back. `FinalizeBlock` updates the two under different conditions. The
record is written only if the slot is above the one in memory; the number in
memory is then overwritten with the slot whatever it was. Both are the
largest slot as long as slots are finalized in increasing order. A quorum is
reached for each slot on its own, though, and after the slots 5, 3, 4 both
say 4 (`latest_not_largest`).

What the two say in general is read off the sequence of finalized slots.
Memory has the last of them (`fst_advanceAll`). The record has the slot of
the last *rise*, the last slot that is above the one just before it
(`exists_rise`). The latest finalized slot is therefore exact in a running
process when the last slot is the largest, and after a restart when no slot
rises above its predecessor once the largest has been finalized
(`latest_exact_iff`).
-/

namespace Mmn

/-! ## The two numbers -/

/-- The latest finalized slot in memory and on record. -/
abbrev Latest : Type := UInt64 × Option UInt64

namespace Latest

/-- What finalizing a slot makes of the two numbers. -/
def advance (l : Latest) (slot : UInt64) : Latest :=
  (slot, if slot > l.1 then some slot else l.2)

/-- The two numbers after a sequence of slots, from nothing. -/
def advanceAll (slots : List UInt64) : Latest := slots.foldl advance (0, none)

theorem advanceAll_concat (slots : List UInt64) (slot : UInt64) :
    advanceAll (slots ++ [slot]) = (advanceAll slots).advance slot := by
  unfold advanceAll
  rw [List.foldl_append]
  rfl

theorem advanceAll_zero_cons (slots : List UInt64) :
    advanceAll (0 :: slots) = advanceAll slots := rfl

/-- **Memory has the slot finalized last.** -/
theorem fst_advanceAll (slots : List UInt64) :
    (0 :: slots).getLast? = some (advanceAll slots).1 := by
  induction slots using List.reverseRecOn with
  | nil => rfl
  | append_singleton slots slot _ =>
    rw [advanceAll_concat, ← List.cons_append, List.getLast?_concat]
    rfl

/-- **If memory has the largest slot then so has the record.** -/
theorem snd_advanceAll_of_largest {slots : List UInt64} {m : UInt64} (hm : 0 < m)
    (hle : ∀ x ∈ slots, x ≤ m) (hmem : (advanceAll slots).1 = m) :
    (advanceAll slots).2 = some m := by
  induction slots using List.reverseRecOn with
  | nil =>
    rw [← hmem] at hm
    exact absurd hm (UInt64.lt_irrefl 0)
  | append_singleton slots slot ih =>
    rw [advanceAll_concat] at hmem ⊢
    have hslot : slot = m := hmem
    subst hslot
    show (if slot > (advanceAll slots).1 then some slot else (advanceAll slots).2)
      = some slot
    split
    · rfl
    · next hnot =>
      -- no rise: memory had the slot before, which is again the largest
      have hprev : (advanceAll slots).1 ≤ slot := by
        rcases List.mem_cons.mp (List.mem_of_getLast? (fst_advanceAll slots))
          with h0 | hmem'
        · rw [h0]
          exact UInt64.le_of_lt hm
        · exact hle _ (List.mem_append_left _ hmem')
      exact ih (fun x hx => hle x (List.mem_append_left _ hx))
        (UInt64.le_antisymm hprev (UInt64.not_lt.mp hnot))

/-- **Slots that do not rise leave the record.** -/
theorem snd_foldl_advance_of_isChain {slots : List UInt64} {l : Latest}
    (hchain : (l.1 :: slots).IsChain (· ≥ ·)) : (slots.foldl advance l).2 = l.2 := by
  induction slots generalizing l with
  | nil => rfl
  | cons slot slots ih =>
    obtain ⟨hle, hrest⟩ := List.isChain_cons_cons.mp hchain
    have hkeep : (l.advance slot).2 = l.2 := if_neg (UInt64.not_lt.mpr hle)
    rw [List.foldl_cons, ih hrest, hkeep]

/-- **If nothing rises after the largest slot, the record has it.** -/
theorem snd_advanceAll_of_isChain {slots pre post : List UInt64} {m : UInt64}
    (heq : 0 :: slots = pre ++ m :: post) (hle : ∀ x ∈ slots, x ≤ m)
    (hchain : (m :: post).IsChain (· ≥ ·)) (hm : 0 < m) :
    (advanceAll slots).2 = some m := by
  have hsplit : advanceAll slots = post.foldl advance (advanceAll (pre ++ [m])) := by
    rw [← advanceAll_zero_cons, heq, List.append_cons]
    unfold advanceAll
    rw [List.foldl_append]
  have hfst : (advanceAll (pre ++ [m])).1 = m := by
    rw [advanceAll_concat]
    rfl
  have hle' : ∀ x ∈ pre ++ [m], x ≤ m := by
    intro x hx
    have hx' : x ∈ 0 :: slots := by
      rw [heq, List.append_cons]
      exact List.mem_append_left post hx
    rcases List.mem_cons.mp hx' with rfl | hmem
    · exact UInt64.le_of_lt hm
    · exact hle x hmem
  rw [hsplit, snd_foldl_advance_of_isChain (by rw [hfst]; exact hchain)]
  exact snd_advanceAll_of_largest hm hle' hfst

/-- **The record has the slot of the last rise**: no slot after it is above
its predecessor. -/
theorem exists_rise (slots : List UInt64) :
    ∃ pre m post, 0 :: slots = pre ++ m :: post ∧ (m :: post).IsChain (· ≥ ·) ∧
      (advanceAll slots).2.getD 0 = m ∧ (0 < m → (advanceAll slots).2 = some m) := by
  induction slots using List.reverseRecOn with
  | nil =>
    exact ⟨[], 0, [], rfl, List.isChain_singleton 0, rfl,
      fun h => absurd h (UInt64.lt_irrefl 0)⟩
  | append_singleton slots slot ih =>
    obtain ⟨pre, m, post, heq, hchain, hget, hrec⟩ := ih
    rw [advanceAll_concat]
    by_cases hrise : slot > (advanceAll slots).1
    · have hnew : ((advanceAll slots).advance slot).2 = some slot := if_pos hrise
      refine ⟨0 :: slots, slot, [], rfl, List.isChain_singleton slot, ?_, fun _ =>
        hnew⟩
      rw [hnew]
      rfl
    · have hkeep : ((advanceAll slots).advance slot).2 = (advanceAll slots).2 :=
        if_neg hrise
      rw [hkeep]
      refine ⟨pre, m, post ++ [slot], ?_, ?_, hget, hrec⟩
      · rw [← List.cons_append, heq, List.append_assoc]
        rfl
      · have hlast : (m :: post).getLast? = some (advanceAll slots).1 := by
          rw [← fst_advanceAll, heq,
            List.getLast?_append_of_ne_nil _ (List.cons_ne_nil m post)]
        rw [← List.cons_append, List.isChain_append]
        refine ⟨hchain, List.isChain_singleton slot, fun x hx y hy => ?_⟩
        rw [hlast, Option.mem_some] at hx
        rw [List.head?_singleton, Option.mem_some] at hy
        rw [← hx, ← hy]
        exact UInt64.not_lt.mp hrise

/-- It reads as the largest slot also when that is 0. -/
theorem getD_snd_advanceAll_of_isChain {slots pre post : List UInt64} {m : UInt64}
    (heq : 0 :: slots = pre ++ m :: post) (hle : ∀ x ∈ slots, x ≤ m)
    (hchain : (m :: post).IsChain (· ≥ ·)) : (advanceAll slots).2.getD 0 = m := by
  by_cases hm : 0 < m
  · rw [snd_advanceAll_of_isChain heq hle hchain hm]
    rfl
  · obtain ⟨pre', m', post', heq', -, hget, -⟩ := exists_rise slots
    have hzero : m ≤ 0 := UInt64.not_lt.mp hm
    have hmem : m' ∈ 0 :: slots := by
      rw [heq']
      exact List.mem_append_right pre' List.mem_cons_self
    rw [hget]
    rcases List.mem_cons.mp hmem with h0 | hslot
    · rw [h0]
      exact UInt64.le_antisymm UInt64.zero_le hzero
    · exact UInt64.le_antisymm (hle m' hslot) (UInt64.le_trans hzero UInt64.zero_le)

end Latest

/-! ## Writes to the store -/

section

variable [Primitives]

/-- A write to the block store. -/
inductive Store.Write where
  /-- `AddBlockPending` -/
  | addBlockPending (b : BroadcastedBlock)
  /-- `FinalizeBlock` -/
  | finalizeBlock (blk : Block) (txMetas : AList TransactionMeta)
    (addrAccount : AList Account) (latest : AList (fun _ : String => String))

namespace Store

/-- The store after a write, if the write succeeds. -/
def write (s : Store) : Write → Except String Store
  | .addBlockPending b => s.addBlockPending b
  | .finalizeBlock blk txMetas addrAccount latest =>
    s.finalizeBlock blk txMetas addrAccount latest

/-- The store after a sequence of writes, if all succeed. -/
def writeAll (s : Store) (ws : List Write) : Except String Store := ws.foldlM write s

omit [Primitives] in
/-- The slot a write finalizes. -/
def Write.finalizedSlot : Write → Option UInt64
  | .addBlockPending _ => none
  | .finalizeBlock blk _ _ _ => some blk.slot

/-- The two numbers of the store. -/
def latest (s : Store) : Latest := (s.latestFinalized, s.latestFinalizedMeta)

theorem latest_addBlock (s : Store) (b : BroadcastedBlock) :
    (s.addBlock b).latest = s.latest := by
  unfold latest
  rw [addBlock, foldl_putTx_frame]

/-- **A write advances the two numbers with the slot it finalizes**, and
only then. -/
theorem latest_write {s s' : Store} {w : Write} (h : s.write w = .ok s') :
    s'.latest = w.finalizedSlot.toList.foldl Latest.advance s.latest := by
  cases w with
  | addBlockPending b =>
    obtain ⟨-, rfl⟩ := addBlockPending_eq_ok.mp h
    exact latest_addBlock s b
  | finalizeBlock blk txMetas addrAccount lv =>
    obtain ⟨-, -, rfl⟩ := finalizeBlock_eq_ok.mp h
    rfl

/-- **A sequence of writes advances them with the finalized slots in
order.** -/
theorem latest_writeAll {s s' : Store} {ws : List Write}
    (h : s.writeAll ws = .ok s') :
    s'.latest = (ws.filterMap Write.finalizedSlot).foldl Latest.advance s.latest := by
  induction ws generalizing s with
  | nil =>
    cases h
    rfl
  | cons w ws ih =>
    unfold writeAll at h
    rw [List.foldlM_cons] at h
    cases hw : s.write w with
    | error err =>
      rw [hw] at h
      cases h
    | ok t =>
      rw [hw] at h
      rw [ih h, latest_write hw, List.filterMap_cons]
      cases w.finalizedSlot with
      | none => rfl
      | some slot => rfl

/-- The store of the running process, or the one that opening the database
again gives. -/
def reopenIf (reopened : Bool) (s : Store) : Store := if reopened then s.reopen else s

/-- **The latest finalized slot is exact**: it is the largest of the slots,
0 if there are none, and the record says so if it is above 0. -/
def LatestExact (s : Store) (slots : List UInt64) : Prop :=
  (s.latestFinalized ∈ 0 :: slots ∧ ∀ x ∈ slots, x ≤ s.latestFinalized) ∧
    (0 < s.latestFinalized → s.latestFinalizedMeta = some s.latestFinalized)

/-- **The largest slot comes last**, or nothing rises after it and the
database is opened again. -/
def LargestLast (reopened : Bool) (slots : List UInt64) : Prop :=
  ∃ pre m post, 0 :: slots = pre ++ m :: post ∧ (∀ x ∈ slots, x ≤ m) ∧
    (m :: post).IsChain (· ≥ ·) ∧ (reopened = false → post = [])

omit [Primitives] in
theorem latest_reopen (s : Store) :
    s.reopen.latest = (s.latestFinalizedMeta.getD 0, s.latestFinalizedMeta) := by
  unfold reopen
  split
  · next h =>
    rw [h]
    rfl
  · next f h =>
    rw [h]
    rfl

omit [Primitives] in
/-- In a running process, what is exact is read off the last slot. -/
theorem latestExact_running_iff {s : Store} {slots : List UInt64}
    (h : s.latest = Latest.advanceAll slots) :
    s.LatestExact slots ↔ LargestLast false slots := by
  have hlast := Latest.fst_advanceAll slots
  rw [← h] at hlast
  constructor
  · rintro ⟨⟨-, hle⟩, -⟩
    obtain ⟨pre, hpre⟩ := List.getLast?_eq_some_iff.mp hlast
    exact ⟨pre, s.latestFinalized, [], hpre, hle, List.isChain_singleton _, fun _ =>
      rfl⟩
  · rintro ⟨pre, m, post, heq, hle, -, hpost⟩
    obtain rfl := hpost rfl
    have hm : s.latestFinalized = m := by
      rw [heq, List.getLast?_concat] at hlast
      exact (Option.some.inj hlast).symm
    subst hm
    refine ⟨⟨List.mem_of_getLast? hlast, hle⟩, fun hpos => ?_⟩
    have hrec := Latest.snd_advanceAll_of_largest hpos hle (by rw [← h]; rfl)
    rw [← h] at hrec
    exact hrec

omit [Primitives] in
/-- After a restart, what is exact is read off the slot of the last rise. -/
theorem latestExact_reopen_iff {s : Store} {slots : List UInt64}
    (h : s.latest = Latest.advanceAll slots) :
    s.reopen.LatestExact slots ↔ LargestLast true slots := by
  have hmem : s.reopen.latestFinalized = (Latest.advanceAll slots).2.getD 0 := by
    rw [← h]
    exact congrArg Prod.fst (latest_reopen s)
  have hrec : s.reopen.latestFinalizedMeta = (Latest.advanceAll slots).2 := by
    rw [← h]
    exact congrArg Prod.snd (latest_reopen s)
  unfold LatestExact
  rw [hmem, hrec]
  constructor
  · rintro ⟨⟨-, hle⟩, -⟩
    obtain ⟨pre, m, post, heq, hchain, hget, -⟩ := Latest.exists_rise slots
    rw [hget] at hle
    exact ⟨pre, m, post, heq, hle, hchain, fun hfalse => by cases hfalse⟩
  · rintro ⟨pre, m, post, heq, hle, hchain, -⟩
    rw [Latest.getD_snd_advanceAll_of_isChain heq hle hchain]
    refine ⟨⟨?_, hle⟩, Latest.snd_advanceAll_of_isChain heq hle hchain⟩
    rw [heq]
    exact List.mem_append_right pre List.mem_cons_self

/-- **When the latest finalized slot is exact.** In a running process it is,
exactly if the largest slot was finalized last; after the database is opened
again it is, exactly if no slot rose above its predecessor since the
largest. -/
theorem latest_exact_iff {s : Store} {ws : List Write} (h : empty.writeAll ws = .ok s)
    (reopened : Bool) :
    (s.reopenIf reopened).LatestExact (ws.filterMap Write.finalizedSlot)
      ↔ LargestLast reopened (ws.filterMap Write.finalizedSlot) := by
  have hlatest : s.latest = Latest.advanceAll (ws.filterMap Write.finalizedSlot) :=
    latest_writeAll h
  cases reopened with
  | false => exact latestExact_running_iff hlatest
  | true => exact latestExact_reopen_iff hlatest

end Store

end

/-! ## Examples -/

section Sample

attribute [local instance] Sample.primitives

namespace Sample

/-- The writes that store an empty block at each slot of a list, and then
finalize the blocks in the order of another. -/
def finalizing (stored finalized : List UInt64) : List Store.Write :=
  stored.map (fun slot => .addBlockPending (assembleBlock slot zeroHash "" [] 0)) ++
    finalized.map (fun slot =>
      .finalizeBlock (broadcastedBlockToBlock (assembleBlock slot zeroHash "" [] 0)) ∅
        ∅ ∅)

end Sample

open Sample

/-- The slots such writes finalize are the second list. -/
theorem finalizedSlot_finalizing (stored finalized : List UInt64) :
    (finalizing stored finalized).filterMap Store.Write.finalizedSlot
      = finalized := by
  unfold finalizing
  rw [List.filterMap_append, List.filterMap_map, List.filterMap_map]
  show stored.filterMap (fun _ => none) ++ finalized.filterMap some = finalized
  rw [List.filterMap_none, List.filterMap_some, List.nil_append]

/-- **After the slots 5, 3, 4 the latest finalized slot is 4**, before a
restart and after. -/
theorem latest_not_largest :
    ∃ s, Store.empty.writeAll (finalizing [3, 4, 5] [5, 3, 4]) = .ok s ∧
      (s.latest = (4, some 4) ∧ s.reopen.latest = (4, some 4)) ∧
      ¬ s.LatestExact ((finalizing [3, 4, 5] [5, 3, 4]).filterMap
        Store.Write.finalizedSlot) ∧
      ¬ s.reopen.LatestExact
        ((finalizing [3, 4, 5] [5, 3, 4]).filterMap Store.Write.finalizedSlot) := by
  obtain ⟨s, hs⟩ : ∃ s, Store.empty.writeAll (finalizing [3, 4, 5] [5, 3, 4])
      = .ok s := ⟨_, rfl⟩
  have hlatest := Store.latest_writeAll hs
  rw [finalizedSlot_finalizing] at hlatest ⊢
  have hrunning : s.latest = (4, some 4) := hlatest
  have hreopen : s.reopen.latest = (4, some 4) := by
    rw [Store.latest_reopen, show s.latestFinalizedMeta = some 4
      from congrArg Prod.snd hrunning]
    rfl
  -- slot 5 is above the 4 they both have
  have hbelow : ∀ t : Store, t.latest = (4, some 4) → ¬ t.LatestExact [5, 3, 4] := by
    rintro t ht ⟨⟨-, hle⟩, -⟩
    have h5 : (5 : UInt64) ≤ t.latest.1 := hle 5 (by decide)
    rw [ht] at h5
    exact absurd h5 (by decide)
  exact ⟨s, hs, ⟨hrunning, hreopen⟩, hbelow s hrunning, hbelow s.reopen hreopen⟩

/-- After the slots 3, 5, 4 the running process says 4, and a restart makes
it exact. -/
theorem latest_exact_after_restart :
    ∃ s, Store.empty.writeAll (finalizing [3, 4, 5] [3, 5, 4]) = .ok s ∧
      ¬ s.LatestExact ((finalizing [3, 4, 5] [3, 5, 4]).filterMap
        Store.Write.finalizedSlot) ∧
      s.reopen.LatestExact
        ((finalizing [3, 4, 5] [3, 5, 4]).filterMap Store.Write.finalizedSlot) := by
  obtain ⟨s, hs⟩ : ∃ s, Store.empty.writeAll (finalizing [3, 4, 5] [3, 5, 4])
      = .ok s := ⟨_, rfl⟩
  have hrunning := Store.latest_exact_iff hs false
  have hreopen := Store.latest_exact_iff hs true
  rw [finalizedSlot_finalizing] at hrunning hreopen ⊢
  refine ⟨s, hs, fun hexact => ?_,
    hreopen.mpr ⟨[0, 3], 5, [4], rfl, by simp, by simp, fun h => by cases h⟩⟩
  obtain ⟨pre, m, post, heq, hle, -, hpost⟩ := hrunning.mp hexact
  obtain rfl := hpost rfl
  have hlast := congrArg List.getLast? heq
  rw [List.getLast?_concat] at hlast
  cases hlast
  exact absurd (hle 5 (by decide)) (by decide)

end Sample

end Mmn
