import Mmn.Intervals
import Mmn.Poh
import Mathlib.Data.List.Sort

/-!
# The leader schedule

The schedule is read from the configuration, put in order of first slots and
checked: of two neighbours the second must begin after the end of the first.
That is all that is checked. A range may be inverted, there may be gaps, and
the sort is not stable. The period is the end of the range that comes last,
which is not the largest end if that range is inverted.

A leader is looked up by a binary search for the first range that begins
after the slot, and the range before that one is the only one looked at.
This is right for every schedule that passes the check
(`leaderAt_of_newLeaderSchedule`): ranges in order cover a slot once at
most, and then by the last range that begins no later, so that the search
finds what a walk through the configured list would find. The inverted
ranges do no harm because the check compares first slots with the ends
before them, and the sort makes the first slots grow.
-/

namespace Mmn

/-! ## Making a schedule -/

/-- A range of slots as it is configured. -/
structure ConfiguredRange where
  /-- The first slot, a signed integer. -/
  startSlot : Int64
  endSlot : Int64
  leader : String

/-- **A sort of ranges by their first slot.** It is not stable: of ranges
with the same first slot any may come first. -/
structure SliceSort where
  sort : List LeaderScheduleEntry → List LeaderScheduleEntry
  perm : ∀ l, (sort l).Perm l
  sorted : ∀ l, (sort l).Pairwise (fun a b => a.startSlot ≤ b.startSlot)

/-- The ranges and the period of a schedule, as they are kept. -/
structure ScheduleTable where
  entries : List LeaderScheduleEntry
  maxSlot : UInt64
deriving DecidableEq

namespace LeaderSchedule

/-- The check for overlaps: each range is compared with the one before it. -/
def checkOverlaps : List LeaderScheduleEntry → Except String Unit
  | prev :: curr :: rest =>
    -- a range that ends before it begins is not refused
    if curr.startSlot ≤ prev.endSlot
      then .error "overlapping schedule entries detected"
    else checkOverlaps (curr :: rest)
  | _ => .ok ()

/-- Sort the ranges in place and check them. -/
def validate (srt : SliceSort) (entries : List LeaderScheduleEntry) :
    List LeaderScheduleEntry × Except String Unit :=
  if entries.length = 0 then (entries, .ok ())
  else (srt.sort entries, checkOverlaps (srt.sort entries))

/-- **Make a schedule.** The last range is read off the list that was sorted
in place; an empty list has none, and the process stops. -/
def newLeaderSchedule (srt : SliceSort) (entries : List LeaderScheduleEntry) :
    Option (Except String ScheduleTable) :=
  match validate srt entries with
  | (_, .error err) => some (.error err)
  | (entries, .ok ()) =>
    match entries.getLast? with
    | none => none
    | some last => some (.ok { entries := entries, maxSlot := last.endSlot })

/-- The schedule of a configuration. Slots are converted to machine words,
and a list that is refused stops the process. -/
def convertLeaderSchedule (srt : SliceSort) (entries : List ConfiguredRange) :
    Option ScheduleTable :=
  match newLeaderSchedule srt (entries.map (fun e =>
      { startSlot := e.startSlot.toUInt64, endSlot := e.endSlot.toUInt64,
        leader := e.leader })) with
  | some (.ok table) => some table
  | _ => none

/-- What is kept of a schedule. -/
def table (ls : LeaderSchedule) : ScheduleTable :=
  { entries := ls.entries, maxSlot := ls.maxSlot }

theorem checkOverlaps_eq_ok_iff {l : List LeaderScheduleEntry} :
    checkOverlaps l = .ok () ↔ l.IsChain (fun a b => a.endSlot < b.startSlot) := by
  fun_induction checkOverlaps l with
  | case1 prev curr rest h =>
    refine iff_of_false (by simp) fun hchain => ?_
    exact absurd (List.isChain_cons_cons.mp hchain).1 (UInt64.not_lt.mpr h)
  | case2 prev curr rest h ih =>
    rw [ih, List.isChain_cons_cons]
    exact (and_iff_right (UInt64.not_le.mp h)).symm
  | case3 l h =>
    refine iff_of_true rfl ?_
    match l, h with
    | [], _ => exact List.IsChain.nil
    | [a], _ => exact List.IsChain.singleton a
    | a :: b :: l, h => exact absurd rfl (h a b l)

/-- **What a schedule is once it is made**: the configured ranges in an
order in which they do not overlap, with the end of the last as period. -/
theorem newLeaderSchedule_eq_ok {srt : SliceSort} {entries : List LeaderScheduleEntry}
    {t : ScheduleTable} (h : newLeaderSchedule srt entries = some (.ok t)) :
    t.entries.Perm entries ∧
      t.entries.IsChain (fun a b => a.startSlot ≤ b.startSlot ∧
        a.endSlot < b.startSlot) ∧
      ∃ e ∈ t.entries.getLast?, e.endSlot = t.maxSlot := by
  unfold newLeaderSchedule validate at h
  by_cases hempty : entries.length = 0
  · rw [if_pos hempty, List.length_eq_zero_iff.mp hempty] at h
    cases h
  · rw [if_neg hempty] at h
    cases hcheck : checkOverlaps (srt.sort entries) with
    | error err =>
      rw [hcheck] at h
      cases h
    | ok _ =>
      rw [hcheck] at h
      dsimp only at h
      cases hlast : (srt.sort entries).getLast? with
      | none =>
        rw [hlast] at h
        cases h
      | some last =>
        rw [hlast] at h
        cases h
        have hsorted := List.isChain_iff_getElem.mp (srt.sorted entries).isChain
        have hends := List.isChain_iff_getElem.mp (checkOverlaps_eq_ok_iff.mp hcheck)
        refine ⟨srt.perm entries, ?_, last, hlast, rfl⟩
        exact List.isChain_iff_getElem.mpr fun i hi => ⟨hsorted i hi, hends i hi⟩

/-- A list that is accepted makes a schedule, unless its period is zero. -/
theorem exists_table_eq {srt : SliceSort} {entries : List LeaderScheduleEntry}
    {t : ScheduleTable} (h : newLeaderSchedule srt entries = some (.ok t))
    (hmax : t.maxSlot ≠ 0) :
    ∃ ls : LeaderSchedule, ls.table = t :=
  have hok := newLeaderSchedule_eq_ok h
  ⟨{ entries := t.entries, maxSlot := t.maxSlot, ordered :=
    hok.2.1, maxSlot_eq := hok.2.2,
     maxSlot_ne_zero := hmax }, rfl⟩

end LeaderSchedule

/-! ## Binary search -/

section Search

variable {n : ℕ} {f : ℕ → Bool}

/-- **The loop of the search** keeps that the function is false to the left
of its interval and true from the end of the interval on. Every round makes
the interval shorter. -/
theorem searchLoop_spec (hmono : ∀ a b, a ≤ b → b < n → f a = true → f b = true)
    {k i j : ℕ} (hij : i ≤ j) (hjn : j ≤ n) (hk : j ≤ i + k)
    (hlow : ∀ m < i, f m = false) (hhigh : ∀ m, j ≤ m → m < n → f m = true) :
    searchLoop f k i j ≤ n ∧ (∀ m < searchLoop f k i j, f m = false) ∧
      ∀ m, searchLoop f k i j ≤ m → m < n → f m = true := by
  induction k generalizing i j with
  | zero =>
    obtain rfl : i = j := Nat.le_antisymm hij hk
    exact ⟨hjn, hlow, hhigh⟩
  | succ k ih =>
    unfold searchLoop
    split
    · next hlt =>
      dsimp only
      have hmid : i ≤ (i + j) / 2 ∧ (i + j) / 2 < j := by omega
      split
      · -- true in the middle: the interval ends there
        next hf =>
        refine ih hmid.1 (by omega) (by omega) hlow fun m hm hmn => ?_
        exact hmono _ m hm hmn hf
      · -- false in the middle: the interval begins after it
        next hf =>
        refine ih (by omega) hjn (by omega) (fun m hm => ?_) hhigh
        refine Bool.eq_false_iff.mpr fun hfm => hf ?_
        exact hmono m _ (by omega) (by omega) hfm
    · next hge =>
      obtain rfl : i = j := Nat.le_antisymm hij (Nat.le_of_not_lt hge)
      exact ⟨hjn, hlow, hhigh⟩

/-- **The search splits the indices** into those at which a monotone
function is false and those at which it is true. -/
theorem search_spec (hmono : ∀ a b, a ≤ b → b < n → f a = true → f b = true) :
    search n f ≤ n ∧ (∀ m < search n f, f m = false) ∧
      ∀ m, search n f ≤ m → m < n → f m = true :=
  searchLoop_spec hmono (Nat.zero_le n) le_rfl (Nat.zero_add n).ge
    (fun _ hm => absurd hm (by simp)) fun _ hm hmn => absurd hmn (Nat.not_lt.mpr hm)

end Search

/-! ## Looking a leader up -/

/-- The slot lies in the range. -/
def LeaderScheduleEntry.Covers (e : LeaderScheduleEntry) (slot : UInt64) : Prop :=
  e.startSlot ≤ slot ∧ slot ≤ e.endSlot

instance (e : LeaderScheduleEntry) (slot : UInt64) : Decidable (e.Covers slot) :=
  inferInstanceAs (Decidable (_ ∧ _))

namespace LeaderSchedule

variable {ls : LeaderSchedule} {slot : UInt64}

/-- The slot of the first period that a slot is a repetition of. -/
def wrap (maxSlot slot : UInt64) : UInt64 :=
  if slot % maxSlot = 0 then maxSlot else slot % maxSlot

/-- One period on, a slot is a repetition of the same slot, as long as slot
numbers do not run out. -/
theorem wrap_add {maxSlot slot : UInt64} (h : slot.toNat + maxSlot.toNat < 2 ^ 64) :
    wrap maxSlot (slot + maxSlot) = wrap maxSlot slot := by
  have hmod : (slot + maxSlot) % maxSlot = slot % maxSlot := by
    refine UInt64.toNat_inj.mp ?_
    rw [UInt64.toNat_mod, UInt64.toNat_mod, UInt64.toNat_add, Nat.mod_eq_of_lt h,
      Nat.add_mod_right]
  unfold wrap
  rw [hmod]

/-- The ranges of a schedule are in order, as ranges of numbers. -/
theorem pairwise_entries (ls : LeaderSchedule) :
    ls.entries.Pairwise (Intervals.Apart (fun e => e.startSlot.toNat)
      (fun e => e.endSlot.toNat)) :=
  Intervals.pairwise_of_isChain (ls.ordered.imp fun _ _ h =>
    ⟨UInt64.le_iff_toNat_le.mp h.1, UInt64.lt_iff_toNat_lt.mp h.2⟩)

/-- Does the range at an index begin after the slot? -/
def startsAfter (entries : List LeaderScheduleEntry) (slot : UInt64) (i : ℕ) : Bool :=
  match entries[i]? with
  | some e => decide (e.startSlot > slot)
  | none => false

theorem startsAfter_eq {entries : List LeaderScheduleEntry} {i : ℕ}
    (hi : i < entries.length) :
    startsAfter entries slot i = decide (slot < entries[i].startSlot) := by
  unfold startsAfter
  rw [List.getElem?_eq_getElem hi]

/-- **What the search looks for**: the ranges before the index it returns
begin no later than the slot, those from the index on begin after it. -/
theorem search_startsAfter (ls : LeaderSchedule) (slot : UInt64) :
    search ls.entries.length (startsAfter ls.entries slot) ≤ ls.entries.length ∧
      (∀ e ∈ ls.entries.take (search ls.entries.length (startsAfter ls.entries slot)),
        e.startSlot ≤ slot) ∧
      ∀ e ∈ ls.entries.drop (search ls.entries.length (startsAfter ls.entries slot)),
        slot < e.startSlot := by
  have hpair := List.pairwise_iff_getElem.mp ls.pairwise_entries
  have hmono : ∀ a b, a ≤ b → b < ls.entries.length →
      startsAfter ls.entries slot a = true →
      startsAfter ls.entries slot b = true := by
    intro a b hab hb ha
    obtain rfl | hlt := Nat.eq_or_lt_of_le hab
    · exact ha
    · rw [startsAfter_eq (hlt.trans hb), decide_eq_true_eq] at ha
      rw [startsAfter_eq hb, decide_eq_true_eq]
      exact UInt64.lt_of_lt_of_le ha
        (UInt64.le_iff_toNat_le.mpr (hpair a b (hlt.trans hb) hb hlt).1)
  obtain ⟨hle, hbefore, hafter⟩ := search_spec hmono
  refine ⟨hle, ?_, ?_⟩
  · intro e he
    obtain ⟨m, hm, rfl⟩ := List.mem_iff_getElem.mp he
    rw [List.length_take, lt_min_iff] at hm
    have hf := hbefore m hm.1
    rw [startsAfter_eq hm.2, decide_eq_false_iff_not] at hf
    rw [List.getElem_take]
    exact UInt64.not_lt.mp hf
  · intro e he
    obtain ⟨m, hm, rfl⟩ := List.mem_iff_getElem.mp he
    rw [List.length_drop] at hm
    have hf := hafter _ (Nat.le_add_right _ m) (Nat.add_lt_of_lt_sub' hm)
    rw [startsAfter_eq, decide_eq_true_eq] at hf
    rw [List.getElem_drop]
    exact hf

/-- The leader of the range before an index, if that range covers the slot. -/
def leaderBefore (entries : List LeaderScheduleEntry) (slot : UInt64) (i : ℕ) :
    Option String :=
  if i > 0 then
    match entries[i - 1]? with
    | some e => if e.Covers slot then some e.leader else none
    | none => none
  else none

theorem leaderAt_eq (ls : LeaderSchedule) (slot : UInt64) :
    ls.leaderAt slot = leaderBefore ls.entries (wrap ls.maxSlot slot)
      (search ls.entries.length (startsAfter ls.entries (wrap ls.maxSlot slot))) :=
  rfl

/-- **The binary search is a walk through the ranges.** -/
theorem leaderAt_eq_find? (ls : LeaderSchedule) (slot : UInt64) :
    ls.leaderAt slot
      = (ls.entries.find? (fun e => e.Covers (wrap ls.maxSlot slot))).map
        (·.leader) := by
  rw [leaderAt_eq]
  generalize wrap ls.maxSlot slot = w
  obtain ⟨hle, hbefore, hafter⟩ := ls.search_startsAfter w
  generalize search ls.entries.length (startsAfter ls.entries w)
    = i at hle hbefore hafter
  cases i with
  | zero =>
    have hnone : ls.entries.find? (fun e => e.Covers w) = none := by
      refine List.find?_eq_none.mpr fun e he hcov => ?_
      exact UInt64.not_le.mpr (hafter e he) (of_decide_eq_true hcov).1
    rw [hnone]
    rfl
  | succ i =>
    -- the range before the index is the last one that begins no later than
    -- the slot
    have hstart := hbefore ls.entries[i]
      (List.mem_take_iff_getElem.mpr ⟨i, by simp [hle], rfl⟩)
    have hsplit : ls.entries = ls.entries.take i ++ ls.entries[i]
        :: ls.entries.drop (i + 1) := by
      rw [List.getElem_cons_drop, List.take_append_drop]
    have hpair := ls.pairwise_entries
    rw [hsplit] at hpair
    have hfind := Intervals.find?_covers (x := w.toNat) hpair
      (UInt64.le_iff_toNat_le.mp hstart)
      (fun e he => UInt64.lt_iff_toNat_lt.mp (hafter e he))
    rw [← hsplit] at hfind
    have hcovers : ls.entries.find? (fun e => e.Covers w)
        = if ls.entries[i].Covers w then some ls.entries[i] else none := hfind
    unfold leaderBefore
    rw [if_pos (Nat.succ_pos i), Nat.add_sub_cancel,
      List.getElem?_eq_getElem hle, hcovers]
    dsimp only
    split <;> rfl

theorem length_filter_covers (ls : LeaderSchedule) (slot : UInt64) :
    (ls.entries.filter (fun e => e.Covers slot)).length ≤ 1 :=
  Intervals.length_filter_covers_le_one (x := slot.toNat) ls.pairwise_entries

/-- **The lookup is the plain schedule.** Whatever list a schedule is made
from and however it is sorted: of the configured ranges one at most covers
the slot, as a slot of the first period; its leader is the one found, and
none is found if there is no such range. A period on, the leader is the
same. -/
theorem leaderAt_of_newLeaderSchedule {srt : SliceSort}
    {entries : List LeaderScheduleEntry} {t : ScheduleTable}
    (h : newLeaderSchedule srt entries = some (.ok t)) (hmax : 0 < t.maxSlot) :
    ∃ ls : LeaderSchedule, ls.table = t ∧ ∀ slot,
      (entries.filter (fun e => e.Covers (wrap t.maxSlot slot))).length ≤ 1 ∧
      (∀ e ∈ entries, e.Covers (wrap t.maxSlot slot) →
        ls.leaderAt slot = some e.leader) ∧
      ((∀ e ∈ entries, ¬e.Covers (wrap t.maxSlot slot)) → ls.leaderAt slot = none) ∧
      (slot.toNat + t.maxSlot.toNat < 2 ^ 64 →
        ls.leaderAt (slot + t.maxSlot) = ls.leaderAt slot) := by
  have hne : t.maxSlot ≠ 0 := fun hzero => by
    rw [hzero] at hmax
    exact absurd hmax (by decide)
  obtain ⟨ls, rfl⟩ := exists_table_eq h hne
  have hperm : ls.entries.Perm entries := (newLeaderSchedule_eq_ok h).1
  refine ⟨ls, rfl, fun slot => ?_⟩
  have hone := ls.length_filter_covers (wrap ls.maxSlot slot)
  have hfind := leaderAt_eq_find? ls slot
  refine ⟨?_, fun e he hcov => ?_, fun hnone => ?_, fun hwrap => ?_⟩
  · rwa [← (hperm.filter _).length_eq]
  · rw [hfind, Intervals.find?_eq_some_of_mem hone (hperm.mem_iff.mpr he)
      (decide_eq_true hcov)]
    rfl
  · rw [hfind, List.find?_eq_none.mpr fun e he hcov => ?_]
    · rfl
    · exact hnone e (hperm.mem_iff.mp he) (of_decide_eq_true hcov)
  · have hsame : wrap ls.maxSlot (slot + ls.table.maxSlot) = wrap ls.maxSlot slot :=
      wrap_add hwrap
    rw [leaderAt_eq_find?, hfind, hsame]

/-- Insertion sort is a sort of ranges. -/
def insertionSort : SliceSort where
  sort := List.insertionSort (fun a b => a.startSlot ≤ b.startSlot)
  perm := List.perm_insertionSort _
  sorted l :=
    have : Std.Total (fun a b : LeaderScheduleEntry => a.startSlot ≤ b.startSlot) :=
      ⟨fun a b => UInt64.le_total a.startSlot b.startSlot⟩
    have : IsTrans LeaderScheduleEntry (fun a b => a.startSlot ≤ b.startSlot) :=
      ⟨fun _ _ _ => UInt64.le_trans⟩
    List.pairwise_insertionSort _ l

/-- Three ranges out of order, with a gap and an inverted range: slot 16
repeats slot 7, and slot 14 repeats slot 5, which no range covers. -/
theorem leaderAt_gap_inverted :
    ∃ ls : LeaderSchedule,
      newLeaderSchedule insertionSort [⟨6, 9, "b"⟩, ⟨1, 3, "a"⟩, ⟨5, 2, "c"⟩]
        = some (.ok ls.table) ∧
      ls.leaderAt 16 = some "b" ∧ ls.leaderAt 14 = none ∧
      ls.leaderAt (16 + 9) = some "b" := by
  have hnew : newLeaderSchedule insertionSort [⟨6, 9, "b"⟩, ⟨1, 3, "a"⟩, ⟨5, 2, "c"⟩]
      = some (.ok ⟨[⟨1, 3, "a"⟩, ⟨5, 2, "c"⟩, ⟨6, 9, "b"⟩], 9⟩) := by decide +kernel
  obtain ⟨ls, htable, hls⟩ := leaderAt_of_newLeaderSchedule hnew (by decide)
  obtain ⟨-, hleader, -, hperiod⟩ := hls 16
  obtain ⟨-, -, hnone, -⟩ := hls 14
  have hb : ls.leaderAt 16 = some "b" := hleader ⟨6, 9, "b"⟩ (by decide) (by decide)
  exact ⟨ls, htable ▸ hnew, hb, hnone (by decide), (hperiod (by decide)).trans hb⟩

end LeaderSchedule

end Mmn
