import Mmn.Recorder
import Mmn.Runs
import Mmn.Table

/-!
# The slot hashes that are kept

The recorder keeps the hashes that recent slots ended in, for the leader of
the next slot to begin with. When the queue is full, a new slot pushes out
*the slot `maxSize` below it*, which is the oldest one if all slots between
are there – and no slot at all if that one was never put.

As long as the clock goes on slot by slot, the queue holds the last
`maxSize` slots and nothing else (`Window`, `Window.put_next`), and has
their number for its size (`Window.size_eq`). A reset jumps: it puts the
slot before the leader's own, and the slots in between stay out. Slots that
are pushed out are then looked for in the gap, the queue grows by one for
each of them, and what is left behind the gap is never removed. The queue is
bounded exactly if every new slot that comes to a full queue finds the one
it pushes out (`slotHashes_bounded_iff`, `slotHashes_overflow`).

The other two things one expects of it hold in any case. A slot less than
`maxSize` below the one that is put stays, also where the subtraction wraps;
and what is found for a slot is the hash it was given last.
-/

namespace Mmn

/-- The most hashes that are meant to be kept. -/
abbrev maxSlotHashQueueSize : ℕ := 10000

namespace SlotHashQueue

variable {q : SlotHashQueue} {slot t : UInt64} {hash : Hash}

/-- How many hashes are kept. -/
def size (q : SlotHashQueue) : ℕ := q.slotMap.keys.length

/-- Hashes that are put one after the other. -/
def putAll (q : SlotHashQueue) (puts : List (UInt64 × Hash)) : SlotHashQueue :=
  puts.foldl (fun q p => q.put p.1 p.2) q

/-- The slot that a new one pushes out, in machine words. -/
def pushedOut (q : SlotHashQueue) (slot : UInt64) :
    UInt64 := slot - UInt64.ofNat q.maxSize

/-- The hash that a slot was given last. -/
def lastPut (puts : List (UInt64 × Hash)) (slot : UInt64) : Option Hash :=
  (puts.reverse.find? fun p => p.1 = slot).map Prod.snd

theorem putAll_append (q : SlotHashQueue) (puts : List (UInt64 × Hash))
    (p : UInt64 × Hash) :
    q.putAll (puts ++ [p]) = (q.putAll puts).put p.1 p.2 := by
  unfold putAll
  rw [List.foldl_append, List.foldl_cons, List.foldl_nil]

theorem maxSize_putAll (q : SlotHashQueue) (puts : List (UInt64 × Hash)) :
    (q.putAll puts).maxSize = q.maxSize := by
  induction puts generalizing q with
  | nil => rfl
  | cons p puts ih => exact (ih (q.put p.1 p.2)).trans (maxSize_put q p.1 p.2)

/-! ## One put -/

theorem size_insert_of_notMem (h : slot ∉ q.slotMap) (hash : Hash) :
    (q.slotMap.insert slot hash).keys.length = q.size + 1 := by
  rw [AList.keys_insert, List.length_cons, List.erase_of_not_mem h]
  rfl

theorem length_insert_of_notMem (h : slot ∉ q.slotMap) (hash : Hash) :
    (q.slotMap.insert slot hash).entries.length = q.size + 1 := by
  rw [← size_insert_of_notMem h hash]
  exact (List.length_map _).symm

/-- A slot that is there gets another hash. -/
theorem put_of_mem (h : slot ∈ q.slotMap) :
    q.put slot hash = { q with slotMap := q.slotMap.insert slot hash } :=
  if_pos h

theorem put_of_lt (h : slot ∉ q.slotMap) (hroom : q.size < q.maxSize) :
    q.put slot hash = { q with slotMap := q.slotMap.insert slot hash } := by
  have hlen := length_insert_of_notMem h hash
  unfold put
  dsimp only
  rw [if_neg h, if_neg (by omega)]

theorem put_of_le (h : slot ∉ q.slotMap) (hfull : q.maxSize ≤ q.size) :
    q.put slot hash
      = { q with slotMap := (q.slotMap.insert slot hash).erase (q.pushedOut
        slot) } := by
  have hlen := length_insert_of_notMem h hash
  unfold put
  dsimp only
  rw [if_neg h, if_pos (by omega)]
  rfl

/-- A slot that is there already leaves the size. -/
theorem size_put_of_mem (h : slot ∈ q.slotMap) : (q.put slot hash).size = q.size := by
  have hpos := List.length_pos_of_mem (l := q.slotMap.keys) h
  rw [put_of_mem h]
  show (q.slotMap.insert slot hash).keys.length = q.slotMap.keys.length
  rw [AList.keys_insert, List.length_cons, List.length_erase_of_mem h]
  exact Nat.sub_add_cancel hpos

theorem toNat_pushedOut (hlt : q.maxSize < 2 ^ 64) (slot : UInt64) :
    (q.pushedOut slot).toNat = (2 ^ 64 - q.maxSize + slot.toNat) % 2 ^ 64 := by
  unfold pushedOut
  rw [UInt64.toNat_sub, UInt64.toNat_ofNat', Nat.mod_eq_of_lt hlt]

/-- **A slot pushes out another one**, not itself. -/
theorem pushedOut_ne (hpos : 0 < q.maxSize) (hlt : q.maxSize < 2 ^ 64)
    (slot : UInt64) :
    q.pushedOut slot ≠ slot := by
  intro h
  have hnat := congrArg UInt64.toNat h
  rw [toNat_pushedOut hlt] at hnat
  have hslot := slot.toNat_lt
  omega

/-- **The slot that is pushed out is far below**, or above where the
subtraction wraps. -/
theorem ne_pushedOut (hlt : q.maxSize < 2 ^ 64) (hle : t ≤ slot)
    (hnear : slot.toNat < t.toNat + q.maxSize) : t ≠ q.pushedOut slot := by
  intro h
  have hnat := congrArg UInt64.toNat h
  rw [toNat_pushedOut hlt] at hnat
  have hslot := slot.toNat_lt
  have hle := UInt64.le_iff_toNat_le.mp hle
  omega

/-- **The bound is kept by a put** if the slot is there, or there is room,
or the slot that it pushes out is there. -/
theorem size_put_le_iff (hpos : 0 < q.maxSize) (hlt : q.maxSize < 2 ^ 64)
    (h : q.size ≤ q.maxSize) (slot : UInt64) (hash : Hash) :
    (q.put slot hash).size ≤ q.maxSize ↔
      slot ∈ q.slotMap ∨ q.size < q.maxSize ∨ q.pushedOut slot ∈ q.slotMap := by
  by_cases hmem : slot ∈ q.slotMap
  · rw [size_put_of_mem hmem]
    exact iff_of_true h (Or.inl hmem)
  by_cases hroom : q.size < q.maxSize
  · rw [put_of_lt hmem hroom]
    refine iff_of_true ?_ (Or.inr (Or.inl hroom))
    show (q.slotMap.insert slot hash).keys.length ≤ q.maxSize
    rw [size_insert_of_notMem hmem]
    exact hroom
  -- The queue is full: the size stays only if there is something to erase.
  have hfull : q.maxSize ≤ q.size := Nat.le_of_not_lt hroom
  have hout : q.pushedOut slot ∈ q.slotMap.insert slot hash ↔
      q.pushedOut slot ∈ q.slotMap := by
    rw [AList.mem_insert]
    exact or_iff_right (pushedOut_ne hpos hlt slot)
  rw [put_of_le hmem hfull]
  show ((q.slotMap.insert slot hash).erase (q.pushedOut slot)).keys.length ≤
    q.maxSize ↔ _
  rw [AList.keys_erase]
  by_cases hthere : q.pushedOut slot ∈ q.slotMap
  · refine iff_of_true ?_ (Or.inr (Or.inr hthere))
    rw [List.length_erase_of_mem (hout.mpr hthere), size_insert_of_notMem hmem]
    exact h
  · refine iff_of_false ?_ (by simp [hmem, hroom, hthere])
    rw [List.erase_of_not_mem (mt hout.mp hthere), size_insert_of_notMem hmem]
    omega

/-- **A put keeps what is near**: every slot less than `maxSize` below the
one that is put is found as before. -/
theorem get_put_of_near (hlt : q.maxSize < 2 ^ 64) (hle : t ≤ slot)
    (hnear : slot.toNat < t.toNat + q.maxSize) :
    (q.put slot hash).get t = if t = slot then some hash else q.get t :=
  get_put q slot hash (ne_pushedOut hlt hle hnear)

/-- What is found after a put was put, or was found before. -/
theorem get_of_get_put {found : Hash} (h : (q.put slot hash).get t = some found) :
    (t = slot ∧ found = hash) ∨ (t ≠ slot ∧ q.get t = some found) := by
  have hinsert : (q.slotMap.insert slot hash).lookup t = some found := by
    unfold put get at h
    dsimp only at h
    split_ifs at h
    · exact h
    · exact AList.lookup_of_lookup_erase h
    · exact h
  by_cases ht : t = slot
  · subst ht
    rw [AList.lookup_insert] at hinsert
    exact Or.inl ⟨rfl, (Option.some.inj hinsert).symm⟩
  · rw [AList.lookup_insert_ne ht] at hinsert
    exact Or.inr ⟨ht, hinsert⟩

theorem lastPut_append (puts : List (UInt64 × Hash)) (p : UInt64 × Hash)
    (t : UInt64) :
    lastPut (puts ++ [p]) t = if p.1 = t then some p.2 else lastPut puts t := by
  unfold lastPut
  rw [List.reverse_append, List.reverse_singleton, List.singleton_append,
    List.find?_cons]
  by_cases h : p.1 = t
  · simp [h]
  · simp [h]

/-- **What is found is what was put last**, the hash of slot zero being put
at the start. -/
theorem lastPut_of_get (puts : List (UInt64 × Hash)) {found : Hash}
    (h : (new.putAll puts).get t = some found) :
    lastPut ((0, zeroHash) :: puts) t = some found := by
  induction puts using List.reverseRecOn with
  | nil =>
    have hfound : ((∅ : AList fun _ : UInt64 => Hash).insert 0 zeroHash).lookup t
        = some found := h
    by_cases ht : t = 0
    · subst ht
      rw [AList.lookup_insert] at hfound
      exact hfound
    · rw [AList.lookup_insert_ne ht] at hfound
      cases hfound
  | append_singleton puts p ih =>
    rw [putAll_append] at h
    rw [← List.cons_append, lastPut_append]
    obtain ⟨rfl, rfl⟩ | ⟨hne, hbefore⟩ := get_of_get_put h
    · exact if_pos rfl
    · rw [if_neg (Ne.symm hne)]
      exact ih hbefore

/-! ## Slot by slot -/

/-- **The queue holds the last slots** up to the given one, and nothing
else. -/
def Window (q : SlotHashQueue) (top : UInt64) : Prop :=
  ∀ t, t ∈ q.slotMap ↔ t ≤ top ∧ top.toNat < t.toNat + q.maxSize

theorem window_new : new.Window 0 := by
  intro t
  have hmem : t ∈ new.slotMap ↔ t = 0 := by
    show t ∈ (∅ : AList fun _ : UInt64 => Hash).insert 0 zeroHash ↔ t = 0
    rw [AList.mem_insert]
    exact or_iff_left (AList.notMem_empty t)
  rw [hmem, UInt64.le_iff_toNat_le, ← UInt64.toNat_inj]
  have hmax : new.maxSize = 10000 := rfl
  rw [UInt64.toNat_zero, hmax]
  omega

/-- The size of a window: `maxSize`, or as many as there are slots. -/
theorem Window.size_eq {top : UInt64} (h : q.Window top) :
    q.size = top.toNat + 1 - (top.toNat + 1 - q.maxSize) := by
  have hperm : (q.slotMap.keys.map UInt64.toNat).Perm
      (List.range' (top.toNat + 1 - q.maxSize)
        (top.toNat + 1 - (top.toNat + 1 - q.maxSize))) := by
    refine (List.perm_ext_iff_of_nodup ?_ List.nodup_range').mpr fun k => ?_
    · exact q.slotMap.keys_nodup.map fun _ _ => UInt64.toNat_inj.mp
    rw [List.mem_map, List.mem_range'_1]
    constructor
    · rintro ⟨t, ht, rfl⟩
      obtain ⟨hle, hnear⟩ := (h t).mp ht
      have hle := UInt64.le_iff_toNat_le.mp hle
      omega
    · intro hk
      have hlt := top.toNat_lt
      have hnat : (UInt64.ofNat k).toNat = k := UInt64.toNat_ofNat_of_lt' (by
        show k < 2 ^ 64
        omega)
      refine ⟨UInt64.ofNat k, (h _).mpr ⟨UInt64.le_iff_toNat_le.mpr ?_, ?_⟩, hnat⟩
      · omega
      · omega
  have hlen := hperm.length_eq
  rw [List.length_map, List.length_range'] at hlen
  exact hlen

/-- **The next slot moves the window on by one.** -/
theorem Window.put_next {top : UInt64} (h : q.Window top) (hpos : 0 < q.maxSize)
    (hlt : q.maxSize < 2 ^ 64) (hnext : slot.toNat = top.toNat + 1) :
    (q.put slot hash).Window slot := by
  have hsize := h.size_eq
  have hnew : slot ∉ q.slotMap := fun hmem => by
    have hle := UInt64.le_iff_toNat_le.mp ((h slot).mp hmem).1
    omega
  intro t
  rw [maxSize_put]
  by_cases hroom : q.size < q.maxSize
  · -- all slots from zero on are there
    rw [put_of_lt hnew hroom]
    show t ∈ q.slotMap.insert slot hash ↔ t ≤ slot ∧ slot.toNat < t.toNat + q.maxSize
    rw [AList.mem_insert, h t, UInt64.le_iff_toNat_le, UInt64.le_iff_toNat_le,
      ← UInt64.toNat_inj]
    omega
  · -- the slot that is pushed out is the lowest of the window
    have hout : (q.pushedOut slot).toNat = slot.toNat - q.maxSize := by
      have hslot := slot.toNat_lt
      rw [toNat_pushedOut hlt]
      omega
    rw [put_of_le hnew (Nat.le_of_not_lt hroom)]
    show t ∈ (q.slotMap.insert slot hash).erase (q.pushedOut slot) ↔
      t ≤ slot ∧ slot.toNat < t.toNat + q.maxSize
    rw [AList.mem_erase, AList.mem_insert, h t, UInt64.le_iff_toNat_le,
      UInt64.le_iff_toNat_le, Ne, ← UInt64.toNat_inj, ← UInt64.toNat_inj, hout]
    omega

end SlotHashQueue

/-! ## With jumps -/

/-- **The queue of slot hashes**, for any puts from the start. Its size is
bounded all the way exactly if every put is for a slot that is there, or
finds room, or finds the slot that it pushes out. In any case a put leaves
every slot less than the bound below its own, and what is found for a slot
is the hash it was given last. -/
theorem slotHashes_bounded_iff (puts : List (UInt64 × Hash)) :
    ((∀ pre post, puts = pre ++ post →
        (SlotHashQueue.new.putAll pre).size ≤ maxSlotHashQueueSize) ↔
      ∀ pre p post, puts = pre ++ p :: post →
        p.1 ∈ (SlotHashQueue.new.putAll pre).slotMap ∨
          (SlotHashQueue.new.putAll pre).size < maxSlotHashQueueSize ∨
          p.1 - UInt64.ofNat maxSlotHashQueueSize
            ∈ (SlotHashQueue.new.putAll pre).slotMap) ∧
    (∀ (slot t : UInt64) (hash : Hash), t ≤ slot →
      slot.toNat < t.toNat + maxSlotHashQueueSize →
      ((SlotHashQueue.new.putAll puts).put slot hash).get t
        = if t = slot then some hash else (SlotHashQueue.new.putAll puts).get t) ∧
    ∀ t hash, (SlotHashQueue.new.putAll puts).get t = some hash →
      SlotHashQueue.lastPut ((0, zeroHash) :: puts) t = some hash := by
  have hmax : (SlotHashQueue.new.putAll puts).maxSize = maxSlotHashQueueSize :=
    SlotHashQueue.maxSize_putAll _ _
  have hput : ∀ (q : SlotHashQueue) (p : UInt64 × Hash),
    q.maxSize = maxSlotHashQueueSize →
      q.size ≤ maxSlotHashQueueSize → ((q.put p.1 p.2).size ≤ maxSlotHashQueueSize ↔
        p.1 ∈ q.slotMap ∨ q.size < maxSlotHashQueueSize ∨
          p.1 - UInt64.ofNat maxSlotHashQueueSize ∈ q.slotMap) := by
    intro q p hq hsize
    have hiff := SlotHashQueue.size_put_le_iff (by rw [hq]; decide)
      (by rw [hq]; decide) (hsize.trans_eq hq.symm) p.1 p.2
    unfold SlotHashQueue.pushedOut at hiff
    rwa [hq] at hiff
  refine ⟨?_, fun slot t hash hle hnear => ?_, fun t hash =>
    SlotHashQueue.lastPut_of_get puts⟩
  · refine Machine.forall_prefix_iff
      (fun (q : SlotHashQueue) (p : UInt64 × Hash) => q.put p.1 p.2)
      (I := fun q => q.maxSize = maxSlotHashQueueSize ∧ q.size ≤ maxSlotHashQueueSize)
      (G := fun q => q.size ≤ maxSlotHashQueueSize)
      (C := fun q p => p.1 ∈ q.slotMap ∨ q.size < maxSlotHashQueueSize ∨
        p.1 - UInt64.ofNat maxSlotHashQueueSize ∈ q.slotMap)
      (fun q h => h.2) ?_ ?_ (s := SlotHashQueue.new) ⟨rfl, by decide⟩ puts
    · exact fun q p hq => hput q p hq.1 hq.2
    · rintro q p ⟨hq, hsize⟩ hroom
      exact ⟨(SlotHashQueue.maxSize_put q p.1 p.2).trans hq,
        (hput q p hq hsize).mpr hroom⟩
  · refine SlotHashQueue.get_put_of_near ?_ hle ?_
    · rw [hmax]
      decide
    · rwa [hmax]

/-- The puts of a clock that goes on from slot zero for a number of slots. -/
def Sample.slotBySlot (count : ℕ) : List (UInt64 × Hash) :=
  (List.range count).map fun i => (UInt64.ofNat (i + 1), zeroHash)

/-- A clock that goes on slot by slot fills a window. -/
theorem SlotHashQueue.window_slotBySlot {count : ℕ} (h : count < 2 ^ 64) :
    (new.putAll (Sample.slotBySlot count)).Window (UInt64.ofNat count) := by
  induction count with
  | zero => exact window_new
  | succ count ih =>
    have hput : new.putAll (Sample.slotBySlot (count + 1))
        = (new.putAll (Sample.slotBySlot count)).put (UInt64.ofNat (count + 1))
            zeroHash := by
      unfold Sample.slotBySlot
      rw [List.range_succ, List.map_append, List.map_singleton, putAll_append]
    have hmax : (new.putAll (Sample.slotBySlot count)).maxSize = 10000 :=
      maxSize_putAll _ _
    rw [hput]
    refine (ih (Nat.lt_of_succ_lt h)).put_next ?_ ?_ ?_
    · omega
    · omega
    · rw [UInt64.toNat_ofNat_of_lt' h,
        UInt64.toNat_ofNat_of_lt' (Nat.lt_of_succ_lt h)]

/-- **The queue overflows**: after the slots to 9999, which fill it, a reset
jumps to slot 20000. The slot to push out would be slot 10000. -/
theorem slotHashes_overflow :
    (SlotHashQueue.new.putAll (Sample.slotBySlot 9999)).size = maxSlotHashQueueSize ∧
      maxSlotHashQueueSize
        < (SlotHashQueue.new.putAll
          (Sample.slotBySlot 9999 ++ [(20000, zeroHash)])).size := by
  have hwindow := SlotHashQueue.window_slotBySlot (show 9999 < 2 ^ 64 by decide)
  have hmax : (SlotHashQueue.new.putAll (Sample.slotBySlot 9999)).maxSize = 10000 :=
    SlotHashQueue.maxSize_putAll _ _
  have hsize := hwindow.size_eq
  rw [hmax] at hsize
  have hfull : (SlotHashQueue.new.putAll (Sample.slotBySlot 9999)).size = 10000 :=
    hsize
  refine ⟨hfull, ?_⟩
  rw [SlotHashQueue.putAll_append]
  show 10000 < _
  generalize SlotHashQueue.new.putAll (Sample.slotBySlot 9999)
    = q at hwindow hmax hfull
  have hiff := SlotHashQueue.size_put_le_iff (q := q) (by omega) (by omega) (by omega)
    20000 zeroHash
  have hnone : ∀ t : UInt64, 9999 < t.toNat → t ∉ q.slotMap := fun t ht hmem =>
    absurd (UInt64.le_iff_toNat_le.mp ((hwindow t).mp hmem).1) (Nat.not_le.mpr ht)
  unfold SlotHashQueue.pushedOut at hiff
  rw [hmax] at hiff
  refine Nat.lt_of_not_le fun hle => ?_
  obtain hmem | hroom | hmem := hiff.mp hle
  · exact hnone 20000 (by decide) hmem
  · omega
  · exact hnone _ (by decide) hmem

end Mmn
