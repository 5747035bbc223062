import Mmn.Highest
import Mmn.LockTable

/-!
# One block per slot

The block store has a lock for each slot. `AddBlockPending` looks for a
block and writes one under the lock of its slot, so that of several calls
for a slot only the first should find it free. The locks are made on demand,
and to save memory `CleanupOldSlotLocks` forgets those of slots that are far
behind the slot finalized last – whether or not somebody has them. A call
that was given the lock before the cleanup and one that asks for it
afterwards hold different locks, and both may find the slot free
(`two_blocks_at_one_slot`).

The lock of a slot may be forgotten once the slot has a block: no call can
succeed any more, whatever it holds. Before that it may be forgotten if no
call of `AddBlockPending` for the slot has asked for it and not yet written
(`one_block_per_slot`).

A call is a thread here, which makes one atomic step at a time: it asks for
the lock, takes it, looks for a block, writes, gives the lock back. The
reads and writes of the database may fail.
-/

namespace Mmn

/-! ## Threads -/

/-- The arguments of `FinalizeBlock`. -/
structure Finalization where
  blk : Block
  txMetas : AList TransactionMeta
  addrAccount : AList Account
  latestVersionContentHashMap : AList (fun _ : String => String)

/-- A call that works under the lock of a slot. -/
inductive SlotCall where
  /-- `AddBlockPending` -/
  | addBlockPending (b : BroadcastedBlock)
  /-- `FinalizeBlock` -/
  | finalizeBlock (f : Finalization)

/-- The slot. -/
def SlotCall.slot : SlotCall → UInt64
  | addBlockPending b => b.slot
  | finalizeBlock f => f.blk.slot

/-- **Where a call has got to.** -/
inductive SlotThread where
  /-- `FinalizeBlock`, before it looks for the block. -/
  | looking (f : Finalization)
  /-- Before `getSlotLock`. -/
  | ready (c : SlotCall)
  /-- With the lock of its slot, before `Lock`. -/
  | waiting (c : SlotCall) (lock : ℕ)
  /-- After `Lock`. -/
  | locked (c : SlotCall) (lock : ℕ)
  /-- `AddBlockPending`, after it has found no block. -/
  | checked (b : BroadcastedBlock) (lock : ℕ)
  /-- Before `Unlock`, with what the call will return. -/
  | unlocking (c : SlotCall) (lock : ℕ) (r : Except String Unit)
  | returned (c : SlotCall) (r : Except String Unit)
  /-- `CleanupOldSlotLocks`, before it reads the slot finalized last. -/
  | cleanup (keepRecentSlots : UInt64)
  /-- `CleanupOldSlotLocks`, going over the locks. -/
  | ranging (cleanupThreshold : UInt64) (slotsToDelete : List UInt64)
  /-- `CleanupOldSlotLocks`, with the locks it still has to forget. -/
  | deleting (slotsToDelete : List UInt64)
  /-- `CleanupOldSlotLocks` has returned. -/
  | swept

namespace SlotThread

/-- Has the call just begun? -/
def begins : SlotThread → Bool
  | looking _ => true
  | ready (.addBlockPending _) => true
  | cleanup _ => true
  | _ => false

/-- The slot and the lock of a call of `AddBlockPending` that has asked for
the lock and may still write. -/
def entering : SlotThread → Option (UInt64 × ℕ)
  | waiting (.addBlockPending b) lock => some (b.slot, lock)
  | locked (.addBlockPending b) lock => some (b.slot, lock)
  | checked b lock => some (b.slot, lock)
  | _ => none

/-- The lock the thread holds. -/
def holds : SlotThread → Option ℕ
  | locked _ lock => some lock
  | checked _ lock => some lock
  | unlocking _ lock _ => some lock
  | _ => none

/-- The slot whose lock the cleanup forgets next. -/
def forgets : SlotThread → Option UInt64
  | deleting (slot :: _) => some slot
  | _ => none

/-- The slot a call of `AddBlockPending` has stored its block at. -/
def succeeded : SlotThread → Option UInt64
  | unlocking (.addBlockPending b) _ (.ok ()) => some b.slot
  | returned (.addBlockPending b) (.ok ()) => some b.slot
  | _ => none

end SlotThread

/-! ## Turns -/

/-- **A block store and the threads that use it.** -/
structure SlotLocks where
  store : Store
  slotLocks : LockTable UInt64
  threads : List SlotThread

/-- What happens next. -/
inductive SlotTurn where
  | begin (t : SlotThread)
  | run (i : ℕ)
  | fail (i : ℕ) (err : String)
  /-- `CleanupOldSlotLocks` comes to the lock of a slot. -/
  | visit (i : ℕ) (slot : UInt64)

namespace SlotLocks

/-- A store just opened. -/
def opened (store : Store) : SlotLocks := ⟨store, .new, []⟩

/-- Move a thread on. -/
def set (st : SlotLocks) (i : ℕ) (t : SlotThread) : SlotLocks :=
  { st with threads := st.threads.set i t }

section

variable [Primitives]

/-- **The next step of a thread.** A lock that is held makes it wait. -/
def runThread (st : SlotLocks) (i : ℕ) : SlotThread → Option SlotLocks
  | .looking f =>
    if st.store.hasCompleteBlock f.blk.slot
      then some (st.set i (.ready (.finalizeBlock f)))
    else some (st.set i (.returned (.finalizeBlock f)
      (.error s!"block at slot {f.blk.slot} does not exist")))
  | .ready c =>
    some { st.set i (.waiting c (st.slotLocks.get c.slot).1) with
      slotLocks := (st.slotLocks.get c.slot).2 }
  | .waiting c lock =>
    (st.slotLocks.acquire lock i).map fun locks =>
      { st.set i (.locked c lock) with slotLocks := locks }
  | .locked (.addBlockPending b) lock =>
    if b.slot ∈ st.store.blocks then
      some (st.set i (.unlocking (.addBlockPending b) lock
        (.error s!"block at slot {b.slot} already exists")))
    else some (st.set i (.checked b lock))
  | .locked (.finalizeBlock f) lock =>
    match st.store.finalizeBlock f.blk f.txMetas f.addrAccount
        f.latestVersionContentHashMap with
    | .error err => some (st.set i (.unlocking (.finalizeBlock f) lock (.error err)))
    | .ok s =>
      some { st.set i (.unlocking (.finalizeBlock f) lock (.ok ())) with store := s }
  | .checked b lock =>
    some { st.set i (.unlocking (.addBlockPending b) lock (.ok ())) with
      store := st.store.addBlock b }
  | .unlocking c lock r =>
    some { st.set i (.returned c r) with slotLocks := st.slotLocks.release lock }
  | .cleanup keepRecentSlots =>
    if st.store.latestFinalized < keepRecentSlots then some (st.set i .swept)
    else some (st.set i (.ranging (st.store.latestFinalized - keepRecentSlots) []))
  | .ranging _ slotsToDelete => some (st.set i (.deleting slotsToDelete))
  | .deleting [] => some (st.set i .swept)
  | .deleting (slot :: slots) =>
    some { st.set i (.deleting slots) with slotLocks := st.slotLocks.drop slot }
  | .returned _ _ => none
  | .swept => none

/-- **A failure of the database.** A write that fails has raised the latest
stored slot. -/
def failThread (st : SlotLocks) (i : ℕ) (err : String) : SlotThread → Option SlotLocks
  | .looking f => some (st.set i (.returned (.finalizeBlock f)
      (.error s!"block at slot {f.blk.slot} does not exist")))
  | .locked (.addBlockPending b) lock =>
    some (st.set i (.unlocking (.addBlockPending b) lock
      (.error (AddFailure.existence err).message)))
  | .locked (.finalizeBlock f) lock =>
    some
      (st.set i (.unlocking (.finalizeBlock f) lock
        (.error ("failed to write batch: " ++ err))))
  | .checked b lock =>
    some
      { st.set i (.unlocking (.addBlockPending b) lock
        (.error (AddFailure.write err).message))
      with store := st.store.raiseLatestStore b.slot }
  | _ => none

/-- **One turn.** -/
def step (st : SlotLocks) : SlotTurn → Option SlotLocks
  | .begin t =>
    if t.begins then some { st with threads := st.threads ++ [t] } else none
  | .run i => st.threads[i]?.bind (st.runThread i)
  | .fail i err => st.threads[i]?.bind (st.failThread i err)
  | .visit i slot =>
    match st.threads[i]? with
    | some (.ranging cleanupThreshold slotsToDelete) =>
      if slot ∈ st.slotLocks.locks ∧ slot < cleanupThreshold then
        some (st.set i (.ranging cleanupThreshold (slotsToDelete ++ [slot])))
      else none
    | _ => none

end

/-- **The cleanup forgets no lock that matters**: the slot has a block, or
no call of `AddBlockPending` for it has asked for the lock and may still
write. -/
def Undisturbed (st : SlotLocks) : SlotTurn → Prop
  | .run i => ∀ slot ∈ st.threads[i]?.bind SlotThread.forgets,
      slot ∈ st.store.blocks ∨ ∀ t ∈ st.threads, t.entering.map Prod.fst ≠ some slot
  | _ => True

instance (st : SlotLocks) (turn : SlotTurn) : Decidable (st.Undisturbed turn) :=
  match turn with
  | .begin _ => isTrue trivial
  | .run i =>
    @Option.decidableForallMem _ (fun slot => slot ∈ st.store.blocks ∨
      ∀ t ∈ st.threads, t.entering.map Prod.fst ≠ some slot) _ (st.threads[i]?.bind
        SlotThread.forgets)
  | .fail _ _ => isTrue trivial
  | .visit _ _ => isTrue trivial

/-! ## The invariant -/

/-- **A thread fits the store and the locks.** -/
structure Fits (store : Store) (slotLocks : LockTable UInt64) (i : ℕ)
    (t : SlotThread) : Prop where
  /-- Until its slot has a block, the lock it asked for is the lock of the
  slot. -/
  same : ∀ slot lock, t.entering = some (slot, lock) →
    slot ∈ store.blocks ∨ slotLocks.locks.lookup slot = some lock
  held : ∀ lock, t.holds = some lock → slotLocks.holder.lookup lock = some i
  free : ∀ b lock, t = .checked b lock → b.slot ∉ store.blocks
  stored : ∀ slot, t.succeeded = some slot → slot ∈ store.blocks

/-- **Calls for one slot exclude each other.** -/
structure Exclusive (st : SlotLocks) : Prop where
  fits : ∀ i t, st.threads[i]? = some t → Fits st.store st.slotLocks i t
  once : ∀ (i j : ℕ) (t u : SlotThread) (slot : UInt64), st.threads[i]? = some t →
    st.threads[j]? = some u → t.succeeded = some slot →
    u.succeeded = some slot → i = j

/-- A thread that has asked for no lock fits. -/
theorem Fits.of_none {store : Store} {slotLocks : LockTable UInt64} {i : ℕ}
    {t : SlotThread} (hentering : t.entering = none) (hholds : t.holds = none)
    (hsucceeded : t.succeeded = none) :
    Fits store slotLocks i t where
  same slot lock h := by
    rw [hentering] at h
    cases h
  held lock h := by
    rw [hholds] at h
    cases h
  free b lock h := by
    rw [h] at hentering
    cases hentering
  stored slot h := by
    rw [hsucceeded] at h
    cases h

namespace Exclusive

variable {st st' : SlotLocks} {i : ℕ} {t t' : SlotThread}

theorem opened (store : Store) : Exclusive (SlotLocks.opened store) where
  fits i t h := by cases h
  once i j t u slot h := by cases h

theorem begin (h : Exclusive st) (ht : t.begins = true) :
    Exclusive { st with threads := st.threads ++ [t] } := by
  have hnone : t.entering = none ∧ t.holds = none ∧ t.succeeded = none := by
    cases t with
    | ready c => cases c with
      | addBlockPending b => exact ⟨rfl, rfl, rfl⟩
      | finalizeBlock f => cases ht
    | looking f => exact ⟨rfl, rfl, rfl⟩
    | cleanup k => exact ⟨rfl, rfl, rfl⟩
    | _ => cases ht
  have hcases : ∀ (j : ℕ) (u : SlotThread), (st.threads ++ [t])[j]? = some u →
      st.threads[j]? = some u ∨ u = t := by
    intro j u hu
    rw [List.getElem?_append] at hu
    split at hu
    · exact Or.inl hu
    · exact Or.inr (List.mem_singleton.mp (List.mem_of_getElem? hu))
  refine ⟨fun j u hu => ?_, fun j k u v slot hu hv hus hvs => ?_⟩
  · obtain hold | rfl := hcases j u hu
    · exact h.fits j u hold
    · exact .of_none hnone.1 hnone.2.1 hnone.2.2
  · obtain hu | rfl := hcases j u hu
    · obtain hv | rfl := hcases k v hv
      · exact h.once j k u v slot hu hv hus hvs
      · rw [hnone.2.2] at hvs
        cases hvs
    · rw [hnone.2.2] at hus
      cases hus

/-- **Replacing one thread.** The new one fits, the others still fit, and a
slot the new one has stored a block at is the old one's, or nobody's. -/
theorem replace (h : Exclusive st) (hthreads : st'.threads = st.threads.set i t')
    (hi : st.threads[i]? = some t) (hnew : Fits st'.store st'.slotLocks i t')
    (hold : ∀ j u, j ≠ i → st.threads[j]? = some u → Fits st.store st.slotLocks j u →
      Fits st'.store st'.slotLocks j u)
    (hsucceeded : ∀ slot, t'.succeeded = some slot →
      t.succeeded = some slot ∨ slot ∉ st.store.blocks) :
    Exclusive st' := by
  have hcases : ∀ (j : ℕ) (u : SlotThread), st'.threads[j]? = some u →
      (j = i ∧ u = t') ∨ (j ≠ i ∧ st.threads[j]? = some u) := by
    intro j u hu
    rw [hthreads] at hu
    by_cases hj : j = i
    · subst hj
      refine Or.inl ⟨rfl, ?_⟩
      rw [List.getElem?_set_self (List.getElem?_eq_some_iff.mp hi).1] at hu
      exact (Option.some.inj hu).symm
    · rw [List.getElem?_set_ne (Ne.symm hj)] at hu
      exact Or.inr ⟨hj, hu⟩
  -- nobody else has stored a block where the new thread has
  have hother : ∀ j u slot, j ≠ i → st.threads[j]? = some u →
    u.succeeded = some slot →
      t'.succeeded ≠ some slot := by
    intro j u slot hj hu hus hts
    obtain hts | hfree := hsucceeded slot hts
    · exact hj (h.once j i u t slot hu hi hus hts)
    · exact hfree ((h.fits j u hu).stored slot hus)
  refine ⟨fun j u hu => ?_, fun j k u v slot hu hv hus hvs => ?_⟩
  · obtain ⟨rfl, rfl⟩ | ⟨hj, hu⟩ := hcases j u hu
    · exact hnew
    · exact hold j u hj hu (h.fits j u hu)
  · obtain ⟨rfl, rfl⟩ | ⟨hj, hu⟩ := hcases j u hu <;> obtain ⟨rfl, rfl⟩ | ⟨hk, hv⟩ :=
      hcases k v hv
    · rfl
    · exact absurd hus (hother k v slot hk hv hvs)
    · exact absurd hvs (hother j u slot hj hu hus)
    · exact h.once j k u v slot hu hv hus hvs

/-- **A step inside a thread**: the store and the locks stay, and the thread
has no more to say than before. -/
theorem pass (h : Exclusive st) (hi : st.threads[i]? = some t)
    (hentering : ∀ e, t'.entering = some e → t.entering = some e)
    (hholds : ∀ lock, t'.holds = some lock → t.holds = some lock)
    (hfree : ∀ b lock, t' = .checked b lock → b.slot ∉ st.store.blocks)
    (hsucceeded : ∀ slot, t'.succeeded = some slot → t.succeeded = some slot) :
    Exclusive (st.set i t') := by
  have ht := h.fits i t hi
  refine h.replace rfl hi
    ⟨fun slot lock he => ?_, fun lock hl => ?_, hfree, fun slot hs => ?_⟩
    (fun _ _ _ _ hu => hu) (fun slot hs => Or.inl (hsucceeded slot hs))
  · exact ht.same slot lock (hentering _ he)
  · exact ht.held lock (hholds lock hl)
  · exact ht.stored slot (hsucceeded slot hs)

/-- A thread that is left with no lock to hold or to ask for. -/
theorem quiet (h : Exclusive st) (hi : st.threads[i]? = some t)
    (hentering : t'.entering = none) (hholds : t'.holds = none)
    (hsucceeded : t'.succeeded = none) : Exclusive (st.set i t') :=
  h.replace rfl hi (.of_none hentering hholds hsucceeded) (fun _ _ _ _ hu => hu)
    fun slot hs => by rw [hsucceeded] at hs; cases hs

/-- A call that fails while it holds its lock. -/
theorem unlocked (h : Exclusive st) {c : SlotCall} {l : ℕ} {err : String}
    (hi : st.threads[i]? = some t) (hholds : t.holds = some l) :
    Exclusive (st.set i (.unlocking c l (.error err))) := by
  refine h.pass hi (fun e he => ?_) (fun lock hl => ?_) (fun b lock hb => ?_)
    (fun slot hs => ?_)
  · cases he
  · cases hl
    exact hholds
  · cases hb
  · cases c <;> cases hs

/-- `getSlotLock` -/
theorem getSlotLock (h : Exclusive st) {c : SlotCall}
    (hi : st.threads[i]? = some (.ready c)) :
    Exclusive { st.set i (.waiting c (st.slotLocks.get c.slot).1) with
      slotLocks := (st.slotLocks.get c.slot).2 } := by
  refine h.replace rfl hi
    ⟨fun slot lock he => Or.inr ?_, fun lock hl => ?_, fun b lock hb => ?_,
    fun slot hs => ?_⟩ (fun j u _ _ hu =>
      ⟨fun slot lock he => ?_, fun lock hl => ?_, hu.free,
    hu.stored⟩) (fun slot hs => ?_)
  · cases c with
    | addBlockPending b =>
      cases he
      exact (LockTable.lookup_get _ _ _).trans (if_pos rfl)
    | finalizeBlock f => cases he
  · cases hl
  · cases hb
  · cases hs
  · exact (hu.same slot lock he).imp_right LockTable.lookup_get_of_lookup
  · show (st.slotLocks.get c.slot).2.holder.lookup lock = some j
    rw [LockTable.holder_get]
    exact hu.held lock hl
  · cases hs

/-- `Lock` -/
theorem lock (h : Exclusive st) {c : SlotCall} {l : ℕ}
    (hi : st.threads[i]? = some (.waiting c l))
    (hfree : st.slotLocks.holder.lookup l = none) :
    Exclusive { st.set i (.locked c l) with
      slotLocks :=
  { st.slotLocks with holder := st.slotLocks.holder.insert l i } } := by
  have ht := h.fits i _ hi
  refine h.replace rfl hi ⟨fun slot lock he => ?_, fun lock hl => ?_, fun b lock hb =>
    ?_,
    fun slot hs => ?_⟩ (fun j u _ _ hu =>
      ⟨hu.same, fun lock hl => ?_, hu.free, hu.stored⟩)
    (fun slot hs => ?_)
  · cases c with
    | addBlockPending b => exact ht.same slot lock he
    | finalizeBlock f => cases he
  · cases hl
    exact AList.lookup_insert _
  · cases hb
  · cases hs
  · -- what another thread holds is not the lock that was free
    have hne : lock ≠ l := by
      rintro rfl
      rw [hu.held lock hl] at hfree
      cases hfree
    exact (AList.lookup_insert_ne hne).trans (hu.held lock hl)
  · cases hs

/-- `Unlock` -/
theorem unlock (h : Exclusive st) {c : SlotCall} {l : ℕ} {r : Except String Unit}
    (hi : st.threads[i]? = some (.unlocking c l r)) :
    Exclusive { st.set i (.returned c r)
      with slotLocks := st.slotLocks.release l } := by
  have ht := h.fits i _ hi
  have hsucceeded : (SlotThread.returned c r).succeeded
      = (SlotThread.unlocking c l r).succeeded := by
    cases c with
    | addBlockPending b => cases r <;> rfl
    | finalizeBlock f => rfl
  refine h.replace rfl hi ⟨fun slot lock he => ?_, fun lock hl => ?_, fun b lock hb =>
    ?_,
    fun slot hs => ?_⟩ (fun j u hj _ hu =>
      ⟨hu.same, fun lock hl => ?_, hu.free, hu.stored⟩)
    (fun slot hs => ?_)
  · cases he
  · cases hl
  · cases hb
  · rw [hsucceeded] at hs
    exact ht.stored slot hs
  · have hne : lock ≠ l := by
      rintro rfl
      have hheld := (hu.held lock hl).symm.trans (ht.held lock rfl)
      exact hj (Option.some.inj hheld)
    exact (AList.lookup_erase_ne hne).trans (hu.held lock hl)
  · rw [hsucceeded] at hs
    exact Or.inl hs

/-- **The write of `FinalizeBlock`** puts no block where there is none. -/
theorem finalize (h : Exclusive st) {f : Finalization} {l : ℕ} {s : Store}
    (hi : st.threads[i]? = some (.locked (.finalizeBlock f) l))
    (hblocks : ∀ slot, slot ∈ s.blocks ↔ slot ∈ st.store.blocks) :
    Exclusive { st.set i (.unlocking (.finalizeBlock f) l (.ok ()))
      with store := s } := by
  have ht := h.fits i _ hi
  refine h.replace rfl hi ⟨fun slot lock he => ?_, fun lock hl => ?_, fun b lock hb =>
    ?_,
    fun slot hs => ?_⟩ (fun j u _ _ hu =>
      ⟨fun slot lock he => ?_, hu.held, fun b lock hb => ?_,
    fun slot hs => ?_⟩) (fun slot hs => ?_)
  · cases he
  · exact ht.held lock hl
  · cases hb
  · cases hs
  · exact (hu.same slot lock he).imp_left (hblocks slot).mpr
  · exact fun hin => hu.free b lock hb ((hblocks b.slot).mp hin)
  · exact (hblocks slot).mpr (hu.stored slot hs)
  · cases hs

/-- **Two threads that have found the same slot free are one**: until it has
a block, both have the lock of the slot, and hold it. -/
theorem eq_of_checked (h : Exclusive st) {j : ℕ} {b b' : BroadcastedBlock} {l l' : ℕ}
    (hi : st.threads[i]? = some (.checked b l))
    (hj : st.threads[j]? = some (.checked b' l')) (hslot : b'.slot = b.slot) :
    j = i := by
  have hfree := (h.fits i _ hi).free b l rfl
  have hl := ((h.fits i _ hi).same b.slot l rfl).resolve_left hfree
  have hl' := ((h.fits j _ hj).same b.slot l' (by rw [← hslot]; rfl)).resolve_left
    hfree
  have hlock : l' = l := Option.some.inj (hl'.symm.trans hl)
  subst hlock
  have hheld := ((h.fits j _ hj).held l' rfl).symm.trans ((h.fits i _ hi).held l' rfl)
  exact Option.some.inj hheld

/-- **The write of `AddBlockPending`.** -/
theorem write [Primitives] (h : Exclusive st) {b : BroadcastedBlock} {l : ℕ}
    (hi : st.threads[i]? = some (.checked b l)) :
    Exclusive { st.set i (.unlocking (.addBlockPending b) l (.ok ())) with
      store := st.store.addBlock b } := by
  have ht := h.fits i _ hi
  have hmem := st.store.mem_blocks_addBlock b
  refine h.replace rfl hi
    ⟨fun slot lock he => ?_, fun lock hl => ?_, fun b' lock hb => ?_,
    fun slot hs => ?_⟩ (fun j u hj hju hu => ⟨fun slot lock he => ?_, hu.held,
    fun b' lock hb => ?_, fun slot hs => ?_⟩) (fun slot hs => Or.inr ?_)
  · cases he
  · exact ht.held lock hl
  · cases hb
  · cases hs
    exact (hmem b.slot).mpr (Or.inl rfl)
  · exact (hu.same slot lock he).imp_left fun hin => (hmem slot).mpr (Or.inr hin)
  · subst hb
    intro hin
    rcases (hmem b'.slot).mp hin with hslot | hin
    · exact hj (h.eq_of_checked hi hju hslot)
    · exact hu.free b' lock rfl hin
  · exact (hmem slot).mpr (Or.inr (hu.stored slot hs))
  · cases hs
    exact ht.free b l rfl

/-- **The cleanup forgets a lock** that nobody who may still write has asked
for. -/
theorem drop (h : Exclusive st) {slot : UInt64} {slots : List UInt64}
    (hi : st.threads[i]? = some (.deleting (slot :: slots)))
    (hunused : slot ∈ st.store.blocks ∨
      ∀ t ∈ st.threads, t.entering.map Prod.fst ≠ some slot) :
    Exclusive { st.set i (.deleting slots)
      with slotLocks := st.slotLocks.drop slot } := by
  refine h.replace rfl hi (.of_none rfl rfl rfl) (fun j u _ hju hu =>
    ⟨fun slot' lock he => ?_, hu.held, hu.free, hu.stored⟩) (fun slot' hs => by
      cases hs)
  by_cases hslot : slot' = slot
  · subst hslot
    refine hunused.imp_right fun hnone => ?_
    refine absurd ?_ (hnone u (List.mem_of_getElem? hju))
    rw [he]
    rfl
  · exact (hu.same slot' lock he).imp_right fun hlook =>
      (LockTable.lookup_drop_ne hslot).trans hlook

/-! ## All turns -/

variable [Primitives]

theorem runThread (h : Exclusive st) (hi : st.threads[i]? = some t)
    (hC : st.Undisturbed (.run i)) (hrun : st.runThread i t = some st') :
    Exclusive st' := by
  cases t with
  | looking f =>
    dsimp only [SlotLocks.runThread] at hrun
    split at hrun
    all_goals
      cases hrun
      exact h.quiet hi rfl rfl rfl
  | ready c =>
    cases hrun
    exact h.getSlotLock hi
  | waiting c l =>
    obtain ⟨locks, hacquire, rfl⟩ := Option.map_eq_some_iff.mp hrun
    obtain ⟨hfree, rfl⟩ := LockTable.acquire_eq_some.mp hacquire
    exact h.lock hi hfree
  | locked c l =>
    cases c with
    | addBlockPending b =>
      dsimp only [SlotLocks.runThread] at hrun
      split at hrun
      · cases hrun
        exact h.unlocked hi rfl
      · next hfree =>
        cases hrun
        refine h.pass hi (fun _ he => he) (fun _ hl => hl) (fun b' l' heq => ?_)
          (fun _ hs => ?_)
        · cases heq
          exact hfree
        · cases hs
    | finalizeBlock f =>
      dsimp only [SlotLocks.runThread] at hrun
      split at hrun
      · cases hrun
        exact h.unlocked hi rfl
      · next s hfin =>
        cases hrun
        obtain ⟨hslot, -, rfl⟩ := Store.finalizeBlock_eq_ok.mp hfin
        exact h.finalize hi (Store.mem_blocks_putFinalized hslot _ _ _)
  | checked b l =>
    cases hrun
    exact h.write hi
  | unlocking c l r =>
    cases hrun
    exact h.unlock hi
  | returned c r => cases hrun
  | cleanup keep =>
    dsimp only [SlotLocks.runThread] at hrun
    split at hrun
    all_goals
      cases hrun
      exact h.quiet hi rfl rfl rfl
  | ranging threshold slots =>
    cases hrun
    exact h.quiet hi rfl rfl rfl
  | deleting slots =>
    cases slots with
    | nil =>
      cases hrun
      exact h.quiet hi rfl rfl rfl
    | cons slot slots =>
      cases hrun
      refine h.drop hi (hC slot ?_)
      rw [hi]
      rfl
  | swept => cases hrun

omit [Primitives] in
theorem failThread (h : Exclusive st) {err : String} (hi : st.threads[i]? = some t)
    (hfail : st.failThread i err t = some st') : Exclusive st' := by
  cases t with
  | looking f =>
    cases hfail
    exact h.quiet hi rfl rfl rfl
  | locked c l =>
    cases c with
    | addBlockPending b =>
      cases hfail
      exact h.unlocked hi rfl
    | finalizeBlock f =>
      cases hfail
      exact h.unlocked hi rfl
  | checked b l =>
    cases hfail
    have hset : Exclusive (st.set i (.unlocking (.addBlockPending b) l
        (.error (AddFailure.write err).message))) := h.unlocked hi rfl
    exact ⟨fun j u hu => ⟨(hset.fits j u hu).same, (hset.fits j u hu).held,
      (hset.fits j u hu).free, (hset.fits j u hu).stored⟩, hset.once⟩
  | _ => cases hfail

theorem step (h : Exclusive st) {turn : SlotTurn} (hC : st.Undisturbed turn)
    (hstep : st.step turn = some st') : Exclusive st' := by
  cases turn with
  | begin t =>
    dsimp only [SlotLocks.step] at hstep
    split at hstep
    · next ht =>
      cases hstep
      exact h.begin ht
    · cases hstep
  | run i =>
    obtain ⟨t, hi, hrun⟩ := Option.bind_eq_some_iff.mp hstep
    exact h.runThread hi hC hrun
  | fail i err =>
    obtain ⟨t, hi, hfail⟩ := Option.bind_eq_some_iff.mp hstep
    exact h.failThread hi hfail
  | visit i slot =>
    dsimp only [SlotLocks.step] at hstep
    split at hstep
    · next threshold slots hi =>
      split at hstep
      · cases hstep
        exact h.quiet hi rfl rfl rfl
      · cases hstep
    · cases hstep

end Exclusive

/-- **One block per slot.** Whatever calls of `AddBlockPending`,
`FinalizeBlock` and `CleanupOldSlotLocks` a block store gets, and however
their steps interleave: as long as the cleanup forgets no lock that matters,
at most one call of `AddBlockPending` returns without an error for each
slot. -/
theorem one_block_per_slot [Primitives] {store : Store} {st : SlotLocks}
    (hrun : Machine.Run step Undisturbed (opened store) st) {i j : ℕ}
    {b b' : BroadcastedBlock}
    (hi : st.threads[i]? = some (.returned (.addBlockPending b) (.ok ())))
    (hj : st.threads[j]? = some (.returned (.addBlockPending b') (.ok ())))
    (hslot : b.slot = b'.slot) : i = j := by
  have hexclusive : Exclusive st := hrun.invariant (Exclusive.opened store)
    (fun _ _ _ h hC hstep => h.step hC hstep)
  exact hexclusive.once i j _ _ b.slot hi hj rfl (congrArg some hslot.symm)

end SlotLocks

/-! ## Examples -/

section Sample

attribute [local instance] Sample.primitives

namespace Sample

/-- All steps of a call of `AddBlockPending` or `FinalizeBlock` that meets
no other. -/
def wholeCall (t : SlotThread) (i : ℕ) : List SlotTurn :=
  .begin t :: List.replicate 5 (.run i)

/-- A call of `AddBlockPending`. -/
def adding (slot now : UInt64) : SlotThread :=
  .ready (.addBlockPending (blockWith 1 slot now []))

/-- Slot 1002 gets a block, which is finalized. -/
def wellAhead : List SlotTurn :=
  wholeCall (adding 1002 0) 0 ++
    wholeCall (.looking ⟨broadcastedBlockToBlock (blockWith 1 1002 0 []), ∅, ∅, ∅⟩) 1

/-- The cleanup of the locks of all but the last thousand slots, which
forgets that of slot 1. -/
def sweep (i : ℕ) : List SlotTurn :=
  [.begin (.cleanup 1000), .run i, .visit i 1, .run i, .run i, .run i]

/-- The `i`th thread is a call of `AddBlockPending` for slot 1 that has
returned nil. -/
def storedAtOne (st : SlotLocks) (i : ℕ) : Bool :=
  match st.threads[i]? with
  | some (.returned (.addBlockPending b) (.ok ())) => b.slot = 1
  | _ => false

theorem exists_of_storedAtOne {st : SlotLocks} {i : ℕ} (h : storedAtOne st i = true) :
    ∃ b, st.threads[i]? = some (.returned (.addBlockPending b) (.ok ())) ∧
      b.slot = 1 := by
  dsimp only [storedAtOne] at h
  split at h
  · next b heq => exact ⟨b, heq, of_decide_eq_true h⟩
  · cases h

end Sample

open Sample

/-- **Two blocks at slot 1.** A call has found the slot free; the cleanup
forgets the lock it holds; another call gets a new lock, and stores its
block; then the first writes too. -/
theorem two_blocks_at_one_slot :
    ∃ (st : SlotLocks) (i j : ℕ) (b b' : BroadcastedBlock),
      Machine.Run SlotLocks.step Machine.Always (SlotLocks.opened .empty) st ∧
      st.threads[i]? = some (.returned (.addBlockPending b) (.ok ())) ∧
      st.threads[j]? = some (.returned (.addBlockPending b') (.ok ())) ∧
      b.slot = b'.slot ∧ i ≠ j := by
  have hexec : (Machine.exec SlotLocks.step Machine.Always (SlotLocks.opened .empty)
      (wellAhead ++ [.begin (adding 1 1), .run 2, .run 2, .run 2] ++ sweep 3 ++
        wholeCall (adding 1 2) 4 ++ [.run 2, .run 2])).any
      (fun st : SlotLocks => storedAtOne st 2 && storedAtOne st 4) = true := by
        decide +kernel
  obtain ⟨st, hrun, htest⟩ := Machine.exists_run_of_exec hexec
  obtain ⟨htwo, hfour⟩ := Bool.and_eq_true_iff.mp htest
  obtain ⟨b, hi, hb⟩ := exists_of_storedAtOne htwo
  obtain ⟨b', hj, hb'⟩ := exists_of_storedAtOne hfour
  exact ⟨st, 2, 4, b, b', hrun, hi, hj, hb.trans hb'.symm, by decide⟩

/-- The cleanup forgets the lock of slot 1 once the slot has its block, and
a call that waited for it meanwhile returns an error: only the first has
returned nil. -/
theorem one_block_at_slot_one :
    ∃ st : SlotLocks, Machine.Run SlotLocks.step SlotLocks.Undisturbed
      (SlotLocks.opened .empty) st ∧ st.slotLocks.locks.lookup 1 = none ∧
        storedAtOne st 2 = true ∧
      ∀ j, storedAtOne st j = true → 2 = j := by
  have hexec : (Machine.exec SlotLocks.step SlotLocks.Undisturbed
    (SlotLocks.opened .empty)
      (wellAhead ++ [.begin (adding 1 1), .run 2, .run 2, .begin (adding 1 2), .run 3]
        ++ List.replicate 3 (.run 2) ++ sweep 4 ++ List.replicate 3 (.run 3))).any
      (fun st : SlotLocks => st.slotLocks.locks.lookup 1 = none && storedAtOne st 2)
          = true := by
    decide +kernel
  obtain ⟨st, hrun, htest⟩ := Machine.exists_run_of_exec hexec
  obtain ⟨hforgotten, htwo⟩ := Bool.and_eq_true_iff.mp htest
  refine ⟨st, hrun, of_decide_eq_true hforgotten, htwo, fun j hj => ?_⟩
  obtain ⟨b, hi, hb⟩ := exists_of_storedAtOne htwo
  obtain ⟨b', hj, hb'⟩ := exists_of_storedAtOne hj
  exact SlotLocks.one_block_per_slot hrun hi hj (hb.trans hb'.symm)

end Sample

end Mmn
