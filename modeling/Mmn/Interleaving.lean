import Mmn.Execution
import Mmn.Network
import Mmn.Runs
import Mmn.Sample

/-!
# The sync path and the vote path, interleaved

Two paths of a node apply blocks, on different threads. The sync path
(`processBlock`) stores a block and then applies it; it never asks whether
the slot is marked as finalized. The vote path (`processVote`) counts a
vote, looks for the slot's block, and under the mutex `applyBlockMu` reads
the mark, reads the block and applies it. The sync path does not take that
mutex, so the vote path may find the block after the sync has stored it and
before the sync applies it, and then both apply it.

What cannot be applied twice is a transaction (`applied_at_most_once`). A
block that the sync path applies has none: it has passed the check of its
transactions, and a block with transactions that pass gets the flag for
entries that do not follow, so that applying it does nothing. The blocks
with transactions come from elsewhere and are applied by the vote path
alone, where the mutex makes the mark reliable.

Here a node is a list of threads, each of which makes one call and is
somewhere in it, over the stores they share. A turn lets one thread do its
next atomic step: storing a block and applying one are such steps, since
each of them runs under a lock of its own.
-/

namespace Mmn

section

variable [Primitives]

/-! ## Threads -/

/-- **Where a call of one of the two paths has got to.** -/
inductive Thread where
  /-- `processBlock`, before its checks. -/
  | processBlock (blk : BroadcastedBlock)
  /-- `processBlock`, after the block is stored. -/
  | applySynced (b : Block)
  /-- `processVote`, before the vote is counted. -/
  | processVote (v : Vote)
  /-- `processVote`, after that; `apply` says that the count asks for the
  block to be applied. -/
  | counted (slot : UInt64) (apply : Bool)
  /-- `applyDataToBlock`, before its mutex. -/
  | waiting (slot : UInt64)
  /-- `applyDataToBlock`, holding the mutex. -/
  | locked (slot : UInt64)
  /-- `applyDataToBlock`, holding the mutex, with the block read. -/
  | applying (slot : UInt64) (b : Block)
  | done

/-- Does the thread hold `applyBlockMu`? -/
def Thread.holdsMutex : Thread → Bool
  | .locked _ => true
  | .applying _ _ => true
  | _ => false

/-- **A node as threads** over shared stores. -/
structure Threads where
  store : Store
  tracker : TransactionTracker
  collector : Collector
  /-- The thread that holds the mutex of `applyDataToBlock`. -/
  applyBlockMu : Option ℕ
  threads : List Thread
  /-- The blocks applied so far, each with the store it was applied to. -/
  applied : List (Store × Block)

namespace Threads

/-- The threads of a node in which no call has begun. -/
def idle (store : Store) (tracker : TransactionTracker) (collector : Collector) :
    Threads :=
  { store := store, tracker := tracker, collector := collector, applyBlockMu := none,
    threads := [], applied := [] }

/-- Move a thread on. -/
def set (st : Threads) (i : ℕ) (t : Thread) : Threads :=
  { st with threads := st.threads.set i t }

/-- Return from `applyDataToBlock`: the mutex is released. -/
def release (st : Threads) (i : ℕ) :
    Threads := { st.set i .done with applyBlockMu := none }

/-- Apply a block to the ledger. What was really applied is noted. -/
def finalizeBlock (isListener : Bool) (st : Threads) (b : Block) : Option Threads :=
  match Ledger.finalizeBlock st.store st.tracker b isListener with
  | none => none
  | some (s, t, .error _) => some { st with store := s, tracker := t }
  | some (s, t, .ok ()) =>
    some { st with
      store := s
      tracker := t
      applied := if b.invalidPoH then st.applied else st.applied ++ [(st.store, b)] }

/-- **The next atomic step of a thread.** A thread that waits for the mutex
stays where it is while another holds it. -/
def runThread (isListener : Bool) (st : Threads) (i : ℕ) : Thread → Option Threads
  | .processBlock blk =>
    if !blk.verifySignature then some (st.set i .done)
    else match verifyBlockTransactions blk with
      | .error _ => some (st.set i .done)
      | .ok () =>
        match st.store.addBlockPending blk.markPoH with
        | .error _ => some (st.set i .done)
        | .ok s => some (({ st with store := s } : Threads).set i
            (.applySynced (broadcastedBlockToBlock blk.markPoH)))
  | .applySynced b => (st.finalizeBlock isListener b).map (fun st => st.set i .done)
  | .processVote v =>
    match st.collector.addVote v with
    | .error _ => some (st.set i .done)
    | .ok (collector, committed, needApply) =>
      some (({ st with collector := collector } : Threads).set i
        (.counted v.slot (committed && needApply)))
  | .counted slot apply =>
    if !st.store.hasCompleteBlock slot then some (st.set i .done)
    else if apply then some (st.set i (.waiting slot))
    else some (st.set i .done)
  | .waiting slot =>
    match st.applyBlockMu with
    | some _ => some st
    | none =>
      some (({ st with applyBlockMu := some i } : Threads).set i (.locked slot))
  | .locked slot =>
    if st.store.isApplied slot then some (st.release i)
    else match st.store.block slot with
      | none => some (st.release i)
      | some b => some (st.set i (.applying slot b))
  | .applying _ b => (st.finalizeBlock isListener b).map (fun st => st.release i)
  | .done => some st

/-- What can happen next. -/
inductive Turn where
  /-- The sync calls `processBlock`. -/
  | processBlock (blk : BroadcastedBlock)
  | processVote (v : Vote)
  | store (blk : BroadcastedBlock)
  | run (i : ℕ)

/-- **One turn.** -/
def step (isListener : Bool) (st : Threads) : Turn → Option Threads
  | .processBlock blk => some { st with threads := st.threads ++ [.processBlock blk] }
  | .processVote v => some { st with threads := st.threads ++ [.processVote v] }
  | .store blk =>
    match st.store.addBlockPending blk with
    | .error _ => some st
    | .ok s => some { st with store := s }
  | .run i =>
    match st.threads[i]? with
    | none => some st
    | some t => st.runThread isListener i t

/-- **The times the transactions of a slot's block were applied.** -/
def applications (st : Threads) (slot : UInt64) : List (Store × Block) :=
  st.applied.filter (fun e =>
    decide (e.2.slot = slot) && !(e.1.txsInBlock e.2).isEmpty)

/-! ## Uninterrupted calls -/

/-- What the threads share and the handlers work on. -/
def shared (st : Threads) : Store × TransactionTracker × Collector :=
  (st.store, st.tracker, st.collector)

section Uninterrupted

variable {isListener : Bool} {st : Threads}

theorem exec_run {t : Thread} (h : st.threads = [t]) (turns : List Turn) :
    Machine.exec (step isListener) Machine.Always st (.run 0 :: turns)
      = (st.runThread isListener 0 t).bind
        (fun st' => Machine.exec (step isListener) Machine.Always st' turns) := by
  have hstep : step isListener st (.run 0) = st.runThread isListener 0 t := by
    unfold step
    rw [h]
    rfl
  show (step isListener st (.run 0)).bind _ = _
  rw [hstep]

/-- Applying a block in a thread does to the stores what it does in a
handler. -/
theorem shared_finalizeBlock (cfg : Config) {n : Node}
    (hst : st.shared = (n.store, n.tracker, n.collector)) (b : Block) (note : Event) :
    (st.finalizeBlock cfg.isListener b).map shared
      = (n.finalizeBlock cfg b note).map
        (fun a => (a.1.store, a.1.tracker, a.1.collector)) := by
  obtain ⟨hstore, htracker, hcollector⟩ : st.store = n.store ∧
    st.tracker = n.tracker ∧
      st.collector = n.collector := by simpa [shared] using hst
  unfold finalizeBlock Node.finalizeBlock
  rw [hstore, htracker]
  cases Ledger.finalizeBlock n.store n.tracker b cfg.isListener with
  | none => rfl
  | some r =>
    obtain ⟨s, t, err | _⟩ := r
    · show some (s, t, st.collector) = some (s, t, n.collector)
      rw [hcollector]
    · show some (s, t, st.collector)
        = some ((if b.invalidPoH then _ else _ : Node).store,
        (if b.invalidPoH then _ else _ : Node).tracker,
        (if b.invalidPoH then _ else _ : Node).collector)
      rw [hcollector]
      split_ifs <;> rfl

/-- What a handler says about an error of `finalizeBlock` does not matter
here. -/
theorem map_retold {α : Type} (a : Answer) (retell : String → String) (f : Node → α) :
    Option.map (fun a => f a.1) (match a with
      | none => none
      | some (n, .error err) => some (n, .error (retell err))
      | some (n, .ok ()) => some (n, (.ok () : Except String Unit)))
      = a.map (fun a => f a.1) := by
  obtain _ | ⟨n, err | _⟩ := a
  · rfl
  · rfl
  · rfl

theorem exec_apply {t : Thread} {b : Block} (finish : Threads → Threads)
    (h : st.threads = [t])
    (hrun : st.runThread isListener 0 t = (st.finalizeBlock isListener b).map finish)
    (hfinish : ∀ st, (finish st).shared = st.shared) :
    (Machine.exec (step isListener) Machine.Always st [.run 0]).map shared
      = (st.finalizeBlock isListener b).map shared := by
  rw [exec_run h, hrun]
  cases st.finalizeBlock isListener b with
  | none => rfl
  | some st' => exact congrArg some (hfinish st')

/-- **A call of `processBlock` that is not interrupted** does what the
handler does. -/
theorem uninterrupted_processBlock (cfg : Config) (n : Node)
    (blk : BroadcastedBlock) :
    (Machine.exec (step cfg.isListener) Machine.Always
      (idle n.store n.tracker n.collector)
        [.processBlock blk, .run 0, .run 0]).map shared
      = (n.processBlock cfg blk).map
        (fun a => (a.1.store, a.1.tracker, a.1.collector)) := by
  show (Machine.exec (step cfg.isListener) Machine.Always
    { idle n.store n.tracker n.collector with threads := [.processBlock blk] }
    [.run 0, .run 0]).map shared = _
  rw [exec_run rfl]
  unfold Node.processBlock Node.addBlockPending
  dsimp only [runThread, idle]
  by_cases hsig : (!blk.verifySignature) = true
  · rw [if_pos hsig, if_pos hsig]
    rfl
  rw [if_neg hsig, if_neg hsig]
  cases verifyBlockTransactions blk with
  | error err => rfl
  | ok _ =>
    dsimp only
    cases n.store.addBlockPending blk.markPoH with
    | error err => rfl
    | ok s =>
      -- the block is stored, and the second turn applies it
      refine (exec_apply (fun st => st.set 0 .done) rfl rfl (fun _ => rfl)).trans ?_
      refine (shared_finalizeBlock cfg
        (n := ({ n with store := s } : Node).log (.stored n.store blk.markPoH)) rfl _
        (.synced s (broadcastedBlockToBlock blk.markPoH))).trans ?_
      exact (map_retold _ _ (fun n => (n.store, n.tracker, n.collector))).symm

/-- **A call of `processVote` that is not interrupted** does what the
handler does. -/
theorem uninterrupted_processVote (cfg : Config) (n : Node) (v : Vote) :
    (Machine.exec (step cfg.isListener) Machine.Always
      (idle n.store n.tracker n.collector)
        [.processVote v, .run 0, .run 0, .run 0, .run 0, .run 0]).map shared
      = (n.processVote cfg v).map
        (fun a => (a.1.store, a.1.tracker, a.1.collector)) := by
  show (Machine.exec (step cfg.isListener) Machine.Always
    { idle n.store n.tracker n.collector with threads := [.processVote v] }
    [.run 0, .run 0, .run 0, .run 0, .run 0]).map shared = _
  rw [exec_run rfl]
  unfold Node.processVote
  dsimp only [runThread, idle]
  cases n.collector.addVote v with
  | error err => rfl
  | ok r =>
    obtain ⟨collector, committed, needApply⟩ := r
    dsimp only [Option.bind_some]
    rw [exec_run rfl]
    dsimp only [runThread, set]
    by_cases hhas : (!n.store.hasCompleteBlock v.slot) = true
    · rw [if_pos hhas, if_pos hhas]
      rfl
    rw [if_neg hhas, if_neg hhas]
    by_cases hboth : (committed && needApply) = true
    · rw [if_pos hboth, if_pos hboth]
      show (Machine.exec (step cfg.isListener) Machine.Always
        ⟨n.store, n.tracker, collector, some 0, [.locked v.slot], []⟩
          [.run 0, .run 0]).map shared = _
      rw [exec_run rfl]
      unfold Node.applyDataToBlock
      dsimp only [runThread]
      by_cases happlied : n.store.isApplied v.slot = true
      · rw [if_pos happlied, if_pos happlied]
        rfl
      rw [if_neg happlied, if_neg happlied]
      cases n.store.block v.slot with
      | none => rfl
      | some b =>
        -- the block is read, and the last turn applies it
        refine (exec_apply (fun st => st.release 0) rfl rfl (fun _ => rfl)).trans ?_
        refine (shared_finalizeBlock cfg (n := { n with
          collector := collector, mempool := n.mempool.setCurrentSlot v.slot }) rfl b
          (.committed n.store v.slot b (collector.votesForSlot v.slot))).trans ?_
        exact (map_retold _ _ (fun n => (n.store, n.tracker, n.collector))).symm
    · rw [if_neg hboth, if_neg hboth]
      rfl

end Uninterrupted

/-- Applying a block changes nothing but the tracker, or applies it and
notes it. -/
theorem finalizeBlock_cases {isListener : Bool} {st st' : Threads} {b : Block}
    (h : st.finalizeBlock isListener b = some st') :
    ∃ t, st' = { st with tracker := t } ∨
      (b.invalidPoH = false ∧
        st' = { st with
          store := st.store.applyBlock b
          tracker := t
          applied := st.applied ++ [(st.store, b)] }) := by
  unfold finalizeBlock at h
  split at h
  · cases h
  · next s t err hfin =>
    cases h
    obtain ⟨rfl, -⟩ | ⟨-, -, -, hr⟩ := Mmn.finalizeBlock_cases hfin
    · exact ⟨t, Or.inl rfl⟩
    · cases hr
  · next s t hfin =>
    cases h
    obtain ⟨rfl, hpoh | hr⟩ | ⟨rfl, hpoh, -, -⟩ := Mmn.finalizeBlock_cases hfin
    · exact ⟨t, Or.inl (by rw [if_pos hpoh])⟩
    · exact absurd rfl hr
    · refine ⟨t, Or.inr ⟨hpoh, ?_⟩⟩
      rw [hpoh]
      rfl

theorem applications_append (st : Threads) (s s' : Store) (t : TransactionTracker)
    (b : Block) (slot : UInt64) :
    applications { st with store := s', tracker := t, applied := st.applied
      ++ [(s, b)] } slot
      = if b.slot = slot ∧ s.txsInBlock b ≠ [] then st.applications slot ++ [(s, b)]
        else st.applications slot := by
  unfold applications
  rw [List.filter_append]
  by_cases hnew : b.slot = slot ∧ s.txsInBlock b ≠ []
  · rw [if_pos hnew]
    simp [hnew.1, hnew.2]
  · rw [if_neg hnew]
    simpa using hnew

/-! ## At most once -/

/-- **The invariant of all interleavings.** -/
structure AtMostOnce (st : Threads) : Prop where
  /-- A thread inside `applyDataToBlock` holds its mutex. -/
  mutex : ∀ (i : ℕ) t, st.threads[i]? = some t → t.holdsMutex = true →
    st.applyBlockMu = some i
  synced : ∀ (i : ℕ) b, st.threads[i]? = some (Thread.applySynced b) → b.Idle
  voted : ∀ (i : ℕ) slot b, st.threads[i]? = some (Thread.applying slot b) →
    b.slot = slot ∧ st.applications slot = []
  marked : ∀ slot, st.applications slot ≠ [] → slot ∈ st.store.finalized
  once : ∀ slot, (st.applications slot).length ≤ 1

namespace AtMostOnce

variable {st : Threads} {i : ℕ} {isListener : Bool}

theorem idle (store : Store) (tracker : TransactionTracker) (collector : Collector) :
    AtMostOnce (Threads.idle store tracker collector) where
  mutex i t ht := by cases ht
  synced i b ht := by cases ht
  voted i slot b ht := by cases ht
  marked slot hne := absurd rfl hne
  once slot := Nat.zero_le 1

theorem getElem?_set {t t' : Thread} {j : ℕ}
    (h : (st.set i t').threads[j]? = some t) :
    (j = i ∧ t = t') ∨ (j ≠ i ∧ st.threads[j]? = some t) := by
  have hset : (st.threads.set i t')[j]? = some t := h
  rw [List.getElem?_set] at hset
  split at hset
  · next hij =>
    split at hset
    · exact Or.inl ⟨hij.symm, (Option.some.inj hset).symm⟩
    · cases hset
  · next hij => exact Or.inr ⟨Ne.symm hij, hset⟩

/-- A thread moves on, and nothing else changes. -/
theorem set (h : AtMostOnce st) {t' : Thread}
    (hmutex : t'.holdsMutex = true → st.applyBlockMu = some i)
    (hsynced : ∀ b, t' = .applySynced b → b.Idle)
    (hvoted : ∀ slot b, t' = .applying slot b → b.slot = slot ∧
      st.applications slot = []) :
    AtMostOnce (st.set i t') where
  mutex j t ht hlocked := by
    obtain ⟨rfl, rfl⟩ | ⟨-, ht⟩ := getElem?_set ht
    · exact hmutex hlocked
    · exact h.mutex j t ht hlocked
  synced j b ht := by
    obtain ⟨-, hb⟩ | ⟨-, ht⟩ := getElem?_set ht
    · exact hsynced b hb.symm
    · exact h.synced j b ht
  voted j slot b ht := by
    obtain ⟨-, hb⟩ | ⟨-, ht⟩ := getElem?_set ht
    · exact hvoted slot b hb.symm
    · exact h.voted j slot b ht
  marked := h.marked
  once := h.once

/-- A thread moves on to a place of which nothing is asked. -/
theorem pass (h : AtMostOnce st) {t' : Thread} (hmutex : t'.holdsMutex = false)
    (hsynced : ∀ b, t' ≠ .applySynced b) : AtMostOnce (st.set i t') := by
  refine h.set (fun hlocked => ?_) (fun b hb => absurd hb (hsynced b))
    (fun slot b hb => ?_)
  · rw [hmutex] at hlocked
    cases hlocked
  · rw [hb] at hmutex
    cases hmutex

theorem done (h : AtMostOnce st) : AtMostOnce (st.set i .done) :=
  h.pass rfl (fun _ => nofun)

theorem begin (h : AtMostOnce st) {t : Thread} (hmutex : t.holdsMutex = false)
    (hsynced : ∀ b, t ≠ .applySynced b) :
    AtMostOnce { st with threads := st.threads ++ [t] } := by
  have hold : ∀ (j : ℕ) t', (st.threads ++ [t])[j]? = some t' → t' = t ∨
      st.threads[j]? = some t' := by
    intro j t' ht'
    by_cases hj : j < st.threads.length
    · rw [List.getElem?_append_left hj] at ht'
      exact Or.inr ht'
    · rw [List.getElem?_append_right (Nat.le_of_not_lt hj)] at ht'
      exact Or.inl (List.mem_singleton.mp (List.mem_of_getElem? ht'))
  refine ⟨fun j t' ht' hlocked => ?_, fun j b ht' => ?_,
    fun j slot b ht' => ?_, h.marked, h.once⟩
  · obtain rfl | ht' := hold j t' ht'
    · rw [hmutex] at hlocked
      cases hlocked
    · exact h.mutex j t' ht' hlocked
  · obtain heq | ht' := hold j _ ht'
    · exact absurd heq.symm (hsynced b)
    · exact h.synced j b ht'
  · obtain heq | ht' := hold j _ ht'
    · rw [← heq] at hmutex
      cases hmutex
    · exact h.voted j slot b ht'

theorem release (h : AtMostOnce st) (hheld : st.applyBlockMu = some i) :
    AtMostOnce (st.release i) where
  mutex j t ht hlocked := by
    obtain ⟨-, rfl⟩ | ⟨hji, ht⟩ := getElem?_set ht
    · cases hlocked
    · have hj := h.mutex j t ht hlocked
      rw [hheld] at hj
      exact absurd (Option.some.inj hj).symm hji
  synced := h.done.synced
  voted := h.done.voted
  marked := h.marked
  once := h.once

/-- The store changes, and no mark is lost. -/
theorem store (h : AtMostOnce st) {s : Store}
    (hs : st.store.finalized ⊆ s.finalized) :
    AtMostOnce { st with store := s } :=
  ⟨h.mutex, h.synced, h.voted, fun slot hne => hs (h.marked slot hne), h.once⟩

/-- The sync applies a block: it has no transactions. -/
theorem finalize_synced {st' : Threads} {b : Block} (h : AtMostOnce st) (hb : b.Idle)
    (hfin : st.finalizeBlock isListener b = some st') : AtMostOnce st' := by
  obtain ⟨t, rfl | ⟨hpoh, rfl⟩⟩ := finalizeBlock_cases hfin
  · exact ⟨h.mutex, h.synced, h.voted, h.marked, h.once⟩
  · have hnone : b.txHashes = [] := by
      obtain hflag | hnone := hb
      · rw [hpoh] at hflag
        cases hflag
      · exact hnone
    have hsame : ∀ slot, applications { st with
        store := st.store.applyBlock b
        tracker := t
        applied := st.applied ++ [(st.store, b)] } slot = st.applications slot := by
      intro slot
      rw [applications_append, if_neg]
      exact fun hnew => hnew.2 (Store.txsInBlock_eq_nil hnone st.store)
    refine ⟨h.mutex, h.synced, fun i slot b' ht => ?_, fun slot hne => ?_, fun slot =>
      ?_⟩
    · rw [hsame]
      exact h.voted i slot b' ht
    · rw [hsame] at hne
      exact Finset.mem_insert_of_mem (h.marked slot hne)
    · rw [hsame]
      exact h.once slot

/-- The vote path applies a block: no other thread is about to, and it is
the first time that the block's transactions are applied. -/
theorem finalize_voted {st' : Threads} {slot : UInt64} {b : Block} (h : AtMostOnce st)
    (ht : st.threads[i]? = some (Thread.applying slot b))
    (hfin : st.finalizeBlock isListener b = some st') :
    AtMostOnce (st'.release i) := by
  have hheld : st.applyBlockMu = some i := h.mutex i _ ht rfl
  obtain ⟨rfl, hnew⟩ := h.voted i slot b ht
  obtain ⟨t, rfl | ⟨-, rfl⟩⟩ := finalizeBlock_cases hfin
  · exact AtMostOnce.release ⟨h.mutex, h.synced, h.voted, h.marked, h.once⟩ hheld
  · refine ⟨(h.release hheld).mutex, (h.release hheld).synced, fun j slot' b' ht' =>
      ?_, fun slot' hne => ?_, fun slot' => ?_⟩
    · -- a second thread in the same place would hold the mutex too
      obtain ⟨-, hdone⟩ | ⟨hji, ht'⟩ := getElem?_set ht'
      · cases hdone
      · have hj := h.mutex j _ ht' rfl
        rw [hheld] at hj
        exact absurd (Option.some.inj hj).symm hji
    · have hne' : applications { st with
          store := st.store.applyBlock b
          tracker := t
          applied := st.applied ++ [(st.store, b)] } slot' ≠ [] := hne
      rw [applications_append] at hne'
      show slot' ∈ insert b.slot st.store.finalized
      split at hne'
      · next hslot =>
        rw [hslot.1]
        exact Finset.mem_insert_self _ _
      · exact Finset.mem_insert_of_mem (h.marked slot' hne')
    · show (applications { st with
          store := st.store.applyBlock b
          tracker := t
          applied := st.applied ++ [(st.store, b)] } slot').length ≤ 1
      rw [applications_append]
      split
      · next hslot =>
        rw [← hslot.1, hnew]
        exact le_rfl
      · exact h.once slot'

/-- The sync stores a block that passes its checks; what it applies next is
idle. -/
theorem run_processBlock {st' : Threads} {blk : BroadcastedBlock} (h : AtMostOnce st)
    (hstep : st.runThread isListener i (.processBlock blk) = some st') :
    AtMostOnce st' := by
  dsimp only [Threads.runThread] at hstep
  split at hstep
  · cases hstep
    exact h.done
  split at hstep
  · cases hstep
    exact h.done
  next htxs =>
  split at hstep
  · cases hstep
    exact h.done
  next s hadd =>
  cases hstep
  obtain ⟨-, rfl⟩ := Store.addBlockPending_eq_ok.mp hadd
  have hstore := h.store (s := st.store.addBlock blk.markPoH)
    (by rw [Store.finalized_addBlock])
  refine hstore.set nofun (fun b hb => ?_) (fun _ _ => nofun)
  cases hb
  exact idle_of_verifyBlockTransactions htxs

theorem run_processVote {st' : Threads} {v : Vote} (h : AtMostOnce st)
    (hstep : st.runThread isListener i (.processVote v) = some st') :
    AtMostOnce st' := by
  dsimp only [Threads.runThread] at hstep
  split at hstep
  · cases hstep
    exact h.done
  next collector committed needApply _ =>
  cases hstep
  have hcollector : AtMostOnce { st with collector := collector } :=
    ⟨h.mutex, h.synced, h.voted, h.marked, h.once⟩
  exact hcollector.pass rfl (fun _ => nofun)

/-- A counted vote goes on to the mutex, or is done. -/
theorem run_counted {st' : Threads} {slot : UInt64} {apply : Bool} (h : AtMostOnce st)
    (hstep : st.runThread isListener i (.counted slot apply) = some st') :
    AtMostOnce st' := by
  dsimp only [Threads.runThread] at hstep
  split at hstep
  · cases hstep
    exact h.done
  split at hstep
  · cases hstep
    exact h.pass rfl (fun _ => nofun)
  · cases hstep
    exact h.done

/-- The mutex is taken when nobody holds it, and so nobody is inside. -/
theorem run_waiting {st' : Threads} {slot : UInt64} (h : AtMostOnce st)
    (hstep : st.runThread isListener i (.waiting slot) = some st') :
    AtMostOnce st' := by
  dsimp only [Threads.runThread] at hstep
  split at hstep
  · cases hstep
    exact h
  next hfree =>
  cases hstep
  have hnobody : AtMostOnce { st with applyBlockMu := some i } := by
    refine ⟨fun j t' ht' hlocked => ?_, h.synced, h.voted, h.marked, h.once⟩
    rw [h.mutex j t' ht' hlocked] at hfree
    cases hfree
  exact hnobody.set (fun _ => rfl) (fun _ => nofun) (fun _ _ => nofun)

/-- The mark is read under the mutex: an earlier application would show. -/
theorem run_locked {st' : Threads} {slot : UInt64} (h : AtMostOnce st)
    (ht : st.threads[i]? = some (.locked slot))
    (hstep : st.runThread isListener i (.locked slot) = some st') :
    AtMostOnce st' := by
  have hheld : st.applyBlockMu = some i := h.mutex i _ ht rfl
  dsimp only [Threads.runThread] at hstep
  split at hstep
  · cases hstep
    exact h.release hheld
  next happlied =>
  split at hstep
  · cases hstep
    exact h.release hheld
  next b hb =>
  cases hstep
  refine h.set (fun _ => hheld) (fun _ => nofun) (fun slot' b' hb' => ?_)
  cases hb'
  refine ⟨Store.slot_of_block hb, ?_⟩
  by_contra hne
  exact happlied (decide_eq_true (h.marked slot hne))

/-- **Every step of a thread keeps the invariant.** -/
theorem runThread {st' : Threads} {t : Thread} (h : AtMostOnce st)
    (ht : st.threads[i]? = some t) (hstep : st.runThread isListener i t = some st') :
    AtMostOnce st' := by
  cases t with
  | processBlock blk => exact h.run_processBlock hstep
  | applySynced b =>
    obtain ⟨st₁, hfin, rfl⟩ := Option.map_eq_some_iff.mp hstep
    exact (h.finalize_synced (h.synced i b ht) hfin).done
  | processVote v => exact h.run_processVote hstep
  | counted slot apply => exact h.run_counted hstep
  | waiting slot => exact h.run_waiting hstep
  | locked slot => exact h.run_locked ht hstep
  | applying slot b =>
    obtain ⟨st₁, hfin, rfl⟩ := Option.map_eq_some_iff.mp hstep
    exact h.finalize_voted ht hfin
  | done =>
    cases hstep
    exact h

theorem step {st' : Threads} {turn : Turn} (h : AtMostOnce st)
    (hstep : st.step isListener turn = some st') : AtMostOnce st' := by
  cases turn with
  | processBlock blk =>
    cases hstep
    exact h.begin rfl (fun _ => nofun)
  | processVote v =>
    cases hstep
    exact h.begin rfl (fun _ => nofun)
  | store blk =>
    dsimp only [Threads.step] at hstep
    split at hstep
    · cases hstep
      exact h
    · next s hadd =>
      cases hstep
      obtain ⟨-, rfl⟩ := Store.addBlockPending_eq_ok.mp hadd
      exact h.store (by rw [Store.finalized_addBlock])
  | run i =>
    dsimp only [Threads.step] at hstep
    split at hstep
    · cases hstep
      exact h
    · next t ht => exact h.runThread ht hstep

end AtMostOnce

/-- **Apply at most once.** From any stores, in every interleaving of calls
of the two paths and of other handlers that store blocks, the transactions
of the block of a slot are applied at most once. -/
theorem applied_at_most_once (isListener : Bool) (store : Store)
    (tracker : TransactionTracker) (collector : Collector) (st : Threads)
    (hrun : Machine.Run (step isListener) Machine.Always
      (idle store tracker collector) st)
    (slot : UInt64) : (st.applications slot).length ≤ 1 := by
  have hinv := hrun.invariant (I := AtMostOnce) (.idle store tracker collector)
    (fun _ _ _ h _ hstep => h.step hstep)
  exact hinv.once slot

end Threads

end

section Sample

attribute [local instance] Sample.primitives

/-- A block with a transfer. -/
def Sample.paidBlock :
    BroadcastedBlock := Sample.blockWith 1 1 0 [Sample.transfer 2 1 50 1 0]

/-- A block without transactions. -/
def Sample.freeBlock : BroadcastedBlock := Sample.blockWith 1 2 0 []

/-- **Both paths on one node.** Two votes race for a block with a transfer,
and it is applied once. The sync and a vote race for a block without
transactions, and both apply it. -/
theorem applied_at_most_once_race :
    ∃ store st, Machine.Run (Threads.step false) Machine.Always
        (Threads.idle store TransactionTracker.new (Collector.new 1)) st ∧
      st.applied.map (fun e => e.2.slot) = [1, 2, 2] ∧
      (st.applications 1).length = 1 ∧ ∀ slot, (st.applications slot).length ≤ 1 := by
  let store : Store :=
    { Store.empty with accounts :=
      (∅ : AList Account).insert (Sample.keyID 2) ⟨100, 0⟩ }
  have hexec : (Machine.exec (Threads.step false) Machine.Always
      (Threads.idle store TransactionTracker.new (Collector.new 1))
      [.store Sample.paidBlock,
        .processVote (Sample.voteOf 1 1 Sample.paidBlock.hash),
        .processVote (Sample.voteOf 2 1 Sample.paidBlock.hash),
        .processBlock Sample.freeBlock,
        .processVote (Sample.voteOf 1 2 Sample.freeBlock.hash),
        .run 0, .run 1, .run 0, .run 1, .run 0, .run 1, .run 0, .run 0,
        .run 1, .run 1, .run 2, .run 3, .run 3, .run 3, .run 3, .run 2, .run 3]).any
      (fun st => st.applied.map (fun e => e.2.slot) == [1, 2, 2]
        && (st.applications 1).length == 1) = true := by
    decide +kernel
  obtain ⟨st, hrun, htest⟩ := Machine.exists_run_of_exec hexec
  rw [Bool.and_eq_true, beq_iff_eq, beq_iff_eq] at htest
  exact ⟨store, st, hrun, htest.1, htest.2, fun slot =>
    Threads.applied_at_most_once false store _ _ st hrun slot⟩

end Sample

end Mmn
