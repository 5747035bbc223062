import Mmn.Runs
import Mmn.Sample

/-!
# The latest stored slot

`GetLatestStoreSlot` is meant to be the largest slot that has a block.
`AddBlockPending` keeps the number in memory and on record, and raises both
with the slot it stores – but the one in memory before anything is written.
If a transaction then cannot be encoded, or the write fails, the number in
memory is that of a block that is not there, and stays.
`NewGenericBlockStore` reads the record back, but only after another one: a
database in which no slot above 0 was ever finalized has no record of the
latest finalized slot, and the function returns before it comes to the
latest stored one.

Nothing else goes wrong (`highest_exact_iff`). The number is exact after
every call of a sequence exactly if no call that fails so late is for a slot
above it, and no restart finds a block above slot 0 and no finalized slot on
record.
-/

namespace Mmn

section

variable [Primitives]

/-! ## Calls that fail -/

/-- How a library makes `AddBlockPending` fail, with its error. -/
inductive AddFailure where
  | existence (err : String)
  | marshalBlock (err : String)
  /-- The encoding of a transaction, by its index. -/
  | marshalTx (i : ℕ) (err : String)
  /-- The encoding of a transaction's meta record. -/
  | marshalTxMeta (i : ℕ) (err : String)
  /-- The write of the batch, of which nothing is then written. -/
  | write (err : String)

namespace AddFailure

/-- The error the caller sees. -/
def message : AddFailure → String
  | existence err => "failed to check block existence: " ++ err
  | marshalBlock err => "failed to marshal block: " ++ err
  | marshalTx _ err => "failed to marshal transaction: " ++ err
  | marshalTxMeta _ err => "failed to marshal transaction meta: " ++ err
  | write err => "failed to batch write to database: " ++ err

/-- Does the call get as far as to fail like this? Only transactions that
are there are encoded. -/
def occurs (b : BroadcastedBlock) : AddFailure → Bool
  | marshalTx i _ => i < b.blockTxs.length
  | marshalTxMeta i _ => i < b.blockTxs.length
  | _ => true

/-- Does the call fail after it has raised the number in memory? -/
def late : AddFailure → Bool
  | existence _ => false
  | marshalBlock _ => false
  | _ => true

end AddFailure

namespace Store

/-- The number in memory raised to a slot. -/
def raiseLatestStore (s : Store) (slot : UInt64) : Store :=
  { s with latestStore := if slot > s.latestStore then slot else s.latestStore }

/-- **Store a block as pending**, where the libraries may fail. -/
def addBlockPendingOr (s : Store) (b : Option BroadcastedBlock)
    (failure : Option AddFailure) :
    Store × Except String Unit :=
  match b with
  | none => (s, .error "block cannot be nil")
  | some b =>
    match failure.filter (AddFailure.occurs b) with
    | some (.existence err) => (s, .error (AddFailure.existence err).message)
    | failure =>
      if b.slot ∈ s.blocks then (s, .error s!"block at slot {b.slot} already exists")
      else match failure with
        | none => (s.addBlock b, .ok ())
        | some f =>
          (if f.late then s.raiseLatestStore b.slot else s, .error f.message)

/-- Where nothing fails, this is `addBlockPending`. -/
theorem addBlockPendingOr_none (s : Store) (b : BroadcastedBlock) :
    s.addBlockPendingOr (some b) none
      = match s.addBlockPending b with
        | .error err => (s, .error err)
        | .ok s => (s, .ok ()) := by
  unfold addBlockPendingOr addBlockPending
  dsimp only [Option.filter_none]
  split <;> rfl

/-- A call that changes or opens the block store. -/
inductive Call where
  /-- `AddBlockPending` -/
  | addBlockPending (b : Option BroadcastedBlock) (failure : Option AddFailure)
  /-- `FinalizeBlock` -/
  | finalizeBlock (blk : Block) (txMetas : AList TransactionMeta)
    (addrAccount : AList Account) (latest : AList (fun _ : String => String))
  /-- `NewGenericBlockStore` on the same database, in a new process. -/
  | restart

/-- **The store after a call**, and whether the call failed. -/
def call (s : Store) : Call → Store × Except String Unit
  | .addBlockPending b failure => s.addBlockPendingOr b failure
  | .finalizeBlock blk txMetas addrAccount latest =>
    match s.finalizeBlock blk txMetas addrAccount latest with
    | .error err => (s, .error err)
    | .ok s => (s, .ok ())
  | .restart => (s.reopen, .ok ())

/-- The store after a sequence of calls. -/
def callAll (s : Store) (calls : List Call) : Store :=
  calls.foldl (fun s c => (s.call c).1) s

/-! ## When the number is exact -/

/-- **The latest stored slot is exact**: the largest that has a block, 0 if
none has. -/
def HighestExact (s : Store) : Prop :=
  (∀ slot ∈ s.blocks, slot ≤ s.latestStore) ∧
    (s.latestStore ∈ s.blocks ∨ s.latestStore = 0)

/-- **The call does not spoil the number.** A call that fails late is for a
slot that is not above it; a restart finds a finalized slot on record, or no
block above slot 0. -/
def Harmless (s : Store) : Call → Prop
  | .addBlockPending none _ => True
  | .addBlockPending (some b) failure =>
    b.slot ∉ s.blocks → (failure.filter (AddFailure.occurs b)).any AddFailure.late →
      b.slot ≤ s.latestStore
  | .finalizeBlock _ _ _ _ => True
  | .restart => s.latestFinalizedMeta = none → ∀ slot ∈ s.blocks, slot = 0

/-- The number is exact, and the record says the same. -/
structure Tracked (s : Store) : Prop where
  /-- The number in memory. -/
  exact : s.HighestExact
  record : s.latestStoreMeta.getD 0 = s.latestStore

/-- **What `AddBlockPending` can do**: nothing, fail late at a free slot, or
store the block. -/
theorem addBlockPendingOr_cases (s : Store) (b : Option BroadcastedBlock)
    (failure : Option AddFailure) :
    (∃ err, s.addBlockPendingOr b failure = (s, .error err) ∧
        s.Harmless (.addBlockPending b failure)) ∨
      ∃ blk, b = some blk ∧ blk.slot ∉ s.blocks ∧
        ((failure.filter (AddFailure.occurs blk) = none ∧
            s.addBlockPendingOr b failure = (s.addBlock blk, .ok ())) ∨
          ∃ f, failure.filter (AddFailure.occurs blk) = some f ∧ f.late = true ∧
            s.addBlockPendingOr b failure
              = (s.raiseLatestStore blk.slot, .error f.message)) := by
  unfold addBlockPendingOr Harmless
  cases b with
  | none => exact Or.inl ⟨_, rfl, trivial⟩
  | some blk =>
    dsimp only
    cases hf : failure.filter (AddFailure.occurs blk) with
    | none =>
      dsimp only
      by_cases hslot : blk.slot ∈ s.blocks
      · rw [if_pos hslot]
        exact Or.inl ⟨_, rfl, fun hfree => absurd hslot hfree⟩
      · rw [if_neg hslot]
        exact Or.inr ⟨blk, rfl, hslot, Or.inl ⟨hf, rfl⟩⟩
    | some f =>
      by_cases hslot : blk.slot ∈ s.blocks
      · refine Or.inl ?_
        cases f <;> simp [hslot]
      · by_cases hlate : f.late = true
        · refine Or.inr ⟨blk, rfl, hslot, Or.inr ⟨f, hf, hlate, ?_⟩⟩
          cases f <;> simp_all [AddFailure.late]
        · refine Or.inl ?_
          cases f <;> simp_all [AddFailure.late]

theorem latestStore_addBlock (s : Store) (b : BroadcastedBlock) :
    (s.addBlock b).latestStore = (s.raiseLatestStore b.slot).latestStore := by
  rw [addBlock, foldl_putTx_frame]
  rfl

theorem latestStoreMeta_addBlock (s : Store) (b : BroadcastedBlock) :
    (s.addBlock b).latestStoreMeta
      = if b.slot > s.latestStore then some b.slot else s.latestStoreMeta := by
  rw [addBlock, foldl_putTx_frame]

/-! ## One call -/

omit [Primitives] in
/-- What is exact depends on which slots have blocks, and on the number. -/
theorem HighestExact.congr {s s' : Store} (h : s.HighestExact)
    (hblocks : ∀ slot, slot ∈ s'.blocks ↔ slot ∈ s.blocks)
    (hlatest : s'.latestStore = s.latestStore) : s'.HighestExact := by
  obtain ⟨hle, hmem⟩ := h
  refine ⟨fun slot hslot => ?_, ?_⟩
  · rw [hlatest]
    exact hle slot ((hblocks slot).mp hslot)
  · rw [hlatest, hblocks]
    exact hmem

namespace Tracked

omit [Primitives] in
theorem empty : Store.empty.Tracked :=
  ⟨⟨fun _ hslot => absurd hslot (AList.notMem_empty _), Or.inr rfl⟩, rfl⟩

/-- Storing a block raises both numbers, or neither. -/
theorem addBlock {s : Store} (h : s.Tracked) (b : BroadcastedBlock) :
    (s.addBlock b).Tracked := by
  have hmem := s.mem_blocks_addBlock b
  have hlatest := s.latestStore_addBlock b
  have hmeta := s.latestStoreMeta_addBlock b
  unfold raiseLatestStore at hlatest
  by_cases hraise : b.slot > s.latestStore
  · rw [if_pos hraise] at hlatest hmeta
    refine ⟨⟨fun slot hslot => ?_, ?_⟩, ?_⟩
    · rw [hlatest]
      rcases (hmem slot).mp hslot with rfl | hold
      · exact UInt64.le_refl _
      · exact UInt64.le_of_lt (UInt64.lt_of_le_of_lt (h.exact.1 slot hold) hraise)
    · rw [hlatest]
      exact Or.inl ((hmem _).mpr (Or.inl rfl))
    · rw [hmeta, hlatest]
      rfl
  · rw [if_neg hraise] at hlatest hmeta
    refine ⟨⟨fun slot hslot => ?_, ?_⟩, ?_⟩
    · rw [hlatest]
      rcases (hmem slot).mp hslot with rfl | hold
      · exact UInt64.not_lt.mp hraise
      · exact h.exact.1 slot hold
    · rw [hlatest]
      exact h.exact.2.imp_left (fun hin => (hmem _).mpr (Or.inr hin))
    · rw [hmeta, hlatest]
      exact h.record

omit [Primitives] in
theorem putFinalized {s : Store} (h : s.Tracked) {blk : Block}
    (hslot : blk.slot ∈ s.blocks) (txMetas : AList TransactionMeta)
    (addrAccount : AList Account) (latest : AList (fun _ : String => String)) :
    (s.putFinalized blk txMetas addrAccount latest).Tracked :=
  ⟨h.exact.congr (mem_blocks_putFinalized hslot txMetas addrAccount latest)
    rfl, h.record⟩

omit [Primitives] in
/-- A number in memory raised to a free slot. -/
theorem raiseLatestStore {s : Store} (h : s.Tracked) {slot : UInt64}
    (hfree : slot ∉ s.blocks) :
    (slot ≤ s.latestStore ∧ (s.raiseLatestStore slot).Tracked) ∨
      (¬slot ≤ s.latestStore ∧ ¬(s.raiseLatestStore slot).HighestExact) := by
  by_cases hlt : s.latestStore < slot
  · refine Or.inr ⟨UInt64.not_le.mpr hlt, ?_⟩
    have hlatest : (s.raiseLatestStore slot).latestStore = slot := if_pos hlt
    rintro ⟨-, hmem⟩
    rw [hlatest] at hmem
    rcases hmem with hin | rfl
    · exact hfree hin
    · exact UInt64.not_lt_zero hlt
  · have hlatest : (s.raiseLatestStore slot).latestStore = s.latestStore := if_neg hlt
    exact Or.inl ⟨UInt64.not_lt.mp hlt, h.exact.congr (fun _ => Iff.rfl) hlatest,
      h.record.trans hlatest.symm⟩

omit [Primitives] in
/-- **A restart reads the record back, if a finalized slot is on record.**
Otherwise the number is 0. -/
theorem reopen {s : Store} (h : s.Tracked) :
    (s.Harmless .restart ∧ s.reopen.Tracked) ∨
      (¬s.Harmless .restart ∧ ¬s.reopen.HighestExact) := by
  unfold Harmless Store.reopen
  cases hf : s.latestFinalizedMeta with
  | some f =>
    refine Or.inl ⟨fun hnone => ?_, h.exact.congr (fun _ => Iff.rfl) h.record, rfl⟩
    cases hnone
  | none =>
    by_cases hzero : ∀ slot ∈ s.blocks, slot = 0
    · have hlatest : s.latestStore = 0 := h.exact.2.elim (hzero _) id
      refine Or.inl ⟨fun _ => hzero, ⟨fun slot hslot => ?_, Or.inr rfl⟩, ?_⟩
      · rw [hzero slot hslot]
        exact UInt64.le_refl 0
      · exact h.record.trans hlatest
    · refine Or.inr ⟨fun hall => hzero (hall rfl), fun hexact =>
        hzero fun slot hslot => ?_⟩
      exact UInt64.le_antisymm (hexact.1 slot hslot) UInt64.zero_le

/-- **A harmless call keeps both numbers exact, any other does not.** -/
theorem call {s : Store} (h : s.Tracked) (c : Call) :
    (s.Harmless c ∧ (s.call c).1.Tracked) ∨
      (¬s.Harmless c ∧ ¬(s.call c).1.HighestExact) := by
  cases c with
  | addBlockPending b failure =>
    show (_ ∧ (s.addBlockPendingOr b failure).1.Tracked) ∨
      (_ ∧ ¬(s.addBlockPendingOr b failure).1.HighestExact)
    rcases s.addBlockPendingOr_cases b failure with
      ⟨err, heq, hharmless⟩ | ⟨blk, rfl, hfree, ⟨hnone, heq⟩ | ⟨f, hf, hlate, heq⟩⟩
    · rw [heq]
      exact Or.inl ⟨hharmless, h⟩
    · rw [heq]
      refine Or.inl ⟨fun _ hany => ?_, h.addBlock blk⟩
      rw [hnone] at hany
      cases hany
    · rw [heq]
      have hany : (failure.filter (AddFailure.occurs blk)).any AddFailure.late
          = true := by
        rw [hf]
        exact hlate
      refine (h.raiseLatestStore hfree).imp (And.imp_left fun hle _ _ => hle)
        (And.imp_left fun hlt hharmless => hlt (hharmless hfree hany))
  | finalizeBlock blk txMetas addrAccount latest =>
    refine Or.inl ⟨trivial, ?_⟩
    unfold Store.call
    dsimp only
    split
    · exact h
    · next s' hfin =>
      obtain ⟨hslot, -, rfl⟩ := finalizeBlock_eq_ok.mp hfin
      exact h.putFinalized hslot txMetas addrAccount latest
  | restart => exact h.reopen

end Tracked

/-! ## All calls -/

/-- A call of `AddBlockPending` fails. -/
def AddFails (s : Store) (c : Call) : Prop :=
  ∃ b failure, c = .addBlockPending b failure ∧ (s.call c).2 ≠ .ok ()

/-- **The latest stored slot is exact along the calls**, before each of them
and at the end, and none of `AddBlockPending` that fails changes it. -/
structure HighestKept (calls : List Call) : Prop where
  exact : ∀ pre post, calls = pre ++ post → (Store.empty.callAll pre).HighestExact
  unchanged : ∀ pre c post, calls = pre ++ c :: post →
    (Store.empty.callAll pre).AddFails c →
    ((Store.empty.callAll pre).call c).1.latestStore
      = (Store.empty.callAll pre).latestStore

theorem latestStore_of_addFails {s : Store} {c : Call} (hc : s.Harmless c)
    (hfails : s.AddFails c) :
    (s.call c).1.latestStore = s.latestStore := by
  obtain ⟨b, failure, rfl, herr⟩ := hfails
  change (s.addBlockPendingOr b failure).2 ≠ .ok () at herr
  show (s.addBlockPendingOr b failure).1.latestStore = s.latestStore
  rcases s.addBlockPendingOr_cases b failure with
    ⟨err, heq, -⟩ | ⟨blk, rfl, hfree, ⟨-, heq⟩ | ⟨f, hf, hlate, heq⟩⟩
  · rw [heq]
  · rw [heq] at herr
    exact absurd rfl herr
  · rw [heq]
    have hle : blk.slot ≤ s.latestStore := hc hfree (by rw [hf]; exact hlate)
    exact if_neg (UInt64.not_lt.mpr hle)

/-- **When the latest stored slot is exact**: along a sequence of calls it
is, and failing calls leave it unchanged, exactly if each of the calls is
harmless. -/
theorem highest_exact_iff (calls : List Call) :
    HighestKept calls ↔
      ∀ pre c post, calls = pre ++ c :: post →
      (Store.empty.callAll pre).Harmless c := by
  have hiff := Machine.forall_prefix_iff (fun (s : Store) c => (s.call c).1)
    (I := Tracked) (G := HighestExact) (C := Harmless) (fun _ h => h.exact)
    (fun s c h => (h.call c).elim (fun hgood => iff_of_true hgood.2.exact hgood.1)
      (fun hbad => iff_of_false hbad.2 hbad.1))
    (fun s c h hc => (h.call c).elim And.right (fun hbad => absurd hc hbad.1))
    Tracked.empty calls
  constructor
  · exact fun h => hiff.mp h.exact
  · intro hall
    exact ⟨hiff.mpr hall, fun pre c post heq =>
      latestStore_of_addFails (hall pre c post heq)⟩

end Store

end

/-! ## Examples -/

section Sample

attribute [local instance] Sample.primitives

open Sample

namespace Sample

/-- The block of slot 3 is stored, and the write of slot 9 fails. -/
def failedWrite : List Store.Call :=
  [.addBlockPending (some (blockWith 1 3 0 [])) none,
    .addBlockPending (some (blockWith 1 9 0 [])) (some (.write "disk full"))]

/-- The block of slot 5 is stored, and the process restarts. -/
def earlyRestart : List Store.Call :=
  [.addBlockPending (some (blockWith 1 5 0 [])) none, .restart]

end Sample

/-- **A failed write leaves the latest stored slot at 9** where only slot 3
has a block, **and a restart puts it to 0** where slot 5 has one. -/
theorem highest_spoiled :
    ((Store.empty.callAll failedWrite).latestStore = 9 ∧
        (9 : UInt64) ∉ (Store.empty.callAll failedWrite).blocks ∧
        ¬Store.HighestKept failedWrite) ∧
      (Store.empty.callAll earlyRestart).latestStore = 0 ∧
        (5 : UInt64) ∈ (Store.empty.callAll earlyRestart).blocks ∧
        ¬Store.HighestKept earlyRestart := by
  have hnine : (Store.empty.callAll failedWrite).latestStore = 9 := by decide +kernel
  have hfree : (9 : UInt64) ∉ (Store.empty.callAll failedWrite).blocks := by
    decide +kernel
  have hzero : (Store.empty.callAll earlyRestart).latestStore = 0 := by decide +kernel
  have hfive : (5 : UInt64) ∈ (Store.empty.callAll earlyRestart).blocks := by
    decide +kernel
  refine ⟨⟨hnine, hfree, fun h => ?_⟩, hzero, hfive, fun h => ?_⟩
  · have hmem := (h.exact failedWrite [] (List.append_nil _).symm).2
    rw [hnine] at hmem
    exact hmem.elim hfree (by decide)
  · have hle := (h.exact earlyRestart [] (List.append_nil _).symm).1 5 hfive
    rw [hzero] at hle
    exact absurd hle (by decide)

end Sample

end Mmn
