import Mmn.Term
import Mmn.System

/-!
# Where pulled transactions are

A transaction that the batch loop pulls is gone from the mempool and will
not be admitted again. From then on it is pending, or in an entry of the
recorder, or in a collected entry, or in a block put out for broadcast – or
it is nowhere. The code lets go of it at two places: the start of a term
throws away what is pending, recorded and collected (`pulled_not_held`), and
a flush hands its entries to a validator that does not keep them, when the
slot under way is not its own or its term has ended, unless they complete a
block.

`Leader` is a node with a ghost log of what was pulled. In every run in
which no term starts while something is in hand, and no flush takes
transactions the validator will not keep, everything pulled is in one of the
four places (`pulled_held_of_run`).

A transaction that is not lost does not arrive either. Followers check the
entries of a block, and among their checks is the size of each transaction:
at most the largest entry divided by the most transactions an entry may
have, which is 174 bytes. The mempool admits only what verifies, and a
transaction that verifies is larger than that, for it carries a signature
and its JSON has the names of its fields. So no transaction is both admitted
and accepted (`not_validateEntry_of_addTx`): a leader that includes what its
mempool has admitted makes a block whose entries no follower accepts.
-/

namespace Mmn

section

variable [Primitives]

/-! ## The four places -/

/-- Do the entries carry the transaction? -/
def Carries (es : List Entry) (tx : Transaction) : Prop :=
  ∃ e ∈ es, some tx ∈ e.transactions

omit [Primitives] in
@[simp] theorem not_carries_nil (tx : Transaction) : ¬Carries [] tx := by
  simp [Carries]

omit [Primitives] in
@[simp] theorem carries_append (es es' : List Entry) (tx : Transaction) :
    Carries (es ++ es') tx ↔ Carries es tx ∨ Carries es' tx := by
  simp [Carries, or_and_right, exists_or]

omit [Primitives] in
@[simp] theorem carries_newTxEntry (numHashes : UInt64) (hash : Hash)
    (txs : List Transaction) (tx : Transaction) :
    Carries [newTxEntry numHashes hash txs] tx ↔ tx ∈ txs := by
  simp [Carries, newTxEntry]

omit [Primitives] in
theorem not_carries_of_isEmpty {es : List Entry}
    (h : es.all (fun e => e.transactions.isEmpty) = true) (tx : Transaction) :
    ¬Carries es tx := by
  rintro ⟨e, he, htx⟩
  have hempty := List.isEmpty_iff.mp (List.all_eq_true.mp h e he)
  rw [hempty] at htx
  exact List.not_mem_nil htx

/-- **In one of the four places.** -/
inductive Node.Holds (n : Node) (tx : Transaction) : Prop where
  | pending (h : tx ∈ n.pendingTxs)
  /-- It is in an entry that waits for a flush. -/
  | recorded (h : Carries n.recorder.entries tx)
  /-- It is in an entry of the block under construction. -/
  | collected (h : Carries n.collectedEntries tx)
  /-- It is in a block put out for broadcast. -/
  | assembled {b : BroadcastedBlock} (hb : b ∈ n.outbox) (h : Carries b.entries tx)

/-! ## A leader -/

/-- **A node and what it has pulled.** -/
structure Leader where
  node : Node
  pulled : List Transaction

/-- What happens to it. -/
inductive LeaderOp where
  | transaction (tx : Transaction)
  | autoHash
  | leaderBatch
  /-- An iteration of the flush loop, at a time. -/
  | flush (now : UInt64)
  /-- A round of the role loop, which begins to wait for a term or ends one. -/
  | roleMonitor
  /-- A round of the wait, after which the term may start. -/
  | leaderWait (deadline : Bool)

/-- The transactions a round of the batch loop takes from the mempool. -/
def Node.pulledBatch (cfg : Config) (n : Node) : List Transaction :=
  if n.readyToStart cfg n.recorder.currentSlot then
    match n.mempool.pullBatch n.dedup n.tracker cfg.batchSize with
    | some (_, _, _, batch) => batch
    | none => []
  else []

/-- **One step of a leader.** -/
def Leader.step (cfg : Config) (s : Leader) : LeaderOp → Option Leader
  | .transaction tx => some { s with node := s.node.onTransactionReceived tx }
  | .autoHash => some { s with
      node := { s.node with recorder := s.node.recorder.autoHash } }
  | .leaderBatch => (s.node.leaderBatch cfg).map
      (fun n => ⟨n, s.pulled ++ s.node.pulledBatch cfg⟩)
  | .flush now => some { s with node := s.node.drainEntries.tickAndFlush cfg now }
  | .roleMonitor => some { s with node := s.node.roleMonitor cfg }
  | .leaderWait deadline => some { s with node := s.node.leaderWait deadline }

/-! ## Steps that let nothing go -/

namespace PohRecorder

/-- The tick counter after a tick now. -/
def heightAfterTick (r : PohRecorder) : UInt64 :=
  if r.closesTick then r.tickHeight + 1 else r.tickHeight

theorem tick_after (r : PohRecorder) :
    r.tick.1.tickHeight = r.heightAfterTick ∧ r.tick.1.ticksPerSlot = r.ticksPerSlot ∧
      r.tick.1.entries = r.entries := by
  rw [tick_eq]
  unfold heightAfterTick
  split_ifs
  · exact ⟨rfl, rfl, rfl⟩
  · exact ⟨rfl, rfl, rfl⟩

end PohRecorder

namespace Node

/-- Are the entries without transactions? -/
def noTransactions (es : List Entry) :
    Bool := es.all (fun e => e.transactions.isEmpty)

/-- **A flush that keeps what it takes**: no transaction waits to be taken,
or the validator is in a term and leads the slot that is under way after the
tick, or the tick is the last of a slot the validator led and something was
collected in it. -/
def FlushKeeps (cfg : Config) (n : Node) : Prop :=
  noTransactions n.recorder.entries = true ∨
    (isLeader cfg (n.recorder.heightAfterTick / n.recorder.ticksPerSlot + 1) = true ∧
      n.leaderStartAtSlot ≠ noSlot) ∨
    (n.recorder.closesTick = true ∧
      n.recorder.heightAfterTick % n.recorder.ticksPerSlot = 0 ∧
      isLeader cfg (n.recorder.heightAfterTick / n.recorder.ticksPerSlot) = true ∧
      0 < n.collectedEntries.length)

instance (cfg : Config) (n : Node) : Decidable (n.FlushKeeps cfg) := by
  unfold FlushKeeps
  infer_instance

/-- Does a round of the wait start the term? -/
def startsTerm (n : Node) (deadline : Bool) : Bool :=
  match n.waitingFor with
  | none => false
  | some slot => deadline || n.store.hasCompleteBlock (slot - 1)

/-- **Nothing in hand**: no transaction is pending, recorded or collected. -/
def nothingInHand (n : Node) : Bool :=
  n.pendingTxs.isEmpty && noTransactions n.recorder.entries
    && noTransactions n.collectedEntries

end Node

/-- **The steps that let nothing go.** -/
def LetsNothingGo (cfg : Config) (s : Leader) : LeaderOp → Prop
  | .flush _ => s.node.FlushKeeps cfg
  | .leaderWait deadline =>
    s.node.startsTerm deadline = true → s.node.nothingInHand = true
  | _ => True

instance (cfg : Config) (s : Leader) (op : LeaderOp) :
    Decidable (LetsNothingGo cfg s op) := by
  cases op <;> unfold LetsNothingGo <;> infer_instance

/-! ## What each step does to what is held -/

namespace Node

variable {cfg : Config}

/-- **A round of the batch loop** lets nothing go, and what it pulls is
held. -/
theorem holds_leaderBatch {n n' : Node} (h : n.leaderBatch cfg = some n')
    {tx : Transaction} (htx : n.Holds tx ∨ tx ∈ n.pulledBatch cfg) : n'.Holds tx := by
  unfold pulledBatch at htx
  obtain ⟨hready, rfl⟩ | ⟨mempool, dedup, tracker, batch, recorder, pending,
    hready, hpull,
    rfl, hrest⟩ := leaderBatch_cases h
  · rw [hready] at htx
    exact htx.resolve_right List.not_mem_nil
  rw [hready, if_pos rfl, hpull] at htx
  -- all that was pending or is pulled is pending now, or recorded
  have hpending : ∀ tx ∈ n.pendingTxs ++ batch, tx ∈ pending ∨
      Carries recorder.entries tx := by
    intro tx hmem
    obtain ⟨rfl, -⟩ | ⟨recorded, numHashes, hash, hsplit, hentries⟩ := hrest
    · exact Or.inl hmem
    · rw [hsplit, List.mem_append] at hmem
      rw [hentries, carries_append, carries_newTxEntry]
      exact hmem.elim (fun hrec => Or.inr (Or.inr hrec)) Or.inl
  have hrecorded : Carries n.recorder.entries tx → Carries recorder.entries tx := by
    intro hcarries
    obtain ⟨-, hentries⟩ | ⟨recorded, numHashes, hash, -, hentries⟩ := hrest
    · rwa [hentries]
    · rw [hentries, carries_append]
      exact Or.inl hcarries
  obtain (hpend | hrec | hcoll | ⟨hb, hout⟩) | hbatch := htx
  · exact (hpending tx (List.mem_append_left _ hpend)).elim (fun hp => .pending hp)
      (fun hc => .recorded hc)
  · exact .recorded (hrecorded hrec)
  · exact .collected hcoll
  · exact .assembled hb hout
  · exact (hpending tx (List.mem_append_right _ hbatch)).elim (fun hp => .pending hp)
      (fun hc => .recorded hc)

/-- **Entries handed on** push nothing out; and they are held if the
validator collects or completes a block with them. -/
theorem holds_handleEntry (n : Node) (entries : List Entry) (now : UInt64)
    {tx : Transaction} (htx : n.Holds tx ∨ Carries entries tx ∧
      (isLeader cfg n.recorder.currentSlot = true ∧ n.leaderStartAtSlot ≠ noSlot ∨
        n.recorder.isLastTickOfSlot = true ∧
          isLeader cfg (n.recorder.currentSlot - 1) = true ∧
          endsInTick entries = true ∧ 0 < n.collectedEntries.length)) :
    (n.handleEntry cfg entries now).Holds tx := by
  unfold handleEntry
  dsimp only
  split
  · -- a block with what was collected and the entries
    have hnew := List.mem_append_right n.outbox (List.mem_singleton_self
      ((assembleBlock (n.recorder.currentSlot - 1)
        (n.recorder.getSlotHash (n.recorder.currentSlot - 1 - 1)) cfg.selfPubKey
        (n.collectedEntries ++ entries) now).sign cfg.selfPrivKey))
    obtain (hpend | hrec | hcoll | ⟨hb, hout⟩) | ⟨hentries, -⟩ := htx
    · exact .pending hpend
    · exact .recorded hrec
    · exact .assembled hnew ((carries_append _ _ _).mpr (Or.inl hcoll))
    · exact .assembled (List.mem_append_left _ hb) hout
    · exact .assembled hnew ((carries_append _ _ _).mpr (Or.inr hentries))
  · next hopen =>
    split
    · obtain (hpend | hrec | hcoll | ⟨hb, hout⟩) | ⟨hentries, -⟩ := htx
      · exact .pending hpend
      · exact .recorded hrec
      · exact .collected ((carries_append _ _ _).mpr (Or.inl hcoll))
      · exact .assembled hb hout
      · exact .collected ((carries_append _ _ _).mpr (Or.inr hentries))
    · next hout =>
      obtain hheld | ⟨-, ⟨hlead, hterm⟩ | ⟨hlast, hled, hends, hsome⟩⟩ := htx
      · exact hheld
      · refine absurd ?_ hout
        unfold readyToStart
        rw [hlead, decide_eq_true hterm]
        rfl
      · refine absurd ?_ hopen
        rw [hlast, hled, hends, decide_eq_true hsome]
        rfl

theorem flushing_handleEntry (n : Node) (entries : List Entry) (now : UInt64) :
    (n.handleEntry cfg entries now).flushing = n.flushing := by
  unfold handleEntry
  dsimp only
  split
  · rfl
  · split <;> rfl

/-- What a flush takes is kept, if it carries transactions. -/
theorem FlushKeeps.kept {n : Node} (h : n.FlushKeeps cfg) {tx : Transaction}
    (htx : Carries n.recorder.entries tx) {r : PohRecorder} {tickEntry : Option Entry}
    (htick : n.recorder.drainEntries.1.tick = (r, tickEntry)) :
    isLeader cfg r.currentSlot = true ∧ n.leaderStartAtSlot ≠ noSlot ∨
      r.isLastTickOfSlot = true ∧ isLeader cfg (r.currentSlot - 1) = true ∧
        endsInTick (n.recorder.entries ++ tickEntry.toList) = true ∧
        0 < n.collectedEntries.length := by
  obtain ⟨hheight, hpace, -⟩ := n.recorder.drainEntries.1.tick_after
  rw [htick] at hheight hpace
  unfold PohRecorder.isLastTickOfSlot PohRecorder.currentSlot
  rw [hheight, hpace]
  obtain hnone | ⟨hlead, hterm⟩ | ⟨hcloses, hmod, hled, hsome⟩ := h
  · exact absurd htx (not_carries_of_isEmpty hnone tx)
  · exact Or.inl ⟨hlead, hterm⟩
  · have hclosing := (n.recorder.drainEntries.1.tick_eq).trans (if_pos hcloses)
    rw [htick] at hclosing
    cases hclosing
    refine Or.inr ⟨decide_eq_true hmod, ?_, endsInTick_append_tick _ rfl, hsome⟩
    rw [UInt64.add_sub_cancel]
    exact hled

/-- **An iteration of the flush loop** that keeps what it takes lets nothing
go. -/
theorem holds_flush {n : Node} (hflush : n.flushing = none)
    (hkeeps : n.FlushKeeps cfg) (now : UInt64) {tx : Transaction} (htx : n.Holds tx) :
    (n.termStep cfg (.flush now)).Holds tx := by
  cases htick : n.recorder.drainEntries.1.tick with
  | mk r tickEntry =>
    rw [termStep_flush hflush now htick]
    split_ifs with hsome
    · refine holds_handleEntry (n.flushed r) _ now ?_
      cases htx with
      | pending h => exact Or.inl (.pending h)
      | recorded h =>
        exact Or.inr ⟨(carries_append _ _ _).mpr (Or.inl h), hkeeps.kept h htick⟩
      | collected h => exact Or.inl (.collected h)
      | assembled hb h => exact Or.inl (.assembled hb h)
    · cases htx with
      | pending h => exact .pending h
      | recorded h =>
        -- there was nothing to take
        have hnone := List.length_eq_zero_iff.mp (Nat.eq_zero_of_not_pos hsome)
        rw [(List.append_eq_nil_iff.mp hnone).1] at h
        exact absurd h (not_carries_nil tx)
      | collected h => exact .collected h
      | assembled hb h => exact .assembled hb h

theorem flushing_flush {n : Node} (hflush : n.flushing = none) (now : UInt64) :
    (n.termStep cfg (.flush now)).flushing = none := by
  cases htick : n.recorder.drainEntries.1.tick with
  | mk r tickEntry =>
    rw [termStep_flush hflush now htick]
    split_ifs
    · exact flushing_handleEntry (n.flushed r) _ now
    · rfl

/-- **A round of the wait** that does not start the term does nothing; the
start of the term leaves the blocks put out. -/
theorem leaderWait_cases (n : Node) (deadline : Bool) :
    (n.startsTerm deadline = false ∧ n.leaderWait deadline = n) ∨
      (n.startsTerm deadline = true ∧ (n.leaderWait deadline).outbox = n.outbox ∧
        (n.leaderWait deadline).flushing = n.flushing) := by
  unfold startsTerm leaderWait
  cases n.waitingFor with
  | none => exact Or.inl ⟨rfl, rfl⟩
  | some slot =>
    cases deadline with
    | true => exact Or.inr ⟨rfl, rfl, rfl⟩
    | false =>
      dsimp only
      cases n.store.hasCompleteBlock (slot - 1) with
      | true => exact Or.inr ⟨rfl, rfl, rfl⟩
      | false => exact Or.inl ⟨rfl, rfl⟩

/-- With nothing in hand, what is held is in a block. -/
theorem Holds.assembled_of_nothingInHand {n : Node} {tx : Transaction}
    (htx : n.Holds tx) (hnone : n.nothingInHand = true) :
    ∃ b ∈ n.outbox, Carries b.entries tx := by
  unfold nothingInHand at hnone
  simp only [Bool.and_eq_true, List.isEmpty_iff] at hnone
  obtain ⟨⟨hpending, hrecorded⟩, hcollected⟩ := hnone
  cases htx with
  | pending h =>
    rw [hpending] at h
    exact absurd h List.not_mem_nil
  | recorded h => exact absurd h (not_carries_of_isEmpty hrecorded tx)
  | collected h => exact absurd h (not_carries_of_isEmpty hcollected tx)
  | assembled hb h => exact ⟨_, hb, h⟩

theorem holds_leaderWait {n : Node} {deadline : Bool}
    (hC : n.startsTerm deadline = true → n.nothingInHand = true) {tx : Transaction}
    (htx : n.Holds tx) : (n.leaderWait deadline).Holds tx := by
  obtain ⟨-, hsame⟩ | ⟨hstart, houtbox, -⟩ := n.leaderWait_cases deadline
  · rw [hsame]
    exact htx
  · obtain ⟨b, hb, hcarries⟩ := htx.assembled_of_nothingInHand (hC hstart)
    exact .assembled (houtbox ▸ hb) hcarries

/-- A round of the role loop only begins a wait or ends a term. -/
theorem roleMonitor_cases (cfg : Config) (n : Node) : ∃ waiting start,
    n.roleMonitor cfg
      = { n with waitingFor := waiting, leaderStartAtSlot := start } := by
  unfold roleMonitor
  dsimp only
  split_ifs
  · exact ⟨_, _, rfl⟩
  · exact ⟨_, _, rfl⟩
  · exact ⟨_, _, rfl⟩
  · exact ⟨_, _, rfl⟩
  · exact ⟨_, _, rfl⟩

theorem Holds.of_eq {n n' : Node} {tx : Transaction} (h : n.Holds tx)
    (hpending : n'.pendingTxs = n.pendingTxs)
    (hrecorded : n'.recorder.entries = n.recorder.entries)
    (hcollected : n'.collectedEntries = n.collectedEntries)
    (houtbox : n'.outbox = n.outbox) :
    n'.Holds tx := by
  cases h with
  | pending h => exact .pending (hpending ▸ h)
  | recorded h => exact .recorded (hrecorded ▸ h)
  | collected h => exact .collected (hcollected ▸ h)
  | assembled hb h => exact .assembled (houtbox ▸ hb) h

end Node

/-! ## Runs -/

/-- **Everything pulled is held**, between flushes. -/
structure Leader.AllHeld (s : Leader) : Prop where
  flushing : s.node.flushing = none
  held : ∀ tx ∈ s.pulled, s.node.Holds tx

/-- **One step** that lets nothing go. -/
theorem Leader.AllHeld.step {cfg : Config} {s s' : Leader} {op : LeaderOp}
    (h : s.AllHeld) (hC : LetsNothingGo cfg s op) (hstep : s.step cfg op = some s') :
    s'.AllHeld := by
  cases op with
  | transaction tx =>
    cases hstep
    exact ⟨h.flushing, fun tx htx => (h.held tx htx).of_eq rfl rfl rfl rfl⟩
  | autoHash =>
    cases hstep
    exact ⟨h.flushing, fun tx htx => (h.held tx htx).of_eq rfl rfl rfl rfl⟩
  | leaderBatch =>
    obtain ⟨n, hbatch, rfl⟩ := Option.map_eq_some_iff.mp hstep
    refine ⟨?_, fun tx htx => Node.holds_leaderBatch hbatch ?_⟩
    · obtain ⟨-, rfl⟩ | ⟨_, _, _, _, _, _, -, -, rfl, -⟩ :=
        Node.leaderBatch_cases hbatch
      · exact h.flushing
      · exact h.flushing
    · exact (List.mem_append.mp htx).imp_left (h.held tx)
  | flush now =>
    cases hstep
    exact ⟨Node.flushing_flush h.flushing now,
      fun tx htx => Node.holds_flush h.flushing hC now (h.held tx htx)⟩
  | roleMonitor =>
    cases hstep
    obtain ⟨waiting, start, hrole⟩ := s.node.roleMonitor_cases cfg
    refine ⟨?_, fun tx htx => ?_⟩
    · rw [hrole]
      exact h.flushing
    · rw [hrole]
      exact (h.held tx htx).of_eq rfl rfl rfl rfl
  | leaderWait deadline =>
    cases hstep
    refine ⟨?_, fun tx htx => Node.holds_leaderWait hC (h.held tx htx)⟩
    obtain ⟨-, hsame⟩ | ⟨-, -, hflushing⟩ := s.node.leaderWait_cases deadline
    · rw [hsame]
      exact h.flushing
    · exact hflushing.trans h.flushing

/-- **No pulled transaction is lost** in any run whose steps let nothing go. -/
theorem pulled_held_of_run {cfg : Config} {n : Node} {s : Leader}
    (hflush : n.flushing = none)
    (hrun : Machine.Run (Leader.step cfg) (LetsNothingGo cfg) ⟨n, []⟩ s) :
    ∀ tx ∈ s.pulled, s.node.Holds tx := by
  have hall : s.AllHeld :=
    Machine.Run.invariant hrun ⟨hflush, fun tx htx => absurd htx List.not_mem_nil⟩
      (fun t op t' h hC hstep => h.step hC hstep)
  exact hall.held

/-! ## What followers make of them -/

/-- An entry with a transaction that verifies is refused. -/
theorem not_validateEntry_of_verify {e : Entry} {tx : Transaction}
    (htx : some tx ∈ e.transactions) (hverify : tx.verify = true) :
    validateEntry e ≠ .ok () := by
  intro hok
  have hsize :=
    (length_of_validateEntryTxs (validateEntryTxs_of_validateEntry hok) htx).2
  exact absurd (Transaction.length_of_verify hverify) (Nat.not_lt.mpr hsize)

/-- **Nothing admitted is accepted**: the entry with just this transaction
is refused, and so are the entries of every block it is in. -/
theorem not_validateEntry_of_addTx {mp : Mempool} {ds : DedupService} {s : Store}
    {tx : Transaction} {hash : String} (hadd : (mp.addTx ds s tx).2 = .ok hash)
    {e : Entry} (htxs : e.transactions = [some tx]) :
    validateEntry e ≠ .ok () ∧
      ∀ prev entries slot, e ∈ entries →
      verifyEntries prev entries slot ≠ .ok () := by
  have hverify : tx.verify = true := by
    obtain ⟨err, herr⟩ | ⟨hverify, -⟩ := mp.addTx_cases ds s tx
    · rw [herr] at hadd
      cases hadd
    · exact hverify
  have hmem : some tx ∈ e.transactions := htxs ▸ List.mem_singleton_self _
  have hrefused := not_validateEntry_of_verify hmem hverify
  exact ⟨hrefused, fun prev entries slot he hok =>
    hrefused ((recomputed_of_verifyEntries hok).1 _ he)⟩

end

/-! ## Examples -/

section Sample

attribute [local instance] Sample.primitives

open Sample

/-- The first of four validators on a new database with one account, once it
has heard of slot one. -/
def firstOfFour : Node :=
  let n := Node.new (oneOfFour false)
    ((initializeBlockchain [⟨keyID 1, 100⟩] 0).toOption.getD Store.empty).reopen
  { n with mempool := n.mempool.setCurrentSlot 1 }

/-- **A transaction that is lost**: it is pulled when only the tick's hash
is left, so it stays pending; the slot ends, and the next term of the
validator starts with nothing pending. -/
theorem pulled_not_held :
    ∃ s, Machine.Run (Leader.step (oneOfFour false)) Machine.Always
      ⟨firstOfFour, []⟩ s ∧ ∃ tx ∈ s.pulled, ¬s.node.Holds tx := by
  have hexec : (Machine.exec (Leader.step (oneOfFour false)) Machine.Always
    ⟨firstOfFour, []⟩
      [.transaction (transfer 1 2 5 1 0), .roleMonitor, .leaderWait false, .autoHash,
        .leaderBatch, .flush 10, .roleMonitor, .autoHash, .flush 20, .autoHash,
        .flush 30, .autoHash, .flush 40, .roleMonitor, .leaderWait true]).any
      (fun s => !s.pulled.isEmpty && s.node.nothingInHand && s.node.outbox.isEmpty)
          = true := by
    decide +kernel
  obtain ⟨s, hrun, htest⟩ := Machine.exists_run_of_exec hexec
  simp only [Bool.and_eq_true, Bool.not_eq_true', List.isEmpty_iff,
    List.isEmpty_eq_false_iff_exists_mem] at htest
  obtain ⟨⟨⟨tx, hpulled⟩, hnone⟩, hempty⟩ := htest
  refine ⟨s, hrun, tx, hpulled, fun hheld => ?_⟩
  obtain ⟨b, hb, -⟩ := hheld.assembled_of_nothingInHand hnone
  rw [hempty] at hb
  exact List.not_mem_nil hb

/-- A run in which a pulled transaction is recorded and waits for a flush. -/
theorem pulled_held_recorded :
    ∃ s : Leader, (∀ tx ∈ s.pulled, s.node.Holds tx) ∧
      (s.pulled.length == 1 && s.node.recorder.entries.length == 1) = true := by
  have hexec : (Machine.exec (Leader.step (oneOfFour false))
    (LetsNothingGo (oneOfFour false))
      ⟨firstOfFour, []⟩
      [.transaction (transfer 1 2 5 1 0), .roleMonitor, .leaderWait false,
        .leaderBatch]).any
      (fun s => s.pulled.length == 1 && s.node.recorder.entries.length == 1)
          = true := by
    decide +kernel
  obtain ⟨s, hrun, htest⟩ := Machine.exists_run_of_exec hexec
  exact ⟨s, pulled_held_of_run rfl hrun, htest⟩

/-- The entry with a transfer that the first of four validators admits. -/
def admittedEntry : Entry := newTxEntry 1 zeroHash [transfer 1 2 5 1 0]

/-- **A transfer that is admitted and refused.** -/
theorem admitted_too_large :
    ((firstOfFour.mempool.addTx firstOfFour.dedup firstOfFour.store
        (transfer 1 2 5 1 0)).2.toOption.isSome &&
      match validateEntry admittedEntry with
      | .ok () => false
      | .error err => err == "transaction 0 too large: 235 bytes") = true := by
  decide +kernel

/-- No follower accepts it. -/
theorem not_validateEntry_transfer :
    validateEntry admittedEntry ≠ .ok () ∧
      ∀ prev entries slot, admittedEntry ∈ entries →
      verifyEntries prev entries slot ≠ .ok () := by
  have hadd : (firstOfFour.mempool.addTx firstOfFour.dedup firstOfFour.store
      (transfer 1 2 5 1 0)).2
          = .ok (Transaction.hash (some (transfer 1 2 5 1 0))) := by
    decide +kernel
  exact not_validateEntry_of_addTx hadd rfl

end Sample

end Mmn
