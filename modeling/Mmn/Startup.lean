import Mmn.Ordering
import Mmn.Restart

/-!
# Starting up

A node that starts does not take part at once. `SetupPubSubSyncTopics`
begins a thread that waits for peers and for their reports of the latest
slots, and then either asks for the blocks it lacks or starts the core
services: the clock, the validator and the topics of the network. If it asks
for blocks, the services are started by the handler of the blocks,
`OnSyncResponseReceived`, when the node has caught up. Handlers run on
threads of their own, and `enableFullModeOnce` is to see to it that the
services are started once.

Two of the places that start them do not ask it: `SetupPubSubSyncTopics`
itself, if there is one validator only, and `handlePohResetIfNeeded`, if no
peer is ahead. A handler that has found the node not ready before such a
start still starts the services after it, and there are two clocks then.
More than two starts there never are (`starts_le_two`).

Before the thread asks for blocks it waits until the latest slot and the
latest clock that any peer has reported are close together
(`isSyncWindowAligned`). The two are maxima over all reports, and the
difference is taken in machine words. One report of a slot that no clock has
reached keeps the thread waiting for good, whatever else is reported
(`stuck_of_report`).
-/

namespace Mmn

section

variable [Primitives]

/-! ## The thread and the handlers -/

/-- Where the thread that starts the node is. -/
inductive BootPc where
  /-- There is one validator only: the services are started at once. -/
  | immediate
  /-- It waits for peers. -/
  | waitPeers
  /-- Nothing is finalized here; it looks for a report of the latest slot. -/
  | readWorld
  /-- `ensureWorldLatestSlotInitialized`, after some requests. -/
  | ensure (retryCount : ℕ)
  /-- Nobody has reported a slot: the services are started on the genesis,
  once. -/
  | genesis
  /-- `waitUntilSyncWindowAligned`, with nothing finalized here. -/
  | alignFresh
  /-- `waitForWorldPohSlot`. -/
  | waitPoh (localLatestSlot : UInt64)
  /-- `handlePohResetIfNeeded`. -/
  | handleReset (localLatestSlot : UInt64)
  /-- `waitUntilSyncWindowAligned`, on a database that is in use. -/
  | alignBehind (localLatestSlot : UInt64)
  /-- It compares the latest slot here with that of the peers. -/
  | compare (localLatestSlot : UInt64)
  /-- Nothing is missing: the services are started, once. -/
  | upToDate
  /-- `startCoreServices` is under way. -/
  | starting
  | done
deriving DecidableEq

/-- Where a handler of a block of the sync is, after the block is in the
queue. -/
inductive HandlerPc where
  /-- It will see if the node is ready and how far behind. -/
  | checking
  /-- It will call `enableFullModeOnce.Do`. -/
  | enabling
  /-- `startCoreServices` is under way. -/
  | starting
  | ended
deriving DecidableEq

/-- A handler, with the last block that was processed when its block came. -/
structure SyncHandler where
  pc : HandlerPc
  latestProcessed : BroadcastedBlock

/-- **A node that starts.** -/
structure Boot where
  node : Node
  pc : BootPc
  /-- The handlers, in the order in which they came. -/
  handlers : List SyncHandler
  requests : List UInt64
  starts : ℕ

/-- What of a node matters to the start. -/
structure StartView where
  ready : Bool
  /-- Has `enableFullModeOnce` been used? -/
  once : Bool
  world : UInt64
  poh : UInt64
deriving DecidableEq

/-- What of a node matters to the start. -/
def Node.startView (n : Node) : StartView :=
  { ready := n.ready, once := n.fullModeEnabled, world := n.worldLatestSlot,
    poh := n.worldLatestPohSlot }

/-- **What happens while a node starts.** -/
inductive BootInput where
  | proceed
  /-- A peer's report of its latest slots. -/
  | report (latestSlot latestPohSlot : UInt64)
  /-- A block of a sync is put into the queue. -/
  | syncResponse (blk : BroadcastedBlock) (clock : ℕ → UInt64)
  /-- A handler sees if the node is ready and how far behind. -/
  | check (i : ℕ)
  /-- A handler calls `enableFullModeOnce.Do`. -/
  | enable (i : ℕ)
  /-- A handler ends `startCoreServices`. -/
  | finish (i : ℕ)
  /-- Anything else: the node is now this one. -/
  | elsewhere (n : Node)

/-- `isSyncWindowAligned`. The difference is in machine words. -/
def Node.isSyncWindowAligned (cfg : Config) (n : Node) : Bool :=
  decide (n.worldLatestSlot > 0) && !isLeader cfg n.worldLatestSlot &&
    decide (n.worldLatestPohSlot > 0) && !isLeader cfg n.worldLatestPohSlot &&
    decide (n.worldLatestPohSlot - n.worldLatestSlot ≤ 1)

/-- The hash the clock continues from after a slot. -/
def Store.seedAfter (s : Store) (slot : UInt64) : Hash :=
  ((s.block slot).map Block.lastEntryHash).getD zeroHash

namespace Boot

/-- `SetupPubSubSyncTopics`. -/
def new (cfg : Config) (n : Node) : Boot :=
  { node := n
    pc := if cfg.leaderSchedule.len = 1 ∧ cfg.isListener = false then .immediate
      else .waitPeers
    handlers := []
    requests := []
    starts := 0 }

/-- `startCoreServices` begins: everything but the node's being ready. -/
def begin (cfg : Config) (b : Boot) (n : Node) : Option Boot :=
  (n.startCoreServices cfg).map fun m =>
    { b with node := { m with ready := n.ready }, starts := b.starts + 1 }

/-- `startCoreServices` ends. -/
def setNodeReady (b : Boot) : Boot := { b with node := { b.node with ready := true } }

/-- `startImmediatelyFromLocalLatestSlot`. -/
def startImmediatelyFromLocalLatestSlot (cfg : Config) (b : Boot) (n : Node) :
    Option Boot :=
  let latest := n.store.latestFinalized
  let seed := if latest > 0 then n.store.seedAfter latest else zeroHash
  b.begin cfg { n with recorder := n.recorder.reset seed latest }

/-- `RequestBlockSyncFromLatest`. -/
def requestBlockSyncFromLatest (b : Boot) : Boot :=
  { b with requests := b.requests ++ [b.node.store.latestFinalized + 1] }

/-- The thread is now here. -/
def goto (b : Boot) (pc : BootPc) : Boot := { b with pc := pc }

/-- A handler is now here. -/
def setHandler (b : Boot) (i : ℕ) (pc : HandlerPc) : Boot :=
  { b with handlers := b.handlers.modify i (fun h => { h with pc := pc }) }

/-- `enableFullModeOnce.Do`, for a thread that then starts the services on
the node given. -/
def onceDo (b : Boot) (start : Boot → Node → Option Boot) : Option Boot :=
  start b { b.node with fullModeEnabled := true }

/-- **The next access of the thread.** -/
def proceed (cfg : Config) (b : Boot) : Option Boot :=
  match b.pc with
  | .immediate =>
    (b.startImmediatelyFromLocalLatestSlot cfg b.node).map (·.goto .starting)
  | .waitPeers =>
    let localLatestSlot := b.node.store.latestFinalized
    some
      (b.goto (if localLatestSlot = 0 then .readWorld else .waitPoh localLatestSlot))
  | .readWorld =>
    some (b.goto (if b.node.worldLatestSlot = 0 then .ensure 0 else .alignFresh))
  | .ensure retryCount =>
    if b.node.worldLatestSlot > 0 then some (b.goto .alignFresh)
    else if retryCount < 3 then some (b.goto (.ensure (retryCount + 1)))
    else some (b.goto .genesis)
  | .genesis =>
    if b.node.fullModeEnabled then some (b.goto .done)
    else (b.onceDo (begin cfg)).map (·.goto .starting)
  | .alignFresh =>
    if b.node.isSyncWindowAligned cfg
      then some (b.requestBlockSyncFromLatest.goto .done)
      else some b
  | .waitPoh localLatestSlot =>
    if b.node.worldLatestPohSlot ≤ 0 then some b
      else some (b.goto (.handleReset localLatestSlot))
  | .handleReset localLatestSlot =>
    if b.node.worldLatestPohSlot > 0 ∧
      localLatestSlot ≥ b.node.worldLatestPohSlot then
      -- the services are started outside `enableFullModeOnce`
      let seed := b.node.store.seedAfter localLatestSlot
      (b.begin cfg
        { b.node with recorder := b.node.recorder.reset seed localLatestSlot }).map
        (·.goto .starting)
    else some (b.goto (.alignBehind localLatestSlot))
  | .alignBehind localLatestSlot =>
    if b.node.isSyncWindowAligned cfg then some (b.goto (.compare localLatestSlot))
      else some b
  | .compare localLatestSlot =>
    if localLatestSlot < b.node.worldLatestSlot
      then some (b.requestBlockSyncFromLatest.goto .done)
    else some (b.goto .upToDate)
  | .upToDate =>
    if b.node.fullModeEnabled then some (b.goto .done)
    else (b.onceDo (startImmediatelyFromLocalLatestSlot cfg)).map (·.goto .starting)
  | .starting => some (b.setNodeReady.goto .done)
  | .done => none

/-- The next access of a handler. -/
def handle (cfg : Config) (b : Boot) (i : ℕ) (h : SyncHandler) :
    HandlerPc → Option Boot
  | .checking =>
    if !b.node.ready && !decide (b.node.worldLatestSlot > h.latestProcessed.slot) then
      some (b.setHandler i .enabling)
    else some (b.setHandler i .ended)
  | .enabling =>
    if b.node.fullModeEnabled then some (b.setHandler i .ended)
    else
      let latest := h.latestProcessed
      (b.onceDo fun b n =>
        b.begin cfg
          { n with recorder :=
            n.recorder.reset latest.lastEntryHash latest.slot }).map
        (·.setHandler i .starting)
  | .starting => some (b.setNodeReady.setHandler i .ended)
  | .ended => none

/-- The access of a handler that is where it has to be. -/
def handleAt (cfg : Config) (b : Boot) (i : ℕ) (pc : HandlerPc) : Option Boot :=
  b.handlers[i]?.bind fun h => if h.pc = pc then b.handle cfg i h pc else none

/-- **One access.** -/
def step (cfg : Config) (b : Boot) : BootInput → Option Boot
  | .proceed => b.proceed cfg
  | .report latestSlot latestPohSlot =>
    some { b with node := b.node.onLatestSlotReceived latestSlot latestPohSlot }
  | .syncResponse blk clock =>
    (b.node.addBlockToOrderingQueue cfg blk clock).map fun r =>
      { b with
        node := r.1
        handlers := b.handlers ++ (r.2.map fun latest => ⟨.checking, latest⟩).toList }
  | .check i => b.handleAt cfg i .checking
  | .enable i => b.handleAt cfg i .enabling
  | .finish i => b.handleAt cfg i .starting
  | .elsewhere n =>
    if n.startView = b.node.startView then some { b with node := n } else none

end Boot

/-! ## What an access can do -/

/-- **A start, without the node.** -/
structure Launch extends StartView where
  pc : BootPc
  handlers : List HandlerPc
  requests : List UInt64
  starts : ℕ

/-- What a start is without its node. -/
def Boot.launch (b : Boot) : Launch :=
  { toStartView := b.node.startView, pc := b.pc,
    handlers := b.handlers.map SyncHandler.pc
    requests := b.requests, starts := b.starts }

/-- Has the thread not come to start the services, and not ended? -/
def BootPc.Waiting (pc : BootPc) : Prop := pc ≠ .starting ∧ pc ≠ .done

/-- Does the thread wait for slots and clocks that are close together? -/
def BootPc.Aligning : BootPc → Prop
  | .alignFresh | .alignBehind _ => True
  | .immediate | .waitPeers | .readWorld | .ensure _ | .genesis | .waitPoh _
    | .handleReset
    _ | .compare _
  | .upToDate | .starting | .done => False

omit [Primitives] in
theorem BootPc.Aligning.waiting {pc : BootPc} (h : pc.Aligning) : pc.Waiting := by
  constructor <;> rintro rfl <;> exact h

namespace Launch

/-- **What an access does to a start.** -/
inductive Move (l : Launch) : BootInput → Launch → Prop
  /-- The thread goes on. If it was aligning, the latest clock is not behind
  the latest slot. -/
  | thread {pc : BootPc} (hfrom : l.pc.Waiting) (hto : pc ≠ .starting)
      (haligned : l.pc.Aligning → l.world ≤ l.poh) (requests : List UInt64) :
    Move l .proceed { l with pc := pc, requests := requests }
  /-- The thread starts the services on its own. -/
  | direct (hfrom : l.pc.Waiting) (halign : ¬l.pc.Aligning) :
    Move l .proceed { l with pc := .starting, starts := l.starts + 1 }
  | once (hfrom : l.pc.Waiting) (halign : ¬l.pc.Aligning) (honce : l.once = false) :
    Move l .proceed { l with pc := .starting, starts := l.starts + 1, once := true }
  | ready (hfrom : l.pc = .starting) : Move l .proceed
    { l with pc := .done, ready := true }
  | report (latestSlot latestPohSlot : UInt64) :
    Move l (.report latestSlot latestPohSlot)
      { l with
        world := if l.world < latestSlot then latestSlot else l.world
        poh := if l.poh < latestPohSlot then latestPohSlot else l.poh }
  /-- A block of a sync leaves a handler, or none. -/
  | respond (blk : BroadcastedBlock) (clock : ℕ → UInt64) {handlers : List HandlerPc}
      (hhandlers : ∀ h ∈ handlers, h = .checking) :
    Move l (.syncResponse blk clock) { l with handlers := l.handlers ++ handlers }
  /-- A handler finds that the node is to be started. -/
  | check {i : ℕ} (hi : l.handlers[i]? = some .checking) (hready : l.ready = false) :
    Move l (.check i) { l with handlers := l.handlers.set i .enabling }
  | ended (x : BootInput) {i : ℕ} : Move l x
    { l with handlers := l.handlers.set i .ended }
  | enable {i : ℕ} (hi : l.handlers[i]? = some .enabling) (honce : l.once = false) :
    Move l (.enable i)
      { l with handlers := l.handlers.set i .starting, starts :=
        l.starts + 1, once := true }
  | finish {i : ℕ} (hi : l.handlers[i]? = some .starting) :
    Move l (.finish i) { l with handlers := l.handlers.set i .ended, ready := true }
  | keep (x : BootInput) : Move l x l

end Launch

/-- Reports that are close together, in the code's sense, are in the right
order. -/
theorem Node.world_le_of_aligned {cfg : Config} {n : Node}
    (h : n.isSyncWindowAligned cfg = true) :
    n.worldLatestSlot ≤ n.worldLatestPohSlot := by
  unfold isSyncWindowAligned at h
  simp only [Bool.and_eq_true, decide_eq_true_eq] at h
  obtain ⟨⟨⟨-, hpos⟩, -⟩, hgap⟩ := h
  by_contra hlt
  -- the difference wraps, and is at least the clock plus one
  have hlt' : n.worldLatestPohSlot.toNat < n.worldLatestSlot.toNat :=
    UInt64.lt_iff_toNat_lt.mp (UInt64.not_le.mp hlt)
  have hpos' : 0 < n.worldLatestPohSlot.toNat := UInt64.lt_iff_toNat_lt.mp hpos
  have hgap' : (n.worldLatestPohSlot - n.worldLatestSlot).toNat ≤ 1 :=
    UInt64.le_iff_toNat_le.mp hgap
  have hworld := n.worldLatestSlot.toNat_lt
  rw [UInt64.toNat_sub] at hgap'
  omega

/-- Putting a block into the queue leaves what matters to the start. -/
theorem Node.startView_addBlockToOrderingQueue {cfg : Config} {n n' : Node}
    {blk : BroadcastedBlock} {clock : ℕ → UInt64} {latest : Option BroadcastedBlock}
    (h : n.addBlockToOrderingQueue cfg blk clock = some (n', latest)) :
    n'.startView = n.startView := by
  by_cases hfree : blk.slot ∈ n.store.blocks
  · unfold addBlockToOrderingQueue at h
    rw [if_pos (Store.hasCompleteBlock_iff.mpr hfree)] at h
    cases h
    rfl
  · rw [addBlockToOrderingQueue_eq hfree] at h
    obtain ⟨c, -, hc⟩ := Option.map_eq_some_iff.mp h
    cases hc
    rfl

namespace Boot

variable {cfg : Config} {b b' : Boot} {n : Node}

theorem launch_begin (h : b.begin cfg n = some b') :
    b'.launch
      = { b.launch with toStartView := n.startView, starts := b.starts + 1 } := by
  obtain ⟨m, hm, rfl⟩ := Option.map_eq_some_iff.mp h
  have hview : ({ m with ready := n.ready } : Node).startView = n.startView := by
    unfold Node.startCoreServices at hm
    split at hm
    · cases hm
      rfl
    · split at hm
      · cases hm
      · cases hm
        rfl
  show ({ toStartView := ({ m with ready := n.ready } : Node).startView, pc := b.pc
          handlers := b.handlers.map SyncHandler.pc, requests := b.requests
          starts := b.starts + 1 } : Launch) = _
  rw [hview]
  rfl

theorem launch_setHandler (i : ℕ) (pc : HandlerPc) :
    (b.setHandler i pc).launch
      = { b.launch with handlers := b.launch.handlers.set i pc } := by
  have hmap : (b.handlers.modify i (fun h => { h with pc := pc })).map SyncHandler.pc
      = (b.handlers.map SyncHandler.pc).set i pc := by
    refine List.ext_getElem? (fun j => ?_)
    rw [List.getElem?_map, List.getElem?_modify, List.getElem?_set, List.length_map,
      List.getElem?_map]
    by_cases hij : i = j
    · subst hij
      by_cases hi : i < b.handlers.length
      · simp [hi]
      · simp [hi]
    · simp [hij]
  unfold launch setHandler
  rw [← hmap]

/-- A start of the services by the thread. -/
theorem launch_goto_begin {pc : BootPc}
    (h : (b.begin cfg n).map (·.goto pc) = some b') :
    b'.launch
      = { b.launch with toStartView := n.startView, starts := b.starts + 1, pc :=
        pc } := by
  obtain ⟨c, hc, rfl⟩ := Option.map_eq_some_iff.mp h
  have hlaunch := launch_begin hc
  exact congrArg (fun l : Launch => { l with pc := pc }) hlaunch

/-- What the next access of the thread does. -/
theorem move_of_proceed (h : b.proceed cfg = some b') :
    b.launch.Move .proceed b'.launch := by
  -- a wait of the thread that ends without a start
  have hleave : ∀ {pc : BootPc} {requests : List UInt64}, b.pc.Waiting →
      (b.pc.Aligning → b.node.worldLatestSlot ≤ b.node.worldLatestPohSlot) →
      pc ≠ .starting →
      b.launch.Move .proceed { b.launch with pc := pc, requests := requests } :=
    fun hfrom haligned hto => .thread hfrom hto haligned _
  have hthread : ∀ {pc : BootPc} {requests : List UInt64}, b.pc.Waiting →
    ¬b.pc.Aligning → pc ≠ .starting →
      b.launch.Move .proceed { b.launch with pc := pc, requests := requests } :=
    fun hfrom halign hto => hleave hfrom (fun h => absurd h halign) hto
  unfold proceed at h
  split at h
  · next hpc =>
    have hlaunch := launch_goto_begin h
    rw [hlaunch]
    exact .direct (show b.pc.Waiting by rw [hpc]; exact ⟨nofun, nofun⟩)
      (show ¬b.pc.Aligning by rw [hpc]; exact id)
  · next hpc =>
    cases h
    refine hthread (by rw [hpc]; exact ⟨nofun, nofun⟩) (by rw [hpc]; exact id) ?_
    split <;> exact nofun
  · next hpc =>
    cases h
    refine hthread (by rw [hpc]; exact ⟨nofun, nofun⟩) (by rw [hpc]; exact id) ?_
    split <;> exact nofun
  · next retryCount hpc =>
    have hwait : b.pc.Waiting := by rw [hpc]; exact ⟨nofun, nofun⟩
    have halign : ¬b.pc.Aligning := by rw [hpc]; exact id
    split at h
    · cases h
      exact hthread hwait halign nofun
    · split at h
      · cases h
        exact hthread hwait halign nofun
      · cases h
        exact hthread hwait halign nofun
  · next hpc =>
    have hwait : b.pc.Waiting := by rw [hpc]; exact ⟨nofun, nofun⟩
    have halign : ¬b.pc.Aligning := by rw [hpc]; exact id
    split at h
    · cases h
      exact hthread hwait halign nofun
    · next honce =>
      rw [launch_goto_begin h]
      exact .once hwait halign (Bool.eq_false_iff.mpr honce)
  · next hpc =>
    split at h
    · next haligned =>
      cases h
      have hwait : b.pc.Waiting := by rw [hpc]; exact ⟨nofun, nofun⟩
      exact hleave hwait (fun _ => Node.world_le_of_aligned haligned) nofun
    · cases h
      exact .keep _
  · next localLatestSlot hpc =>
    split at h
    · cases h
      exact .keep _
    · cases h
      exact hthread (by rw [hpc]; exact ⟨nofun, nofun⟩) (by rw [hpc]; exact id) nofun
  · next localLatestSlot hpc =>
    have hwait : b.pc.Waiting := by rw [hpc]; exact ⟨nofun, nofun⟩
    have halign : ¬b.pc.Aligning := by rw [hpc]; exact id
    split at h
    · rw [launch_goto_begin h]
      exact .direct hwait halign
    · cases h
      exact hthread hwait halign nofun
  · next localLatestSlot hpc =>
    split at h
    · next haligned =>
      cases h
      have hwait : b.pc.Waiting := by rw [hpc]; exact ⟨nofun, nofun⟩
      exact hleave hwait (fun _ => Node.world_le_of_aligned haligned) nofun
    · cases h
      exact .keep _
  · next localLatestSlot hpc =>
    have hwait : b.pc.Waiting := by rw [hpc]; exact ⟨nofun, nofun⟩
    have halign : ¬b.pc.Aligning := by rw [hpc]; exact id
    split at h
    · cases h
      exact hthread hwait halign nofun
    · cases h
      exact hthread hwait halign nofun
  · next hpc =>
    have hwait : b.pc.Waiting := by rw [hpc]; exact ⟨nofun, nofun⟩
    have halign : ¬b.pc.Aligning := by rw [hpc]; exact id
    split at h
    · cases h
      exact hthread hwait halign nofun
    · next honce =>
      rw [launch_goto_begin h]
      exact .once hwait halign (Bool.eq_false_iff.mpr honce)
  · next hpc =>
    cases h
    exact .ready hpc
  · cases h

theorem handlers_of_handleAt {i : ℕ} {pc : HandlerPc}
    (h : b.handleAt cfg i pc = some b') :
    ∃ hdl, b.launch.handlers[i]? = some pc ∧ b.handle cfg i hdl pc = some b' := by
  obtain ⟨hdl, hi, h⟩ := Option.bind_eq_some_iff.mp h
  split at h
  · next hpc =>
    refine ⟨hdl, ?_, h⟩
    show (b.handlers.map SyncHandler.pc)[i]? = some pc
    rw [List.getElem?_map, hi, ← hpc]
    rfl
  · cases h

theorem move_of_check {i : ℕ} (h : b.handleAt cfg i .checking = some b') :
    b.launch.Move (.check i) b'.launch := by
  obtain ⟨hdl, hi, h⟩ := handlers_of_handleAt h
  simp only [handle] at h
  split at h
  · next hcheck =>
    cases h
    rw [launch_setHandler]
    have hready : b.node.ready = false := by
      simpa using (Bool.and_eq_true_iff.mp hcheck).1
    exact .check hi hready
  · cases h
    rw [launch_setHandler]
    exact .ended _

/-- What a handler does that is to start the services. -/
theorem move_of_enable {i : ℕ} (h : b.handleAt cfg i .enabling = some b') :
    b.launch.Move (.enable i) b'.launch := by
  obtain ⟨hdl, hi, h⟩ := handlers_of_handleAt h
  simp only [handle] at h
  split at h
  · cases h
    rw [launch_setHandler]
    exact .ended _
  · next honce =>
    obtain ⟨c, hc, rfl⟩ := Option.map_eq_some_iff.mp h
    have hlaunch := launch_begin hc
    rw [launch_setHandler, hlaunch]
    exact .enable hi (Bool.eq_false_iff.mpr honce)

/-- What a handler does that has started the services. -/
theorem move_of_finish {i : ℕ} (h : b.handleAt cfg i .starting = some b') :
    b.launch.Move (.finish i) b'.launch := by
  obtain ⟨hdl, hi, h⟩ := handlers_of_handleAt h
  cases h
  rw [launch_setHandler]
  exact .finish hi

theorem move_of_step {x : BootInput} (h : b.step cfg x = some b') :
    b.launch.Move x b'.launch := by
  cases x with
  | proceed => exact move_of_proceed h
  | report latestSlot latestPohSlot =>
    cases h
    exact .report latestSlot latestPohSlot
  | syncResponse blk clock =>
    obtain ⟨r, hr, rfl⟩ := Option.map_eq_some_iff.mp h
    have hview := Node.startView_addBlockToOrderingQueue hr
    have hlaunch : ({ b with
        node := r.1
        handlers := b.handlers
          ++ (r.2.map fun latest => ⟨.checking, latest⟩).toList } :
          Boot).launch
        = { b.launch with handlers := b.launch.handlers
          ++ (r.2.map fun _ => HandlerPc.checking).toList } := by
      unfold launch
      rw [hview, List.map_append]
      cases r.2 <;> rfl
    rw [hlaunch]
    refine .respond blk clock (fun hdl hmem => ?_)
    rw [Option.mem_toList, Option.map_eq_some_iff] at hmem
    obtain ⟨-, -, rfl⟩ := hmem
    rfl
  | check i => exact move_of_check h
  | enable i => exact move_of_enable h
  | finish i => exact move_of_finish h
  | elsewhere n =>
    simp only [step] at h
    split at h
    · next hview =>
      cases h
      have hsame : ({ b with node := n } : Boot).launch = b.launch := by
        unfold launch
        rw [hview]
      rw [hsame]
      exact .keep _
    · cases h

end Boot

/-! ## How often the services are started -/

namespace Launch

/-- **The starts of which no third one comes.** One is told by
`enableFullModeOnce`, the other is the thread's. -/
structure Double (l : Launch) : Prop where
  before : l.pc.Waiting → l.starts = l.once.toNat
  after : l.starts ≤ l.once.toNat + 1

/-- **No move brings a third start.** -/
theorem Double.move {l l' : Launch} {x : BootInput} (h : l.Double)
    (hmove : l.Move x l') :
    l'.Double := by
  cases hmove with
  | thread hfrom => exact ⟨fun _ => h.before hfrom, h.after⟩
  | direct hfrom =>
    exact ⟨fun hwait => absurd rfl hwait.1,
      Nat.add_le_add_right (h.before hfrom).le 1⟩
  | once hfrom halign honce =>
    refine ⟨fun hwait => absurd rfl hwait.1, ?_⟩
    show l.starts + 1 ≤ 1 + 1
    rw [h.before hfrom, honce]
    decide
  | ready hfrom => exact ⟨fun hwait => absurd rfl hwait.2, h.after⟩
  | enable hi honce =>
    refine ⟨fun hwait => ?_, ?_⟩
    · show l.starts + 1 = 1
      rw [h.before hwait, honce]
      rfl
    · show l.starts + 1 ≤ 1 + 1
      have hle := h.after
      rw [honce] at hle
      exact Nat.add_le_add_right hle 1
  | report | respond | check | ended | finish | keep => exact ⟨h.before, h.after⟩

end Launch

namespace Boot

/-- **The services are started at most twice**, whatever thread and handlers
do in whatever order. -/
theorem starts_le_two {cfg : Config} {n : Node} (hnew : n.fullModeEnabled = false)
    {b : Boot} (hrun : Machine.Run (step cfg) Machine.Always (new cfg n) b) :
    b.starts ≤ 2 := by
  have hdouble : b.launch.Double := by
    refine Machine.Run.invariant (I := fun b => b.launch.Double) hrun
      ⟨fun _ => ?_, Nat.zero_le _⟩
      (fun t i t' ht _ hstep => ht.move (move_of_step hstep))
    show 0 = n.fullModeEnabled.toNat
    rw [hnew]
    rfl
  exact hdouble.after.trans (Nat.add_le_add_right (Bool.toNat_le _) 1)

/-! ## Waiting for slots and clocks -/

/-- **The reports in which no clock reaches a slot.** -/
def ClocksBelow (w : UInt64) (_ : Boot) : BootInput → Prop
  | .report _ latestPohSlot => latestPohSlot < w
  | .proceed | .syncResponse _ _ | .check _ | .enable _ | .finish _ | .elsewhere _ =>
    True

instance (w : UInt64) (b : Boot) (x : BootInput) : Decidable (ClocksBelow w b x) :=
  match x with
  | .report _ latestPohSlot => inferInstanceAs (Decidable (latestPohSlot < w))
  | .proceed | .syncResponse _ _ | .check _ | .enable _ | .finish _ | .elsewhere _ =>
    isTrue trivial

end Boot

/-- **A thread that waits**, for a slot that is ahead of the clocks. -/
structure Launch.Stuck (w : UInt64) (pc : BootPc) (requests : List UInt64)
    (l : Launch) : Prop where
  pc_eq : l.pc = pc
  requests_eq : l.requests = requests
  world : w ≤ l.world
  poh : l.poh < w

/-- **Every move leaves the thread waiting.** -/
theorem Launch.Stuck.move {w : UInt64} {pc : BootPc} {requests : List UInt64}
    {l l' : Launch} {x : BootInput} (h : l.Stuck w pc requests) (halign : pc.Aligning)
    (hmove : l.Move x l') (hpoh : ∀ slot poh, x = .report slot poh → poh < w) :
    l'.Stuck w pc requests := by
  have halign' : l.pc.Aligning := h.pc_eq ▸ halign
  cases hmove with
  | thread hfrom hto haligned =>
    exact absurd
      (UInt64.lt_of_le_of_lt (UInt64.le_trans h.world (haligned halign')) h.poh)
      (UInt64.lt_irrefl w)
  | direct hfrom hnot => exact absurd halign' hnot
  | once hfrom hnot => exact absurd halign' hnot
  | ready hfrom => exact absurd hfrom halign'.waiting.1
  | report latestSlot latestPohSlot =>
    refine ⟨h.pc_eq, h.requests_eq, ?_, ?_⟩
    · show w ≤ if l.world < latestSlot then latestSlot else l.world
      split
      · next hlt => exact UInt64.le_trans h.world (UInt64.le_of_lt hlt)
      · exact h.world
    · show (if l.poh < latestPohSlot then latestPohSlot else l.poh) < w
      split
      · exact hpoh _ _ rfl
      · exact h.poh
  | respond | check | ended | enable | finish | keep =>
    exact ⟨h.pc_eq, h.requests_eq, h.world, h.poh⟩

namespace Boot

/-- **A slot that is ahead of the clocks stops a start.** A thread waits for
slots and clocks that are close together, and a slot has been reported that
no clock has reached. As long as no clock does, the thread waits, whatever
else is reported and whatever else happens, and asks for no blocks. -/
theorem stuck_of_report {cfg : Config} {b b' : Boot} {w : UInt64}
    (halign : b.pc.Aligning) (hworld : w ≤ b.node.worldLatestSlot)
    (hpoh : b.node.worldLatestPohSlot < w)
    (hrun : Machine.Run (step cfg) (ClocksBelow w) b b') :
    b'.pc = b.pc ∧ b'.requests = b.requests := by
  have hstuck : b'.launch.Stuck w b.pc b.requests := by
    refine Machine.Run.invariant (I := fun t => t.launch.Stuck w b.pc b.requests) hrun
      ⟨rfl, rfl, hworld, hpoh⟩
        (fun t i t' ht hC hstep => ht.move halign (move_of_step hstep) ?_)
    rintro slot poh rfl
    exact hC
  exact ⟨hstuck.pc_eq, hstuck.requests_eq⟩

end Boot

end

section Sample

attribute [local instance] Sample.primitives

open Sample

/-- **There are two starts**: of the only validator, while a block of a sync
is handled. -/
theorem Boot.starts_le_two_attained :
    ∃ b, Machine.Run (Boot.step alone) Machine.Always
      (Boot.new alone (Node.new alone .empty)) b ∧ b.starts = 2 ∧ b.starts ≤ 2 := by
  have hexec : (Machine.exec (Boot.step alone) Machine.Always
    (Boot.new alone (Node.new alone .empty))
      [.report 1 1, .syncResponse blockOne (fun _ => 20), .check 0, .proceed,
        .proceed, .enable 0,
        .finish 0]).any (fun b => decide (b.starts = 2)) = true := by
    decide +kernel
  obtain ⟨b, hrun, h⟩ := Machine.exists_run_of_exec hexec
  exact ⟨b, hrun, of_decide_eq_true h, Boot.starts_le_two rfl hrun⟩

/-- One validator of four waits: slot 9 has been reported, and clocks at 3
and 4 do not help. -/
theorem Boot.stuck_of_report_nine :
    ∃ b b', Machine.Run (Boot.step (oneOfFour false)) Machine.Always
        (Boot.new (oneOfFour false) (Node.new (oneOfFour false) .empty)) b ∧
          b.pc = .alignFresh ∧
      Machine.Run (Boot.step (oneOfFour false)) (Boot.ClocksBelow 9) b b' ∧
      b'.node.worldLatestPohSlot = 4 ∧ b'.pc = b.pc ∧ b'.requests = b.requests := by
  have hexec : (Machine.exec (Boot.step (oneOfFour false)) Machine.Always
      (Boot.new (oneOfFour false) (Node.new (oneOfFour false) .empty))
        [.proceed, .report 9 3, .proceed]).any
      (fun b => decide (b.pc = .alignFresh ∧ 9 ≤ b.node.worldLatestSlot ∧
        b.node.worldLatestPohSlot < 9) &&
        (Machine.exec (Boot.step (oneOfFour false)) (Boot.ClocksBelow 9) b
          [.proceed, .report 3 4, .proceed, .proceed]).any
          (fun b' => decide (b'.node.worldLatestPohSlot = 4))) = true := by
    decide +kernel
  obtain ⟨b, hreach, h⟩ := Machine.exists_run_of_exec hexec
  obtain ⟨hb, hexec'⟩ := Bool.and_eq_true_iff.mp h
  obtain ⟨hpc, hworld, hpoh⟩ := of_decide_eq_true hb
  obtain ⟨b', hrun, h'⟩ := Machine.exists_run_of_exec hexec'
  have halign : b.pc.Aligning := by
    rw [hpc]
    trivial
  exact ⟨b, b', hreach, hpc, hrun, of_decide_eq_true h',
    Boot.stuck_of_report halign hworld hpoh hrun⟩

end Sample

end Mmn
