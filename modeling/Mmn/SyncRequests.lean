import Mmn.Stream

/-!
# The requests of a sync

Every peer that hears of a request for blocks opens a stream to answer it,
and one of the streams is read. A tracker says which: it is looked up in a
table by the identifier of the request, or put there, and then the handler
of the stream tries to activate it. Whoever comes second finds it active and
closes their stream. When the stream has been read, the tracker is looked up
again, everything it lists is closed, and it is taken out of the table. The
same table serves the requests of others: there the handler of the topic
activates the tracker without a stream, and takes it out when it has sent
its blocks. A cleanup goes through the table and takes out what is old and
not active.

The table has one lock and each tracker has another. The machine of this
file has the locked sections as its steps. Handlers and trackers are
numbered, and the stream a handler reads has the handler's number. The
cleanup is a pair of steps for each request it comes to, for it looks
whether a tracker is active before it has the lock of the tracker; the lock
of the table it keeps in between. That it lets go of it from one request to
the next is more than the code allows.
-/

namespace Mmn

/-! ## Trackers -/

/-- **A tracker**, with the time it was made or last looked through. -/
structure Tracker extends SyncRequestTracker where
  /-- In seconds. -/
  startTime : ℕ

/-- The age at which the cleanup looks at a tracker, in seconds. -/
abbrev trackerExpiry : ℕ := 30 * 60

namespace Tracker

/-- The tracker of a new request. -/
def new (req : SyncRequest) (now : ℕ) : Tracker :=
  { SyncRequestTracker.new req.requestID req.fromSlot req.toSlot
    with startTime := now }

/-- Register a peer, and listen to it if no other is listened to. -/
def activatePeer (t : Tracker) (peerID : String) (stream : Option ℕ) :
    Tracker × Bool :=
  ({ t with toSyncRequestTracker :=
    (t.toSyncRequestTracker.activatePeer peerID stream).1 },
    (t.toSyncRequestTracker.activatePeer peerID stream).2)

theorem activatePeer_of_inactive {t : Tracker} (h : t.isActive = false)
    (peerID : String) (stream : Option ℕ) :
    t.activatePeer peerID stream = ({ t with
      allPeers := t.allPeers.insert peerID stream
      activePeer := peerID
      activeStream := stream
      isActive := true }, true) := by
  unfold activatePeer SyncRequestTracker.activatePeer
  dsimp only
  rw [if_neg (Bool.eq_false_iff.mp h)]

theorem activatePeer_of_active {t : Tracker} (h : t.isActive = true) (peerID : String)
    (stream : Option ℕ) :
    t.activatePeer peerID stream
      = ({ t with allPeers := t.allPeers.insert peerID stream }, false) := by
  unfold activatePeer SyncRequestTracker.activatePeer
  dsimp only
  rw [if_pos h]

/-- Stop listening. The streams that are closed are given beside the
tracker. -/
def closeRequest (t : Tracker) : Tracker × List ℕ :=
  ({ t with isActive := false, activePeer := "", activeStream := none },
    t.activeStream.toList)

/-- Close the streams of the peers that are not listened to. -/
def closeAllOtherPeers (t : Tracker) : Tracker × List ℕ :=
  ({ t with allPeers := ∅ },
    (t.allPeers.entries.filter (fun e => e.1 ≠ t.activePeer)).filterMap
      (fun e => e.2))

/-- Stop listening, and close all streams. -/
def closeAll (t : Tracker) : Tracker × List ℕ :=
  ({ t with isActive := false, activePeer := "", activeStream := none, allPeers :=
    ∅ }, t.toSyncRequestTracker.closeAllPeers)

/-- The tracker has the stream of a peer, or listens to the stream. -/
def Lists (t : Tracker) (stream : ℕ) : Prop :=
  t.activeStream = some stream ∨ ∃ peerID,
    t.allPeers.lookup peerID = some (some stream)

/-- **What is left of a tracker that is not listened to any more**, and what
was closed. -/
structure Released (t t' : Tracker) (closed : List ℕ) : Prop where
  requestID : t'.requestID = t.requestID
  isActive : t'.isActive = false
  activeStream : t'.activeStream = none
  allPeers : ∀ peerID stream, t'.allPeers.lookup peerID = some stream →
    t.allPeers.lookup peerID = some stream
  closed : ∀ stream ∈ closed, t.Lists stream

theorem released_closeRequest (t : Tracker) :
    Released t t.closeRequest.1 t.closeRequest.2 where
  requestID := rfl
  isActive := rfl
  activeStream := rfl
  allPeers _ _ h := h
  closed _ h := Or.inl (Option.mem_toList.mp h)

theorem released_closeAll (t : Tracker) : Released t t.closeAll.1 t.closeAll.2 where
  requestID := rfl
  isActive := rfl
  activeStream := rfl
  allPeers _ _ h := by cases h
  closed stream h := by
    obtain hactive | hpeer := List.mem_append.mp h
    · exact Or.inl (Option.mem_toList.mp hactive)
    · obtain ⟨⟨peerID, st⟩, he, hst⟩ := List.mem_filterMap.mp hpeer
      obtain rfl : st = some stream := hst
      exact Or.inr ⟨peerID, AList.mem_lookup_iff.mpr he⟩

/-- The streams of the other peers are theirs. -/
theorem mem_closeAllOtherPeers {t : Tracker} {stream : ℕ}
    (h : stream ∈ t.closeAllOtherPeers.2) :
    ∃ peerID, t.allPeers.lookup peerID = some (some stream) ∧
      peerID ≠ t.activePeer := by
  obtain ⟨⟨peerID, st⟩, he, hst⟩ := List.mem_filterMap.mp h
  obtain ⟨he, hne⟩ := List.mem_filter.mp he
  obtain rfl : st = some stream := hst
  exact ⟨peerID, AList.mem_lookup_iff.mpr he, of_decide_eq_true hne⟩

end Tracker

/-! ## The machine -/

/-- **How far a handler is.** Trackers are given by their numbers. -/
inductive Stage where
  | start
  | found (t : ℕ)
  /-- The tracker was activated: the stream is read, or blocks are sent. -/
  | active (t : ℕ)
  /-- The stream to send blocks could not be opened. -/
  | abandoned (t : ℕ)
  | done
deriving DecidableEq

/-- The tracker it knows. -/
def Stage.tracker : Stage → Option ℕ
  | .found t | .active t | .abandoned t => some t
  | .start | .done => none

/-- The tracker it has activated and not taken out. -/
def Stage.held : Stage → Option ℕ
  | .active t | .abandoned t => some t
  | .start | .found _ | .done => none

/-- It has returned. -/
def Stage.Over : Stage → Prop
  | .abandoned _ | .done => True
  | .start | .found _ | .active _ => False

instance : (stage : Stage) → Decidable stage.Over
  | .abandoned _ | .done => isTrue trivial
  | .start | .found _ | .active _ => isFalse id

/-- **A handler**, of a stream or of a request on the topic. -/
structure Handler where
  peer : String
  reads : Bool
  request : SyncRequest
  stage : Stage

/-- The stream it reads has its own number. -/
def Handler.stream (h : Handler) (i : ℕ) :
    Option ℕ := if h.reads then some i else none

theorem Handler.eq_of_stream {h : Handler} {i stream : ℕ}
    (hst : h.stream i = some stream) :
    stream = i := by
  unfold Handler.stream at hst
  split at hst
  · exact (Option.some.inj hst).symm
  · cases hst

/-- **The requests of a node**, and who handles them. -/
structure SyncRequests where
  trackers : List Tracker
  syncRequests : AList (fun _ : String => ℕ)
  handlers : List Handler
  /-- The request the cleanup is at, with what it saw: it has the lock of
  the table. -/
  sweeping : Option (String × Bool)
  closed : Finset ℕ

/-- **The sections**, and what comes from outside. -/
inductive SyncEvent where
  /-- A peer opens a stream and says which request it answers. -/
  | stream (peer : String) (req : SyncRequest)
  | request (peer : String) (req : SyncRequest)
  /-- The node makes a request of its own. -/
  | submit (req : SyncRequest) (now : ℕ)
  | find (i : ℕ) (now : ℕ)
  /-- A handler tries to activate its tracker. -/
  | activate (i : ℕ)
  /-- A handler is through, and takes the tracker of its request out. -/
  | finish (i : ℕ)
  /-- A handler of the topic cannot open a stream, or not write to it. -/
  | abandon (i : ℕ)
  | inspect (requestID : String) (now : ℕ)
  | settle (now : ℕ)

namespace SyncRequests

/-- No requests. -/
def new : SyncRequests :=
  { trackers := [], syncRequests := ∅, handlers := [], sweeping := none, closed := ∅ }

/-- Close streams. -/
def close (s : SyncRequests) (streams : List ℕ) : SyncRequests :=
  { s with closed := s.closed ∪ streams.toFinset }

/-- A handler goes on. -/
def advance (s : SyncRequests) (i : ℕ) (h : Handler) (stage : Stage) : SyncRequests :=
  { s with handlers := s.handlers.set i { h with stage := stage } }

/-- A handler returns, and its stream is closed. -/
def leave (s : SyncRequests) (i : ℕ) (h : Handler) : SyncRequests :=
  (s.advance i h .done).close (h.stream i).toList

/-- Another handler. -/
def spawn (s : SyncRequests) (peer : String) (reads : Bool) (req : SyncRequest) :
    SyncRequests :=
  { s with handlers := s.handlers ++ [⟨peer, reads, req, .start⟩] }

/-- Another tracker, in the table. -/
def track (s : SyncRequests) (req : SyncRequest) (now : ℕ) : SyncRequests :=
  { s with
    trackers := s.trackers ++ [Tracker.new req now]
    syncRequests := s.syncRequests.insert req.requestID s.trackers.length }

/-- A tracker changes. -/
def setTracker (s : SyncRequests) (t : ℕ) (tr : Tracker) : SyncRequests :=
  { s with trackers := s.trackers.set t tr }

/-- A tracker after a call that closes streams, and out of the table. -/
def drop (s : SyncRequests) (requestID : String) (t : ℕ) (r : Tracker × List ℕ) :
    SyncRequests :=
  close { s.setTracker t r.1 with syncRequests := s.syncRequests.erase requestID } r.2

/-- The tracker of a request, with its number. -/
def lookup (s : SyncRequests) (requestID : String) : Option (ℕ × Tracker) :=
  (s.syncRequests.lookup requestID).bind fun t => s.trackers[t]?.map fun tr => (t, tr)

/-- Look the tracker of a request up, or make one. -/
def find (s : SyncRequests) (i now : ℕ) (h : Handler) : SyncRequests :=
  match s.syncRequests.lookup h.request.requestID with
  | some t => s.advance i h (.found t)
  | none => (s.track h.request now).advance i h (.found s.trackers.length)

/-- Try to activate a tracker. A handler that comes second returns. -/
def activate (s : SyncRequests) (i : ℕ) (h : Handler) (t : ℕ) (tr : Tracker) :
    SyncRequests :=
  let (tr', activated) := tr.activatePeer h.peer (h.stream i)
  if activated then (s.setTracker t tr').advance i h (.active t)
    else (s.setTracker t tr').leave i h

/-- Take the tracker of a request out: a handler of a stream closes all the
tracker lists, one of the topic stops it only. -/
def takeOut (s : SyncRequests) (h : Handler) : SyncRequests :=
  match s.lookup h.request.requestID with
  | none => s
  | some (t, tr) =>
    s.drop h.request.requestID t (if h.reads then tr.closeAll else tr.closeRequest)

/-- The cleanup deals with a request that is old: if it was active, only the
other streams are closed. -/
def settle (s : SyncRequests) (now : ℕ) (requestID : String) (active : Bool) :
    SyncRequests :=
  match s.lookup requestID with
  | none => s
  | some (t, tr) =>
    if active then
      (s.setTracker t { tr.closeAllOtherPeers.1 with startTime := now }).close
        tr.closeAllOtherPeers.2
    else s.drop requestID t tr.closeAll

/-- Is the identifier new? -/
def Unused (s : SyncRequests) (requestID : String) : Prop :=
  requestID ∉ s.syncRequests ∧ ∀ h ∈ s.handlers, h.request.requestID ≠ requestID

instance (s : SyncRequests) (requestID : String) : Decidable (s.Unused requestID) :=
  inferInstanceAs (Decidable (_ ∧ _))

/-- **One section.** Where it is not the handler's turn, or the lock is
taken, nothing happens. -/
def step (s : SyncRequests) : SyncEvent → Option SyncRequests
  | .stream peer req => some (s.spawn peer true req)
  | .request peer req =>
    -- the topic has one handler: the next message waits until it returns
    if ∀ h ∈ s.handlers, h.reads = true ∨
      h.stage.Over then some (s.spawn peer false req)
      else some s
  | .submit req now =>
    if s.sweeping = none ∧ s.Unused req.requestID then some (s.track req now)
      else some s
  | .find i now =>
    match s.sweeping, s.handlers[i]? with
    | none, some h => if h.stage = .start then some (s.find i now h) else some s
    | _, _ => some s
  | .activate i =>
    match s.handlers[i]? with
    | none => some s
    | some h =>
      match h.stage with
      | .found t =>
        match s.trackers[t]? with
        | none => some s
        | some tr => some (s.activate i h t tr)
      | _ => some s
  | .finish i =>
    match s.sweeping, s.handlers[i]? with
    | none, some h =>
      match h.stage with
      | .active _ => some ((s.leave i h).takeOut h)
      | _ => some s
    | _, _ => some s
  | .abandon i =>
    match s.handlers[i]? with
    | none => some s
    | some h =>
      match h.stage with
      | .active t => if h.reads then some s else some (s.advance i h (.abandoned t))
      | _ => some s
  | .inspect requestID now =>
    match s.sweeping, s.lookup requestID with
    | none, some (_, tr) =>
      if tr.startTime + trackerExpiry
        < now then some { s with sweeping := some (requestID, tr.isActive) }
      else some s
    | _, _ => some s
  | .settle now =>
    match s.sweeping with
    | none => some s
    | some (requestID, active) =>
      some (settle { s with sweeping := none } now requestID active)

theorem getElem?_setTracker {s : SyncRequests} {t : ℕ} {tr : Tracker}
    (htr : s.trackers[t]? = some tr) (tr' : Tracker) (u : ℕ) :
    (s.setTracker t tr').trackers[u]? = if u = t then some tr'
      else s.trackers[u]? := by
  show (s.trackers.set t tr')[u]? = _
  rw [List.getElem?_set]
  by_cases heq : t = u
  · rw [if_pos heq, if_pos heq.symm,
      if_pos (heq ▸ (List.getElem?_eq_some_iff.mp htr).1)]
  · rw [if_neg heq, if_neg (Ne.symm heq)]

theorem lookup_eq_some {s : SyncRequests} {requestID : String} {t : ℕ} {tr : Tracker}
    (h : s.lookup requestID = some (t, tr)) :
    s.syncRequests.lookup requestID = some t ∧ s.trackers[t]? = some tr := by
  unfold lookup at h
  obtain ⟨u, hu, hmap⟩ := Option.bind_eq_some_iff.mp h
  obtain ⟨tru, htru, heq⟩ := Option.map_eq_some_iff.mp hmap
  cases heq
  exact ⟨hu, htru⟩

/-! ## What a section does -/

/-- **What a section does**, and when. -/
inductive Does (s : SyncRequests) : SyncEvent → SyncRequests → Prop where
  | nothing {e : SyncEvent} : Does s e s
  | spawn {e : SyncEvent} (peer : String) (reads : Bool)
    (req : SyncRequest) : Does s e (s.spawn peer reads req)
  /-- A new request is put into the table. -/
  | submit {req : SyncRequest} {now : ℕ} (hfree : req.requestID ∉ s.syncRequests) :
    Does s (.submit req now) (s.track req now)
  | find {i now : ℕ} {h : Handler} (hi : s.handlers[i]? = some h)
    (hstage : h.stage = .start) :
    Does s (.find i now) (s.find i now h)
  /-- A handler tries to activate its tracker. -/
  | activate {i t : ℕ} {h : Handler} {tr : Tracker} (hi : s.handlers[i]? = some h)
    (hstage : h.stage = .found t)
    (htr : s.trackers[t]? = some tr) : Does s (.activate i) (s.activate i h t tr)
  | finish {i t : ℕ} {h : Handler} (hi : s.handlers[i]? = some h)
    (hstage : h.stage = .active t)
    (hsweep : s.sweeping = none) : Does s (.finish i) ((s.leave i h).takeOut h)
  | abandon {i t : ℕ} {h : Handler} (hi : s.handlers[i]? = some h)
    (hstage : h.stage = .active t) :
    Does s (.abandon i) (s.advance i h (.abandoned t))
  | inspect {requestID : String} {now t : ℕ} {tr : Tracker}
    (hlookup : s.lookup requestID = some (t, tr)) :
    Does s (.inspect requestID now)
      { s with sweeping := some (requestID, tr.isActive) }
  | settle {requestID : String} {active : Bool} {now : ℕ}
    (hsweep : s.sweeping = some (requestID, active)) :
    Does s (.settle now) (SyncRequests.settle { s with sweeping := none } now
      requestID active)

theorem does_of_step {s s' : SyncRequests} {e : SyncEvent}
    (hstep : s.step e = some s') :
    s.Does e s' := by
  cases e with
  | stream peer req =>
    cases hstep
    exact .spawn peer true req
  | request peer req =>
    dsimp only [step] at hstep
    split at hstep <;> cases hstep
    · exact .spawn peer false req
    · exact .nothing
  | submit req now =>
    dsimp only [step] at hstep
    split at hstep <;> cases hstep
    · next hnew => exact .submit hnew.2.1
    · exact .nothing
  | find i now =>
    dsimp only [step] at hstep
    split at hstep
    · next h _ hi =>
      split at hstep <;> cases hstep
      · next hstage => exact .find hi hstage
      · exact .nothing
    · cases hstep
      exact .nothing
  | activate i =>
    dsimp only [step] at hstep
    split at hstep
    · cases hstep
      exact .nothing
    · next h hi =>
      split at hstep
      · next t hstage =>
        split at hstep <;> cases hstep
        · exact .nothing
        · next tr htr => exact .activate hi hstage htr
      · cases hstep
        exact .nothing
  | finish i =>
    dsimp only [step] at hstep
    split at hstep
    · next h hsweep hi =>
      split at hstep <;> cases hstep
      · next t hstage => exact .finish hi hstage hsweep
      · exact .nothing
    · cases hstep
      exact .nothing
  | abandon i =>
    dsimp only [step] at hstep
    split at hstep
    · cases hstep
      exact .nothing
    · next h hi =>
      split at hstep
      · next t hstage =>
        split at hstep <;> cases hstep
        · exact .nothing
        · exact .abandon hi hstage
      · cases hstep
        exact .nothing
  | inspect requestID now =>
    dsimp only [step] at hstep
    split at hstep
    · next t tr _ hlookup =>
      split at hstep <;> cases hstep
      · exact .inspect hlookup
      · exact .nothing
    · cases hstep
      exact .nothing
  | settle now =>
    dsimp only [step] at hstep
    split at hstep <;> cases hstep
    · exact .nothing
    · next requestID active hsweep => exact .settle hsweep

/-- Trackers are in the table under the identifier they are for. -/
def Named (s : SyncRequests) : Prop :=
  ∀ requestID t, s.syncRequests.lookup requestID = some t →
    ∃ tr, s.trackers[t]? = some tr ∧ tr.requestID = requestID

/-- A new tracker is put into the table. -/
theorem Named.track {s : SyncRequests} (hnamed : s.Named) (req : SyncRequest)
    (now : ℕ) :
    (s.track req now).Named := by
  intro requestID t ht
  have ht' : (s.syncRequests.insert req.requestID s.trackers.length).lookup requestID
      = some t := ht
  by_cases heq : requestID = req.requestID
  · rw [heq, AList.lookup_insert] at ht'
    obtain rfl : s.trackers.length = t := Option.some.inj ht'
    exact ⟨Tracker.new req now, List.getElem?_concat_length, heq.symm⟩
  · rw [AList.lookup_insert_ne heq] at ht'
    obtain ⟨tr, htr, hfor⟩ := hnamed requestID t ht'
    refine ⟨tr, ?_, hfor⟩
    show (s.trackers ++ _)[t]? = _
    rw [List.getElem?_append_left (List.getElem?_eq_some_iff.mp htr).1]
    exact htr

theorem handlers_takeOut (s : SyncRequests) (h : Handler) :
    (s.takeOut h).handlers = s.handlers := by
  unfold takeOut
  split <;> rfl

theorem handlers_settle (s : SyncRequests) (now : ℕ) (requestID : String)
    (active : Bool) :
    (s.settle now requestID active).handlers = s.handlers := by
  unfold settle
  split
  · rfl
  · split <;> rfl

theorem handlers_activate (s : SyncRequests) (i t : ℕ) (h : Handler) (tr : Tracker) :
    ∃ h', (s.activate i h t tr).handlers = s.handlers.set i h' := by
  unfold activate
  dsimp only
  split
  · exact ⟨_, rfl⟩
  · exact ⟨_, rfl⟩

theorem handlers_find (s : SyncRequests) (i now : ℕ) (h : Handler) :
    ∃ h', (s.find i now h).handlers = s.handlers.set i h' := by
  unfold find
  split
  · exact ⟨_, rfl⟩
  · exact ⟨_, rfl⟩

/-- **What a section does to the handlers**: one begins, or one that has not
returned goes on. -/
theorem handlers_step {s s' : SyncRequests} {e : SyncEvent}
    (hstep : s.step e = some s') :
    s'.handlers = s.handlers ∨ (∃ h, s'.handlers = s.handlers ++ [h]) ∨
      ∃ (i : ℕ) (h h' : Handler), s.handlers[i]? = some h ∧ ¬h.stage.Over ∧
        s'.handlers = s.handlers.set i h' := by
  cases does_of_step hstep with
  | nothing | submit | inspect => exact Or.inl rfl
  | spawn => exact Or.inr (Or.inl ⟨_, rfl⟩)
  | @find i now h hi hstage =>
    obtain ⟨h', hset⟩ := s.handlers_find i now h
    exact Or.inr (Or.inr ⟨i, h, h', hi, hstage ▸ id, hset⟩)
  | @activate i t h tr hi hstage =>
    obtain ⟨h', hset⟩ := s.handlers_activate i t h tr
    exact Or.inr (Or.inr ⟨i, h, h', hi, hstage ▸ id, hset⟩)
  | @finish i t h hi hstage =>
    exact Or.inr (Or.inr ⟨i, h, _, hi, hstage ▸ id, handlers_takeOut _ h⟩)
  | @abandon i t h hi hstage => exact Or.inr (Or.inr ⟨i, h, _, hi, hstage ▸ id, rfl⟩)
  | settle => exact Or.inl (handlers_settle _ _ _ _)

end SyncRequests

end Mmn
