import Mathlib.Data.Finset.Basic
import Mmn.Runs
import Mmn.StatusEvents
import Mmn.Table

/-!
# The event bus

`events.EventBus` hands the events of the node on to the clients that have
subscribed to them. Each has a channel with a buffer, and `Publish` goes
through the subscribers and puts the event where there is room. There is no
lock: the map is a `sync.Map`, the number of subscribers an atomic counter
beside it, and each subscriber has a flag that says it is closed.
Publications run on threads of their own, and subscribers come and go
meanwhile.

The machine of this file has each access to the map, the counter, the flags
and the channels as a step. The subscribers are those of
`SubscribeTransactionStatus`, which unsubscribes once, when it ends. What a
step can do is said once, for the whole state (`move_of_step`), and then for
one subscriber (`Move.subscriber`) and for one publication
(`Move.publication`); `Subscriptions.lean` has what follows for all
interleavings.
-/

/-! ## Going through a map that changes

A walk goes through the keys of a map while others add keys to it and take
keys out. No key is visited twice. A key that is there for some of the time
may be visited or not; a key that is there for all of the time has been
visited when the walk is over, and a key that is not there for any of the
time is not visited. This is what `sync.Map` promises of `Range`, and it is
all that can be used of it. -/

/-- **A walk under way.** -/
structure Walk (κ : Type) where
  /-- The keys that were there at some time since the walk began. -/
  may : Finset κ
  must : Finset κ
  visited : Finset κ

namespace Walk

variable {κ : Type} [DecidableEq κ]

/-- A walk that begins. -/
def start (keys : Finset κ) : Walk κ := { may := keys, must := keys, visited := ∅ }

/-- Somebody adds a key. -/
def added (w : Walk κ) (k : κ) : Walk κ := { w with may := insert k w.may }

/-- Somebody takes a key out. -/
def removed (w : Walk κ) (k : κ) : Walk κ := { w with must := w.must.erase k }

/-- May the key be visited next? -/
def CanVisit (w : Walk κ) (k : κ) : Prop := k ∈ w.may ∧ k ∉ w.visited

/-- A key is visited. -/
def visit (w : Walk κ) (k : κ) : Walk κ := { w with visited := insert k w.visited }

/-- May the walk end? -/
def CanEnd (w : Walk κ) : Prop := w.must ⊆ w.visited

instance (w : Walk κ) (k : κ) : Decidable (w.CanVisit k) :=
  inferInstanceAs (Decidable (_ ∧ _))

instance (w : Walk κ) :
    Decidable w.CanEnd := inferInstanceAs (Decidable (w.must ⊆ w.visited))

/-- **Taking out one key leaves the others.** -/
theorem mem_must_removed {w : Walk κ} {k k' : κ} (h : k ∈ w.must) (hne : k ≠ k') :
    k ∈ (w.removed k').must :=
  Finset.mem_erase.mpr ⟨hne, h⟩

omit [DecidableEq κ] in
/-- **A key that was there all the time has been visited** when the walk
ends. -/
theorem CanEnd.visited {w : Walk κ} (hend : w.CanEnd) {k : κ} (h : k ∈ w.must) :
    k ∈ w.visited :=
  hend h

@[simp] theorem mem_visited_visit {w : Walk κ} {k k' : κ} :
    k' ∈ (w.visit k).visited ↔ k' = k ∨ k' ∈ w.visited := Finset.mem_insert

end Walk

namespace Mmn

/-! ## The bus -/

/-- A subscriber's identifier. -/
abbrev SubscriberID : Type := String

/-- Where the handler of a subscription is. -/
inductive SubscriberPc where
  /-- `Subscribe` has seen the bus open, and made the channel. -/
  | opened
  /-- It has put the subscriber into the map. -/
  | stored
  /-- It has incremented the counter, and returned. -/
  | live
  /-- `Unsubscribe` has found the subscriber. -/
  | leaving
  | marked
  /-- It has taken the subscriber out of the map. -/
  | deleted
  /-- It has decremented the counter, and returned. -/
  | gone
deriving DecidableEq

/-- **`Subscriber`**, with the state of its handler. -/
structure Subscriber where
  pc : SubscriberPc
  registered : Bool
  /-- `closed`. -/
  closed : Bool
  /-- What waits in `Channel`. -/
  channel : List BlockchainEvent
  capacity : ℕ
  /-- What the handler has taken from it, in order. -/
  received : List BlockchainEvent

/-- A subscriber whose channel has been made. -/
def Subscriber.new (buffer : ℕ) : Subscriber :=
  { pc := .opened, registered := false, closed := false, channel := [],
    capacity := buffer, received := [] }

/-- What a publication did about a subscriber. -/
inductive Handover where
  | skipped
  | sent
  | full
deriving DecidableEq

/-- What a publication did about the subscribers so far. -/
abbrev Handovers : Type := AList (fun _ : SubscriberID => Handover)

/-- Where a `Publish` is. -/
inductive PublishPc where
  | started
  | opened
  | counted
  | ranging (walk : Walk SubscriberID) (handovers : Handovers)
  /-- It has seen the flag of a subscriber down, and will send. -/
  | sending (walk : Walk SubscriberID) (handovers : Handovers) (id : SubscriberID)
  | returned (handovers : Handovers)

/-- A call of `Publish`. -/
structure Publication where
  event : BlockchainEvent
  pc : PublishPc

/-- Where `Shutdown` is. -/
inductive ShutdownPc where
  | idle
  | deleting (walk : Walk SubscriberID)
  | returned

/-- `DefaultBuffer`. -/
abbrev defaultBuffer : ℕ := 256

/-- **`EventBus`**, with the calls under way. -/
structure EventBus where
  subscribers : AList (fun _ : SubscriberID => Subscriber)
  /-- `count`. -/
  count : UInt64
  /-- `closed`. -/
  closed : Bool
  /-- `buffer`. -/
  buffer : ℕ
  /-- The publications, in the order in which they were begun. -/
  publications : List Publication
  shutdown : ShutdownPc

/-- **The accesses.** -/
inductive BusInput where
  /-- `SetBuffer`. -/
  | setBuffer (buffer : ℤ)
  /-- A client subscribes; its identifier will be this. -/
  | subscribe (id : SubscriberID)
  /-- The next access of the handler of a subscription. -/
  | advance (id : SubscriberID)
  /-- The handler takes an event from the channel. -/
  | receive (id : SubscriberID)
  /-- `Publish` is called. -/
  | publish (event : BlockchainEvent)
  /-- The next access of a publication before it goes through the map. -/
  | proceed (i : ℕ)
  /-- A publication comes to a subscriber and reads its flag. -/
  | visit (i : ℕ) (id : SubscriberID)
  | send (i : ℕ)
  | finish (i : ℕ)
  /-- `Shutdown` is called. -/
  | shutdown
  /-- `Shutdown` takes a subscriber out of the map. -/
  | delete (id : SubscriberID)
  /-- `Shutdown` is through the map. -/
  | endShutdown

namespace EventBus

/-- `NewEventBus`. -/
def new : EventBus :=
  { subscribers := ∅, count := 0, closed := false, buffer := defaultBuffer,
    publications := []
    shutdown := .idle }

/-- The keys of the map. -/
def registeredIDs (eb : EventBus) : Finset SubscriberID :=
  (eb.subscribers.keys.filter
    (fun id => ((eb.subscribers.lookup id).map Subscriber.registered).getD
      false)).toFinset

/-- `GetTotalSubscriptions`. -/
def getTotalSubscriptions (eb : EventBus) : ℤ := eb.count.toInt64.toInt

end EventBus

/-- A walk of a publication sees a change of the map. -/
def PublishPc.mapWalk (f : Walk SubscriberID → Walk SubscriberID) :
    PublishPc → PublishPc
  | .started => .started
  | .opened => .opened
  | .counted => .counted
  | .ranging walk handovers => .ranging (f walk) handovers
  | .sending walk handovers id => .sending (f walk) handovers id
  | .returned handovers => .returned handovers

/-- The walk of the shutdown sees a change of the map. -/
def ShutdownPc.mapWalk (f : Walk SubscriberID → Walk SubscriberID) :
    ShutdownPc → ShutdownPc
  | .idle => .idle
  | .deleting walk => .deleting (f walk)
  | .returned => .returned

namespace EventBus

/-- The state of a subscriber changes. -/
def setSubscriber (eb : EventBus) (id : SubscriberID) (s : Subscriber) : EventBus :=
  { eb with subscribers := eb.subscribers.insert id s }

/-- A publication goes on. -/
def setPc (eb : EventBus) (i : ℕ) (pc : PublishPc) : EventBus :=
  { eb with publications := eb.publications.modify i (fun p => { p with pc := pc }) }

/-- All walks under way see a change of the map. -/
def mapWalks (eb : EventBus) (f : Walk SubscriberID → Walk SubscriberID) : EventBus :=
  { eb with
    publications := eb.publications.map (fun p => { p with pc := p.pc.mapWalk f })
    shutdown := eb.shutdown.mapWalk f }

/-- **The next access of the handler of a subscription.** -/
def advance (eb : EventBus) (id : SubscriberID) (s : Subscriber) : Option EventBus :=
  match s.pc with
  | .opened =>
    some ((eb.setSubscriber id { s with pc := .stored, registered := true }).mapWalks
      (·.added id))
  | .stored =>
    some { eb.setSubscriber id { s with pc := .live } with count := eb.count + 1 }
  | .live =>
    some
      (eb.setSubscriber id { s with pc := if s.registered then .leaving else .gone })
  | .leaving => some (eb.setSubscriber id { s with pc := .marked, closed := true })
  | .marked =>
    some
      ((eb.setSubscriber id { s with pc := .deleted, registered := false }).mapWalks
      (·.removed id))
  | .deleted =>
    some { eb.setSubscriber id { s with pc := .gone } with count := eb.count - 1 }
  | .gone => none

/-- The accesses of a publication before it goes through the map. -/
def proceed (eb : EventBus) (i : ℕ) : PublishPc → Option EventBus
  | .started => some (eb.setPc i (if eb.closed then .returned ∅ else .opened))
  | .opened =>
    some (eb.setPc i (if 0 < eb.getTotalSubscriptions then .counted else .returned ∅))
  | .counted => some (eb.setPc i (.ranging (.start eb.registeredIDs) ∅))
  | .ranging _ _ | .sending _ _ _ | .returned _ => none

/-- A publication comes to a subscriber. -/
def visit (eb : EventBus) (i : ℕ) (id : SubscriberID) (s : Subscriber) :
    PublishPc → Option EventBus
  | .ranging walk handovers =>
    if walk.CanVisit id then
      some
        (eb.setPc i (if s.closed then .ranging (walk.visit id)
          (handovers.insert id .skipped)
        else .sending (walk.visit id) handovers id))
    else none
  | .started | .opened | .counted | .sending _ _ _ | .returned _ => none

/-- **A publication sends**, if there is room. -/
def send (eb : EventBus) (i : ℕ) (event : BlockchainEvent) :
    PublishPc → Option EventBus
  | .sending walk handovers id =>
    match eb.subscribers.lookup id with
    | none => none
    | some s =>
      if s.channel.length < s.capacity then
        some ((eb.setSubscriber id { s with channel := s.channel ++ [event] }).setPc i
          (.ranging walk (handovers.insert id .sent)))
      else some (eb.setPc i (.ranging walk (handovers.insert id .full)))
  | .started | .opened | .counted | .ranging _ _ | .returned _ => none

/-- A publication is through the map. -/
def finish (eb : EventBus) (i : ℕ) : PublishPc → Option EventBus
  | .ranging walk handovers =>
    if walk.CanEnd then some (eb.setPc i (.returned handovers)) else none
  | .started | .opened | .counted | .sending _ _ _ | .returned _ => none

/-- The accesses of a shutdown that goes through the map. -/
def delete (eb : EventBus) (id : SubscriberID) (s : Subscriber) :
    ShutdownPc → Option EventBus
  | .deleting walk =>
    if walk.CanVisit id then
      let eb := { eb with shutdown := .deleting (walk.visit id) }
      some ((eb.setSubscriber id { s with registered := false }).mapWalks
        (·.removed id))
    else none
  | .idle | .returned => none

/-- A shutdown is through the map. -/
def endShutdown (eb : EventBus) : ShutdownPc → Option EventBus
  | .deleting walk =>
    if walk.CanEnd then some { eb with count := 0, shutdown := .returned } else none
  | .idle | .returned => none

/-- **One access.** Accesses that are not due have no state after them. -/
def step (eb : EventBus) : BusInput → Option EventBus
  | .setBuffer buffer =>
    some { eb with buffer := if buffer ≤ 0 then defaultBuffer else buffer.toNat }
  | .subscribe id =>
    if eb.closed then some eb
    else if id ∈ eb.subscribers then none
    else some (eb.setSubscriber id (.new eb.buffer))
  | .advance id => (eb.subscribers.lookup id).bind (eb.advance id)
  | .receive id => (eb.subscribers.lookup id).bind fun s =>
      match s.pc, s.channel with
      | .live, event :: rest =>
        some
          (eb.setSubscriber id { s with channel := rest, received := s.received
            ++ [event] })
      | _, _ => none
  | .publish event =>
    some { eb with publications := eb.publications
      ++ [{ event := event, pc := .started }] }
  | .proceed i => eb.publications[i]?.bind fun p => eb.proceed i p.pc
  | .visit i id => eb.publications[i]?.bind fun p =>
      (eb.subscribers.lookup id).bind fun s => eb.visit i id s p.pc
  | .send i => eb.publications[i]?.bind fun p => eb.send i p.event p.pc
  | .finish i => eb.publications[i]?.bind fun p => eb.finish i p.pc
  | .shutdown =>
    if eb.closed then some eb
    else some
      { eb with closed := true, shutdown := .deleting (.start eb.registeredIDs) }
  | .delete id => (eb.subscribers.lookup id).bind fun s => eb.delete id s eb.shutdown
  | .endShutdown => eb.endShutdown eb.shutdown

/-! ## What a step can do -/

variable {eb eb' : EventBus} {id : SubscriberID} {s s' : Subscriber} {i : ℕ}
  {p : Publication}

/-- What a step of the handler of a subscription does, beside the map. -/
inductive HandlerMove (count : UInt64) (s : Subscriber) : Subscriber → UInt64 → Prop
  | increment (hpc : s.pc = .stored) : HandlerMove count s { s with pc := .live }
    (count + 1)
  | load (hpc : s.pc = .live) :
    HandlerMove count s { s with pc := if s.registered then .leaving else .gone }
      count
  | mark (hpc : s.pc = .leaving) : HandlerMove count s
    { s with pc := .marked, closed := true } count
  | decrement (hpc : s.pc = .deleted) : HandlerMove count s { s with pc := .gone }
    (count - 1)

/-- What a step of a publication does, where it does not deliver. -/
inductive PublishMove (eb : EventBus) : PublishPc → PublishPc → Prop
  | refused (h : eb.closed = true) : PublishMove eb .started (.returned ∅)
  | opened : PublishMove eb .started .opened
  | nobody (h : ¬0 < eb.getTotalSubscriptions) : PublishMove eb .opened (.returned ∅)
  | counted : PublishMove eb .opened .counted
  | range : PublishMove eb .counted (.ranging (.start eb.registeredIDs) ∅)
  | skip {walk : Walk SubscriberID} (handovers : Handovers) {id : SubscriberID}
    {s : Subscriber}
      (hs : eb.subscribers.lookup id = some s) (hclosed : s.closed = true)
        (hvisit : walk.CanVisit id) :
    PublishMove eb (.ranging walk handovers)
      (.ranging (walk.visit id) (handovers.insert id .skipped))
  | choose {walk : Walk SubscriberID} (handovers : Handovers) {id : SubscriberID}
    {s : Subscriber}
      (hs : eb.subscribers.lookup id = some s) (hclosed : s.closed = false)
        (hvisit : walk.CanVisit id) :
    PublishMove eb (.ranging walk handovers) (.sending (walk.visit id) handovers id)
  /-- There is no room in the channel. -/
  | full (walk : Walk SubscriberID) (handovers : Handovers) (id : SubscriberID) :
    PublishMove eb (.sending walk handovers id)
      (.ranging walk (handovers.insert id .full))
  | finish {walk : Walk SubscriberID} (handovers : Handovers) (hend : walk.CanEnd) :
    PublishMove eb (.ranging walk handovers) (.returned handovers)

/-- **What a step does.** -/
inductive Move (eb : EventBus) : EventBus → Prop
  | buffer (buffer : ℕ) : Move eb { eb with buffer := buffer }
  | keep : Move eb eb
  | enter {id : SubscriberID} (hid : id ∉ eb.subscribers) : Move eb
    (eb.setSubscriber id (.new eb.buffer))
  /-- It puts a subscriber into the map. -/
  | store {id : SubscriberID} {s : Subscriber}
    (hs : eb.subscribers.lookup id = some s)
      (hpc : s.pc = .opened) :
    Move eb
      ((eb.setSubscriber id { s with pc := .stored, registered := true }).mapWalks
      (·.added id))
  /-- It is a step of a handler beside the map. -/
  | handler {id : SubscriberID} {s s' : Subscriber} {count : UInt64}
      (hs : eb.subscribers.lookup id = some s)
        (hmove : HandlerMove eb.count s s' count) :
    Move eb { eb.setSubscriber id s' with count := count }
  /-- A handler takes itself out of the map. -/
  | remove {id : SubscriberID} {s : Subscriber}
    (hs : eb.subscribers.lookup id = some s)
      (hpc : s.pc = .marked) :
    Move eb
      ((eb.setSubscriber id { s with pc := .deleted, registered := false }).mapWalks
      (·.removed id))
  | receive {id : SubscriberID} {s : Subscriber} {event : BlockchainEvent}
    {rest : List BlockchainEvent}
      (hs : eb.subscribers.lookup id = some s)
        (hchannel : s.channel = event :: rest) :
    Move eb
      (eb.setSubscriber id { s with channel := rest, received := s.received
        ++ [event] })
  | publish (event : BlockchainEvent) :
    Move eb { eb with publications := eb.publications
      ++ [{ event := event, pc := .started }] }
  | proceed {i : ℕ} {p : Publication} {pc : PublishPc}
    (hp : eb.publications[i]? = some p)
      (hmove : PublishMove eb p.pc pc) : Move eb (eb.setPc i pc)
  | deliver {i : ℕ} {event : BlockchainEvent} {walk : Walk SubscriberID}
    {handovers : Handovers}
      {id : SubscriberID} {s : Subscriber}
      (hp : eb.publications[i]?
        = some { event := event, pc := .sending walk handovers id })
      (hs : eb.subscribers.lookup id = some s) :
    Move eb ((eb.setSubscriber id { s with channel := s.channel ++ [event] }).setPc i
      (.ranging walk (handovers.insert id .sent)))
  | shutdown : Move eb
    { eb with closed := true, shutdown := .deleting (.start eb.registeredIDs) }
  /-- The shutdown takes a subscriber out of the map. -/
  | delete {id : SubscriberID} {s : Subscriber} {walk : Walk SubscriberID}
      (hs : eb.subscribers.lookup id = some s)
        (hshutdown : eb.shutdown = .deleting walk) :
    Move eb (({ eb with shutdown := .deleting (walk.visit id) }.setSubscriber id
      { s with registered := false }).mapWalks (·.removed id))
  /-- The shutdown sets the counter to zero. -/
  | endShutdown {walk : Walk SubscriberID}
    (hshutdown : eb.shutdown = .deleting walk) :
    Move eb { eb with count := 0, shutdown := .returned }

theorem move_of_advance (hs : eb.subscribers.lookup id = some s)
    (h : eb.advance id s = some eb') :
    Move eb eb' := by
  unfold advance at h
  split at h
  · next hpc =>
    cases h
    exact .store hs hpc
  · next hpc =>
    cases h
    exact .handler hs (.increment hpc)
  · next hpc =>
    cases h
    exact .handler hs (.load hpc)
  · next hpc =>
    cases h
    exact .handler hs (.mark hpc)
  · next hpc =>
    cases h
    exact .remove hs hpc
  · next hpc =>
    cases h
    exact .handler hs (.decrement hpc)
  · cases h

/-- What a step of a publication before its walk does. -/
theorem move_of_proceed (hp : eb.publications[i]? = some p)
    (h : eb.proceed i p.pc = some eb') :
    Move eb eb' := by
  unfold proceed at h
  split at h
  · next hpc =>
    cases h
    refine .proceed hp ?_
    rw [hpc]
    split
    · next hclosed => exact .refused hclosed
    · exact .opened
  · next hpc =>
    cases h
    refine .proceed hp ?_
    rw [hpc]
    split
    · exact .counted
    · next hcount => exact .nobody hcount
  · next hpc =>
    cases h
    refine .proceed hp ?_
    rw [hpc]
    exact .range
  all_goals cases h

theorem move_of_visit (hp : eb.publications[i]? = some p)
    (hs : eb.subscribers.lookup id = some s) (h : eb.visit i id s p.pc = some eb') :
    Move eb eb' := by
  unfold visit at h
  split at h
  · next walk handovers hpc =>
    split at h
    · next hvisit =>
      cases h
      refine .proceed hp ?_
      rw [hpc]
      split
      · next hclosed => exact .skip handovers hs hclosed hvisit
      · next hclosed =>
          exact .choose handovers hs (Bool.eq_false_iff.mpr hclosed) hvisit
    · cases h
  all_goals cases h

theorem move_of_send (hp : eb.publications[i]? = some p)
    (h : eb.send i p.event p.pc = some eb') :
    Move eb eb' := by
  unfold send at h
  split at h
  · next walk handovers id hpc =>
    split at h
    · cases h
    · next s hs =>
      split at h
      · cases h
        have hp' : eb.publications[i]?
            = some { event := p.event, pc := .sending walk handovers id } := by
          rw [hp, ← hpc]
        exact .deliver hp' hs
      · cases h
        refine .proceed hp ?_
        rw [hpc]
        exact .full walk handovers id
  all_goals cases h

theorem move_of_finish (hp : eb.publications[i]? = some p)
    (h : eb.finish i p.pc = some eb') :
    Move eb eb' := by
  unfold finish at h
  split at h
  · next walk handovers hpc =>
    split at h
    · next hend =>
      cases h
      refine .proceed hp ?_
      rw [hpc]
      exact .finish handovers hend
    · cases h
  all_goals cases h

theorem move_of_step {x : BusInput} (h : eb.step x = some eb') : Move eb eb' := by
  cases x with
  | setBuffer buffer =>
    cases h
    exact .buffer _
  | subscribe id =>
    simp only [step] at h
    split at h
    · cases h
      exact .keep
    · split at h
      · cases h
      · next hid =>
        cases h
        exact .enter hid
  | advance id =>
    obtain ⟨s, hs, h⟩ := Option.bind_eq_some_iff.mp h
    exact move_of_advance hs h
  | receive id =>
    obtain ⟨s, hs, h⟩ := Option.bind_eq_some_iff.mp h
    split at h
    · next hchannel =>
      cases h
      exact .receive hs hchannel
    · cases h
  | publish event =>
    cases h
    exact .publish event
  | proceed i =>
    obtain ⟨p, hp, h⟩ := Option.bind_eq_some_iff.mp h
    exact move_of_proceed hp h
  | visit i id =>
    obtain ⟨p, hp, h⟩ := Option.bind_eq_some_iff.mp h
    obtain ⟨s, hs, h⟩ := Option.bind_eq_some_iff.mp h
    exact move_of_visit hp hs h
  | send i =>
    obtain ⟨p, hp, h⟩ := Option.bind_eq_some_iff.mp h
    exact move_of_send hp h
  | finish i =>
    obtain ⟨p, hp, h⟩ := Option.bind_eq_some_iff.mp h
    exact move_of_finish hp h
  | shutdown =>
    simp only [step] at h
    split at h
    · cases h
      exact .keep
    · cases h
      exact .shutdown
  | delete id =>
    obtain ⟨s, hs, h⟩ := Option.bind_eq_some_iff.mp h
    unfold delete at h
    split at h
    · next walk hshutdown =>
      split at h
      · cases h
        exact .delete hs hshutdown
      · cases h
    all_goals cases h
  | endShutdown =>
    simp only [step, endShutdown] at h
    split at h
    · next walk hshutdown =>
      split at h
      · cases h
        exact .endShutdown hshutdown
      · cases h
    all_goals cases h

/-- **The runs of the bus.** -/
def BusRun (eb eb' : EventBus) : Prop :=
  Machine.Run step Machine.Always eb eb'

/-- **What every move keeps holds along every run.** -/
theorem BusRun.invariant {I : EventBus → Prop} (hrun : BusRun eb eb') (h₀ : I eb)
    (hmove : ∀ t t', I t → Move t t' → I t') : I eb' :=
  Machine.Run.invariant hrun h₀
    (fun t _ t' ht _ hstep => hmove t t' ht (move_of_step hstep))

/-- **The runs with fewer than 2⁶³ subscriptions**, along which the counter
is never read as a negative number. -/
def CountedRun (eb eb' : EventBus) : Prop :=
  Machine.Run step (fun eb _ => eb.subscribers.entries.length < 2 ^ 63) eb eb'

theorem CountedRun.busRun (hrun : CountedRun eb eb') : BusRun eb eb' :=
  Machine.Run.mono (fun _ _ _ => trivial) hrun

/-- What every move of a bus with so few subscriptions keeps holds along
such a run. -/
theorem CountedRun.invariant {I : EventBus → Prop} (hrun : CountedRun eb eb')
    (h₀ : I eb) (hmove : ∀ t t', I t → t.subscribers.entries.length < 2 ^ 63 →
      Move t t' → I t') : I eb' :=
  Machine.Run.invariant hrun h₀
    (fun t _ t' ht hC hstep => hmove t t' ht hC (move_of_step hstep))

/-! ## One subscriber and one publication, over a step -/

end EventBus

/-- How far a handler is. -/
def SubscriberPc.rank : SubscriberPc → ℕ
  | .opened => 0
  | .stored => 1
  | .live => 2
  | .leaving => 3
  | .marked => 4
  | .deleted => 5
  | .gone => 6

theorem SubscriberPc.rank_eq_two_iff (pc : SubscriberPc) :
    pc.rank = 2 ↔ pc = .live := by
  cases pc <;> decide

namespace EventBus

variable {eb eb' : EventBus} {id : SubscriberID} {s s' : Subscriber} {i : ℕ}
  {p : Publication}

/-- **Subscribers only go forward.** -/
structure Forward (s s' : Subscriber) : Prop where
  rank_le : s.pc.rank ≤ s'.pc.rank
  closed : s.closed = true → s'.closed = true

theorem HandlerMove.forward {c c' : UInt64} (h : HandlerMove c s s' c') :
    Forward s s' := by
  cases h with
  | increment hpc => exact ⟨by rw [hpc]; exact Nat.le_succ _, id⟩
  | load hpc =>
    refine ⟨?_, id⟩
    rw [hpc]
    dsimp only
    split <;> decide
  | mark hpc => exact ⟨by rw [hpc]; exact Nat.le_succ _, fun _ => rfl⟩
  | decrement hpc => exact ⟨by rw [hpc]; exact Nat.le_succ _, id⟩

/-- A subscriber after a change of some subscriber that goes forward. -/
theorem forward_insert {id id' : SubscriberID} {s t t' : Subscriber}
    (hs : eb.subscribers.lookup id = some s) (ht : eb.subscribers.lookup id' = some t)
    (hforward : Forward t t') :
    ∃ s', (eb.subscribers.insert id' t').lookup id = some s' ∧ Forward s s' := by
  by_cases heq : id = id'
  · subst heq
    cases hs.symm.trans ht
    exact ⟨t', AList.lookup_insert _, hforward⟩
  · exact ⟨s, (AList.lookup_insert_ne heq).trans hs, le_refl _, fun h => h⟩

/-- **What a move does to a subscriber.** -/
theorem Move.subscriber (hmove : Move eb eb')
    (hs : eb.subscribers.lookup id = some s) :
    ∃ s', eb'.subscribers.lookup id = some s' ∧ Forward s s' := by
  cases hmove with
  | buffer | keep | publish | proceed | shutdown | endShutdown =>
    exact ⟨s, hs, le_refl _, fun h => h⟩
  | @enter id' hid =>
    have hne : id ≠ id' := by
      rintro rfl
      rw [AList.lookup_eq_none.mpr hid] at hs
      cases hs
    exact ⟨s, (AList.lookup_insert_ne hne).trans hs, le_refl _, fun h => h⟩
  | store ht hpc =>
    exact forward_insert hs ht ⟨by rw [hpc]; exact Nat.le_succ _, fun h => h⟩
  | handler ht hmove => exact forward_insert hs ht hmove.forward
  | remove ht hpc =>
    exact forward_insert hs ht ⟨by rw [hpc]; exact Nat.le_succ _, fun h => h⟩
  | receive ht hchannel => exact forward_insert hs ht ⟨le_refl _, fun h => h⟩
  | deliver hp ht => exact forward_insert hs ht ⟨le_refl _, fun h => h⟩
  | delete ht hshutdown => exact forward_insert hs ht ⟨le_refl _, fun h => h⟩

/-- **What a move does to a publication.** -/
inductive PcChange (eb : EventBus) : PublishPc → PublishPc → Prop
  | keep (pc : PublishPc) : PcChange eb pc pc
  | added (pc : PublishPc) (id : SubscriberID) : PcChange eb pc
    (pc.mapWalk (·.added id))
  /-- A subscriber on its way out goes. -/
  | removed (pc : PublishPc) {id : SubscriberID} {s : Subscriber}
    (hs : eb.subscribers.lookup id = some s)
      (hout : s.pc = .marked ∨ eb.shutdown ≠ .idle) : PcChange eb pc
        (pc.mapWalk (·.removed id))
  | proceed {pc pc' : PublishPc} (hmove : PublishMove eb pc pc') : PcChange eb pc pc'
  | deliver (walk : Walk SubscriberID) (handovers : Handovers) (id : SubscriberID) :
    PcChange eb (.sending walk handovers id)
      (.ranging walk (handovers.insert id .sent))

/-- A publication after one of them has gone on. -/
theorem change_setPc {i j : ℕ} {p q' : Publication} {pc : PublishPc}
    (hp : eb.publications[i]? = some p) (hchange : PcChange eb p.pc pc)
    (hq' : (eb.setPc i pc).publications[j]? = some q') :
    ∃ q, eb.publications[j]? = some q ∧ q'.event = q.event ∧
      PcChange eb q.pc q'.pc := by
  have hget : (eb.setPc i pc).publications[j]?
      = (fun q => if i = j then { q with pc := pc } else q) <$> eb.publications[j]? :=
    List.getElem?_modify _ i eb.publications j
  rw [hget] at hq'
  obtain ⟨q, hq, rfl⟩ := Option.map_eq_some_iff.mp hq'
  refine ⟨q, hq, ?_, ?_⟩
  · split <;> rfl
  · by_cases hij : i = j
    · subst hij
      cases hp.symm.trans hq
      rw [if_pos rfl]
      exact hchange
    · rw [if_neg hij]
      exact .keep _

/-- A publication after a change of the map. -/
theorem change_mapWalks {f : Walk SubscriberID → Walk SubscriberID}
    (hchange : ∀ pc, PcChange eb pc (pc.mapWalk f)) {j : ℕ} {q' : Publication}
    (hq' : (eb.publications.map (fun p => { p with pc := p.pc.mapWalk f }))[j]?
      = some q') :
    ∃ q, eb.publications[j]? = some q ∧ q'.event = q.event ∧
      PcChange eb q.pc q'.pc := by
  rw [List.getElem?_map] at hq'
  obtain ⟨q, hq, rfl⟩ := Option.map_eq_some_iff.mp hq'
  exact ⟨q, hq, rfl, hchange q.pc⟩

/-- **What a move does to the publications.** One may begin. -/
theorem Move.publication (hmove : Move eb eb') {j : ℕ} {q' : Publication}
    (hq' : eb'.publications[j]? = some q') :
    q'.pc = .started ∨
      ∃ q, eb.publications[j]? = some q ∧ q'.event = q.event ∧
      PcChange eb q.pc q'.pc := by
  cases hmove with
  | buffer | keep | enter | handler | receive | shutdown | endShutdown =>
    exact Or.inr ⟨q', hq', rfl, .keep _⟩
  | store hs hpc => exact Or.inr (change_mapWalks (fun pc => .added pc _) hq')
  | remove hs hpc =>
    exact Or.inr (change_mapWalks (fun pc => .removed pc hs (Or.inl hpc)) hq')
  | publish event =>
    rw [show
      ({ eb with publications := eb.publications
        ++ [{ event := event, pc := .started }] } :
      EventBus).publications = eb.publications
        ++ [{ event := event, pc := .started }] from rfl,
      List.getElem?_append] at hq'
    split at hq'
    · exact Or.inr ⟨q', hq', rfl, .keep _⟩
    · have hmem := List.mem_of_getElem? hq'
      rw [List.mem_singleton.mp hmem]
      exact Or.inl rfl
  | proceed hp hmove => exact Or.inr (change_setPc hp (.proceed hmove) hq')
  | deliver hp hs => exact Or.inr (change_setPc hp (.deliver _ _ _) hq')
  | delete hs hshutdown =>
    refine Or.inr (change_mapWalks (fun pc => .removed pc hs (Or.inr ?_)) hq')
    rw [hshutdown]
    exact ShutdownPc.noConfusion

/-- A bus that is open was open before. -/
theorem Move.open_of_open (hmove : Move eb eb') (hopen : eb'.closed = false) :
    eb.closed = false := by
  cases hmove with
  | shutdown => cases hopen
  | buffer | keep | enter | store | handler | remove | receive | publish | proceed
    | deliver | delete
  | endShutdown => exact hopen

end EventBus

end Mmn
