import Mmn.EventBus

/-!
# What subscribers get

Three things hold of the event bus in all interleavings of the accesses of
`EventBus.lean`.

* **Nothing is made up or doubled** (`delivered_perm_sentTo`). What a
  subscriber has taken from its channel and what waits there are the events
  of the publications that report a delivery to it, each once.
* **Whoever is subscribed is offered the event** (`offered_of_live`).
  `Publish` first looks at the counter, and does not go through the map if
  it is not positive. The counter is behind the map, at both ends of a
  subscription, but it counts everybody whose `Subscribe` has returned. So a
  client that is subscribed when a publication begins, and still is when it
  ends, got the event, or its buffer was full.
* **After the end of a subscription few events come** (`late_sends`). The
  flag is read before an event is sent. Those publications that have read it
  and not sent may still send, one event each; no others ever do.

The second fails after a shutdown, which takes everybody out of the map and
counts nobody, and if there are 2⁶³ subscriptions, when the counter is read
as a negative number.
-/

namespace Mmn

variable {eb eb' : EventBus} {id : SubscriberID} {s s' : Subscriber}
  {pc pc' : PublishPc} {i : ℕ} {p : Publication}

namespace EventBus

/-! ## The counter -/

end EventBus

/-- Does the counter count a subscriber whose handler is here? -/
def SubscriberPc.counted : SubscriberPc → ℕ
  | .opened | .stored | .gone => 0
  | .live | .leaving | .marked | .deleted => 1

/-- Is a subscriber whose handler is here in the map, as long as the bus is
open? -/
def SubscriberPc.inMap : SubscriberPc → Bool
  | .opened | .deleted | .gone => false
  | .stored | .live | .leaving | .marked => true

/-- Has a subscriber whose handler is here its flag set? -/
def SubscriberPc.flagged : SubscriberPc → Bool
  | .opened | .stored | .live | .leaving => false
  | .marked | .deleted | .gone => true

namespace EventBus

/-- Everybody whom the counter counts. -/
def countedSubscribers (eb : EventBus) :
    ℕ := eb.subscribers.total (fun _ s => s.pc.counted)

/-- **The states in which map, counter and flags are consistent.** Once the
bus is closed nothing is said about the first two. -/
structure Consistent (eb : EventBus) : Prop where
  flagged : ∀ id s, eb.subscribers.lookup id = some s → s.closed = true →
    s.pc.flagged = true
  idle : eb.closed = false → eb.shutdown = .idle
  /-- The counter counts modulo 2⁶⁴. -/
  count_eq : eb.closed = false → eb.count = UInt64.ofNat eb.countedSubscribers
  registered : eb.closed = false →
    ∀ id s, eb.subscribers.lookup id = some s → s.pc.inMap = true →
    s.registered = true

/-- The subscribers after one of them has changed. -/
theorem forall_setSubscriber {P : Subscriber → Prop}
    (h : ∀ id s, eb.subscribers.lookup id = some s → P s) (hs : P s) :
    ∀ id' s', (eb.subscribers.insert id s).lookup id' = some s' → P s' := by
  intro id' s' hs'
  by_cases hid : id' = id
  · subst hid
    rw [AList.lookup_insert] at hs'
    cases hs'
    exact hs
  · rw [AList.lookup_insert_ne hid] at hs'
    exact h id' s' hs'

/-- The number counted after one subscriber has changed. -/
theorem countedSubscribers_insert (s' : Subscriber)
    (hs : eb.subscribers.lookup id = some s) :
    (eb.subscribers.insert id s').total (fun _ s => s.pc.counted) + s.pc.counted
      = eb.countedSubscribers + s'.pc.counted := by
  have hweight : eb.subscribers.weight (fun _ s => s.pc.counted) id
      = s.pc.counted := by
    unfold AList.weight
    rw [hs]
    rfl
  rw [← hweight]
  exact AList.total_insert eb.subscribers id s'

/-- Before the flag is due it is not set. -/
theorem Consistent.not_closed (h : eb.Consistent)
    (hs : eb.subscribers.lookup id = some s) (hpc : s.pc.flagged = false) :
    s.closed = false := by
  refine Bool.eq_false_iff.mpr (fun hclosed => ?_)
  rw [h.flagged id s hs hclosed] at hpc
  cases hpc

/-- **A consistent state stays consistent when a subscriber changes** to one
that is as it should be, and the counter with it. -/
theorem Consistent.setSubscriber (h : eb.Consistent)
    (hs : eb.subscribers.lookup id = some s) (s' : Subscriber) (count : UInt64)
    (hflag : s'.closed = true → s'.pc.flagged = true)
    (hmap : eb.closed = false → s'.pc.inMap = true → s'.registered = true)
    (hcount : eb.closed = false →
      count + UInt64.ofNat s.pc.counted = eb.count + UInt64.ofNat s'.pc.counted) :
    Consistent { eb.setSubscriber id s' with count := count } := by
  refine ⟨forall_setSubscriber h.flagged hflag, h.idle, fun hopen => ?_,
    fun hopen => forall_setSubscriber (h.registered hopen) (hmap hopen)⟩
  have htotal := congrArg UInt64.ofNat (countedSubscribers_insert s' hs)
  rw [UInt64.ofNat_add, UInt64.ofNat_add, ← h.count_eq hopen, ← hcount hopen]
    at htotal
  exact ((UInt64.add_left_inj _).mp htotal).symm

/-- What happens in a channel does not matter to the consistency. -/
theorem Consistent.setChannel (h : eb.Consistent)
    (hs : eb.subscribers.lookup id = some s)
    (channel received : List BlockchainEvent) :
    (eb.setSubscriber id { s with channel := channel, received :=
      received }).Consistent :=
  h.setSubscriber hs { s with channel := channel, received := received } eb.count
    (h.flagged id s hs) (fun hopen => h.registered hopen id s hs) (fun _ => rfl)

theorem Consistent.setPc (h : eb.Consistent) (i : ℕ) (pc : PublishPc) :
    (eb.setPc i pc).Consistent := ⟨h.flagged, h.idle, h.count_eq, h.registered⟩

theorem Consistent.mapWalks (h : eb.Consistent)
    (f : Walk SubscriberID → Walk SubscriberID) :
    (eb.mapWalks f).Consistent := by
  refine ⟨h.flagged, fun hopen => ?_, h.count_eq, h.registered⟩
  have hidle : eb.shutdown = .idle := h.idle hopen
  show eb.shutdown.mapWalk f = .idle
  rw [hidle]
  rfl

/-- Of a bus that is closed only the flags are asked. -/
theorem Consistent.of_closed (hclosed : eb.closed = true)
    (hflag : ∀ id s, eb.subscribers.lookup id = some s → s.closed = true →
      s.pc.flagged = true) :
    eb.Consistent := by
  have hopen : eb.closed ≠ false := by rw [hclosed]; exact Bool.noConfusion
  exact ⟨hflag, fun h => absurd h hopen, fun h => absurd h hopen, fun h =>
    absurd h hopen⟩

/-- While the shutdown is under way the bus is closed. -/
theorem Consistent.closed_of_deleting (h : eb.Consistent) {walk : Walk SubscriberID}
    (hshutdown : eb.shutdown = .deleting walk) : eb.closed = true := by
  refine (Bool.eq_false_or_eq_true eb.closed).resolve_right (fun hopen => ?_)
  rw [h.idle hopen] at hshutdown
  cases hshutdown

theorem Consistent.handler (h : eb.Consistent) {count : UInt64}
    (hs : eb.subscribers.lookup id = some s)
    (hmove : HandlerMove eb.count s s' count) :
    Consistent { eb.setSubscriber id s' with count := count } := by
  have hreg : eb.closed = false → s.pc.inMap = true →
      s.registered = true := fun hopen =>
    h.registered hopen id s hs
  cases hmove with
  | increment hpc =>
    have hclosed : s.closed = false := h.not_closed hs (by rw [hpc]; rfl)
    rw [hpc] at hreg
    refine h.setSubscriber hs _ _
      (fun hclosed' => absurd (hclosed'.symm.trans hclosed) Bool.noConfusion) hreg
        (fun _ => ?_)
    rw [hpc]
    exact UInt64.add_zero _
  | load hpc =>
    have hclosed : s.closed = false := h.not_closed hs (by rw [hpc]; rfl)
    rw [hpc] at hreg
    refine h.setSubscriber hs _ _
      (fun hclosed' => absurd (hclosed'.symm.trans hclosed) Bool.noConfusion)
      (fun hopen _ => hreg hopen rfl) (fun hopen => ?_)
    -- while the bus is open nobody but the handler takes the subscriber out
    rw [hpc, if_pos (hreg hopen rfl)]
    rfl
  | mark hpc =>
    rw [hpc] at hreg
    refine h.setSubscriber hs _ _ (fun _ => rfl) hreg (fun _ => ?_)
    rw [hpc]
    rfl
  | decrement hpc =>
    refine h.setSubscriber hs _ _ (fun _ => rfl) (fun _ hmap => by cases hmap)
      (fun _ => ?_)
    rw [hpc]
    show eb.count - 1 + 1 = eb.count + 0
    rw [UInt64.sub_add_cancel, UInt64.add_zero]

theorem Consistent.move (h : eb.Consistent) (hmove : Move eb eb') :
    eb'.Consistent := by
  cases hmove with
  | buffer buffer => exact ⟨h.flagged, h.idle, h.count_eq, h.registered⟩
  | keep => exact h
  | @enter id hid =>
    refine ⟨forall_setSubscriber h.flagged (fun hclosed => by cases hclosed), h.idle,
      fun hopen => ?_, fun hopen =>
        forall_setSubscriber (h.registered hopen) (fun hmap => by cases hmap)⟩
    have htotal := AList.total_insert (w := fun _ s => s.pc.counted) eb.subscribers id
      (.new eb.buffer)
    rw [AList.weight_eq_zero hid] at htotal
    exact (h.count_eq hopen).trans (congrArg UInt64.ofNat htotal.symm)
  | @store id s hs hpc =>
    have hclosed : s.closed = false := h.not_closed hs (by rw [hpc]; rfl)
    refine Consistent.mapWalks
      (h.setSubscriber hs { s with pc := .stored, registered := true } eb.count
      (fun hclosed' => absurd (hclosed'.symm.trans hclosed) Bool.noConfusion)
        (fun _ _ => rfl) (fun _ => ?_)) _
    rw [hpc]
    rfl
  | handler hs hmove => exact h.handler hs hmove
  | @remove id s hs hpc =>
    refine Consistent.mapWalks
      (h.setSubscriber hs { s with pc := .deleted, registered := false } eb.count
      (fun _ => rfl) (fun _ hmap => by cases hmap) (fun _ => ?_)) _
    rw [hpc]
    rfl
  | receive hs hchannel => exact h.setChannel hs _ _
  | publish event => exact ⟨h.flagged, h.idle, h.count_eq, h.registered⟩
  | proceed hp hmove => exact h.setPc _ _
  | @deliver i event walk handovers id s hp hs =>
    exact Consistent.setPc (h.setChannel hs (s.channel ++ [event]) s.received) _ _
  | shutdown => exact .of_closed rfl h.flagged
  | @delete id s walk hs hshutdown =>
    have hflag : s.closed = true → s.pc.flagged = true := h.flagged id s hs
    exact .of_closed (h.closed_of_deleting hshutdown)
      (forall_setSubscriber (P := fun s => s.closed = true → s.pc.flagged = true)
        h.flagged hflag)
  | endShutdown hshutdown =>
    exact .of_closed (h.closed_of_deleting hshutdown) h.flagged

theorem consistent_new : new.Consistent :=
  ⟨fun _ _ hs => (by cases hs), fun _ => rfl, fun _ => rfl, fun _ _ _ hs =>
    (by cases hs)⟩

/-! ## What is delivered -/

end EventBus

/-- What a publication has done so far. -/
def PublishPc.handovers : PublishPc → Handovers
  | .started | .opened | .counted => ∅
  | .ranging _ handovers | .sending _ handovers _ | .returned handovers => handovers

/-- **What was done was done on a visit**, and nothing was done yet about
whom an event is sent to next. -/
def PublishPc.Orderly : PublishPc → Prop
  | .started | .opened | .counted | .returned _ => True
  | .ranging walk handovers => ∀ id ∈ handovers, id ∈ walk.visited
  | .sending walk handovers id =>
    id ∉ handovers ∧ ∀ id' ∈ handovers.insert id .sent, id' ∈ walk.visited

/-- Did a publication send its event to a subscriber? -/
def Publication.sentTo (id : SubscriberID) (p : Publication) : Bool :=
  decide (p.pc.handovers.lookup id = some .sent)

@[simp] theorem PublishPc.handovers_mapWalk
    (f : Walk SubscriberID → Walk SubscriberID) (pc : PublishPc) :
    (pc.mapWalk f).handovers = pc.handovers := by
  cases pc <;> rfl

/-- Changes of the map do not touch what was visited. -/
theorem PublishPc.Orderly.mapWalk (h : pc.Orderly)
    {f : Walk SubscriberID → Walk SubscriberID}
    (hf : ∀ walk, (f walk).visited = walk.visited) : (pc.mapWalk f).Orderly := by
  cases pc with
  | ranging walk handovers => exact fun id hid => hf walk ▸ h id hid
  | sending walk handovers id => exact ⟨h.1, fun id' hid' => hf walk ▸ h.2 id' hid'⟩
  | started | opened | counted | returned handovers => trivial

/-- **Who is visited next has no handover yet.** -/
theorem PublishPc.Orderly.not_mem {walk : Walk SubscriberID} {handovers : Handovers}
    (h : (PublishPc.ranging walk handovers).Orderly) (hvisit : walk.CanVisit id) :
    id ∉ handovers :=
  fun hid => hvisit.2 (h id hid)

/-- A handover at a visit is that of who is visited. -/
theorem PublishPc.Orderly.visit {walk : Walk SubscriberID} {handovers : Handovers}
    (h : (PublishPc.ranging walk handovers).Orderly) (handover : Handover) :
    ∀ id' ∈ handovers.insert id handover, id' ∈ (walk.visit id).visited := by
  intro id' hid'
  rw [Walk.mem_visited_visit]
  exact (AList.mem_insert _).mp hid' |>.imp_right (h id')

/-- **Every move of a publication is orderly.** -/
theorem EventBus.PublishMove.orderly (hmove : eb.PublishMove pc pc')
    (h : pc.Orderly) :
    pc'.Orderly := by
  cases hmove with
  | refused | opened | nobody | counted | finish => trivial
  | range => exact fun id hid => absurd hid (AList.notMem_empty id)
  | skip handovers hs hclosed hvisit => exact h.visit .skipped
  | choose handovers hs hclosed hvisit => exact ⟨h.not_mem hvisit, h.visit .sent⟩
  | full walk handovers id =>
    exact fun id' hid' => h.2 id'
      ((AList.mem_insert _).mpr ((AList.mem_insert _).mp hid'))

/-- A handover that is new and not a delivery changes nobody's deliveries. -/
theorem lookup_insert_eq_sent_iff {handovers : Handovers} (hid : id ∉ handovers)
    {handover : Handover} (hhandover : handover ≠ .sent) (id' : SubscriberID) :
    (handovers.insert id handover).lookup id' = some .sent ↔
      handovers.lookup id' = some .sent := by
  by_cases heq : id' = id
  · subst heq
    rw [AList.lookup_insert, AList.lookup_eq_none.mpr hid]
    simp [hhandover]
  · rw [AList.lookup_insert_ne heq]

/-- **No move but a delivery is a delivery.** -/
theorem EventBus.PublishMove.sentTo_iff (hmove : eb.PublishMove pc pc')
    (h : pc.Orderly) (id : SubscriberID) :
    pc'.handovers.lookup id = some .sent ↔ pc.handovers.lookup id = some .sent := by
  cases hmove with
  | refused | opened | nobody | counted | finish | range | choose => exact Iff.rfl
  | skip handovers hs hclosed hvisit =>
    exact lookup_insert_eq_sent_iff (h.not_mem hvisit) (by decide) id
  | full walk handovers id' => exact lookup_insert_eq_sent_iff h.1 (by decide) id

namespace EventBus

/-- **What a subscriber was sent**: what its handler took, and what still
waits. -/
def delivered (eb : EventBus) (id : SubscriberID) : List BlockchainEvent :=
  (eb.subscribers.lookup id).elim [] (fun s => s.received ++ s.channel)

/-- The events of the publications that sent to a subscriber. -/
def sentTo (eb : EventBus) (id : SubscriberID) : List BlockchainEvent :=
  (eb.publications.filter (·.sentTo id)).map Publication.event

/-- A change of one publication, in the list of all. -/
theorem exists_setPc (hp : eb.publications[i]? = some p) (pc : PublishPc) :
    ∃ before after, eb.publications = before ++ p :: after ∧
      (eb.setPc i pc).publications = before ++ { p with pc := pc } :: after := by
  obtain ⟨hi, hget⟩ := List.getElem?_eq_some_iff.mp hp
  obtain ⟨before, p', after, heq, hlen, hmodify⟩ :=
    List.exists_of_modify (fun p : Publication => { p with pc := pc }) hi
  have hp' : p' = p := by
    subst hlen
    simpa [heq] using hget
  subst hp'
  exact ⟨before, after, heq, hmodify⟩

/-- What a subscriber was sent after a subscriber has changed. -/
theorem delivered_insert (subscribers : AList (fun _ : SubscriberID => Subscriber))
    (h : eb.subscribers = subscribers.insert id s) (id' : SubscriberID) :
    eb.delivered id' = if id' = id then s.received ++ s.channel
      else (subscribers.lookup id').elim [] (fun s => s.received ++ s.channel) := by
  unfold delivered
  rw [h]
  split
  · next heq =>
    subst heq
    rw [AList.lookup_insert]
    rfl
  · next hne => rw [AList.lookup_insert_ne hne]

/-- A change beside the channel leaves what everybody was sent. -/
theorem delivered_insert_same (hs : eb.subscribers.lookup id = some s)
    (h : eb'.subscribers = eb.subscribers.insert id s')
    (hsame : s'.received ++ s'.channel = s.received ++ s.channel)
    (id' : SubscriberID) :
    eb'.delivered id' = eb.delivered id' := by
  rw [delivered_insert _ h]
  split
  · next heq =>
    subst heq
    unfold delivered
    rw [hs]
    exact hsame
  · rfl

theorem HandlerMove.same {c c' : UInt64} (h : HandlerMove c s s' c') :
    s'.received ++ s'.channel = s.received ++ s.channel := by
  cases h <;> rfl

/-- A change of the map leaves who sent to whom. -/
theorem sentTo_mapWalks (eb : EventBus) (f : Walk SubscriberID → Walk SubscriberID)
    (id : SubscriberID) :
    (eb.mapWalks f).sentTo id = eb.sentTo id := by
  unfold sentTo mapWalks
  rw [List.filter_map, List.map_map]
  refine congrArg (List.map Publication.event) (List.filter_congr (fun p _ => ?_))
  show decide ((p.pc.mapWalk f).handovers.lookup id = some .sent) = _
  rw [PublishPc.handovers_mapWalk]
  rfl

/-- A publication that goes on without a delivery leaves who sent to whom. -/
theorem sentTo_setPc (hp : eb.publications[i]? = some p)
    (h : pc.handovers.lookup id = some .sent ↔
      p.pc.handovers.lookup id = some .sent) :
    (eb.setPc i pc).sentTo id = eb.sentTo id := by
  obtain ⟨before, after, heq, heq'⟩ := exists_setPc hp pc
  have hsent : Publication.sentTo id { p with pc := pc } = p.sentTo id :=
    decide_eq_decide.mpr h
  unfold sentTo
  rw [heq, heq', List.filter_append, List.filter_append, List.filter_cons,
    List.filter_cons, hsent]
  split <;> simp

/-- **A publication that delivers** is one more that sent. -/
theorem perm_sentTo_setPc (hp : eb.publications[i]? = some p)
    (h : pc.handovers.lookup id = some .sent) (h₀ : p.pc.handovers.lookup id = none) :
    ((eb.setPc i pc).sentTo id).Perm (eb.sentTo id ++ [p.event]) := by
  obtain ⟨before, after, heq, heq'⟩ := exists_setPc hp pc
  have hsent : Publication.sentTo id { p with pc := pc } = true := decide_eq_true h
  have hsent₀ : ¬p.sentTo id = true := by simp [Publication.sentTo, h₀]
  unfold sentTo
  rw [heq, heq', List.filter_append, List.filter_append,
    List.filter_cons_of_pos hsent,
    List.filter_cons_of_neg hsent₀, List.map_append, List.map_append, List.map_cons]
  exact List.perm_middle.trans (List.perm_append_singleton _ _).symm

/-- **The states in which everybody was sent what publications sent them.** -/
structure Faithful (eb : EventBus) : Prop where
  /-- Publications are orderly. -/
  orderly : ∀ p ∈ eb.publications, p.pc.Orderly
  /-- What a subscriber was sent is what was sent to it. -/
  perm : ∀ id, (eb.delivered id).Perm (eb.sentTo id)

/-- The publications after one of them has gone on. -/
theorem Faithful.orderly_setPc (h : eb.Faithful) (hp : eb.publications[i]? = some p)
    (hpc : pc.Orderly) :
    ∀ q ∈ (eb.setPc i pc).publications, q.pc.Orderly := by
  obtain ⟨before, after, heq, heq'⟩ := exists_setPc hp pc
  have h' := h.orderly
  rw [heq] at h'
  rw [heq']
  intro q hq
  rcases List.mem_append.mp hq with hq | hq
  · exact h' q (List.mem_append_left _ hq)
  · rcases List.mem_cons.mp hq with rfl | hq
    · exact hpc
    · exact h' q (List.mem_append_right _ (List.mem_cons_of_mem _ hq))

/-- **A step that leaves channels and handovers.** -/
theorem Faithful.frame (h : eb.Faithful)
    (horderly : ∀ p ∈ eb'.publications, p.pc.Orderly)
    (hdelivered : ∀ id, eb'.delivered id = eb.delivered id)
    (hsent : ∀ id, eb'.sentTo id = eb.sentTo id) :
    eb'.Faithful :=
  ⟨horderly, fun id => by rw [hdelivered, hsent]; exact h.perm id⟩

/-- A change of the map, with a change of the subscriber it is about. -/
theorem Faithful.mapWalks (h : eb.Faithful) (hs : eb.subscribers.lookup id = some s)
    (s' : Subscriber) (shutdown : ShutdownPc)
    (hsame : s'.received ++ s'.channel = s.received ++ s.channel)
    {f : Walk SubscriberID → Walk SubscriberID}
    (hf : ∀ walk, (f walk).visited = walk.visited) :
    (({ eb with shutdown := shutdown }.setSubscriber id s').mapWalks f).Faithful := by
  refine h.frame (fun p hp => ?_) (delivered_insert_same hs rfl hsame)
    (fun id' => sentTo_mapWalks _ f id')
  obtain ⟨q, hq, rfl⟩ := List.mem_map.mp hp
  exact (h.orderly q hq).mapWalk hf

theorem Faithful.move (h : eb.Faithful) (hmove : Move eb eb') : eb'.Faithful := by
  cases hmove with
  | buffer | keep | shutdown | endShutdown =>
    exact h.frame h.orderly (fun _ => rfl) (fun _ => rfl)
  | @enter id hid =>
    refine h.frame h.orderly (fun id' => ?_) (fun _ => rfl)
    rw [delivered_insert _ rfl]
    split
    · next heq =>
      subst heq
      unfold delivered
      rw [AList.lookup_eq_none.mpr hid]
      rfl
    · rfl
  | store hs hpc => exact h.mapWalks hs _ eb.shutdown (by rfl) (fun _ => by rfl)
  | handler hs hmove =>
    exact h.frame h.orderly (delivered_insert_same hs rfl hmove.same) (fun _ => rfl)
  | remove hs hpc => exact h.mapWalks hs _ eb.shutdown (by rfl) (fun _ => by rfl)
  | receive hs hchannel =>
    refine h.frame h.orderly (delivered_insert_same hs rfl ?_) (fun _ => rfl)
    rw [hchannel, List.append_assoc]
    rfl
  | publish event =>
    refine h.frame (fun p hp => ?_) (fun _ => rfl) (fun id => ?_)
    · rcases List.mem_append.mp hp with hp | hp
      · exact h.orderly p hp
      · rw [List.mem_singleton.mp hp]
        trivial
    · unfold sentTo
      rw [List.filter_append]
      simp [Publication.sentTo, PublishPc.handovers]
  | proceed hp hmove =>
    have horderly := h.orderly _ (List.mem_of_getElem? hp)
    exact h.frame (h.orderly_setPc hp (hmove.orderly horderly)) (fun _ => rfl)
      (fun id => sentTo_setPc hp (hmove.sentTo_iff horderly id))
  | @deliver i event walk handovers id s hp hs =>
    have horderly := h.orderly _ (List.mem_of_getElem? hp)
    refine ⟨h.orderly_setPc hp horderly.2, fun id' => ?_⟩
    rw [delivered_insert eb.subscribers rfl]
    by_cases heq : id' = id
    · subst heq
      rw [if_pos rfl, ← List.append_assoc]
      have hperm := h.perm id'
      unfold delivered at hperm
      rw [hs] at hperm
      exact (hperm.append_right [event]).trans
        (perm_sentTo_setPc hp (AList.lookup_insert _)
          (AList.lookup_eq_none.mpr horderly.1)).symm
    · rw [if_neg heq]
      have hsent : (eb.setPc i (.ranging walk (handovers.insert id .sent))).sentTo id'
          = eb.sentTo id' :=
        sentTo_setPc hp
          (by rw [show (PublishPc.ranging walk (handovers.insert id .sent)).handovers
          = handovers.insert id .sent from rfl, AList.lookup_insert_ne heq]; rfl)
      exact (h.perm id').trans (List.Perm.of_eq hsent.symm)
  | delete hs hshutdown => exact h.mapWalks hs _ _ (by rfl) (fun _ => by rfl)

theorem faithful_new : new.Faithful :=
  ⟨fun _ hp => (by cases hp), fun _ => List.Perm.refl []⟩

/-- **What subscribers get is what is published, once.** In every reachable
state the events a subscriber has taken and those that wait for it are the
events of the publications that report a delivery to it, each of them once. -/
theorem delivered_perm_sentTo {eb : EventBus} (hrun : BusRun new eb)
    (id : SubscriberID) :
    (eb.delivered id).Perm (eb.sentTo id) :=
  (hrun.invariant faithful_new (fun _ _ h hmove => h.move hmove)).perm id

/-- Two publications to one subscriber, of which the second overtakes the
first. -/
theorem delivered_perm_sentTo_overtaken :
    ∃ eb, BusRun new eb ∧ (eb.delivered "a").length = 2 ∧
      (eb.delivered "a").Perm (eb.sentTo "a") := by
  have hexec : (Machine.exec step Machine.Always new
      [.subscribe "a", .advance "a", .advance "a", .publish (.heartBeat 0),
        .publish (.heartBeat 1),
        .proceed 0, .proceed 0, .proceed 0, .visit 0 "a", .proceed 1, .proceed 1,
        .proceed 1, .visit 1 "a",
        .send 1, .receive "a", .send 0]).any (fun eb =>
          decide ((eb.delivered "a").length = 2))
            = true := by
    decide +kernel
  obtain ⟨eb, hrun, h⟩ := Machine.exists_run_of_exec hexec
  exact ⟨eb, hrun, of_decide_eq_true h, delivered_perm_sentTo hrun "a"⟩

/-! ## Who is offered an event -/

theorem countedSubscribers_le (eb : EventBus) :
    eb.countedSubscribers ≤ eb.subscribers.entries.length := by
  have hle : ∀ n ∈ eb.subscribers.entries.map (fun e => e.2.pc.counted), n ≤ 1 := by
    intro n hn
    obtain ⟨e, -, rfl⟩ := List.mem_map.mp hn
    cases e.2.pc <;> decide
  simpa [countedSubscribers, AList.total] using List.sum_le_card_nsmul _ 1 hle

/-- **The counter is positive while somebody is subscribed.** -/
theorem Consistent.getTotalSubscriptions_pos (h : eb.Consistent)
    (hopen : eb.closed = false) (hsize : eb.subscribers.entries.length < 2 ^ 63)
    (hs : eb.subscribers.lookup id = some s) (hlive : s.pc = .live) :
    0 < eb.getTotalSubscriptions := by
  have hlt : eb.countedSubscribers < 2 ^ 63 :=
    lt_of_le_of_lt eb.countedSubscribers_le hsize
  have hpos : 1 ≤ eb.countedSubscribers := by
    have hweight : eb.subscribers.weight (fun _ s => s.pc.counted) id = 1 := by
      unfold AList.weight
      rw [hs]
      show s.pc.counted = 1
      rw [hlive]
      rfl
    exact hweight.symm.le.trans (AList.weight_le_total eb.subscribers id)
  unfold getTotalSubscriptions
  rw [h.count_eq hopen, UInt64.toInt64_ofNat', Int64.toInt_ofNat_of_lt hlt]
  exact Int.natCast_pos.mpr hpos

theorem mem_registeredIDs (hs : eb.subscribers.lookup id = some s)
    (hreg : s.registered = true) :
    id ∈ eb.registeredIDs := by
  unfold registeredIDs
  rw [List.mem_toFinset, List.mem_filter]
  refine ⟨AList.mem_keys.mp (AList.lookup_isSome.mp (by rw [hs]; rfl)), ?_⟩
  rw [hs]
  exact hreg

end EventBus

/-- Was a subscriber offered the event? -/
def Handovers.Offered (handovers : Handovers) (id : SubscriberID) : Prop :=
  handovers.lookup id = some .sent ∨ handovers.lookup id = some .full

/-- **A publication does not miss a subscriber**: while it goes through the
map it will come to the subscriber or has been there, and when it has
returned it offered it the event. -/
def PublishPc.Covers (id : SubscriberID) : PublishPc → Prop
  | .started | .opened | .counted => True
  | .ranging walk handovers =>
    id ∈ walk.must ∧ (id ∈ walk.visited → handovers.Offered id)
  | .sending walk handovers id' =>
    id ∈ walk.must ∧ (id ∈ walk.visited → id = id' ∨ handovers.Offered id)
  | .returned handovers => handovers.Offered id

theorem Handovers.offered_insert {handovers : Handovers} {id id' : SubscriberID}
    {handover : Handover} (hhandover : handover ≠ .skipped)
    (h : id = id' ∨ handovers.Offered id) :
    Handovers.Offered (handovers.insert id' handover) id := by
  unfold Handovers.Offered
  by_cases heq : id = id'
  · subst heq
    rw [AList.lookup_insert]
    cases handover with
    | skipped => exact absurd rfl hhandover
    | sent => exact Or.inl rfl
    | full => exact Or.inr rfl
  · rw [AList.lookup_insert_ne heq]
    exact h.resolve_left heq

/-- **A subscriber that comes** is no matter to one that is there. -/
theorem PublishPc.Covers.added (h : pc.Covers id) (id' : SubscriberID) :
    (pc.mapWalk (·.added id')).Covers id := by
  cases pc <;> exact h

/-- **A subscriber that goes** is no matter to others. -/
theorem PublishPc.Covers.removed {id id' : SubscriberID} (h : pc.Covers id)
    (hne : id ≠ id') :
    (pc.mapWalk (·.removed id')).Covers id := by
  cases pc with
  | ranging walk handovers => exact ⟨Walk.mem_must_removed h.1 hne, h.2⟩
  | sending walk handovers id'' => exact ⟨Walk.mem_must_removed h.1 hne, h.2⟩
  | started | opened | counted | returned handovers => exact h

namespace EventBus

/-- **A publication that goes on does not miss a live subscriber** of an
open bus. -/
theorem PublishMove.covers (hmove : eb.PublishMove pc pc') (hc : eb.Consistent)
    (hopen : eb.closed = false) (hsize : eb.subscribers.entries.length < 2 ^ 63)
    (hs : eb.subscribers.lookup id = some s) (hlive : s.pc = .live)
    (h : pc.Covers id) :
    pc'.Covers id := by
  cases hmove with
  | refused hclosed => exact absurd (hclosed.symm.trans hopen) Bool.noConfusion
  | opened | counted => trivial
  | nobody hcount =>
    exact absurd (hc.getTotalSubscriptions_pos hopen hsize hs hlive) hcount
  | range =>
    refine ⟨mem_registeredIDs hs (hc.registered hopen id s hs ?_), fun hvisited => ?_⟩
    · rw [hlive]
      rfl
    · exact absurd hvisited (Finset.notMem_empty id)
  | @skip walk handovers id' s' hs' hclosed hvisit =>
    -- whose flag is set is not live
    have hne : id ≠ id' := by
      rintro rfl
      cases hs.symm.trans hs'
      have hflag := hc.flagged id s hs hclosed
      rw [hlive] at hflag
      cases hflag
    refine ⟨h.1, fun hvisited => ?_⟩
    have hoffered := h.2 ((Walk.mem_visited_visit.mp hvisited).resolve_left hne)
    unfold Handovers.Offered
    rw [AList.lookup_insert_ne hne]
    exact hoffered
  | choose handovers hs' hclosed hvisit =>
    exact ⟨h.1, fun hvisited => (Walk.mem_visited_visit.mp hvisited).imp_right h.2⟩
  | full walk handovers id' =>
    exact ⟨h.1, fun hvisited => Handovers.offered_insert (by decide) (h.2 hvisited)⟩
  | finish handovers hend => exact h.2 (hend.visited h.1)

/-- **A subscriber that stays is not missed.** -/
theorem PcChange.covers (hchange : eb.PcChange pc pc') (hc : eb.Consistent)
    (hopen : eb.closed = false) (hsize : eb.subscribers.entries.length < 2 ^ 63)
    (hs : eb.subscribers.lookup id = some s) (hlive : s.pc = .live)
    (h : pc.Covers id) :
    pc'.Covers id := by
  cases hchange with
  | keep => exact h
  | added pc id' => exact h.added id'
  | @removed _ id' s' hs' hout =>
    refine h.removed ?_
    rintro rfl
    cases hs.symm.trans hs'
    rcases hout with hmarked | hshutdown
    · rw [hlive] at hmarked
      cases hmarked
    · exact hshutdown (hc.idle hopen)
  | proceed hmove => exact hmove.covers hc hopen hsize hs hlive h
  | deliver walk handovers id' =>
    exact ⟨h.1, fun hvisited => Handovers.offered_insert (by decide) (h.2 hvisited)⟩

/-- **The states after a subscription is live.** As long as it is, and the
bus is open, no publication that began later misses it. -/
structure Watched (id : SubscriberID) (begun : ℕ) (eb : EventBus) : Prop where
  consistent : eb.Consistent
  entered : ∃ s, eb.subscribers.lookup id = some s ∧ 2 ≤ s.pc.rank
  covers : ∀ s, eb.subscribers.lookup id = some s → s.pc = .live → eb.closed = false →
    ∀ i p, begun ≤ i → eb.publications[i]? = some p → p.pc.Covers id

theorem Watched.move {begun : ℕ} (h : Watched id begun eb)
    (hsize : eb.subscribers.entries.length < 2 ^ 63) (hmove : Move eb eb') :
    Watched id begun eb' := by
  obtain ⟨s, hs, hrank⟩ := h.entered
  obtain ⟨s', hs', hforward⟩ := hmove.subscriber hs
  refine ⟨h.consistent.move hmove, ⟨s', hs', hrank.trans hforward.rank_le⟩, ?_⟩
  intro t ht hlive hopen i p hi hp
  cases hs'.symm.trans ht
  -- who is live after the move was live before it
  have hle : s.pc.rank ≤ 2 := by
    have hle := hforward.rank_le
    rwa [hlive] at hle
  have hlive₀ : s.pc = .live :=
    (SubscriberPc.rank_eq_two_iff _).mp (le_antisymm hle hrank)
  have hopen₀ : eb.closed = false := hmove.open_of_open hopen
  rcases hmove.publication hp with hstarted | ⟨q, hq, -, hchange⟩
  · rw [hstarted]
    trivial
  · exact hchange.covers h.consistent hopen₀ hsize hs hlive₀
      (h.covers s hs hlive₀ hopen₀ i q hi hq)

/-- **Whoever is subscribed is offered the event.** A subscription is live
in a reachable state, and from there on there are never 2⁶³ of them. A
publication that begins after it, and has returned in a later state in which
the subscription is still live and the bus open, reports a delivery to it,
and its event waits in the channel or was taken from there; or it reports
that the buffer was full. -/
theorem offered_of_live {eb eb' : EventBus} {id : SubscriberID}
    {s s' : Subscriber} {i : ℕ} {p : Publication} {handovers : Handovers}
    (hreach : BusRun new eb) (hs : eb.subscribers.lookup id = some s)
    (hlive : s.pc = .live) (hrun : CountedRun eb eb')
    (hs' : eb'.subscribers.lookup id = some s') (hlive' : s'.pc = .live)
    (hopen : eb'.closed = false) (hi : eb.publications.length ≤ i)
    (hp : eb'.publications[i]? = some p) (hreturned : p.pc = .returned handovers) :
    (handovers.lookup id = some .sent ∧ p.event ∈ s'.received ++ s'.channel) ∨
      handovers.lookup id = some .full := by
  have hconsistent : eb.Consistent :=
    hreach.invariant consistent_new (fun _ _ h hmove => h.move hmove)
  have hwatched : Watched id eb.publications.length eb := by
    refine ⟨hconsistent, ⟨s, hs, ?_⟩, fun _ _ _ _ j q hj hq => ?_⟩
    · rw [hlive]
      exact le_refl 2
    · rw [List.getElem?_eq_none hj] at hq
      cases hq
  have hcovers :=
    (hrun.invariant hwatched (fun _ _ h hsize hmove => h.move hsize hmove)).covers
    s' hs' hlive' hopen i p hi hp
  rw [hreturned] at hcovers
  refine hcovers.imp (fun hsent => ⟨hsent, ?_⟩) (fun hfull => hfull)
  -- a delivery that is reported was made
  have hfaithful : eb'.Faithful :=
    BusRun.invariant (Relation.ReflTransGen.trans hreach hrun.busRun) faithful_new
      (fun _ _ h hmove => h.move hmove)
  have hperm := hfaithful.perm id
  unfold delivered at hperm
  rw [hs'] at hperm
  refine hperm.mem_iff.mpr
    (List.mem_map.mpr ⟨p, List.mem_filter.mpr ⟨List.mem_of_getElem? hp, ?_⟩, rfl⟩)
  unfold Publication.sentTo
  rw [hreturned]
  exact decide_eq_true hsent

/-- Is a subscription live? -/
def isLive (eb : EventBus) (id : SubscriberID) : Bool :=
  (eb.subscribers.lookup id).any (fun s => decide (s.pc = .live))

/-- Has a publication returned? -/
def hasReturned (eb : EventBus) (i : ℕ) : Bool :=
  eb.publications[i]?.any (fun p => match p.pc with
    | .returned _ => true
    | _ => false)

theorem exists_of_isLive (h : eb.isLive id = true) :
    ∃ s, eb.subscribers.lookup id = some s ∧ s.pc = .live := by
  unfold isLive at h
  rw [Option.any_eq_true] at h
  obtain ⟨s, hs, hlive⟩ := h
  exact ⟨s, hs, of_decide_eq_true hlive⟩

theorem exists_of_hasReturned (h : eb.hasReturned i = true) :
    ∃ p handovers, eb.publications[i]? = some p ∧ p.pc = .returned handovers := by
  unfold hasReturned at h
  rw [Option.any_eq_true] at h
  obtain ⟨p, hp, hreturned⟩ := h
  split at hreturned
  · next handovers hpc => exact ⟨p, handovers, hp, hpc⟩
  · cases hreturned

/-- A client subscribes, another subscribes and leaves while a sign of life
is published, and the first gets it. -/
theorem offered_of_live_heartBeat :
    ∃ (eb eb' : EventBus) (s' : Subscriber) (p : Publication) (handovers : Handovers),
      BusRun new eb ∧ CountedRun eb eb' ∧ eb'.subscribers.lookup "a" = some s' ∧
      eb'.publications[0]? = some p ∧ p.pc = .returned handovers ∧
      ((handovers.lookup "a" = some .sent ∧ p.event ∈ s'.received ++ s'.channel) ∨
        handovers.lookup "a" = some .full) := by
  have hexec : (Machine.exec step Machine.Always new
      [.subscribe "a", .advance "a", .advance "a"]).any (fun eb =>
        eb.isLive "a" && decide (eb.publications.length ≤ 0) &&
        (Machine.exec step (fun eb _ => eb.subscribers.entries.length < 2 ^ 63) eb
          [.subscribe "b", .advance "b", .advance "b", .publish (.heartBeat 0),
            .proceed 0, .proceed 0,
            .proceed 0, .visit 0 "b", .advance "b", .advance "b", .advance "b",
            .advance "b", .send 0, .visit 0 "a", .send 0, .finish 0]).any (fun eb' =>
          eb'.isLive "a" && !eb'.closed && eb'.hasReturned 0)) = true := by
    decide +kernel
  obtain ⟨eb, hreach, h⟩ := Machine.exists_run_of_exec hexec
  obtain ⟨h, hexec'⟩ := Bool.and_eq_true_iff.mp h
  obtain ⟨hlive, hbegun⟩ := Bool.and_eq_true_iff.mp h
  obtain ⟨eb', hrun, h'⟩ := Machine.exists_run_of_exec hexec'
  obtain ⟨h', hreturned⟩ := Bool.and_eq_true_iff.mp h'
  obtain ⟨hlive', hopen⟩ := Bool.and_eq_true_iff.mp h'
  obtain ⟨s, hs, hpc⟩ := exists_of_isLive hlive
  obtain ⟨s', hs', hpc'⟩ := exists_of_isLive hlive'
  obtain ⟨p, handovers, hp, hhandovers⟩ := exists_of_hasReturned hreturned
  exact ⟨eb, eb', s', p, handovers, hreach, hrun, hs', hp, hhandovers,
    offered_of_live hreach hs hpc hrun hs' hpc' (Bool.not_eq_true' _ ▸ hopen)
      (of_decide_eq_true hbegun) hp hhandovers⟩

/-! ## After the end of a subscription -/

end EventBus

/-- Will a publication send to a subscriber next? -/
def PublishPc.isSendingTo (id : SubscriberID) : PublishPc → Bool
  | .sending _ _ id' => decide (id' = id)
  | .started | .opened | .counted | .ranging _ _ | .returned _ => false

@[simp] theorem PublishPc.isSendingTo_mapWalk (id : SubscriberID)
    (f : Walk SubscriberID → Walk SubscriberID) (pc : PublishPc) :
    (pc.mapWalk f).isSendingTo id
      = pc.isSendingTo id := by
  cases pc <;> rfl

namespace EventBus

/-- **The publications that will send to a subscriber next**: they have seen
its flag down. -/
def underWay (eb : EventBus) (id : SubscriberID) : ℕ :=
  eb.publications.countP (fun p => p.pc.isSendingTo id)

theorem underWay_mapWalks (eb : EventBus) (f : Walk SubscriberID → Walk SubscriberID)
    (id : SubscriberID) :
    (eb.mapWalks f).underWay id = eb.underWay id := by
  unfold underWay mapWalks
  rw [List.countP_map]
  refine congrArg (List.countP · eb.publications) (funext (fun p => ?_))
  exact PublishPc.isSendingTo_mapWalk id f p.pc

/-- The publications that will send next after one has gone on. -/
theorem underWay_setPc (hp : eb.publications[i]? = some p) (pc : PublishPc)
    (id : SubscriberID) :
    (eb.setPc i pc).underWay id + (p.pc.isSendingTo id).toNat
      = eb.underWay id + (pc.isSendingTo id).toNat := by
  obtain ⟨before, after, heq, heq'⟩ := exists_setPc hp pc
  unfold underWay
  rw [heq, heq', List.countP_append, List.countP_append, List.countP_cons,
    List.countP_cons]
  dsimp only
  cases p.pc.isSendingTo id <;> cases pc.isSendingTo id <;> simp <;> omega

/-- **Nobody decides to send to a subscriber whose flag is set.** -/
theorem PublishMove.isSendingTo_le (hmove : eb.PublishMove pc pc')
    (hs : eb.subscribers.lookup id = some s) (hclosed : s.closed = true) :
    (pc'.isSendingTo id).toNat ≤ (pc.isSendingTo id).toNat := by
  cases hmove with
  | refused | opened | nobody | counted | range | skip | full | finish =>
    exact Nat.zero_le _
  | @choose walk handovers id' s' hs' hopen hvisit =>
    have hne : id' ≠ id := by
      rintro rfl
      cases hs.symm.trans hs'
      exact absurd (hclosed.symm.trans hopen) Bool.noConfusion
    rw [show (PublishPc.sending (walk.visit id') handovers id').isSendingTo id
      = false from decide_eq_false hne]
    exact Nat.zero_le _

/-- A step that leaves what a subscriber was sent and who will send to it. -/
theorem delivered_add_underWay_le_of_eq
    (hdelivered : eb'.delivered id = eb.delivered id)
    (hunderWay : eb'.underWay id = eb.underWay id) :
    (eb'.delivered id).length + eb'.underWay id
      ≤ (eb.delivered id).length + eb.underWay id := by
  rw [hdelivered, hunderWay]

/-- **What a subscriber whose flag is set was sent, and may be sent, does
not grow.** -/
theorem Move.delivered_add_underWay_le (hmove : Move eb eb')
    (hs : eb.subscribers.lookup id = some s) (hclosed : s.closed = true) :
    (eb'.delivered id).length + eb'.underWay id
      ≤ (eb.delivered id).length + eb.underWay id := by
  cases hmove with
  | buffer | keep | shutdown | endShutdown => exact le_refl _
  | @enter id' hid =>
    have hne : id ≠ id' := by
      rintro rfl
      rw [AList.lookup_eq_none.mpr hid] at hs
      cases hs
    rw [delivered_insert _ rfl, if_neg hne]
    exact le_refl _
  | store ht hpc =>
    exact delivered_add_underWay_le_of_eq (delivered_insert_same ht rfl (by rfl) id)
      (underWay_mapWalks _ _ id)
  | handler ht hmove =>
    exact delivered_add_underWay_le_of_eq (delivered_insert_same ht rfl hmove.same id)
      rfl
  | remove ht hpc =>
    exact delivered_add_underWay_le_of_eq (delivered_insert_same ht rfl (by rfl) id)
      (underWay_mapWalks _ _ id)
  | receive ht hchannel =>
    refine delivered_add_underWay_le_of_eq (delivered_insert_same ht rfl ?_ id) rfl
    rw [hchannel, List.append_assoc]
    rfl
  | publish event =>
    refine delivered_add_underWay_le_of_eq rfl ?_
    unfold underWay
    rw [List.countP_append]
    rfl
  | @proceed i p pc hp hmove =>
    have hle := hmove.isSendingTo_le hs hclosed
    have heq := underWay_setPc hp pc id
    have hsame : (eb.setPc i pc).delivered id = eb.delivered id := rfl
    rw [hsame]
    omega
  | @deliver i event walk handovers id' t hp ht =>
    have heq : (eb.setPc i (.ranging walk (handovers.insert id' .sent))).underWay id
        + (decide (id' = id)).toNat = eb.underWay id :=
      underWay_setPc hp (.ranging walk (handovers.insert id' .sent)) id
    have hunder :
      ((eb.setSubscriber id' { t with channel := t.channel ++ [event] }).setPc i
        (.ranging walk (handovers.insert id' .sent))).underWay id
        = (eb.setPc i (.ranging walk (handovers.insert id' .sent))).underWay id := rfl
    rw [delivered_insert eb.subscribers rfl, hunder]
    by_cases hid : id = id'
    · -- one of those under way has sent
      subst hid
      rw [decide_eq_true rfl] at heq
      have hold : eb.delivered id = t.received ++ t.channel := by
        unfold delivered
        rw [ht]
        rfl
      rw [if_pos rfl, hold, List.length_append, List.length_append,
        List.length_append]
      have hone : true.toNat = 1 := rfl
      simp only [List.length_singleton]
      omega
    · rw [if_neg hid]
      exact Nat.add_le_add_left (heq ▸ Nat.le_add_right _ _) _
  | delete ht hshutdown =>
    exact delivered_add_underWay_le_of_eq (delivered_insert_same ht rfl (by rfl) id)
      (underWay_mapWalks _ _ id)

/-- **After the end of a subscription few events come.** Once the flag of a
subscriber is set it is sent, in whatever follows, at most one more event
for each publication that had read its flag and not yet sent. -/
theorem late_sends {eb eb' : EventBus} {id : SubscriberID} {s : Subscriber}
    (hs : eb.subscribers.lookup id = some s) (hclosed : s.closed = true)
    (hrun : BusRun eb eb') :
    (eb'.delivered id).length ≤ (eb.delivered id).length + eb.underWay id := by
  have hlate : (∃ s', eb'.subscribers.lookup id = some s' ∧ s'.closed = true) ∧
      (eb'.delivered id).length + eb'.underWay id
          ≤ (eb.delivered id).length + eb.underWay id := by
    refine hrun.invariant (I := fun t =>
      (∃ s', t.subscribers.lookup id = some s' ∧ s'.closed = true) ∧
      (t.delivered id).length + t.underWay id
        ≤ (eb.delivered id).length + eb.underWay id)
      ⟨⟨s, hs, hclosed⟩, le_refl _⟩ ?_
    rintro t t' ⟨⟨u, hu, huclosed⟩, hle⟩ hmove
    obtain ⟨u', hu', hforward⟩ := hmove.subscriber hu
    exact ⟨⟨u', hu', hforward.closed huclosed⟩,
      (hmove.delivered_add_underWay_le hu huclosed).trans hle⟩
  exact (Nat.le_add_right _ _).trans hlate.2

/-- One event does come: the publication has read the flag before it is set,
and sends after. -/
theorem late_sends_one :
    ∃ (eb eb' : EventBus) (s : Subscriber), BusRun new eb ∧
      eb.subscribers.lookup "a" = some s ∧
      s.closed = true ∧ BusRun eb eb' ∧ (eb.delivered "a").length = 0 ∧
      eb.underWay "a" = 1 ∧ (eb'.delivered "a").length = 1 ∧
      (eb'.delivered "a").length ≤ (eb.delivered "a").length + eb.underWay "a" := by
  have hexec : (Machine.exec step Machine.Always new
      [.subscribe "a", .advance "a", .advance "a", .publish (.heartBeat 0),
        .proceed 0, .proceed 0,
        .proceed 0, .visit 0 "a", .advance "a", .advance "a"]).any (fun eb =>
        decide ((eb.delivered "a").length = 0 ∧ eb.underWay "a" = 1) &&
        (eb.subscribers.lookup "a").any Subscriber.closed &&
        (Machine.exec step Machine.Always eb
          [.advance "a", .advance "a", .send 0]).any (fun eb' =>
          decide ((eb'.delivered "a").length = 1))) = true := by
    decide +kernel
  obtain ⟨eb, hreach, h⟩ := Machine.exists_run_of_exec hexec
  obtain ⟨h, hexec'⟩ := Bool.and_eq_true_iff.mp h
  obtain ⟨hbefore, hclosed⟩ := Bool.and_eq_true_iff.mp h
  rw [Option.any_eq_true] at hclosed
  obtain ⟨s, hs, hclosed⟩ := hclosed
  obtain ⟨eb', hrun, hafter⟩ := Machine.exists_run_of_exec hexec'
  exact ⟨eb, eb', s, hreach, hs, hclosed, hrun, (of_decide_eq_true hbefore).1,
    (of_decide_eq_true hbefore).2, of_decide_eq_true hafter,
    late_sends hs hclosed hrun⟩

end EventBus

end Mmn
