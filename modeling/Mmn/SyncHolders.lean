import Mmn.SyncRequests

/-!
# One stream for each request

Of the streams that answer a request one is to be read. Looking a tracker up
and activating it are two sections, and in between the tracker may be taken
out of the table and made inactive. Then it is activated all the same, while
a stream that comes later gets a tracker of its own (`read_twice`): two
streams of one request are read at once, and the one that is through first
closes the other.

If no tracker is activated after it was taken out, or while the cleanup is
about to take it out, then a request has one holder at a time, whose stream
stays open for as long as they hold it (`one_holder`). What carries this is
who may be listed where (`Orderly`): the streams a tracker lists are of
handlers that have returned, or of the one that holds it, so that closing
what is listed closes nothing that is read.

The handler of the topic takes the tracker out after it has written the
first message into the stream, not if it could not open one. Then the
tracker stays active in the table for good – the cleanup passes over active
ones – and no stream for that request is ever read (`abandoned_for_good`).
-/

namespace Mmn

namespace SyncRequests

/-- **A handler is prompt**: when it activates its tracker, that tracker is
still the one in the table under its request, and the cleanup has not found
the request inactive and is about to take it out. Nothing is asked of the
other events. -/
def Prompt (s : SyncRequests) : SyncEvent → Prop
  | .activate i => ∀ h ∈ s.handlers[i]?, ∀ t ∈ h.stage.tracker,
      s.syncRequests.lookup h.request.requestID = some t ∧
      s.sweeping ≠ some (h.request.requestID, false)
  | _ => True

instance (s : SyncRequests) : (e : SyncEvent) → Decidable (s.Prompt e)
  | .activate _ => inferInstanceAs (Decidable (∀ _ ∈ _, ∀ _ ∈ _, _ ∧ _))
  | .stream _ _ | .request _ _ | .submit _ _ | .find _ _ | .finish _ | .abandon _
    | .inspect _
    _ | .settle _ =>
    isTrue trivial

/-! ## The invariant -/

/-- **Who holds a request.** -/
structure Orderly (s : SyncRequests) : Prop where
  /-- Trackers are in the table under the identifier they are for. -/
  named : s.Named
  /-- The tracker somebody holds is in the table, and listens to them. -/
  held : ∀ h ∈ s.handlers, ∀ t, h.stage.held = some t →
    s.syncRequests.lookup h.request.requestID = some t ∧
      ∃ tr, s.trackers[t]? = some tr ∧ tr.isActive = true ∧ tr.activePeer = h.peer
  alone : ∀ (i j : ℕ) (h h' : Handler) t, s.handlers[i]? = some h →
    s.handlers[j]? = some h' → h.stage.held = some t → h'.stage.held = some t → i = j
  /-- The streams a tracker lists are of handlers that returned, or of the
  one that holds it. -/
  listed : ∀ (t : ℕ) (tr : Tracker) stream, s.trackers[t]? = some tr →
    tr.Lists stream →
    ∃ h : Handler, s.handlers[stream]? = some h ∧
    (h.stage = .done ∨ h.stage.held = some t)
  placed : ∀ (t : ℕ) (tr : Tracker) peerID stream, s.trackers[t]? = some tr →
    tr.allPeers.lookup peerID = some (some stream) →
    ∃ h : Handler, s.handlers[stream]? = some h ∧ h.peer = peerID
  closed : ∀ stream ∈ s.closed, ∃ h : Handler, s.handlers[stream]? = some h ∧
    h.stage = .done
  /-- What the cleanup is about to take out is not active. -/
  swept : ∀ requestID, s.sweeping = some (requestID, false) →
    ∃ (t : ℕ) (tr : Tracker),
      s.syncRequests.lookup requestID = some t ∧ s.trackers[t]? = some tr ∧
      tr.isActive = false

/-- **Handlers that went on without activating a tracker.** -/
structure Carries (l l' : List Handler) : Prop where
  /-- Everybody is still there; who has returned stays returned, and a
  tracker is held until its handler returns. -/
  keeps : ∀ (i : ℕ) (h : Handler), l[i]? = some h → ∃ h' : Handler, l'[i]? = some h' ∧
    h'.peer = h.peer ∧ (h.stage = .done → h'.stage = .done) ∧
    ∀ t, h.stage.held = some t → h'.stage = .done ∨ h'.stage.held = some t
  gains : ∀ (i : ℕ) (h' : Handler) t, l'[i]? = some h' → h'.stage.held = some t →
    ∃ h : Handler, l[i]? = some h ∧ h.stage.held = some t ∧ h.request = h'.request ∧
    h.peer = h'.peer

namespace Carries

theorem append (l : List Handler) (peer : String) (reads : Bool) (req : SyncRequest) :
    Carries l (l ++ [⟨peer, reads, req, .start⟩]) where
  keeps i h hi := by
    refine ⟨h, ?_, rfl, id, fun _ ht => Or.inr ht⟩
    rw [List.getElem?_append_left (List.getElem?_eq_some_iff.mp hi).1]
    exact hi
  gains i h' t hi ht := by
    rw [List.getElem?_append] at hi
    split at hi
    · exact ⟨h', hi, ht, rfl, rfl⟩
    · obtain rfl := List.mem_singleton.mp (List.mem_of_getElem? hi)
      cases ht

theorem set {l : List Handler} {i : ℕ} {h : Handler} (hi : l[i]? = some h)
    {stage : Stage} (hheld : ∀ t, stage.held = some t → h.stage.held = some t)
    (hdone : h.stage = .done → stage = .done)
    (hholds : ∀ t, h.stage.held = some t → stage = .done ∨ stage.held = some t) :
    Carries l (l.set i { h with stage := stage }) where
  keeps j h₁ hj := by
    rw [List.getElem?_set]
    by_cases hij : i = j
    · obtain rfl : h = h₁ := Option.some.inj (hi.symm.trans (hij ▸ hj))
      rw [if_pos hij, if_pos (hij ▸ (List.getElem?_eq_some_iff.mp hi).1)]
      exact ⟨_, rfl, rfl, hdone, hholds⟩
    · rw [if_neg hij]
      exact ⟨h₁, hj, rfl, id, fun _ ht => Or.inr ht⟩
  gains j h' t hj ht := by
    rw [List.getElem?_set] at hj
    split at hj
    · next hij =>
      split at hj
      · cases hj
        exact ⟨h, hij ▸ hi, hheld t ht, rfl, rfl⟩
      · cases hj
    · exact ⟨h', hj, ht, rfl, rfl⟩

end Carries

namespace Orderly

variable {s : SyncRequests} {i t : ℕ} {h : Handler} {tr : Tracker}
  {requestID : String}

theorem new : Orderly SyncRequests.new where
  named _ _ h := by cases h
  held _ h := by cases h
  alone _ _ _ _ _ h := by cases h
  listed _ _ _ h := by cases h
  placed _ _ _ _ h := by cases h
  closed _ h := absurd h (Finset.notMem_empty _)
  swept _ h := by cases h

theorem carry (o : Orderly s) {l : List Handler} (hl : Carries s.handlers l) :
    Orderly { s with handlers := l } where
  named := o.named
  held h' hh' t ht := by
    obtain ⟨i, hi⟩ := List.mem_iff_getElem?.mp hh'
    obtain ⟨h, hh, hheld, hreq, hpeer⟩ := hl.gains i h' t hi ht
    have hold := o.held h (List.mem_of_getElem? hh) t hheld
    rwa [hreq, hpeer] at hold
  alone i j h h' t hi hj hh hh' := by
    obtain ⟨h₁, hi₁, hheld₁, -⟩ := hl.gains i h t hi hh
    obtain ⟨h₂, hj₂, hheld₂, -⟩ := hl.gains j h' t hj hh'
    exact o.alone i j h₁ h₂ t hi₁ hj₂ hheld₁ hheld₂
  listed t tr stream htr hlists := by
    obtain ⟨h, hh, hst⟩ := o.listed t tr stream htr hlists
    obtain ⟨h', hh', -, hdone, hholds⟩ := hl.keeps stream h hh
    exact ⟨h', hh', hst.elim (fun hst => Or.inl (hdone hst)) (hholds t)⟩
  placed t tr peerID stream htr hlook := by
    obtain ⟨h, hh, hpeer⟩ := o.placed t tr peerID stream htr hlook
    obtain ⟨h', hh', hpeer', -⟩ := hl.keeps stream h hh
    exact ⟨h', hh', hpeer'.trans hpeer⟩
  closed stream hst := by
    obtain ⟨h, hh, hdone⟩ := o.closed stream hst
    obtain ⟨h', hh', -, hdone', -⟩ := hl.keeps stream h hh
    exact ⟨h', hh', hdone' hdone⟩
  swept := o.swept

/-- Streams of handlers that have returned are closed. -/
theorem close (o : Orderly s) {streams : List ℕ}
    (hdone : ∀ stream ∈ streams, ∃ h : Handler, s.handlers[stream]? = some h ∧
      h.stage = .done) :
    Orderly (s.close streams) where
  named := o.named
  held := o.held
  alone := o.alone
  listed := o.listed
  placed := o.placed
  closed stream hst := by
    obtain hst | hst := Finset.mem_union.mp hst
    · exact o.closed stream hst
    · exact hdone stream (List.mem_toFinset.mp hst)
  swept := o.swept

theorem leave (o : Orderly s) (hi : s.handlers[i]? = some h) :
    Orderly (s.leave i h) := by
  have hcarries : Carries s.handlers (s.handlers.set i { h with stage := .done }) :=
    .set hi (fun _ ht => by cases ht) (fun _ => rfl) fun _ _ => Or.inl rfl
  refine (o.carry hcarries).close fun stream hst => ?_
  obtain rfl := Handler.eq_of_stream (Option.mem_toList.mp hst)
  refine ⟨{ h with stage := .done }, ?_, rfl⟩
  show (s.handlers.set stream _)[stream]? = _
  rw [List.getElem?_set_self (List.getElem?_eq_some_iff.mp hi).1]

/-- A new tracker is put into the table under a new identifier. -/
theorem track (o : Orderly s) {req : SyncRequest}
    (hfree : req.requestID ∉ s.syncRequests) (now : ℕ) :
    Orderly (s.track req now) := by
  have hkeep : ∀ {t : ℕ} {tr : Tracker}, s.trackers[t]? = some tr →
      (s.track req now).trackers[t]? = some tr := by
    intro t tr ht
    show (s.trackers ++ _)[t]? = _
    rw [List.getElem?_append_left (List.getElem?_eq_some_iff.mp ht).1]
    exact ht
  have htable : ∀ {requestID : String} {t : ℕ},
    s.syncRequests.lookup requestID = some t →
      (s.track req now).syncRequests.lookup requestID = some t := by
    intro requestID t ht
    have hne : requestID ≠ req.requestID := fun heq =>
      hfree (heq ▸ AList.lookup_isSome.mp (Option.isSome_of_eq_some ht))
    show (s.syncRequests.insert _ _).lookup requestID = some t
    rw [AList.lookup_insert_ne hne]
    exact ht
  have hcases : ∀ {t : ℕ} {tr : Tracker}, (s.track req now).trackers[t]? = some tr →
      s.trackers[t]? = some tr ∨ tr = Tracker.new req now := by
    intro t tr ht
    have ht' : (s.trackers ++ [Tracker.new req now])[t]? = some tr := ht
    rw [List.getElem?_append] at ht'
    split at ht'
    · exact Or.inl ht'
    · exact Or.inr (List.mem_singleton.mp (List.mem_of_getElem? ht'))
  refine ⟨o.named.track req now, fun h hh t ht => ?_, o.alone,
    fun t tr stream htr hlists => ?_,
    fun t tr peerID stream htr hlook => ?_, o.closed, fun requestID hsweep => ?_⟩
  · obtain ⟨hlook, tr, htr, hactive⟩ := o.held h hh t ht
    exact ⟨htable hlook, tr, hkeep htr, hactive⟩
  · obtain hold | rfl := hcases htr
    · exact o.listed t tr stream hold hlists
    · obtain hnone | ⟨peerID, hnone⟩ := hlists <;> cases hnone
  · obtain hold | rfl := hcases htr
    · exact o.placed t tr peerID stream hold hlook
    · cases hlook
  · obtain ⟨t, tr, hlook, htr, hactive⟩ := o.swept requestID hsweep
    exact ⟨t, tr, htable hlook, hkeep htr, hactive⟩

/-- **A tracker changes.** It still listens to who holds it, it is not
activated while the cleanup is about to take it out, and the streams it
takes up are of handlers that have returned or hold it. -/
theorem setTracker (o : Orderly s) {tr tr' : Tracker} (htr : s.trackers[t]? = some tr)
    (hname : tr'.requestID = tr.requestID)
    (hheld : ∀ h ∈ s.handlers, h.stage.held = some t → tr'.isActive = true ∧
      tr'.activePeer = h.peer)
    (hswept : ∀ requestID, s.sweeping = some (requestID, false) →
      s.syncRequests.lookup requestID = some t → tr'.isActive = false)
    (hlists : ∀ stream, tr'.Lists stream → tr.Lists stream ∨
      ∃ h : Handler, s.handlers[stream]? = some h ∧
      (h.stage = .done ∨ h.stage.held = some t))
    (hplaces : ∀ peerID stream, tr'.allPeers.lookup peerID = some (some stream) →
      tr.allPeers.lookup peerID = some (some stream) ∨
      ∃ h : Handler, s.handlers[stream]? = some h ∧ h.peer = peerID) :
    Orderly (s.setTracker t tr') := by
  have hat := getElem?_setTracker htr tr'
  refine ⟨fun requestID u hu => ?_, fun h hh u hu => ?_, o.alone,
    fun u tru stream hu hl => ?_,
    fun u tru peerID stream hu hl => ?_, o.closed, fun requestID hsweep => ?_⟩
  · obtain ⟨tru, htru, hnamed⟩ := o.named requestID u hu
    rw [hat]
    split
    · next heq =>
      obtain rfl : tr = tru := Option.some.inj (htr.symm.trans (heq ▸ htru))
      exact ⟨tr', rfl, hname.trans hnamed⟩
    · exact ⟨tru, htru, hnamed⟩
  · obtain ⟨hlook, hold⟩ := o.held h hh u hu
    refine ⟨hlook, ?_⟩
    rw [hat]
    split
    · next heq => exact ⟨tr', rfl, hheld h hh (heq ▸ hu)⟩
    · exact hold
  · rw [hat] at hu
    split at hu
    · next heq =>
      cases hu
      rw [heq]
      exact (hlists stream hl).elim (o.listed t tr stream htr) id
    · exact o.listed u tru stream hu hl
  · rw [hat] at hu
    split at hu
    · cases hu
      exact (hplaces peerID stream hl).elim (o.placed t tr peerID stream htr) id
    · exact o.placed u tru peerID stream hu hl
  · obtain ⟨u, tru, hlook, htru, hoff⟩ := o.swept requestID hsweep
    refine ⟨u, ?_⟩
    rw [hat]
    split
    · next heq => exact ⟨tr', hlook, rfl, hswept requestID hsweep (heq ▸ hlook)⟩
    · exact ⟨tru, hlook, htru, hoff⟩

theorem relist (o : Orderly s) {tr tr' : Tracker} (htr : s.trackers[t]? = some tr)
    (hname : tr'.requestID = tr.requestID) (hactive : tr'.isActive = tr.isActive)
    (hpeer : tr'.activePeer = tr.activePeer)
    (hlists : ∀ stream, tr'.Lists stream → tr.Lists stream ∨
      ∃ h : Handler, s.handlers[stream]? = some h ∧
      (h.stage = .done ∨ h.stage.held = some t))
    (hplaces : ∀ peerID stream, tr'.allPeers.lookup peerID = some (some stream) →
      tr.allPeers.lookup peerID = some (some stream) ∨
      ∃ h : Handler, s.handlers[stream]? = some h ∧ h.peer = peerID) :
    Orderly (s.setTracker t tr') := by
  refine o.setTracker htr hname (fun h hh hheld => ?_)
    (fun requestID hsweep hlook => ?_) hlists hplaces
  · obtain ⟨-, tru, htru, hon, hlistens⟩ := o.held h hh t hheld
    obtain rfl : tr = tru := Option.some.inj (htr.symm.trans htru)
    exact ⟨hactive.trans hon, hpeer.trans hlistens⟩
  · obtain ⟨u, tru, hlook', htru, hoff⟩ := o.swept requestID hsweep
    obtain rfl : t = u := Option.some.inj (hlook.symm.trans hlook')
    obtain rfl : tr = tru := Option.some.inj (htr.symm.trans htru)
    exact hactive.trans hoff

/-- A tracker takes up the stream of a handler that has returned or holds
it. -/
theorem register (o : Orderly s) {active : Option ℕ} (htr : s.trackers[t]? = some tr)
    (hi : s.handlers[i]? = some h) (hstage : h.stage = .done ∨ h.stage.held = some t)
    (hown : active = tr.activeStream ∨ active = h.stream i) :
    Orderly (s.setTracker t { tr with
      allPeers := tr.allPeers.insert h.peer (h.stream i)
      activeStream := active }) := by
  have hnew : ∀ {stream : ℕ}, h.stream i = some stream →
      s.handlers[stream]? = some h :=
    fun hst => by
    rwa [Handler.eq_of_stream hst]
  refine o.relist htr rfl rfl rfl (fun stream hl => ?_) (fun peerID stream hl => ?_)
  · obtain hactive | ⟨peerID, hpeer⟩ := hl
    · obtain rfl | rfl := hown
      · exact Or.inl (Or.inl hactive)
      · exact Or.inr ⟨h, hnew hactive, hstage⟩
    · by_cases heq : peerID = h.peer
      · rw [heq, AList.lookup_insert] at hpeer
        exact Or.inr ⟨h, hnew (Option.some.inj hpeer), hstage⟩
      · rw [AList.lookup_insert_ne heq] at hpeer
        exact Or.inl (Or.inr ⟨peerID, hpeer⟩)
  · by_cases heq : peerID = h.peer
    · rw [heq, AList.lookup_insert] at hl
      exact Or.inr ⟨h, hnew (Option.some.inj hl), heq.symm⟩
    · rw [AList.lookup_insert_ne heq] at hl
      exact Or.inl hl

/-- A request whose tracker nobody holds is taken out of the table. -/
theorem erase (o : Orderly s) (hlook : s.syncRequests.lookup requestID = some t)
    (hnone : ∀ h ∈ s.handlers, h.stage.held ≠ some t) (hsweep : s.sweeping = none) :
    Orderly { s with syncRequests := s.syncRequests.erase requestID } where
  named id u hu := by
    have hne : id ≠ requestID := by
      rintro rfl
      cases (AList.lookup_erase id s.syncRequests).symm.trans hu
    exact o.named id u ((AList.lookup_erase_ne hne).symm.trans hu)
  held h hh u hu := by
    obtain ⟨hlook', hold⟩ := o.held h hh u hu
    have hid : h.request.requestID ≠ requestID := by
      intro heq
      obtain rfl : t = u := Option.some.inj (hlook.symm.trans (heq ▸ hlook'))
      exact hnone h hh hu
    exact ⟨(AList.lookup_erase_ne hid).trans hlook', hold⟩
  alone := o.alone
  listed := o.listed
  placed := o.placed
  closed := o.closed
  swept id hid := by cases hsweep.symm.trans hid

/-- A tracker nobody holds is released and taken out of the table. -/
theorem drop (o : Orderly s) {r : Tracker × List ℕ}
    (hlook : s.syncRequests.lookup requestID = some t)
    (htr : s.trackers[t]? = some tr) (hreleased : Tracker.Released tr r.1 r.2)
    (hnone : ∀ h ∈ s.handlers, h.stage.held ≠ some t) (hsweep : s.sweeping = none) :
    Orderly (s.drop requestID t r) := by
  have hset : Orderly (s.setTracker t r.1) := by
    refine o.setTracker htr hreleased.requestID
      (fun h hh ht => absurd ht (hnone h hh))
      (fun _ hid => by cases hsweep.symm.trans hid) (fun stream hl => Or.inl ?_)
      (fun peerID stream hl => Or.inl (hreleased.allPeers peerID _ hl))
    obtain hactive | ⟨peerID, hpeer⟩ := hl
    · cases hreleased.activeStream.symm.trans hactive
    · exact Or.inr ⟨peerID, hreleased.allPeers peerID _ hpeer⟩
  refine (hset.erase hlook hnone hsweep).close fun stream hst => ?_
  obtain ⟨h, hh, hstage⟩ := o.listed t tr stream htr (hreleased.closed stream hst)
  exact ⟨h, hh, hstage.resolve_right (hnone h (List.mem_of_getElem? hh))⟩

/-- A handler gets hold of a tracker that listens to it and that nobody
holds. -/
theorem hold (o : Orderly s) (hi : s.handlers[i]? = some h)
    (hstage : h.stage = .found t)
    (hlook : s.syncRequests.lookup h.request.requestID = some t)
    (htr : s.trackers[t]? = some tr) (hon : tr.isActive = true)
    (hpeer : tr.activePeer = h.peer)
    (hnone : ∀ h' ∈ s.handlers, h'.stage.held ≠ some t) :
    Orderly (s.advance i h (.active t)) := by
  have hset : ∀ j : ℕ, (s.advance i h (.active t)).handlers[j]?
      = if j = i then some { h with stage := .active t } else s.handlers[j]? := by
    intro j
    show (s.handlers.set i _)[j]? = _
    rw [List.getElem?_set]
    by_cases heq : i = j
    · rw [if_pos heq, if_pos heq.symm,
        if_pos (heq ▸ (List.getElem?_eq_some_iff.mp hi).1)]
    · rw [if_neg heq, if_neg (Ne.symm heq)]
  -- the handler that goes on had neither returned nor held anything
  have hkeep : ∀ {u stream : ℕ} {h' : Handler}, s.handlers[stream]? = some h' →
      h'.stage = .done ∨ h'.stage.held = some u →
      (s.advance i h (.active t)).handlers[stream]? = some h' := by
    intro u stream h' hh' hst
    rw [hset, if_neg fun heq => ?_]
    · exact hh'
    · obtain rfl : h = h' := Option.some.inj (hi.symm.trans (heq ▸ hh'))
      rw [hstage] at hst
      obtain hst | hst := hst <;> cases hst
  refine ⟨o.named, fun h' hh' u hu => ?_, fun j k h₁ h₂ u hj hk h₁u h₂u => ?_,
    fun u tru stream hu hl => ?_,
    fun u tru peerID stream hu hl => ?_, fun stream hst => ?_, o.swept⟩
  · obtain hold | rfl := List.mem_or_eq_of_mem_set hh'
    · exact o.held h' hold u hu
    · obtain rfl : t = u := Option.some.inj hu
      exact ⟨hlook, tr, htr, hon, hpeer⟩
  · rw [hset] at hj hk
    split at hj <;> split at hk
    · next hji hki => exact hji.trans hki.symm
    · cases hj
      cases h₁u
      exact absurd h₂u (hnone h₂ (List.mem_of_getElem? hk))
    · cases hk
      cases h₂u
      exact absurd h₁u (hnone h₁ (List.mem_of_getElem? hj))
    · exact o.alone j k h₁ h₂ u hj hk h₁u h₂u
  · obtain ⟨h', hh', hst⟩ := o.listed u tru stream hu hl
    exact ⟨h', hkeep hh' hst, hst⟩
  · obtain ⟨h', hh', hp⟩ := o.placed u tru peerID stream hu hl
    rw [hset]
    split
    · next heq =>
      obtain rfl : h = h' := Option.some.inj (hi.symm.trans (heq ▸ hh'))
      exact ⟨_, rfl, hp⟩
    · exact ⟨h', hh', hp⟩
  · obtain ⟨h', hh', hdone⟩ := o.closed stream hst
    have hst : h'.stage = .done ∨ h'.stage.held = some t := Or.inl hdone
    exact ⟨h', hkeep hh' hst, hdone⟩

/-- A tracker that is inactive is activated, while it is in the table and
the cleanup is not about to take it out. -/
theorem take (o : Orderly s) (hi : s.handlers[i]? = some h)
    (hstage : h.stage = .found t) (htr : s.trackers[t]? = some tr)
    (hoff : tr.isActive = false)
    (hlook : s.syncRequests.lookup h.request.requestID = some t)
    (hsweep : s.sweeping ≠ some (h.request.requestID, false)) :
    Orderly ((s.setTracker t { tr with
      allPeers := tr.allPeers.insert h.peer (h.stream i)
      activePeer := h.peer
      activeStream := h.stream i
      isActive := true }).advance i h (.active t)) := by
  have hnone : ∀ h' ∈ s.handlers, h'.stage.held ≠ some t := by
    intro h' hh' ht
    obtain ⟨-, tr', htr', hon, -⟩ := o.held h' hh' t ht
    obtain rfl : tr = tr' := Option.some.inj (htr.symm.trans htr')
    cases hoff.symm.trans hon
  -- the tracker is marked, then the handler holds it, and then its stream
  -- is listed
  have hmarked : Orderly
      (s.setTracker t { tr with activePeer := h.peer, isActive := true }) := by
    refine o.setTracker htr rfl (fun h' hh' ht => absurd ht (hnone h' hh'))
      (fun requestID hid hlook' => ?_) (fun _ hl => Or.inl hl)
        (fun _ _ hl => Or.inl hl)
    obtain ⟨tr₁, htr₁, hnamed⟩ := o.named _ _ hlook
    obtain ⟨tr₂, htr₂, hnamed'⟩ := o.named _ _ hlook'
    obtain rfl : tr₁ = tr₂ := Option.some.inj (htr₁.symm.trans htr₂)
    exact absurd (hnamed.symm.trans hnamed' ▸ hid) hsweep
  have hlen := (List.getElem?_eq_some_iff.mp htr).1
  have hmark :
    (s.setTracker t { tr with activePeer := h.peer, isActive := true }).trackers[t]?
      = some _ :=
    List.getElem?_set_self hlen
  have hheld := hmarked.hold hi hstage hlook hmark rfl rfl hnone
  have hi' :
    ((s.setTracker t { tr with activePeer := h.peer, isActive := true }).advance i h
      (.active t)).handlers[i]? = some { h with stage := .active t } :=
    List.getElem?_set_self (List.getElem?_eq_some_iff.mp hi).1
  have hlisted := hheld.register hmark hi' (Or.inr rfl) (Or.inr rfl)
  unfold SyncRequests.advance SyncRequests.setTracker at hlisted ⊢
  rw [List.set_set] at hlisted
  exact hlisted

/-- **A handler tries to activate its tracker.** -/
theorem activate (o : Orderly s) (hi : s.handlers[i]? = some h)
    (hstage : h.stage = .found t) (htr : s.trackers[t]? = some tr)
    (hlook : s.syncRequests.lookup h.request.requestID = some t)
    (hsweep : s.sweeping ≠ some (h.request.requestID, false)) :
    Orderly (s.activate i h t tr) := by
  unfold SyncRequests.activate
  cases hactive : tr.isActive with
  | false =>
    rw [Tracker.activatePeer_of_inactive hactive]
    exact o.take hi hstage htr hactive hlook hsweep
  | true =>
    rw [Tracker.activatePeer_of_active hactive]
    have hi' : (s.leave i h).handlers[i]? = some { h with stage := .done } :=
      List.getElem?_set_self (List.getElem?_eq_some_iff.mp hi).1
    have hlisted := (o.leave hi).register htr hi' (Or.inl rfl) (Or.inl rfl)
    exact hlisted

/-- **The cleanup deals with a request.** -/
theorem settle (o : Orderly s) {active : Bool}
    (hsweep : s.sweeping = some (requestID, active)) (now : ℕ) :
    Orderly (SyncRequests.settle { s with sweeping := none } now requestID
      active) := by
  have hfree : Orderly { s with sweeping := none } :=
    ⟨o.named, o.held, o.alone, o.listed, o.placed, o.closed, fun _ h => by cases h⟩
  unfold SyncRequests.settle
  split
  · exact hfree
  · next t tr hlookup =>
    obtain ⟨hlook, htr⟩ := lookup_eq_some hlookup
    cases active with
    | true =>
      rw [if_pos rfl]
      have hkept : Orderly (SyncRequests.setTracker { s with sweeping := none } t
          { tr.closeAllOtherPeers.1 with startTime := now }) := by
        refine hfree.relist htr rfl rfl rfl (fun stream hl => ?_)
          (fun peerID stream hl => by cases hl)
        obtain hown | ⟨peerID, hpeer⟩ := hl
        · exact Or.inl (Or.inl hown)
        · cases hpeer
      refine hkept.close fun stream hst => ?_
      -- a stream under another peer is not that of the holder
      obtain ⟨peerID, hpeer, hne⟩ := Tracker.mem_closeAllOtherPeers hst
      obtain ⟨h, hh, hstage⟩ := o.listed t tr stream htr (Or.inr ⟨peerID, hpeer⟩)
      refine ⟨h, hh, hstage.resolve_right fun hheld => hne ?_⟩
      obtain ⟨-, tr', htr', -, hlistens⟩ := o.held h (List.mem_of_getElem? hh) t hheld
      obtain rfl : tr = tr' := Option.some.inj (htr.symm.trans htr')
      obtain ⟨h', hh', rfl⟩ := o.placed t tr peerID stream htr hpeer
      obtain rfl : h = h' := Option.some.inj (hh.symm.trans hh')
      exact hlistens.symm
    | false =>
      rw [if_neg Bool.false_ne_true]
      refine hfree.drop hlook htr tr.released_closeAll (fun h hh hheld => ?_) rfl
      obtain ⟨u, tru, hlook', htru, hoff⟩ := o.swept requestID hsweep
      obtain rfl : t = u := Option.some.inj (hlook.symm.trans hlook')
      obtain ⟨-, tr', htr', hon, -⟩ := o.held h hh t hheld
      obtain rfl : tru = tr' := Option.some.inj (htru.symm.trans htr')
      cases hoff.symm.trans hon

/-- A handler that is through takes the tracker of its request out. -/
theorem finish (o : Orderly s) (hi : s.handlers[i]? = some h)
    (hstage : h.stage = .active t) (hsweep : s.sweeping = none) :
    Orderly ((s.leave i h).takeOut h) := by
  have hleft := o.leave hi
  have hheld : h.stage.held = some t := by rw [hstage]; rfl
  unfold SyncRequests.takeOut
  split
  · exact hleft
  · next u tr hlookup =>
    obtain ⟨hlook, htr⟩ := lookup_eq_some hlookup
    obtain rfl : t = u :=
      Option.some.inj
        ((o.held h (List.mem_of_getElem? hi) t hheld).1.symm.trans hlook)
    -- it held the tracker alone, and has returned
    have hnone : ∀ h' ∈ (s.leave i h).handlers, h'.stage.held ≠ some t := by
      intro h' hh' ht
      obtain ⟨j, hj⟩ := List.mem_iff_getElem?.mp hh'
      have hj' : (s.handlers.set i { h with stage := .done })[j]? = some h' := hj
      rw [List.getElem?_set] at hj'
      split at hj'
      · split at hj'
        · cases hj'
          cases ht
        · cases hj'
      · next hne => exact hne (o.alone i j h h' t hi hj' hheld ht)
    refine hleft.drop hlook htr ?_ hnone hsweep
    split
    · exact tr.released_closeAll
    · exact tr.released_closeRequest

/-- **Every section keeps the invariant**, if trackers are activated while
they are in the table. -/
theorem step {s' : SyncRequests} (o : Orderly s) {e : SyncEvent}
    (hprompt : s.Prompt e) (hstep : s.step e = some s') : Orderly s' := by
  cases does_of_step hstep with
  | nothing => exact o
  | spawn peer reads req => exact o.carry (.append _ peer reads req)
  | submit hfree => exact o.track hfree _
  | @find i now h hi hstage =>
    have hcarries : ∀ t, Carries s.handlers
        (s.handlers.set i { h with stage := .found t }) :=
      fun t =>
      .set hi (fun _ ht => by cases ht)
        (fun hdone => by cases hstage.symm.trans hdone)
        fun _ ht => by rw [hstage] at ht; cases ht
    unfold SyncRequests.find
    split
    · exact o.carry (hcarries _)
    · next hnone =>
        exact (o.track (AList.lookup_eq_none.mp hnone) now).carry (hcarries _)
  | @activate i t h tr hi hstage htr =>
    have hknown : h.stage.tracker = some t := by rw [hstage]; rfl
    obtain ⟨hlook, hsweep⟩ := hprompt h hi t hknown
    exact o.activate hi hstage htr hlook hsweep
  | finish hi hstage hsweep => exact o.finish hi hstage hsweep
  | @abandon i t h hi hstage =>
    refine o.carry (.set hi (fun u hu => ?_) (fun hdone => ?_) fun u hu => Or.inr ?_)
    · rw [hstage]
      exact hu
    · cases hstage.symm.trans hdone
    · rw [hstage] at hu
      exact hu
  | @inspect requestID now t tr hlookup =>
    obtain ⟨hlook, htr⟩ := lookup_eq_some hlookup
    refine ⟨o.named, o.held, o.alone, o.listed, o.placed, o.closed, fun id hid => ?_⟩
    obtain ⟨rfl, hoff⟩ := Prod.mk.inj (Option.some.inj hid)
    exact ⟨t, tr, hlook, htr, hoff⟩
  | settle hsweep => exact o.settle hsweep _

theorem run {s' : SyncRequests} (o : Orderly s)
    (h : Machine.Run SyncRequests.step Prompt s s') :
    Orderly s' :=
  h.invariant o fun _ _ _ o hprompt hstep => o.step hprompt hstep

/-- Handlers that hold the same request are the same. -/
theorem eq_of_held (o : Orderly s) {i j : ℕ} {h h' : Handler}
    (hi : s.handlers[i]? = some h) (hj : s.handlers[j]? = some h')
    (hreq : h.request.requestID = h'.request.requestID) (hheld : h.stage.held ≠ none)
    (hheld' : h'.stage.held ≠ none) : i = j := by
  obtain ⟨t, ht⟩ := Option.ne_none_iff_exists'.mp hheld
  obtain ⟨t', ht'⟩ := Option.ne_none_iff_exists'.mp hheld'
  obtain ⟨hlook, -⟩ := o.held h (List.mem_of_getElem? hi) t ht
  obtain ⟨hlook', -⟩ := o.held h' (List.mem_of_getElem? hj) t' ht'
  obtain rfl : t = t' := Option.some.inj (hlook.symm.trans (hreq ▸ hlook'))
  exact o.alone i j h h' t hi hj ht ht'

end Orderly

/-! ## Who is read -/

/-- **A request has one holder at a time**, and the stream that is read for
it is open. In every run from the start whose handlers are prompt (`Prompt`:
a tracker is activated only while it is in the table and the cleanup is not
about to take it out): of two handlers of one request at most one has
activated its tracker and not taken it out, and no stream is closed while
its handler reads it. -/
theorem one_holder {s : SyncRequests} (hrun : Machine.Run step Prompt new s) :
    (∀ (i j : ℕ) (h h' : Handler), s.handlers[i]? = some h →
      s.handlers[j]? = some h' →
        h.request.requestID = h'.request.requestID → h.stage.held ≠ none →
        h'.stage.held ≠ none → i = j) ∧
      ∀ (i t : ℕ) (h : Handler), s.handlers[i]? = some h → h.stage = .active t →
      i ∉ s.closed := by
  have o := Orderly.new.run hrun
  refine ⟨fun i j h h' hi hj hreq hheld hheld' =>
    o.eq_of_held hi hj hreq hheld hheld', fun i t h hi hstage hclosed => ?_⟩
  obtain ⟨h', hi', hdone⟩ := o.closed i hclosed
  obtain rfl : h = h' := Option.some.inj (hi.symm.trans hi')
  cases hstage.symm.trans hdone

/-- A handler that has returned stays as it is. -/
theorem over_step {s s' : SyncRequests} {e : SyncEvent}
    (hstep : s.step e = some s') {i : ℕ} {h : Handler} (hi : s.handlers[i]? = some h)
    (hover : h.stage.Over) :
    s'.handlers[i]? = some h := by
  obtain heq | ⟨h', heq⟩ | ⟨j, h₁, h', hj, hnot, heq⟩ := handlers_step hstep
  · rwa [heq]
  · rw [heq, List.getElem?_append_left (List.getElem?_eq_some_iff.mp hi).1]
    exact hi
  · rw [heq, List.getElem?_set_ne]
    · exact hi
    · rintro rfl
      obtain rfl : h = h₁ := Option.some.inj (hi.symm.trans hj)
      exact hnot hover

theorem over_run {s s' : SyncRequests} (hrun : Machine.Run step Prompt s s') {i : ℕ}
    {h : Handler} (hi : s.handlers[i]? = some h) (hover : h.stage.Over) :
    s'.handlers[i]? = some h :=
  hrun.invariant (I := fun s => s.handlers[i]? = some h) hi fun _ _ _ hi _ hstep =>
    over_step hstep hi hover

/-- **A request that could not be answered is never answered.** The handlers
are prompt (`Prompt`), both up to the moment at which the stream for the
answer could not be opened and from then on. The tracker of the request then
stays in the table for good, and it stays active: whatever else peers and
the cleanup do, no other handler of that request gets past it. -/
theorem abandoned_for_good {s s' : SyncRequests}
    (hrun : Machine.Run step Prompt new s) {i t : ℕ} {h : Handler}
    (hi : s.handlers[i]? = some h) (hstage : h.stage = .abandoned t)
    (hlater : Machine.Run step Prompt s s') :
    (∃ tr, s'.lookup h.request.requestID = some (t, tr) ∧ tr.isActive = true) ∧
      ∀ (j : ℕ) (h' : Handler), s'.handlers[j]? = some h' →
      h'.request.requestID = h.request.requestID →
        j ≠ i → h'.stage.held = none := by
  have hover : h.stage.Over := by rw [hstage]; exact trivial
  have hheld : h.stage.held = some t := by rw [hstage]; rfl
  have hi' := over_run hlater hi hover
  have o := Orderly.new.run (hrun.trans hlater)
  refine ⟨?_, fun j h' hj hreq hne => ?_⟩
  · obtain ⟨hlook, tr, htr, hon, -⟩ := o.held h (List.mem_of_getElem? hi') t hheld
    refine ⟨tr, ?_, hon⟩
    unfold lookup
    rw [hlook, Option.bind_some, htr, Option.map_some]
  · by_contra hholds
    exact hne (o.eq_of_held hj hi' hreq hholds fun hnone => by
      cases hheld.symm.trans hnone)

end SyncRequests

/-! ## Examples -/

section Sample

open SyncRequests

namespace Sample

/-- A request for the first three slots. -/
def syncRequest : SyncRequest := ⟨"r", 1, 3⟩

/-- The first of two streams is read, and the second comes while it is. -/
def twoStreams : List SyncEvent :=
  [.stream "a" syncRequest, .find 0 0, .activate 0, .stream "b" syncRequest,
    .find 1 0, .activate 1]

/-- The second stream looks the tracker up, the first is through, and the
second activates it; then there is a third. -/
def threeStreams : List SyncEvent :=
  [.stream "a" syncRequest, .find 0 0, .activate 0, .stream "b" syncRequest,
    .find 1 0, .finish 0,
    .activate 1, .stream "c" syncRequest, .find 2 0, .activate 2]

/-- The stream for an answer cannot be opened. -/
def unanswered : List SyncEvent :=
  [.request "a" syncRequest, .find 0 0, .activate 0, .abandon 0]

/-- The peer opens a stream itself, and the cleanup comes. -/
def retried : List SyncEvent :=
  [.stream "a" syncRequest, .find 1 9, .activate 1, .inspect "r" 9000, .settle 9000]

/-- The stage of a handler. -/
def stageOf (s : SyncRequests) (i : ℕ) :
    Option Stage := s.handlers[i]?.map Handler.stage

theorem handler_of_stageOf {s : SyncRequests} {i : ℕ} {stage : Stage}
    (h : stageOf s i = some stage) :
    ∃ h' : Handler, s.handlers[i]? = some h' ∧ h'.stage = stage :=
  Option.map_eq_some_iff.mp h

end Sample

open Sample

/-- **Two streams of one request are read at once**, and the one that is
through closes the other. -/
theorem read_twice :
    ∃ s s', Machine.Run step Machine.Always SyncRequests.new s ∧
      stageOf s 1 = some (.active 0) ∧
      stageOf s 2 = some (.active 1) ∧ s.step (.finish 1) = some s' ∧
      stageOf s' 2 = some (.active 1) ∧ 2 ∈ s'.closed := by
  have hexec : (Machine.exec step Machine.Always SyncRequests.new threeStreams).any
    (fun s =>
      decide (stageOf s 1 = some (.active 0) ∧ stageOf s 2 = some (.active 1)) &&
        (s.step (.finish 1)).any fun s' =>
          decide (stageOf s' 2 = some (.active 1) ∧ 2 ∈ s'.closed))
            = true := by
    decide +kernel
  obtain ⟨s, hrun, htest⟩ := Machine.exists_run_of_exec hexec
  rw [Bool.and_eq_true, Option.any_eq_true] at htest
  obtain ⟨htwo, s', hstep, hclosed⟩ := htest
  have htwo := of_decide_eq_true htwo
  have hclosed := of_decide_eq_true hclosed
  exact ⟨s, s', hrun, htwo.1, htwo.2, hstep, hclosed.1, hclosed.2⟩

/-- The second stream is closed, and the first is not. -/
theorem one_holder_two :
    ∃ s, Machine.Run step Prompt SyncRequests.new s ∧ stageOf s 0 = some (.active 0) ∧
      1 ∈ s.closed ∧ 0 ∉ s.closed := by
  have hexec : (Machine.exec step Prompt SyncRequests.new twoStreams).any (fun s =>
      decide (stageOf s 0 = some (.active 0) ∧ 1 ∈ s.closed)) = true := by
    decide +kernel
  obtain ⟨s, hrun, htest⟩ := Machine.exists_run_of_exec hexec
  obtain ⟨hactive, hclosed⟩ := of_decide_eq_true htest
  obtain ⟨h, hi, hstage⟩ := handler_of_stageOf hactive
  exact ⟨s, hrun, hactive, hclosed, (one_holder hrun).2 0 0 h hi hstage⟩

/-- The peer whose request could not be answered is not heard, and the
tracker survives the cleanup. -/
theorem abandoned_for_good_retried :
    ∃ s s', Machine.Run step Prompt SyncRequests.new s ∧
      stageOf s 0 = some (.abandoned 0) ∧
      Machine.Run step Prompt s s' ∧ s'.handlers.length = 2 ∧
      ∃ tr, s'.lookup "r" = some (0, tr) ∧ tr.isActive = true := by
  have hexec : (Machine.exec step Prompt SyncRequests.new unanswered).any (fun s =>
      decide (stageOf s 0 = some (.abandoned 0) ∧
          (s.handlers[0]?.map fun h => h.request.requestID) = some "r") &&
        (Machine.exec step Prompt s retried).any fun s' =>
          decide (s'.handlers.length = 2))
            = true := by
    decide +kernel
  obtain ⟨s, hrun, htest⟩ := Machine.exists_run_of_exec hexec
  rw [Bool.and_eq_true] at htest
  obtain ⟨hfirst, hsecond⟩ := htest
  obtain ⟨hstage, hreq⟩ := of_decide_eq_true hfirst
  obtain ⟨s', hlater, hlen⟩ := Machine.exists_run_of_exec hsecond
  obtain ⟨h, hi, hst⟩ := handler_of_stageOf hstage
  rw [hi] at hreq
  have hreq : h.request.requestID = "r" := Option.some.inj hreq
  obtain ⟨⟨tr, hlook, hon⟩, -⟩ := abandoned_for_good hrun hi hst hlater
  rw [hreq] at hlook
  exact ⟨s, s', hrun, hstage, hlater, of_decide_eq_true hlen, tr, hlook, hon⟩

end Sample

end Mmn
