import Mmn.RateLimit
import Mmn.WindowCounter

/-!
# The abuse detector

`security/abuse` watches how often addresses and wallets make requests. The
rate tracker has three counters for each of them, for a minute, an hour and
a day. A background loop reads the counters, flags those that come too
often, and blacklists those whose count of a minute is at a limit.
Everything is there twice, for IP addresses and for wallets; here it is
there once, with an `EntityType`.

Over all runs of the detector – requests, rounds of the loop and cleanups,
in any order – this holds.

* **Nobody is blacklisted without a burst** (`exists_burst_of_blacklisted`).
  The counters are read at any time and are not set back when their window
  is over, but what they say was true of some minute.
* **The cleanup of the tracker never drops an entity**
  (`tracked_iff_requested`). It looks for counters at zero, and a counter is
  set to zero only to be incremented. The tracker grows with the entities
  seen.
* **The blacklist refuses nobody** (`answers_eq`). The limiter that has the
  detector asks it and only writes a line to the log.
-/

namespace Mmn

/-- The two kinds of entities: `IP` and `WALLET`. -/
inductive EntityType where
  | ip
  | wallet
deriving DecidableEq

/-- `time.Minute`, in nanoseconds. -/
abbrev timeMinute : ℤ := 60 * 10 ^ 9

/-- `time.Hour`. -/
abbrev timeHour : ℤ := 60 * timeMinute

/-- A day. -/
abbrev timeDay : ℤ := 24 * timeHour

/-! ## The rate tracker -/

/-- **`RateData`**: the three counters of an entity, each with its count and
the start of its window. -/
structure RateData where
  /-- `minuteCount` and `minuteStart`. -/
  minute : WindowCounter ℤ
  /-- `hourCount` and `hourStart`. -/
  hour : WindowCounter ℤ
  /-- `dayCount` and `dayStart`. -/
  day : WindowCounter ℤ
  lastClean : ℤ

/-- The data of an entity at its first request. -/
def RateData.new (now : ℤ) : RateData :=
  { minute := .new now, hour := .new now, day := .new now, lastClean := now }

/-- A request: each counter counts it. -/
def RateData.hit (data : RateData) (now : ℤ) : RateData :=
  { data with
    minute := data.minute.hit timeMinute now
    hour := data.hour.hit timeHour now
    day := data.day.hit timeDay now }

/-- **`RateTracker`**: the rates of the entities of each kind, `ipRates` and
`walletRates`. -/
structure RateTracker where
  rates : EntityType → AList (fun _ : String => RateData)

namespace RateTracker

/-- `NewRateTracker`. -/
def new : RateTracker := { rates := fun _ => ∅ }

/-- **`trackRequest`**, which `TrackIPRequest` and `TrackWalletRequest`
call. -/
def trackRequest (rt : RateTracker) (kind : EntityType) (key : String) (now : ℤ) :
    RateTracker :=
  let data := ((rt.rates kind).lookup key).getD (.new now)
  { rates := Function.update rt.rates kind ((rt.rates kind).insert key
    (data.hit now)) }

/-- `getRate`. -/
def getRate (data : RateData) (window : ℤ) : ℕ :=
  if window ≤ timeMinute then data.minute.count
  else if window ≤ timeHour then data.hour.count
  else if window ≤ timeDay then data.day.count
  else 0

/-- **`GetIPRate` and `GetWalletRate`.** -/
def getEntityRate (rt : RateTracker) (kind : EntityType) (key : String)
    (window : ℤ) : ℕ :=
  match (rt.rates kind).lookup key with
  | none => 0
  | some data => getRate data window

/-- `cleanupData`: is the data to be dropped? -/
def cleanupData (data : RateData) (cutoff now : ℤ) : RateData × Bool :=
  if data.minute.count = 0 ∧ data.hour.count = 0 ∧ data.day.count = 0
    then (data, data.lastClean < cutoff)
  else ({ data with lastClean := now }, false)

/-- The loop of `cleanup` over one of the maps. -/
def cleanupRates (cutoff now : ℤ) (rates : AList (fun _ : String => RateData)) :
    AList (fun _ : String => RateData) :=
  rates.sweep fun _ data =>
    let cleaned := cleanupData data cutoff now
    if cleaned.2 then none else some cleaned.1

/-- **`cleanup`**, with the default configuration. -/
def cleanup (rt : RateTracker) (now : ℤ) : RateTracker :=
  { rates := fun kind => cleanupRates (now - timeDay) now (rt.rates kind) }

end RateTracker

/-! ## The detector -/

/-- `AbuseConfig`. -/
structure AbuseConfig where
  maxTxPerHour : ℤ
  maxTxPerDay : ℤ
  autoBlacklistTxPerMinute : ℤ

/-- `DefaultAbuseConfig`. -/
def AbuseConfig.default : AbuseConfig :=
  { maxTxPerHour := 360000, maxTxPerDay := 8640000,
    autoBlacklistTxPerMinute := 12000 }

/-- `AbuseFlag`. -/
structure AbuseFlag where
  entity : String
  entityType : EntityType
  reason : String
  firstSeen : ℤ
  lastSeen : ℤ
  count : ℕ
  isBlacklisted : Bool

/-- **`AbuseDetector`**, with the two counters of `AbuseMetrics` that are
kept. -/
structure AbuseDetector where
  config : AbuseConfig
  rateTracker : RateTracker
  /-- `flaggedIPs` and `flaggedWallets`. -/
  flagged : EntityType → AList (fun _ : String => AbuseFlag)
  totalFlags : ℕ
  autoBlacklists : ℕ

namespace AbuseDetector

/-- `NewAbuseDetector`. -/
def new (config : Option AbuseConfig) : AbuseDetector :=
  { config := config.getD .default, rateTracker := .new, flagged := fun _ => ∅
    totalFlags := 0, autoBlacklists := 0 }

/-- Put a flag. -/
def putFlag (ad : AbuseDetector) (kind : EntityType) (entity : String)
    (flag : AbuseFlag) :
    AbuseDetector :=
  { ad with flagged := Function.update ad.flagged kind ((ad.flagged kind).insert
    entity flag) }

/-- **`flagAbuse`.** -/
def flagAbuse (ad : AbuseDetector) (kind : EntityType) (entity reason : String)
    (now : ℤ) :
    AbuseDetector :=
  match (ad.flagged kind).lookup entity with
  | some flag =>
    ad.putFlag kind entity
      { flag with lastSeen := now, count := flag.count + 1, reason := reason }
  | none =>
    { ad.putFlag kind entity
        { entity := entity, entityType := kind, reason := reason, firstSeen := now,
          lastSeen := now
          count := 1, isBlacklisted := false } with
      totalFlags := ad.totalFlags + 1 }

/-- **`IsIPBlacklisted` and `IsWalletBlacklisted`.** -/
def isBlacklisted (ad : AbuseDetector) (kind : EntityType) (entity : String) : Bool :=
  match (ad.flagged kind).lookup entity with
  | some flag => flag.isBlacklisted
  | none => false

/-- **`autoBlacklistIP` and `autoBlacklistWallet`.** -/
def autoBlacklist (ad : AbuseDetector) (kind : EntityType) (entity reason : String)
    (now : ℤ) :
    AbuseDetector :=
  match (ad.flagged kind).lookup entity with
  | none =>
    { ad.putFlag kind entity
        { entity := entity, entityType := kind, reason := reason, firstSeen := now,
          lastSeen := now
          count := 1, isBlacklisted := true } with
      totalFlags := ad.totalFlags + 1
      autoBlacklists := ad.autoBlacklists + 1 }
  | some flag =>
    { ad.putFlag kind entity
      { flag with isBlacklisted := true, reason := reason, lastSeen := now }
      with autoBlacklists := ad.autoBlacklists + 1 }

/-- A round of the loops of `performBackgroundChecks`. -/
def checkEntity (ad : AbuseDetector) (kind : EntityType) (entity : String) (now : ℤ) :
    AbuseDetector :=
  if ad.isBlacklisted kind entity then ad
  else
    let minuteRate := ad.rateTracker.getEntityRate kind entity timeMinute
    let hourRate := ad.rateTracker.getEntityRate kind entity timeHour
    let dayRate := ad.rateTracker.getEntityRate kind entity timeDay
    if minuteRate ≥ ad.config.autoBlacklistTxPerMinute then
      ad.autoBlacklist kind entity
        s!"Auto-blacklist: {minuteRate} tx/min (limit: {ad.config.autoBlacklistTxPerMinute})" now
    else if hourRate ≥ ad.config.maxTxPerHour ∨ dayRate ≥ ad.config.maxTxPerDay then
      ad.flagAbuse kind entity
        s!"High long-term rate: {minuteRate}/min, {hourRate}/hour, {dayRate}/day" now
    else ad

/-- The loop of `cleanupOldFlags` over one of the maps. -/
def cleanupFlags (cutoff : ℤ) (flagged : AList (fun _ : String => AbuseFlag)) :
    AList (fun _ : String => AbuseFlag) :=
  flagged.sweep fun _ flag => if flag.lastSeen < cutoff ∧
    ¬flag.isBlacklisted then none
    else some flag

/-- **`cleanupOldFlags`.** -/
def cleanupOldFlags (ad : AbuseDetector) (cutoff : ℤ) : AbuseDetector :=
  { ad with flagged := fun kind => cleanupFlags cutoff (ad.flagged kind) }

/-- **`performBackgroundChecks`.** The maps are gone through in some order. -/
def performBackgroundChecks (ad : AbuseDetector) (now : ℤ)
    (ips wallets : List String) :
    AbuseDetector :=
  let ad := ips.foldl (fun ad ip => ad.checkEntity .ip ip now) ad
  let ad := wallets.foldl (fun ad wallet => ad.checkEntity .wallet wallet now) ad
  ad.cleanupOldFlags (now - timeDay)

end AbuseDetector

/-! ## Runs -/

/-- **What happens to the detector.** A background check is a round for each
entity and the cleanup of the flags, and requests may come in between. -/
inductive AbuseEvent where
  /-- A request: `TrackIPRequest` or `TrackWalletRequest`. -/
  | track (kind : EntityType) (key : String) (now : ℤ)
  | check (kind : EntityType) (entity : String) (now : ℤ)
  | cleanupFlags (cutoff : ℤ)
  | cleanupRates (now : ℤ)

namespace AbuseDetector

/-- The detector after an event. -/
def step (ad : AbuseDetector) : AbuseEvent → AbuseDetector
  | .track kind key now =>
    { ad with rateTracker := ad.rateTracker.trackRequest kind key now }
  | .check kind entity now => ad.checkEntity kind entity now
  | .cleanupFlags cutoff => ad.cleanupOldFlags cutoff
  | .cleanupRates now => { ad with rateTracker := ad.rateTracker.cleanup now }

/-- **The detector after some events.** -/
def run (ad : AbuseDetector) (events : List AbuseEvent) : AbuseDetector :=
  events.foldl step ad

theorem run_append (ad : AbuseDetector) (events events' : List AbuseEvent) :
    ad.run (events ++ events') = (ad.run events).run events' := List.foldl_append

theorem run_concat (ad : AbuseDetector) (events : List AbuseEvent) (e : AbuseEvent) :
    ad.run (events ++ [e]) = (ad.run events).step e := run_append ad events [e]

theorem performBackgroundChecks_eq_run (ad : AbuseDetector) (now : ℤ)
    (ips wallets : List String) :
    ad.performBackgroundChecks now ips wallets
      = ad.run (ips.map (.check .ip · now) ++ wallets.map (.check .wallet · now)
        ++ [.cleanupFlags (now - timeDay)]) := by
  unfold performBackgroundChecks run
  rw [List.foldl_append, List.foldl_append, List.foldl_map, List.foldl_map]
  rfl

end AbuseDetector

/-- The instant of an event, if it is a request of the entity. -/
def AbuseEvent.request (kind : EntityType) (key : String) : AbuseEvent → Option ℤ
  | .track kind' key' now => if kind' = kind ∧ key' = key then some now else none
  | .check _ _ _ | .cleanupFlags _ | .cleanupRates _ => none

/-- **The requests of an entity**, in the order in which they came. -/
def requests (kind : EntityType) (key : String) (events : List AbuseEvent) : List ℤ :=
  events.filterMap (AbuseEvent.request kind key)

theorem requests_concat (kind : EntityType) (key : String) (events : List AbuseEvent)
    (e : AbuseEvent) :
    requests kind key (events ++ [e])
      = requests kind key events ++ (e.request kind key).toList := by
  unfold requests
  rw [List.filterMap_append]
  cases h : e.request kind key with
  | none => rw [List.filterMap_cons_none h]; rfl
  | some now => rw [List.filterMap_cons_some h]; rfl

/-! ## The counters -/

/-- **The data of an entity after its requests.** It was counted, and if the
clock did not go back the count of the minute is right. -/
structure RateData.Follows (data : RateData) (times : List ℤ) : Prop where
  ne_nil : times ≠ []
  counted : data.minute.count ≠ 0
  minute : times.Pairwise (· ≤ ·) → data.minute.Counts timeMinute times

namespace RateData.Follows

variable {data : RateData} {times : List ℤ}

theorem new (now : ℤ) : ((RateData.new now).hit now).Follows [now] where
  ne_nil := List.cons_ne_nil now []
  counted := WindowCounter.count_hit_ne_zero timeMinute _ now
  minute := fun _ => WindowCounter.counts_new (by decide)

theorem hit (h : data.Follows times) (now : ℤ) :
    (data.hit now).Follows (times ++ [now]) where
  ne_nil := List.append_ne_nil_of_right_ne_nil times (List.cons_ne_nil now [])
  counted := WindowCounter.count_hit_ne_zero timeMinute _ now
  minute hordered := by
    obtain ⟨hbefore, -, hle⟩ := List.pairwise_append.mp hordered
    exact (h.minute hbefore).hit (by decide) fun t ht =>
      hle t ht now (List.mem_singleton_self now)

/-- The cleanup does not drop data that was counted. -/
theorem not_cleanupData (h : data.Follows times) (cutoff now : ℤ) :
    RateTracker.cleanupData data cutoff now
      = ({ data with lastClean := now }, false) :=
  if_neg fun hzero => h.counted hzero.1

theorem lastClean (h : data.Follows times) (now : ℤ) :
    Follows { data with lastClean := now } times :=
  ⟨h.ne_nil, h.counted, h.minute⟩

end RateData.Follows

/-- **What a tracker has about an entity**: nothing, or the data after its
requests. -/
def RateTracker.Tracks (rt : RateTracker) (kind : EntityType) (key : String)
    (times : List ℤ) : Prop :=
  (times = [] ∧ (rt.rates kind).lookup key = none) ∨
    ∃ data : RateData, (rt.rates kind).lookup key = some data ∧ data.Follows times

namespace RateTracker.Tracks

variable {rt : RateTracker} {kind : EntityType} {key : String} {times : List ℤ}

theorem trackRequest_self (h : rt.Tracks kind key times) (now : ℤ) :
    (rt.trackRequest kind key now).Tracks kind key (times ++ [now]) := by
  have hlook : ((rt.trackRequest kind key now).rates kind).lookup key
      = some ((((rt.rates kind).lookup key).getD (.new now)).hit now) := by
    unfold trackRequest
    dsimp only
    rw [Function.update_self, AList.lookup_insert]
  refine Or.inr ⟨_, hlook, ?_⟩
  obtain ⟨rfl, hnone⟩ | ⟨data, hdata, hfollows⟩ := h
  · rw [hnone]
    exact .new now
  · rw [hdata]
    exact hfollows.hit now

theorem trackRequest_of_ne (h : rt.Tracks kind key times) {kind' : EntityType}
    {key' : String} (hne : ¬(kind' = kind ∧ key' = key)) (now : ℤ) :
    (rt.trackRequest kind' key' now).Tracks kind key times := by
  have hlook : ((rt.trackRequest kind' key' now).rates kind).lookup key
      = (rt.rates kind).lookup key := by
    unfold trackRequest
    dsimp only
    by_cases hkind : kind = kind'
    · subst hkind
      rw [Function.update_self,
        AList.lookup_insert_ne (fun hkey => hne ⟨rfl, hkey.symm⟩)]
    · rw [Function.update_of_ne hkind]
  unfold Tracks
  rwa [hlook]

theorem cleanup (h : rt.Tracks kind key times) (now : ℤ) :
    (rt.cleanup now).Tracks kind key times := by
  have hlook : ((rt.cleanup now).rates kind).lookup key
      = ((rt.rates kind).lookup key).bind _ :=
    AList.lookup_sweep _ _ _
  obtain ⟨htimes, hnone⟩ | ⟨data, hdata, hfollows⟩ := h
  · rw [hnone] at hlook
    exact Or.inl ⟨htimes, hlook⟩
  · rw [hdata, Option.bind_some, hfollows.not_cleanupData] at hlook
    exact Or.inr ⟨_, hlook, hfollows.lastClean now⟩

theorem mem_iff (h : rt.Tracks kind key times) :
    key ∈ rt.rates kind ↔ times ≠ [] := by
  obtain ⟨htimes, hnone⟩ | ⟨data, hdata, hfollows⟩ := h
  · exact iff_of_false (AList.lookup_eq_none.mp hnone) (not_not.mpr htimes)
  · exact iff_of_true (AList.lookup_isSome.mp (Option.isSome_of_eq_some hdata))
      hfollows.ne_nil

/-- **A rate of a minute is a burst.** -/
theorem exists_burst (h : rt.Tracks kind key times)
    (hordered : times.Pairwise (· ≤ ·)) :
    ∃ start, rt.getEntityRate kind key timeMinute
      ≤ times.countP (fun t => start ≤ t ∧ t < start + timeMinute) := by
  unfold getEntityRate
  obtain ⟨-, hnone⟩ | ⟨data, hdata, hfollows⟩ := h
  · rw [hnone]
    exact ⟨0, Nat.zero_le _⟩
  · rw [hdata]
    exact (hfollows.minute hordered).exists_burst

end RateTracker.Tracks

namespace AbuseDetector

variable {ad : AbuseDetector} {kind : EntityType} {key : String}

/-- A round of the check leaves the tracker and the configuration. -/
theorem checkEntity_frame (ad : AbuseDetector) (kind : EntityType) (entity : String)
    (now : ℤ) :
    (ad.checkEntity kind entity now).rateTracker = ad.rateTracker ∧
      (ad.checkEntity kind entity now).config = ad.config := by
  unfold checkEntity autoBlacklist flagAbuse
  dsimp only
  repeat' split
  all_goals exact ⟨rfl, rfl⟩

theorem config_step (ad : AbuseDetector) (e : AbuseEvent) :
    (ad.step e).config = ad.config := by
  cases e with
  | track => rfl
  | check kind entity now => exact (ad.checkEntity_frame kind entity now).2
  | cleanupFlags => rfl
  | cleanupRates => rfl

theorem config_run (ad : AbuseDetector) (events : List AbuseEvent) :
    (ad.run events).config = ad.config := by
  induction events using List.reverseRecOn with
  | nil => rfl
  | append_singleton events e ih => rw [run_concat, config_step, ih]

/-- **An event keeps what the tracker says right.** -/
theorem tracks_step {times : List ℤ} (h : ad.rateTracker.Tracks kind key times)
    (e : AbuseEvent) :
    (ad.step e).rateTracker.Tracks kind key
      (times ++ (e.request kind key).toList) := by
  cases e with
  | track kind' key' now =>
    by_cases hsame : kind' = kind ∧ key' = key
    · rw [show (AbuseEvent.track kind' key' now).request kind key = some now
        from if_pos hsame]
      obtain ⟨rfl, rfl⟩ := hsame
      exact h.trackRequest_self now
    · rw [show (AbuseEvent.track kind' key' now).request kind key
        = none from if_neg hsame, Option.toList_none, List.append_nil]
      exact h.trackRequest_of_ne hsame now
  | check kind' entity now =>
    rw [step, (ad.checkEntity_frame kind' entity now).1]
    exact (List.append_nil times).symm ▸ h
  | cleanupFlags => exact (List.append_nil times).symm ▸ h
  | cleanupRates now => exact (List.append_nil times).symm ▸ h.cleanup now

theorem tracks_run (config : Option AbuseConfig) (events : List AbuseEvent)
    (kind : EntityType) (key : String) :
    ((new config).run events).rateTracker.Tracks kind key
      (requests kind key events) := by
  induction events using List.reverseRecOn with
  | nil => exact Or.inl ⟨rfl, rfl⟩
  | append_singleton events e ih =>
    rw [run_concat, requests_concat]
    exact tracks_step ih e

/-- **The tracker has exactly the entities that made a request**, however
often it was cleaned up. -/
theorem tracked_iff_requested (config : Option AbuseConfig) (events : List AbuseEvent)
    (kind : EntityType) (key : String) :
    key ∈ ((new config).run events).rateTracker.rates kind ↔
      requests kind key events ≠ [] :=
  (tracks_run config events kind key).mem_iff

/-! ## The blacklist -/

/-- The flag of an entity after another was put. -/
theorem lookup_putFlag_of_ne {flag : AbuseFlag} {kind' : EntityType} {entity : String}
    (hne : ¬(kind' = kind ∧ entity = key)) :
    ((ad.putFlag kind' entity flag).flagged kind).lookup key
      = (ad.flagged kind).lookup key := by
  unfold putFlag
  dsimp only
  by_cases hkind : kind = kind'
  · subst hkind
    rw [Function.update_self,
      AList.lookup_insert_ne (fun hkey => hne ⟨rfl, hkey.symm⟩)]
  · rw [Function.update_of_ne hkind]

theorem lookup_putFlag_self {flag : AbuseFlag} :
    ((ad.putFlag kind key flag).flagged kind).lookup key = some flag := by
  unfold putFlag
  dsimp only
  rw [Function.update_self, AList.lookup_insert]

/-- **What a round does**: nothing to the blacklist, or it blacklists an
entity that was not, for its rate of a minute. -/
inductive Round (ad : AbuseDetector) (kind : EntityType) (entity : String) :
    AbuseDetector → Prop where
  | nothing : Round ad kind entity ad
  | flag (flag : AbuseFlag) (hflag : flag.isBlacklisted = false)
      (hold : ad.isBlacklisted kind entity = false) (total : ℕ) :
      Round ad kind entity { ad.putFlag kind entity flag with totalFlags := total }
  | blacklist (flag : AbuseFlag) (hflag : flag.isBlacklisted = true)
      (hold : ad.isBlacklisted kind entity = false) (total : ℕ)
      (hrate : ad.config.autoBlacklistTxPerMinute
        ≤ ad.rateTracker.getEntityRate kind entity timeMinute) :
      Round ad kind entity { ad.putFlag kind entity flag with
        totalFlags := total, autoBlacklists := ad.autoBlacklists + 1 }

theorem round_checkEntity (ad : AbuseDetector) (kind : EntityType) (entity : String)
    (now : ℤ) :
    Round ad kind entity (ad.checkEntity kind entity now) := by
  unfold checkEntity
  split
  · exact .nothing
  next hold =>
  rw [Bool.not_eq_true] at hold
  dsimp only
  split
  · next hrate =>
    unfold autoBlacklist
    split
    · exact .blacklist _ rfl hold _ hrate
    · exact .blacklist _ rfl hold _ hrate
  · split
    · unfold flagAbuse
      split
      · next flag hflag =>
        refine .flag _ ?_ hold _
        unfold isBlacklisted at hold
        rwa [hflag] at hold
      · exact .flag _ rfl hold _
    · exact .nothing

/-- Putting a flag on an entity changes its own place on the blacklist only. -/
theorem isBlacklisted_putFlag (ad : AbuseDetector) (kind' : EntityType)
    (entity : String) (flag : AbuseFlag) (kind : EntityType) (key : String) :
    (ad.putFlag kind' entity flag).isBlacklisted kind key
      = if kind' = kind ∧ entity = key then flag.isBlacklisted
        else ad.isBlacklisted kind key := by
  by_cases hsame : kind' = kind ∧ entity = key
  · rw [if_pos hsame]
    obtain ⟨rfl, rfl⟩ := hsame
    unfold isBlacklisted
    rw [lookup_putFlag_self]
  · rw [if_neg hsame]
    unfold isBlacklisted
    rw [lookup_putFlag_of_ne hsame]

/-- **The cleanup of the flags keeps the blacklist.** -/
theorem isBlacklisted_cleanupOldFlags (ad : AbuseDetector) (cutoff : ℤ)
    (kind : EntityType) (key : String) :
    (ad.cleanupOldFlags cutoff).isBlacklisted kind key
      = ad.isBlacklisted kind key := by
  have hlook : ((ad.cleanupOldFlags cutoff).flagged kind).lookup key
      = ((ad.flagged kind).lookup key).bind _ := AList.lookup_sweep _ _ _
  unfold isBlacklisted
  rw [hlook]
  cases (ad.flagged kind).lookup key with
  | none => rfl
  | some flag =>
    rw [Option.bind_some]
    split
    · next h =>
      split at h
      · cases h
      · cases h
        rfl
    · next h =>
      split at h
      · next hold => exact (Bool.eq_false_iff.mpr hold.2).symm
      · cases h

/-- **Who is on the blacklist after an event** was before, or has the rate
for it. -/
theorem of_isBlacklisted_step {e : AbuseEvent}
    (h : (ad.step e).isBlacklisted kind key = true) :
    ad.isBlacklisted kind key = true ∨
      (ad.config.autoBlacklistTxPerMinute ≤ ad.rateTracker.getEntityRate kind key
        timeMinute) := by
  cases e with
  | track => exact Or.inl h
  | check kind' entity now =>
    have h' : (ad.checkEntity kind' entity now).isBlacklisted kind key = true := h
    have hround := round_checkEntity ad kind' entity now
    generalize ad.checkEntity kind' entity now = ad' at hround h'
    cases hround with
    | nothing => exact Or.inl h'
    | flag flag hflag hold total =>
      have h' : (ad.putFlag kind' entity flag).isBlacklisted kind key = true := h'
      rw [isBlacklisted_putFlag] at h'
      split at h'
      · exact Bool.noConfusion (h'.symm.trans hflag)
      · exact Or.inl h'
    | blacklist flag hflag hold total hrate =>
      have h' : (ad.putFlag kind' entity flag).isBlacklisted kind key = true := h'
      rw [isBlacklisted_putFlag] at h'
      split at h'
      · next hsame =>
        obtain ⟨rfl, rfl⟩ := hsame
        exact Or.inr hrate
      · exact Or.inl h'
  | cleanupFlags cutoff =>
    have h' : (ad.cleanupOldFlags cutoff).isBlacklisted kind key = true := h
    rw [isBlacklisted_cleanupOldFlags] at h'
    exact Or.inl h'
  | cleanupRates => exact Or.inl h

/-- **Nobody is blacklisted without a burst**: within one minute the entity
made as many requests as the configuration allows at most. -/
theorem exists_burst_of_blacklisted (config : Option AbuseConfig)
    (events : List AbuseEvent) (kind : EntityType) (key : String)
    (hordered : (requests kind key events).Pairwise (· ≤ ·))
    (h : ((new config).run events).isBlacklisted kind key = true) :
    ∃ start, (config.getD .default).autoBlacklistTxPerMinute
      ≤ ((requests kind key events).countP
        (fun t => start ≤ t ∧ t < start + timeMinute) : ℤ) := by
  induction events using List.reverseRecOn with
  | nil => cases h
  | append_singleton events e ih =>
    rw [requests_concat] at hordered ⊢
    have hordered' := (List.pairwise_append.mp hordered).1
    rw [run_concat] at h
    -- the events so far account for the burst, and a later request takes
    -- nothing away from it
    suffices hburst : ∃ start, (config.getD .default).autoBlacklistTxPerMinute
        ≤ ((requests kind key events).countP
          (fun t => start ≤ t ∧ t < start + timeMinute) : ℤ) by
      obtain ⟨start, hstart⟩ := hburst
      refine ⟨start, hstart.trans ?_⟩
      rw [List.countP_append]
      exact_mod_cast Nat.le_add_right _ _
    obtain hold | hrate := of_isBlacklisted_step h
    · exact ih hordered' hold
    · obtain ⟨start, hstart⟩ :=
        (tracks_run config events kind key).exists_burst hordered'
      rw [config_run] at hrate
      exact ⟨start, hrate.trans (by exact_mod_cast hstart)⟩

/-- Two requests within a minute, with a limit of two. -/
theorem exists_burst_of_blacklisted_pair :
    ∃ start, (2 : ℤ) ≤ ([0, 1] : List ℤ).countP
      (fun t => start ≤ t ∧ t < start + timeMinute) :=
  exists_burst_of_blacklisted
    (some { AbuseConfig.default with autoBlacklistTxPerMinute := 2 })
    [.track .ip "10.0.0.1" 0, .track .ip "10.0.0.1" 1, .check .ip "10.0.0.1" 5] .ip
      "10.0.0.1"
    (by decide) (by decide)

end AbuseDetector

/-! ## What the blacklist is asked for -/

/-- **`GlobalRateLimiter`.** -/
structure GlobalRateLimiter where
  ipLimiter : RateLimiter
  abuseDetector : AbuseDetector

/-- What happens to the limiter and its detector. -/
inductive GlobalEvent where
  /-- A call or a cleanup of the limiter of IP addresses. -/
  | limiter (e : RateEvent)
  | detector (e : AbuseEvent)

/-- The event of the limiter, if it is one. -/
def GlobalEvent.toRateEvent : GlobalEvent → Option RateEvent
  | .limiter e => some e
  | .detector _ => none

namespace GlobalRateLimiter

/-- **`IsIPAllowed`**, with the line it writes to the log. -/
def isIPAllowed (grl : GlobalRateLimiter) (now : ℤ) (ip : String) :
    GlobalRateLimiter × List String × Bool :=
  let logged := if grl.abuseDetector.isBlacklisted .ip ip
    then ["Alert abuse spam from IP: " ++ ip]
    else []
  let answer := grl.ipLimiter.isAllowed now ip
  ({ grl with ipLimiter := answer.1 }, logged, answer.2)

/-- **The answers of the limiter** to the calls of a run. -/
def answers : GlobalRateLimiter → List GlobalEvent → List Bool
  | _, [] => []
  | grl, .limiter (.isAllowed now ip) :: rest =>
    (grl.isIPAllowed now ip).2.2 :: (grl.isIPAllowed now ip).1.answers rest
  | grl, .limiter (.cleanup now) :: rest =>
    ({ grl with ipLimiter := grl.ipLimiter.cleanup now } : GlobalRateLimiter).answers
      rest
  | grl, .detector e :: rest =>
    ({ grl with abuseDetector := grl.abuseDetector.step e } :
      GlobalRateLimiter).answers rest

/-- **The blacklist refuses nobody**: the answers are those of the limiter
alone, whatever the detector has seen before and sees in between. -/
theorem answers_eq (grl : GlobalRateLimiter) (events : List GlobalEvent) :
    grl.answers events = grl.ipLimiter.answers
      (events.filterMap GlobalEvent.toRateEvent) := by
  induction events generalizing grl with
  | nil => rfl
  | cons e rest ih =>
    cases e with
    | limiter e =>
      cases e with
      | isAllowed now ip => exact congrArg (List.cons _) (ih _)
      | cleanup now => exact ih _
    | detector e => exact ih _

end GlobalRateLimiter

end Mmn
