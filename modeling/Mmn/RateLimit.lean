import Mmn.Table
import Mmn.TokenBucket
import Mathlib.Algebra.Order.Ring.Rat
import Mathlib.Algebra.Order.Ring.Cast

/-!
# The rate limiter and its cleanup

`security/ratelimit` keeps a token bucket for every key that made a request,
and drops the buckets of the keys that were not seen for a while. A bucket
that was dropped is replaced by a full one at the next request, so the
cleanup is meant to be invisible: by the time a key is dropped its bucket is
full again.

A bucket that is empty at `lastSeen` is full again after `MaxRequests`
intervals, and the cleanup drops it from `ttl + 1` nanoseconds on, so the
cleanup is invisible exactly if the former are no longer than the latter
(`cleanup_invisible_iff`). The interval is `WindowSize / MaxRequests` with
the remainder dropped, so the intervals take `WindowSize` at most, and a
`ttl` of three windows would be ample. But `WindowSize * 3` is a product of
64-bit integers: from a window of a third of the largest duration on it
wraps around. With a negative `ttl` the cutoff lies in the future and a
cleanup drops every bucket (`cleanup_refills_bucket`).

Instants are nanoseconds on an unbounded clock. `rate.Limiter` is taken as
an exact token bucket, its tokens rational numbers.
-/

namespace Mmn

/-! ## The code -/

/-- `RateLimiterConfig`; the durations are nanoseconds. -/
structure RateLimiterConfig where
  /-- `MaxRequests`. -/
  maxRequests : Int64
  /-- `WindowSize`. -/
  windowSize : Int64
  /-- `CleanupInterval`. -/
  cleanupInterval : Int64

/-- `DefaultConfig`. -/
def RateLimiterConfig.default : RateLimiterConfig :=
  { maxRequests := 100, windowSize := 1000000000,
    cleanupInterval := 5 * 60 * 1000000000 }

/-- **`rate.Limiter`.** -/
structure Limiter where
  /-- The time between two tokens, the argument of `rate.Every`. -/
  every : Int64
  burst : Int64
  bucket : TokenBucket ℚ

namespace Limiter

/-- The tokens that come in a nanosecond. -/
def rate (l : Limiter) : ℚ := 1 / (l.every.toInt : ℚ)

/-- `rate.NewLimiter`: the bucket is full. -/
def newLimiter (every burst : Int64) (now : ℤ) : Limiter :=
  { every, burst, bucket := .full (burst.toInt : ℚ) (now : ℚ) }

/-- **`Allow`.** -/
def allow (l : Limiter) (now : ℤ) : Limiter × Bool :=
  -- `rate.Every` of no time at all is `rate.Inf`, with which every event is
  -- allowed.
  if l.every ≤ 0 then (l, true)
  else
    let answer := l.bucket.allow (l.burst.toInt : ℚ) l.rate (now : ℚ)
    ({ l with bucket := answer.1 }, answer.2)

end Limiter

/-- `RateLimiterData`. -/
structure RateLimiterData where
  /-- `limiter`. -/
  limiter : Limiter
  /-- `lastSeen`. -/
  lastSeen : ℤ

/-- **`RateLimiter`.** -/
structure RateLimiter where
  /-- `config`. -/
  config : RateLimiterConfig
  /-- `requests`. -/
  requests : AList (fun _ : String => RateLimiterData)

namespace RateLimiter

/-- `NewRateLimiter`. -/
def newRateLimiter (config : Option RateLimiterConfig) : RateLimiter :=
  { config := config.getD RateLimiterConfig.default, requests := ∅ }

/-- **`IsAllowed`.** -/
def isAllowed (rl : RateLimiter) (now : ℤ) (key : String) : RateLimiter × Bool :=
  let data := match rl.requests.lookup key with
    | some data => data
    | none =>
      { limiter := Limiter.newLimiter (rl.config.windowSize
        / rl.config.maxRequests) rl.config.maxRequests
          now
        lastSeen := now }
  let answer := data.limiter.allow now
  ({ rl with requests :=
    rl.requests.insert key { limiter := answer.1, lastSeen := now } }, answer.2)

/-- **`cleanup`.** -/
def cleanup (rl : RateLimiter) (now : ℤ) : RateLimiter :=
  let ttl := rl.config.windowSize * 3
  let cutoff := now + (-ttl).toInt
  let expired :=
    (rl.requests.entries.filter (fun e => decide (e.2.lastSeen < cutoff))).map
    Sigma.fst
  { rl with requests := expired.foldl (fun requests key =>
    requests.erase key) rl.requests }

end RateLimiter

/-- What happens to the rate limiter, and when. -/
inductive RateEvent where
  /-- A call of `IsAllowed`. -/
  | isAllowed (now : ℤ) (key : String)
  /-- A run of `cleanup`. -/
  | cleanup (now : ℤ)

namespace RateEvent

/-- The instant. -/
def now : RateEvent → ℤ
  | isAllowed now _ => now
  | cleanup now => now

/-- The event is a call of `IsAllowed`. -/
def isCall : RateEvent → Bool
  | isAllowed _ _ => true
  | cleanup _ => false

end RateEvent

/-- **The answers** of the rate limiter to the calls of a run. -/
def RateLimiter.answers : RateLimiter → List RateEvent → List Bool
  | _, [] => []
  | rl, .isAllowed now key :: rest =>
    (rl.isAllowed now key).2 :: (rl.isAllowed now key).1.answers rest
  | rl, .cleanup now :: rest => (rl.cleanup now).answers rest

/-! ## Durations -/

namespace RateLimiterConfig

/-- The time between two tokens. -/
def interval (config : RateLimiterConfig) :
    Int64 := config.windowSize / config.maxRequests

/-- The time after which a key may be dropped. -/
def ttl (config : RateLimiterConfig) : Int64 := config.windowSize * 3

/-- **A bucket is full again by the time it may be dropped.** -/
def Refills (config : RateLimiterConfig) : Prop :=
  config.maxRequests.toInt * config.interval.toInt ≤ config.ttl.toInt + 1

instance (config : RateLimiterConfig) : Decidable config.Refills := Int.decLe _ _

variable {config : RateLimiterConfig}

/-- **Three times a duration is never the least 64-bit integer**: three has
an inverse, and the least integer is a fixed point of multiplying by it. -/
theorem ttl_ne_minValue (hwin : 0 < config.windowSize.toInt) :
    config.ttl ≠ Int64.minValue := by
  intro hmin
  have hwindow : config.windowSize = Int64.minValue := calc
    config.windowSize = config.ttl * -6148914691236517205 := by
      rw [ttl, Int64.mul_assoc, show (3 * -6148914691236517205 : Int64) = 1 from rfl,
        Int64.mul_one]
    _ = Int64.minValue := by
      rw [hmin]
      rfl
  rw [hwindow] at hwin
  exact absurd hwin (by decide)

/-- The negation of the lifetime does not wrap around. -/
theorem toInt_neg_ttl (hwin : 0 < config.windowSize.toInt) :
    (-config.ttl).toInt = -config.ttl.toInt := by
  have hlt := Int64.toInt_lt config.ttl
  have hle := Int64.le_toInt config.ttl
  have hne : config.ttl.toInt ≠ -2 ^ 63 :=
    fun heq => ttl_ne_minValue hwin (Int64.toInt_inj.mp heq)
  rw [Int64.toInt_neg]
  refine Int.bmod_eq_of_le ?_ ?_ <;> omega

theorem toInt_ttl_of_lt (hwin : 0 < config.windowSize.toInt)
    (h : config.windowSize.toInt * 3 < 2 ^ 63) :
    config.ttl.toInt = config.windowSize.toInt * 3 := by
  refine (Int64.toInt_mul _ 3).trans ?_
  show (config.windowSize.toInt * 3).bmod (2 ^ 64) = _
  refine Int.bmod_eq_of_le ?_ ?_ <;> omega

theorem toInt_interval (hwin : 0 < config.windowSize.toInt) :
    config.interval.toInt = config.windowSize.toInt / config.maxRequests.toInt := by
  have hne : config.windowSize ≠ Int64.minValue := by
    rintro heq
    rw [heq] at hwin
    exact absurd hwin (by decide)
  rw [← Int.tdiv_eq_ediv_of_nonneg hwin.le]
  exact Int64.toInt_div_of_ne_left _ _ hne

theorem interval_pos (hmax : 0 < config.maxRequests.toInt)
    (hwin : 0 < config.windowSize.toInt) (hne : config.interval ≠ 0) :
    0 < config.interval.toInt := by
  refine lt_of_le_of_ne ?_ (fun heq => hne (Int64.toInt_inj.mp heq.symm))
  rw [toInt_interval hwin]
  exact Int.ediv_nonneg hwin.le hmax.le

/-- The tokens of a full bucket come within the window: the remainder of the
division is dropped. -/
theorem mul_interval_le (hmax : 0 < config.maxRequests.toInt)
    (hwin : 0 < config.windowSize.toInt) :
    config.maxRequests.toInt * config.interval.toInt ≤ config.windowSize.toInt := by
  rw [toInt_interval hwin]
  exact Int.mul_ediv_self_le hmax.ne'

/-- **Unless the lifetime wraps around, a bucket is full again in time.** -/
theorem refills_of_lt (hmax : 0 < config.maxRequests.toInt)
    (hwin : 0 < config.windowSize.toInt) (h : config.windowSize.toInt * 3 < 2 ^ 63) :
    config.Refills := by
  have hle := mul_interval_le hmax hwin
  unfold Refills
  rw [toInt_ttl_of_lt hwin h]
  omega

end RateLimiterConfig

/-! ## One call, one cleanup -/

namespace RateLimiterConfig

/-- The limiter a call uses: that of its key, or a new one. -/
def limiterFor (config : RateLimiterConfig) (now : ℤ) :
    Option RateLimiterData → Limiter
  | some data => data.limiter
  | none => Limiter.newLimiter config.interval config.maxRequests now

/-- **What a call makes of the data of its key**, if there is any, and its
answer. -/
def serve (config : RateLimiterConfig) (now : ℤ) (data : Option RateLimiterData) :
    RateLimiterData × Bool :=
  ({ limiter := ((config.limiterFor now data).allow now).1, lastSeen := now },
    ((config.limiterFor now data).allow now).2)

end RateLimiterConfig

namespace RateLimiter

variable {rl rl' : RateLimiter} {now : ℤ} {key : String}

theorem isAllowed_eq (rl : RateLimiter) (now : ℤ) (key : String) :
    rl.isAllowed now key
      = ({ rl with
            requests := rl.requests.insert key
              (rl.config.serve now (rl.requests.lookup key)).1 },
          (rl.config.serve now (rl.requests.lookup key)).2) := by
  unfold isAllowed RateLimiterConfig.serve RateLimiterConfig.limiterFor
  cases rl.requests.lookup key <;> rfl

/-- **After a cleanup** the keys that were seen before the cutoff are gone,
and the others are as they were. -/
theorem lookup_cleanup (hwin : 0 < rl.config.windowSize.toInt) (now : ℤ)
    (key : String) :
    (rl.cleanup now).requests.lookup key
      = (rl.requests.lookup key).filter
        (fun data => decide (now ≤ data.lastSeen + rl.config.ttl.toInt)) := by
  have hcutoff : now + (-rl.config.ttl).toInt = now - rl.config.ttl.toInt := by
    rw [RateLimiterConfig.toInt_neg_ttl hwin, Int.sub_eq_add_neg]
  refine (AList.lookup_foldl_erase_filter _ _ _).trans
    (congrArg (Option.filter · _) ?_)
  funext data
  show (!decide (data.lastSeen < now + (-rl.config.ttl).toInt)) = _
  rw [hcutoff, ← decide_not, decide_eq_decide]
  omega

end RateLimiter

/-! ## Buckets that were dropped -/

/-- **A key's data is as the configuration makes it**, and was last touched
by some instant. -/
structure RateLimiterData.Sound (config : RateLimiterConfig) (now : ℤ)
    (data : RateLimiterData) :
    Prop where
  every : data.limiter.every = config.interval
  burst : data.limiter.burst = config.maxRequests
  seen : data.lastSeen ≤ now
  bucket : data.limiter.bucket.Sound (data.lastSeen : ℚ)

/-- The bucket is full. -/
def Limiter.Full (l : Limiter) (now : ℤ) : Prop :=
  l.bucket.FullAt (l.burst.toInt : ℚ) l.rate (now : ℚ)

/-- **What two runs know of a key**, one of them without cleanups: the same,
or the cleanups dropped a bucket that is full by now. -/
inductive Alike (config : RateLimiterConfig) (now : ℤ) :
    Option RateLimiterData → Option RateLimiterData → Prop where
  | same (data : Option RateLimiterData) (h : ∀ d ∈ data, d.Sound config now) :
    Alike config now data data
  | dropped (d : RateLimiterData) (h : d.Sound config now)
    (hfull : d.limiter.Full now) :
    Alike config now none (some d)

section

variable {config : RateLimiterConfig} {seen now : ℤ}
  {data data' : Option RateLimiterData} {d : RateLimiterData} {l : Limiter}

theorem RateLimiterData.Sound.mono (h : d.Sound config seen) (hle : seen ≤ now) :
    d.Sound config now :=
  ⟨h.every, h.burst, h.seen.trans hle, h.bucket⟩

theorem Limiter.rate_nonneg (h : 0 ≤ l.every.toInt) : 0 ≤ l.rate :=
  one_div_nonneg.mpr (Int.cast_nonneg h)

theorem Limiter.allow_of_pos (h : 0 < l.every.toInt) (now : ℤ) :
    l.allow now
      = ({ l with bucket := (l.bucket.allow (l.burst.toInt : ℚ) l.rate (now : ℚ)).1 },
          (l.bucket.allow (l.burst.toInt : ℚ) l.rate (now : ℚ)).2) := by
  have hevery : ¬l.every ≤ 0 := fun hle => not_le.mpr h (Int64.le_iff_toInt_le.mp hle)
  exact if_neg hevery

/-- A request leaves the kind of limiter as it is, and its bucket sound. -/
theorem Limiter.allow_frame (h : l.bucket.Sound (seen : ℚ)) (hle : seen ≤ now) :
    (l.allow now).1.every = l.every ∧ (l.allow now).1.burst = l.burst ∧
      (l.allow now).1.bucket.Sound (now : ℚ) := by
  have hcast : (seen : ℚ) ≤ (now : ℚ) := Int.cast_le.mpr hle
  unfold Limiter.allow
  split
  · exact ⟨rfl, rfl, h.mono hcast⟩
  · exact ⟨rfl, rfl, h.allow hcast⟩

/-- **Full buckets cannot be told apart**: a request takes them to the same
state. -/
theorem Limiter.Full.allow_eq (h : l.Full now) (hevery : 0 < l.every.toInt)
    (hburst : 0 < l.burst.toInt) :
    l.allow now
      = ({ l with bucket := { tokens := (l.burst.toInt : ℚ) - 1, last :=
        (now : ℚ) } }, true) := by
  have hcap : (1 : ℚ) ≤ (l.burst.toInt : ℚ) := by exact_mod_cast hburst
  rw [Limiter.allow_of_pos hevery, TokenBucket.FullAt.allow_eq h hcap]

theorem Limiter.full_newLimiter (every burst : Int64) (now : ℤ) :
    (Limiter.newLimiter every burst now).Full now := TokenBucket.fullAt_full _ _ _

/-- **A call leaves sound data**, whatever sound data it found. -/
theorem RateLimiterConfig.sound_serve (hmax : 0 < config.maxRequests.toInt)
    (h : ∀ d ∈ data, d.Sound config now) :
    (config.serve now data).1.Sound config now := by
  cases data with
  | none =>
    have hfull : (Limiter.newLimiter config.interval config.maxRequests
      now).bucket.Sound
        (now : ℚ) :=
      TokenBucket.sound_full (Int.cast_nonneg hmax.le) (now : ℚ)
    obtain ⟨hevery, hburst, hbucket⟩ := Limiter.allow_frame hfull le_rfl
    exact ⟨hevery, hburst, le_rfl, hbucket⟩
  | some d =>
    have hsound := h d rfl
    obtain ⟨hevery, hburst, hbucket⟩ := Limiter.allow_frame hsound.bucket hsound.seen
    exact ⟨hevery.trans hsound.every, hburst.trans hsound.burst, le_rfl, hbucket⟩

/-- A call cannot tell a dropped bucket from a full one. -/
theorem Alike.serve (h : Alike config now data data')
    (hmax : 0 < config.maxRequests.toInt) (hevery : 0 < config.interval.toInt) :
    config.serve now data = config.serve now data' := by
  cases h with
  | same => rfl
  | dropped d hsound hfull =>
    -- The run with cleanups makes a new limiter, which is full as the old
    -- one is.
    have hlimiter : d.limiter.allow now
        = ({ every := _, burst := _, bucket := _ }, true) :=
      hfull.allow_eq (hsound.every ▸ hevery) (hsound.burst ▸ hmax)
    have hnew :=
      (Limiter.full_newLimiter config.interval config.maxRequests now).allow_eq
      hevery hmax
    rw [hsound.every, hsound.burst] at hlimiter
    unfold RateLimiterConfig.serve RateLimiterConfig.limiterFor
    rw [hlimiter, hnew]
    rfl

theorem Alike.sound_right (h : Alike config now data data') :
    ∀ d ∈ data', d.Sound config now := by
  cases h with
  | same _ hsound => exact hsound
  | dropped d hsound _ =>
    rintro _ ⟨⟩
    exact hsound

theorem Alike.mono (h : Alike config seen data data')
    (hevery : 0 ≤ config.interval.toInt) (hle : seen ≤ now) :
    Alike config now data data' := by
  cases h with
  | same _ hsound => exact .same _ (fun d hd => (hsound d hd).mono hle)
  | dropped d hsound hfull =>
    have hrate := Limiter.rate_nonneg (hsound.every ▸ hevery)
    exact .dropped d (hsound.mono hle)
      (TokenBucket.FullAt.mono hfull hrate (Int.cast_le.mpr hle))

/-- **A bucket that may be dropped is full**, if the configuration leaves it
the time. -/
theorem RateLimiterData.Sound.full_of_expired (h : d.Sound config now)
    (hevery : 0 < config.interval.toInt) (hrefills : config.Refills)
    (hexpired : ¬now ≤ d.lastSeen + config.ttl.toInt) :
    d.limiter.Full now := by
  have hpos : (0 : ℚ) < (config.interval.toInt : ℚ) := Int.cast_pos.mpr hevery
  have hidle : config.maxRequests.toInt * config.interval.toInt
      ≤ now - d.lastSeen := by
    have := hrefills
    unfold RateLimiterConfig.Refills at this
    omega
  refine h.bucket.fullAt_of_idle (Limiter.rate_nonneg (h.every ▸ hevery.le)) ?_
  rw [Limiter.rate, h.every, h.burst, mul_one_div, le_div_iff₀ hpos]
  exact_mod_cast hidle

/-- **A cleanup drops full buckets only.** -/
theorem Alike.cleanup (h : Alike config now data data')
    (hevery : 0 < config.interval.toInt) (hrefills : config.Refills) :
    Alike config now
      (data.filter (fun d => decide (now ≤ d.lastSeen + config.ttl.toInt)))
      data' := by
  cases h with
  | dropped d hsound hfull => exact .dropped d hsound hfull
  | same _ hsound =>
    cases data with
    | none => exact .same none hsound
    | some d =>
      rw [Option.filter_some]
      split
      · exact .same (some d) hsound
      · next hexpired =>
        -- The key was not seen for the lifetime, in which a bucket fills.
        have hd := hsound d rfl
        exact .dropped d hd (hd.full_of_expired hevery hrefills
          (fun h => hexpired (decide_eq_true h)))

end

/-! ## Runs -/

namespace RateLimiter

variable {rl rl' : RateLimiter} {config : RateLimiterConfig} {seen : ℤ}

/-- **Two rate limiters that know alike of every key.** -/
structure Agree (config : RateLimiterConfig) (now : ℤ) (rl rl' : RateLimiter) :
    Prop where
  left : rl.config = config
  /-- That of the second. -/
  right : rl'.config = config
  keys : ∀ key, Alike config now (rl.requests.lookup key) (rl'.requests.lookup key)

theorem Agree.isAllowed (h : Agree config seen rl rl')
    (hmax : 0 < config.maxRequests.toInt) (hevery : 0 < config.interval.toInt)
    {now : ℤ} (hle : seen ≤ now) (key : String) :
    (rl.isAllowed now key).2 = (rl'.isAllowed now key).2 ∧
      Agree config now (rl.isAllowed now key).1 (rl'.isAllowed now key).1 := by
  have hkeys := fun k => (h.keys k).mono hevery.le hle
  have hserve := (hkeys key).serve hmax hevery
  rw [isAllowed_eq, isAllowed_eq, h.left, h.right, hserve]
  refine ⟨rfl, rfl, rfl, fun k => ?_⟩
  by_cases hk : k = key
  · subst hk
    rw [AList.lookup_insert, AList.lookup_insert]
    refine .same _ ?_
    rintro _ ⟨⟩
    exact RateLimiterConfig.sound_serve hmax (hkeys k).sound_right
  · rw [AList.lookup_insert_ne hk, AList.lookup_insert_ne hk]
    exact hkeys k

theorem Agree.cleanup (h : Agree config seen rl rl')
    (hwin : 0 < config.windowSize.toInt) (hevery : 0 < config.interval.toInt)
    (hrefills : config.Refills) {now : ℤ} (hle : seen ≤ now) :
    Agree config now (rl.cleanup now) rl' := by
  refine ⟨h.left, h.right, fun key => ?_⟩
  rw [lookup_cleanup (h.left ▸ hwin), h.left]
  exact ((h.keys key).mono hevery.le hle).cleanup hevery hrefills

/-- **A run and the run without its cleanups** give the same answers. -/
theorem Agree.answers_eq (h : Agree config seen rl rl')
    (hmax : 0 < config.maxRequests.toInt) (hwin : 0 < config.windowSize.toInt)
    (hevery : 0 < config.interval.toInt) (hrefills : config.Refills)
    {events : List RateEvent} (hseen : ∀ e ∈ events, seen ≤ e.now)
    (hordered : events.Pairwise (fun e e' => e.now ≤ e'.now)) :
    rl.answers events = rl'.answers (events.filter RateEvent.isCall) := by
  induction events generalizing rl rl' seen with
  | nil => rfl
  | cons e rest ih =>
    obtain ⟨hnext, hrest⟩ := List.pairwise_cons.mp hordered
    have hle := hseen e List.mem_cons_self
    cases e with
    | isAllowed now key =>
      obtain ⟨hanswer, hagree⟩ := h.isAllowed hmax hevery hle key
      exact congrArg₂ List.cons hanswer (ih hagree hnext hrest)
    | cleanup now => exact ih (h.cleanup hwin hevery hrefills hle) hnext hrest

end RateLimiter

/-! ## Without a limit -/

section

variable {rl : RateLimiter} {config : RateLimiterConfig}

/-- **The limiters let everything pass**: no time lies between two tokens. -/
structure RateLimiter.Unlimited (config : RateLimiterConfig) (rl : RateLimiter) :
    Prop where
  config : rl.config = config
  every : ∀ key, ∀ d ∈ rl.requests.lookup key, d.limiter.every ≤ 0

theorem Limiter.allow_of_nonpos {l : Limiter} (h : l.every ≤ 0) (now : ℤ) :
    l.allow now = (l, true) :=
  if_pos h

theorem RateLimiter.Unlimited.limiterFor (h : rl.Unlimited config)
    (hinterval : config.interval ≤ 0) (now : ℤ) (key : String) :
    (config.limiterFor now (rl.requests.lookup key)).every ≤ 0 := by
  cases hlook : rl.requests.lookup key with
  | none => exact hinterval
  | some d => exact h.every key d hlook

/-- **Without a limit every call is allowed**, with cleanups or without. -/
theorem RateLimiter.Unlimited.answers_eq (h : rl.Unlimited config)
    (hinterval : config.interval ≤ 0) (hwin : 0 < config.windowSize.toInt)
    (events : List RateEvent) :
    rl.answers events = List.replicate (events.filter RateEvent.isCall).length
      true := by
  induction events generalizing rl with
  | nil => rfl
  | cons e rest ih =>
    cases e with
    | isAllowed now key =>
      have hfor := h.limiterFor hinterval now key
      have hallow := Limiter.allow_of_nonpos hfor now
      have hnext : (rl.isAllowed now key).1.Unlimited config := by
        rw [RateLimiter.isAllowed_eq, h.config, RateLimiterConfig.serve, hallow]
        refine ⟨rfl, fun k d hd => ?_⟩
        by_cases hk : k = key
        · subst hk
          rw [AList.lookup_insert] at hd
          cases hd
          exact hfor
        · rw [AList.lookup_insert_ne hk] at hd
          exact h.every k d hd
      show _ :: _ = List.replicate (_ + 1) true
      rw [ih hnext, RateLimiter.isAllowed_eq, h.config,
        RateLimiterConfig.serve, hallow]
      rfl
    | cleanup now =>
      refine ih ⟨h.config, fun key d hd => h.every key d ?_⟩
      rw [RateLimiter.lookup_cleanup (h.config ▸ hwin)] at hd
      exact (Option.mem_filter_iff.mp hd).1

end

/-! ## A cleanup that is seen -/

section

variable {rl : RateLimiter} {config : RateLimiterConfig}

/-- Some requests at one instant. -/
def Limiter.burstAt (l : Limiter) (now : ℤ) (n : ℕ) : Limiter × List Bool :=
  let answer := l.bucket.burst (l.burst.toInt : ℚ) l.rate (now : ℚ) n
  ({ l with bucket := answer.1 }, answer.2)

theorem Limiter.burstAt_succ {l : Limiter} (h : 0 < l.every.toInt) (now : ℤ) (n : ℕ) :
    l.burstAt now (n + 1)
      = (((l.allow now).1.burstAt now n).1, (l.allow now).2
        :: ((l.allow now).1.burstAt now n).2) := by
  rw [Limiter.allow_of_pos h]
  rfl

theorem RateLimiter.isAllowed_of_limiterFor {now : ℤ} {key : String} {l : Limiter}
    (h : rl.config.limiterFor now (rl.requests.lookup key) = l) :
    (rl.isAllowed now key).1.requests.lookup key
        = some { limiter := (l.allow now).1, lastSeen := now } ∧
      (rl.isAllowed now key).2 = (l.allow now).2 := by
  subst h
  rw [isAllowed_eq]
  exact ⟨AList.lookup_insert _, rfl⟩

/-- **Some calls for one key at one instant.** -/
theorem RateLimiter.answers_burst (n : ℕ) {now : ℤ} {key : String} {l : Limiter}
    (hl : rl.config.limiterFor now (rl.requests.lookup key) = l)
    (hevery : 0 < l.every.toInt) :
    ∃ after : RateLimiter, after.config = rl.config ∧
      after.requests.lookup key = some
        { limiter := (l.burstAt now (n + 1)).1, lastSeen := now } ∧
      ∀ rest, rl.answers (List.replicate (n + 1) (.isAllowed now key) ++ rest)
        = (l.burstAt now (n + 1)).2 ++ after.answers rest := by
  induction n generalizing rl l with
  | zero =>
    obtain ⟨hlook, hanswer⟩ := isAllowed_of_limiterFor hl
    rw [Limiter.burstAt_succ hevery, ← hanswer]
    exact ⟨(rl.isAllowed now key).1, rfl, hlook, fun rest => rfl⟩
  | succ n ih =>
    obtain ⟨hlook, hanswer⟩ := isAllowed_of_limiterFor hl
    have hnext : 0 < (l.allow now).1.every.toInt := by
      rw [Limiter.allow_of_pos hevery]
      exact hevery
    have hfor : (rl.isAllowed now key).1.config.limiterFor now
        ((rl.isAllowed now key).1.requests.lookup key) = (l.allow now).1 := by
      rw [hlook]
      rfl
    obtain ⟨after, hconfig, hafter, hanswers⟩ := ih hfor hnext
    rw [Limiter.burstAt_succ hevery]
    refine ⟨after, hconfig, hafter, fun rest => ?_⟩
    exact congrArg₂ List.cons hanswer (hanswers rest)

/-- **A key without data may make as many requests as there are tokens**,
and its bucket is empty then. -/
theorem RateLimiter.answers_burst_of_none {n : ℕ} (hconfig : rl.config = config)
    (hn : config.maxRequests.toInt = (n + 1 : ℕ)) (hevery : 0 < config.interval.toInt)
    {key : String} (hnone : rl.requests.lookup key = none) (now : ℤ) :
    ∃ after : RateLimiter, after.config = config ∧
      after.requests.lookup key
        = some { limiter :=
                  { every := config.interval, burst := config.maxRequests,
                    bucket := ⟨0, (now : ℚ)⟩ }
                 lastSeen := now } ∧
      ∀ rest, rl.answers (List.replicate (n + 1) (.isAllowed now key) ++ rest)
        = List.replicate (n + 1) true ++ after.answers rest := by
  have hcap : (config.maxRequests.toInt : ℚ) = ((n + 1 : ℕ) : ℚ) := by
    rw [hn, Int.cast_natCast]
  have hbucket :=
    (Limiter.full_newLimiter config.interval config.maxRequests now).burst_eq hcap
  have hburst : (Limiter.newLimiter config.interval config.maxRequests now).burstAt
    now (n + 1)
      = ({ every := config.interval, burst := config.maxRequests, bucket :=
        ⟨0, (now : ℚ)⟩ },
          List.replicate (n + 1) true) := by
    unfold Limiter.burstAt
    rw [hbucket]
    rfl
  have hl : rl.config.limiterFor now (rl.requests.lookup key)
      = Limiter.newLimiter config.interval config.maxRequests now := by
    rw [hconfig, hnone]
    rfl
  obtain ⟨after, hafter, hlook, hanswers⟩ := answers_burst n hl hevery
  rw [hburst] at hlook hanswers
  exact ⟨after, hafter.trans hconfig, hlook, hanswers⟩

/-- An empty limiter grants a burst only once the tokens have come. -/
theorem Limiter.le_of_burstAt {l : Limiter} {n : ℕ} {now last : ℤ}
    (hevery : 0 < l.every.toInt)
    (hbucket : l.bucket = { tokens := 0, last := (last : ℚ) })
    (h : (l.burstAt now (n + 1)).2 = List.replicate (n + 1) true) :
    (n + 1 : ℕ) * l.every.toInt ≤ now - last := by
  have hpos : (0 : ℚ) < (l.every.toInt : ℚ) := Int.cast_pos.mpr hevery
  have hlevel := (TokenBucket.le_level_of_burst h).trans (min_le_right _ _)
  rw [hbucket] at hlevel
  change ((n + 1 : ℕ) : ℚ) ≤ 0 + ((now : ℚ) - (last : ℚ)) * (1 / (l.every.toInt : ℚ))
    at hlevel
  rw [zero_add, mul_one_div, le_div_iff₀ hpos] at hlevel
  exact_mod_cast hlevel

/-- A key makes some requests at instant `0`; later a cleanup runs, and the
key makes as many again. -/
def RateEvent.drainTwice (n : ℕ) (later : ℤ) : List RateEvent :=
  List.replicate n (.isAllowed 0 "") ++ .cleanup later
    :: (List.replicate n (.isAllowed later "") ++ [])

theorem RateEvent.pairwise_drainTwice (n : ℕ) {later : ℤ} (h : 0 ≤ later) :
    (drainTwice n later).Pairwise (fun e e' => e.now ≤ e'.now) := by
  simp [drainTwice, List.pairwise_append, List.pairwise_cons, RateEvent.now, h]

theorem RateEvent.calls_drainTwice (n : ℕ) (later : ℤ) :
    (drainTwice n later).filter isCall
      = List.replicate n (.isAllowed 0 "")
        ++ (List.replicate n (.isAllowed later "") ++ []) := by
  simp [drainTwice, isCall, List.filter_replicate]

/-- **A bucket that is emptied and dropped is found full again**: without
the cleanup the second burst is granted whole only once the tokens have
come. -/
theorem RateLimiter.le_of_answers_drainTwice {n : ℕ}
    (hn : config.maxRequests.toInt = (n + 1 : ℕ)) (hwin : 0 < config.windowSize.toInt)
    (hevery : 0 < config.interval.toInt) {later : ℤ}
    (hexpired : ¬later ≤ 0 + config.ttl.toInt)
    (hsame : (newRateLimiter (some config)).answers
      (RateEvent.drainTwice (n + 1) later) = (newRateLimiter (some config)).answers
          ((RateEvent.drainTwice (n + 1) later).filter RateEvent.isCall)) :
    (n + 1 : ℕ) * config.interval.toInt ≤ later := by
  have hstart : (newRateLimiter (some config)).config = config := rfl
  have hnew : (newRateLimiter (some config)).requests.lookup "" = none := rfl
  obtain ⟨emptied, hconfig, hlook, hfirst⟩ :=
    answers_burst_of_none hstart hn hevery hnew 0
  have hdropped : (emptied.cleanup later).requests.lookup "" = none := by
    rw [lookup_cleanup (hconfig ▸ hwin), hlook, hconfig, Option.filter_some]
    exact if_neg (fun h => hexpired (of_decide_eq_true h))
  have hcleanup : (emptied.cleanup later).config = config := hconfig
  obtain ⟨_, _, _, hcleaned⟩ :=
    answers_burst_of_none hcleanup hn hevery hdropped later
  obtain ⟨l, hl, hleft, hbucket⟩ : ∃ l : Limiter,
      emptied.config.limiterFor later (emptied.requests.lookup "") = l ∧
        l.every = config.interval ∧
        l.bucket = { tokens := 0, last := ((0 : ℤ) : ℚ) } := by
    rw [hlook]
    exact ⟨_, rfl, rfl, rfl⟩
  have hpos : 0 < l.every.toInt := hleft ▸ hevery
  obtain ⟨_, _, _, hkept⟩ := answers_burst n hl hpos
  -- The first bursts are granted alike; the second is granted whole after
  -- the cleanup.
  rw [RateEvent.calls_drainTwice, RateEvent.drainTwice, hfirst, hfirst, hkept]
    at hsame
  have hburst := List.append_cancel_left hsame
  change (emptied.cleanup later).answers _ = _ at hburst
  rw [hcleaned] at hburst
  have hgranted := (List.append_cancel_right hburst).symm
  have hle := Limiter.le_of_burstAt hpos hbucket hgranted
  rwa [hleft, sub_zero] at hle

/-- **If buckets do not refill in time a cleanup is seen.** -/
theorem RateLimiter.exists_answers_ne (hmax : 0 < config.maxRequests.toInt)
    (hwin : 0 < config.windowSize.toInt) (hevery : 0 < config.interval.toInt)
    (hrefills : ¬config.Refills) :
    ∃ events : List RateEvent, events.Pairwise (fun e e' => e.now ≤ e'.now) ∧
      (newRateLimiter (some config)).answers events
        ≠ (newRateLimiter (some config)).answers
          (events.filter RateEvent.isCall) := by
  obtain ⟨n, hn⟩ : ∃ n : ℕ, config.maxRequests.toInt = (n + 1 : ℕ) :=
    ⟨(config.maxRequests.toInt - 1).toNat, by omega⟩
  have hfull : 0 < config.maxRequests.toInt * config.interval.toInt :=
    Int.mul_pos hmax hevery
  unfold RateLimiterConfig.Refills at hrefills
  rw [hn] at hfull hrefills
  -- The first instant at which a key seen at `0` is dropped, unless that
  -- has passed already.
  refine ⟨RateEvent.drainTwice (n + 1) (max 0 (config.ttl.toInt + 1)),
    RateEvent.pairwise_drainTwice _ (le_max_left _ _), fun hsame => ?_⟩
  have hle := le_of_answers_drainTwice hn hwin hevery (by omega) hsame
  omega

theorem RateLimiter.agree_new (config : RateLimiterConfig) (now : ℤ) :
    Agree config now (newRateLimiter (some config)) (newRateLimiter (some config)) :=
  ⟨rfl, rfl, fun _ => .same none (fun _ hd => nomatch hd)⟩

/-- **The cleanup is invisible if buckets refill in time.** -/
theorem RateLimiter.answers_eq_of_refills (hmax : 0 < config.maxRequests.toInt)
    (hwin : 0 < config.windowSize.toInt) (h : config.interval = 0 ∨ config.Refills)
    {events : List RateEvent}
    (hordered : events.Pairwise (fun e e' => e.now ≤ e'.now)) :
    (newRateLimiter (some config)).answers events
      = (newRateLimiter (some config)).answers (events.filter RateEvent.isCall) := by
  by_cases hzero : config.interval = 0
  · have hunlimited : (newRateLimiter (some config)).Unlimited config :=
      ⟨rfl, fun _ _ hd => nomatch hd⟩
    have hinterval : config.interval ≤ 0 := Int64.le_of_eq hzero
    rw [hunlimited.answers_eq hinterval hwin, hunlimited.answers_eq hinterval hwin,
      List.filter_filter]
    simp only [Bool.and_self]
  · have hrefills := h.resolve_left hzero
    have hevery := RateLimiterConfig.interval_pos hmax hwin hzero
    cases events with
    | nil => rfl
    | cons e rest =>
      have hagree := agree_new config e.now
      refine hagree.answers_eq hmax hwin hevery hrefills (fun e' he' => ?_) hordered
      cases he' with
      | head => exact le_rfl
      | tail _ he' => exact (List.pairwise_cons.mp hordered).1 e' he'

/-- **The cleanup is invisible exactly if buckets refill in time**, which
they do unless three windows exceed the largest duration. -/
theorem cleanup_invisible_iff (hmax : 1 ≤ config.maxRequests)
    (hwin : 0 < config.windowSize) :
    ((∀ events : List RateEvent, events.Pairwise (fun e e' => e.now ≤ e'.now) →
        (RateLimiter.newRateLimiter (some config)).answers events
          = (RateLimiter.newRateLimiter (some config)).answers
            (events.filter RateEvent.isCall))
      ↔ config.interval = 0 ∨ config.Refills) ∧
    (config.windowSize.toInt * 3 < 2 ^ 63 → config.Refills) := by
  have hmax' : 0 < config.maxRequests.toInt := Int64.le_iff_toInt_le.mp hmax
  have hwin' : 0 < config.windowSize.toInt := Int64.lt_iff_toInt_lt.mp hwin
  refine ⟨⟨fun hsame => ?_, fun h events hordered => ?_⟩,
    RateLimiterConfig.refills_of_lt hmax' hwin'⟩
  · by_contra hnot
    obtain ⟨hzero, hrefills⟩ := not_or.mp hnot
    have hevery : 0 < config.interval.toInt :=
      RateLimiterConfig.interval_pos hmax' hwin' hzero
    obtain ⟨events, hordered, hdiffer⟩ :=
      RateLimiter.exists_answers_ne hmax' hwin' hevery hrefills
    exact hdiffer (hsame events hordered)
  · exact RateLimiter.answers_eq_of_refills hmax' hwin' h hordered

/-- A key makes a request; a cleanup runs as soon as the key is old enough
to be dropped, and the key makes another request. -/
def Sample.droppedBetween : List RateEvent :=
  [.isAllowed 0 "10.0.0.1", .cleanup (RateLimiterConfig.default.ttl.toInt + 1),
    .isAllowed (RateLimiterConfig.default.ttl.toInt + 1) "10.0.0.1"]

/-- The rate limiter as it is configured by default: the cleanup drops the
key between the two requests, and the answers are those without it. -/
theorem cleanup_invisible_default :
    1 ≤ RateLimiterConfig.default.maxRequests ∧
      0 < RateLimiterConfig.default.windowSize ∧
      RateLimiterConfig.default.windowSize.toInt * 3 < 2 ^ 63 ∧
      RateLimiterConfig.default.Refills ∧
      Sample.droppedBetween.Pairwise (fun e e' => e.now ≤ e'.now) ∧
      (RateLimiter.newRateLimiter (some RateLimiterConfig.default)).answers
          Sample.droppedBetween
        = (RateLimiter.newRateLimiter (some RateLimiterConfig.default)).answers
          (Sample.droppedBetween.filter RateEvent.isCall) := by
  have hmax : 1 ≤ RateLimiterConfig.default.maxRequests := by decide
  have hwin : 0 < RateLimiterConfig.default.windowSize := by decide
  have hfits : RateLimiterConfig.default.windowSize.toInt * 3 < 2 ^ 63 := by decide
  have hordered : Sample.droppedBetween.Pairwise (fun e e' => e.now ≤ e'.now) := by
    decide
  obtain ⟨hiff, hrefills⟩ := cleanup_invisible_iff hmax hwin
  exact ⟨hmax, hwin, hfits, hrefills hfits, hordered,
    hiff.mpr (Or.inr (hrefills hfits)) _ hordered⟩

/-- One request in a window of `2 ^ 62` nanoseconds. -/
def Sample.longWindow : RateLimiterConfig :=
  { maxRequests := 1, windowSize := 2 ^ 62, cleanupInterval := 5 * 60 * 1000000000 }

/-- A key makes a request, a cleanup runs, and the key makes another one,
all at one instant. -/
def Sample.cleanupBetween : List RateEvent :=
  [.isAllowed 0 "10.0.0.1", .cleanup 0, .isAllowed 0 "10.0.0.1"]

/-- **A cleanup refills an empty bucket**: three windows wrap around to a
negative lifetime, and the cleanup drops a key that was seen at that very
instant. Its second request is allowed, which without the cleanup it is not. -/
theorem cleanup_refills_bucket :
    1 ≤ Sample.longWindow.maxRequests ∧ 0 < Sample.longWindow.windowSize ∧
      Sample.longWindow.ttl = -2 ^ 62 ∧
      Sample.cleanupBetween.Pairwise (fun e e' => e.now ≤ e'.now) ∧
      (RateLimiter.newRateLimiter (some Sample.longWindow)).answers
        Sample.cleanupBetween = [true, true] ∧
      (RateLimiter.newRateLimiter (some Sample.longWindow)).answers
          (Sample.cleanupBetween.filter RateEvent.isCall)
        = [true, false] := by
  decide +kernel

end
end Mmn
