import Mathlib.Algebra.Order.Field.Basic
import Mathlib.Tactic.Linarith
import Mathlib.Tactic.Ring

/-!
# Token buckets

A bucket holds tokens, `cap` of them at most. Tokens come at a fixed rate,
and a request takes one if there is a whole one. What is remembered is the
number of tokens at the time of the last request that was granted; the
number at a later time is computed from it (`level`).

Two facts are what the bucket is used for. A bucket that was left alone for
long enough is full (`Sound.fullAt_of_idle`), whatever was in it; and full
buckets cannot be told apart, neither by the answer to the next request nor
by any later one (`FullAt.allow_eq`). A burst of requests at one instant is
granted whole if there are tokens for it (`burst_of_le`), and only then
(`le_level_of_burst`).
-/

/-- **A bucket**, as it was after the last request that was granted. -/
structure TokenBucket (K : Type) where
  tokens : K
  last : K

namespace TokenBucket

variable {K : Type} [Field K] [LinearOrder K] [IsStrictOrderedRing K]

/-- A full bucket. -/
def full (cap now : K) : TokenBucket K := { tokens := cap, last := now }

/-- The tokens at a time. -/
def level (cap rate : K) (b : TokenBucket K) (now : K) : K :=
  min cap (b.tokens + (now - b.last) * rate)

/-- **A request.** It is granted if there is a token, and takes it. -/
def allow (cap rate : K) (b : TokenBucket K) (now : K) : TokenBucket K × Bool :=
  if 1 ≤ b.level cap rate now
    then ({ tokens := b.level cap rate now - 1, last := now }, true)
  else (b, false)

/-- Some requests at one instant. -/
def burst (cap rate : K) (now : K) : ℕ → TokenBucket K → TokenBucket K × List Bool
  | 0, b => (b, [])
  | n + 1, b =>
    let first := b.allow cap rate now
    let rest := burst cap rate now n first.1
    (rest.1, first.2 :: rest.2)

variable {cap rate : K} {b : TokenBucket K} {seen now : K}

omit [IsStrictOrderedRing K] in
theorem allow_of_le (h : 1 ≤ b.level cap rate now) :
    b.allow cap rate now = ({ tokens := b.level cap rate now - 1, last := now },
      true) := if_pos h

omit [IsStrictOrderedRing K] in
theorem allow_of_lt (h : b.level cap rate now < 1) :
    b.allow cap rate now = (b, false) :=
  if_neg (not_le.mpr h)

omit [IsStrictOrderedRing K] in
theorem le_of_allow (h : (b.allow cap rate now).2 = true) :
    1 ≤ b.level cap rate now := by
  by_contra hlt
  rw [allow_of_lt (not_le.mp hlt)] at h
  cases h

omit [IsStrictOrderedRing K] in
theorem burst_succ (n : ℕ) :
    b.burst cap rate now (n + 1)
      = (((b.allow cap rate now).1.burst cap rate now n).1,
          (b.allow cap rate now).2
            :: ((b.allow cap rate now).1.burst cap rate now n).2) := rfl

/-! ## Full buckets -/

/-- The bucket is full at a time. -/
def FullAt (cap rate : K) (b : TokenBucket K) (now : K) : Prop :=
  cap ≤ b.tokens + (now - b.last) * rate

/-- **The bucket was last used** no later than some time, and owes nothing. -/
structure Sound (b : TokenBucket K) (seen : K) : Prop where
  tokens : 0 ≤ b.tokens
  last : b.last ≤ seen

omit [IsStrictOrderedRing K] in
theorem fullAt_full (cap rate now : K) : (full cap now).FullAt cap rate now := by
  show cap ≤ cap + (now - now) * rate
  rw [sub_self, zero_mul, add_zero]

omit [IsStrictOrderedRing K] in
theorem FullAt.level_eq (h : b.FullAt cap rate now) : b.level cap rate now = cap :=
  min_eq_left h

theorem FullAt.mono (h : b.FullAt cap rate seen) (hrate : 0 ≤ rate)
    (hle : seen ≤ now) :
    b.FullAt cap rate now := by
  refine le_trans h ?_
  have hmore : (seen - b.last) * rate ≤ (now - b.last) * rate :=
    mul_le_mul_of_nonneg_right (sub_le_sub_right hle _) hrate
  exact add_le_add_right hmore _

/-- **A bucket that was left alone is full** once the tokens of the time in
between fill it. -/
theorem Sound.fullAt_of_idle (h : b.Sound seen) (hrate : 0 ≤ rate)
    (hidle : cap ≤ (now - seen) * rate) : b.FullAt cap rate now := by
  have hmore : (now - seen) * rate ≤ (now - b.last) * rate :=
    mul_le_mul_of_nonneg_right (sub_le_sub_left h.last _) hrate
  unfold FullAt
  linarith [h.tokens]

omit [IsStrictOrderedRing K] in
/-- **Full buckets cannot be told apart.** -/
theorem FullAt.allow_eq (h : b.FullAt cap rate now) (hcap : 1 ≤ cap) :
    b.allow cap rate now = ({ tokens := cap - 1, last := now }, true) := by
  rw [allow_of_le (h.level_eq.symm ▸ hcap), h.level_eq]

omit [IsStrictOrderedRing K] in
theorem Sound.mono (h : b.Sound seen) (hle : seen ≤ now) : b.Sound now :=
  ⟨h.tokens, h.last.trans hle⟩

omit [IsStrictOrderedRing K] in
theorem sound_full (hcap : 0 ≤ cap) (now : K) : (full cap now).Sound now :=
  ⟨hcap, le_rfl⟩

theorem Sound.allow (h : b.Sound seen) (hle : seen ≤ now) :
    (b.allow cap rate now).1.Sound now := by
  unfold TokenBucket.allow
  split
  · next hone => exact ⟨sub_nonneg.mpr hone, le_rfl⟩
  · exact h.mono hle

/-! ## Bursts -/

/-- A request that is granted takes one token. -/
theorem level_allow (h : 1 ≤ b.level cap rate now) :
    (b.allow cap rate now).1.level cap rate now = b.level cap rate now - 1 := by
  have hle : b.level cap rate now ≤ cap := min_le_left _ _
  rw [allow_of_le h]
  show min cap (b.level cap rate now - 1 + (now - now) * rate) = _
  rw [sub_self, zero_mul, add_zero]
  exact min_eq_right (by linarith)

/-- **A burst for which there are tokens** is granted whole and takes them. -/
theorem burst_of_le {n : ℕ} (h : ((n + 1 : ℕ) : K) ≤ b.level cap rate now) :
    b.burst cap rate now (n + 1)
      = ({ tokens := b.level cap rate now - (n + 1 : ℕ), last := now },
        List.replicate (n + 1) true) := by
  have hone : 1 ≤ b.level cap rate now := le_trans (Nat.one_le_cast.mpr n.succ_pos) h
  induction n generalizing b with
  | zero =>
    show ((b.allow cap rate now).1, [(b.allow cap rate now).2]) = _
    rw [allow_of_le hone, Nat.zero_add, Nat.cast_one]
    rfl
  | succ n ih =>
    have hlevel := level_allow hone
    have hnext : ((n + 1 : ℕ) : K) ≤ (b.allow cap rate now).1.level cap rate now := by
      rw [hlevel]
      rw [Nat.cast_add, Nat.cast_one] at h
      linarith
    have hfirst := le_trans (Nat.one_le_cast.mpr n.succ_pos) hnext
    rw [burst_succ, ih hnext hfirst, hlevel, congrArg Prod.snd (allow_of_le hone)]
    -- The first request takes one token, the others the rest.
    refine Prod.ext (congrArg (TokenBucket.mk · now) ?_) rfl
    show b.level cap rate now - 1 - ((n + 1 : ℕ) : K)
      = b.level cap rate now - ((n + 1 + 1 : ℕ) : K)
    rw [Nat.cast_add (n + 1) 1, Nat.cast_one]
    ring

theorem FullAt.burst_eq {n : ℕ} (h : b.FullAt cap rate now)
    (hcap : cap = (n + 1 : ℕ)) :
    b.burst cap rate now (n + 1)
      = ({ tokens := 0, last := now }, List.replicate (n + 1) true) := by
  have hle : ((n + 1 : ℕ) : K) ≤ b.level cap rate now := by rw [h.level_eq, hcap]
  rw [burst_of_le hle, h.level_eq, hcap, sub_self]

/-- A burst that is granted whole had the tokens. -/
theorem le_level_of_burst {n : ℕ}
    (h : (b.burst cap rate now (n + 1)).2 = List.replicate (n + 1) true) :
    ((n + 1 : ℕ) : K) ≤ b.level cap rate now := by
  induction n generalizing b with
  | zero =>
    rw [Nat.zero_add, Nat.cast_one]
    exact le_of_allow (List.cons.inj h).1
  | succ n ih =>
    have hone : 1 ≤ b.level cap rate now := le_of_allow (List.cons.inj h).1
    have hrest := ih (List.cons.inj h).2
    rw [level_allow hone] at hrest
    rw [Nat.cast_add, Nat.cast_one]
    linarith

end TokenBucket
