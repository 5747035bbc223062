import Mmn.Quorum
import Mmn.Sample

/-!
# What the collector's numbers mean

Two numbers of the collector are chosen independently of what they are for.

The **threshold** is `max (2 * (n / 3)) 1`. With up to `(n - 1) / 3` faulty
validators, a threshold is safe when any two sets of that many voters share
more than the faulty ones. Where the division by three is exact this is what
the formula gives; where it rounds down it gives too little, and only one
validator alone escapes (`quorumsOverlap_iff`).

The **retention** keeps the votes of the last 1500 slots behind the highest
slot voted for. Dropping a slot's votes forgets their number and also who
has voted, so a vote that arrives after the cleanup is counted as the first
one. The answers of the collector are those of one that never cleans up
exactly if no vote comes that late and needs the votes that are gone, to be
refused or to reach the threshold (`answers_cleanup_iff`). The proof runs
the two collectors side by side: they hold the same votes for every slot,
but for slots that are too far behind, where one of them may hold fewer
(`Forgets`).
-/

namespace Mmn

section

variable [Primitives]

namespace Collector

/-! ## The threshold -/

/-- Any two sets of voters that reach the threshold share more voters than
can be faulty. -/
def QuorumsOverlap (n : ℕ) : Prop :=
  ∀ A B : Finset (Fin n), (new n).threshold ≤ A.card → (new n).threshold ≤ B.card →
    (n - 1) / 3 < (A ∩ B).card

theorem threshold_new (n : ℕ) : (new n).threshold = max (2 * (n / 3)) 1 := rfl

theorem threshold_new_le {n : ℕ} (hn : 1 ≤ n) : (new n).threshold ≤ n := by
  rw [threshold_new]
  omega

/-- Where the division by three is exact, quorums overlap enough. -/
theorem quorumsOverlap_of_dvd {n : ℕ} (hn : 1 ≤ n) (h : n = 1 ∨ 3 ∣ n) :
    QuorumsOverlap n := by
  intro A B hA hB
  have hover := Quorum.card_add_card_le A B
  rw [Fintype.card_fin] at hover
  rw [threshold_new] at hA hB
  omega

/-- Where it rounds down, two quorums that overlap as little as they can do
not overlap enough. -/
theorem not_quorumsOverlap {n : ℕ} (hn : 1 ≤ n) (h : ¬(n = 1 ∨ 3 ∣ n)) :
    ¬QuorumsOverlap n := by
  intro hover
  have hq : (new n).threshold ≤ Fintype.card (Fin n) := by
    rw [Fintype.card_fin]
    exact threshold_new_le hn
  obtain ⟨A, B, hA, hB, hAB⟩ := Quorum.exists_card_inter_eq hq
  have hshare := hover A B hA.ge hB.ge
  rw [hAB, Fintype.card_fin, threshold_new] at hshare
  omega

/-- **Quorums overlap in more than the faulty voters exactly where the
number of validators is one or a multiple of three.** -/
theorem quorumsOverlap_iff {n : ℕ} (hn : 1 ≤ n) :
    QuorumsOverlap n ↔ n = 1 ∨ 3 ∣ n := by
  refine ⟨fun hover => ?_, quorumsOverlap_of_dvd hn⟩
  by_contra h
  exact not_quorumsOverlap hn h hover

/-! ## The retention -/

/-- A call of the collector. -/
inductive Call where
  | addVote (v : Vote)
  /-- Drop the votes that are too old by now. -/
  | cleanup

/-- What counting a vote answers: an error, or whether the slot is committed
and whether its block is to be applied. -/
def answer (c : Collector) (v : Vote) : Except String (Bool × Bool) :=
  (c.addVote v).map Prod.snd

/-- The collector after a call. -/
def afterCall (c : Collector) : Call → Collector
  | .addVote v =>
    match c.addVote v with
    | .error _ => c
    | .ok (c', _) => c'
  | .cleanup => c.cleanupOldVotes c.maxSlot defaultVoteRetentionSlots

/-- The answers to the votes among the calls. -/
def answers (c : Collector) : List Call → List (Except String (Bool × Bool))
  | [] => []
  | .addVote v :: calls => c.answer v :: (c.afterCall (.addVote v)).answers calls
  | .cleanup :: calls => (c.afterCall .cleanup).answers calls

/-- The votes among the calls. -/
def Call.votes (calls : List Call) : List Vote :=
  calls.filterMap (fun
    | .addVote v => some v
    | .cleanup => none)

/-- Is the slot so far behind that a cleanup drops its votes? -/
def Late (c : Collector) (slot : UInt64) : Prop :=
  slot.toNat + defaultVoteRetentionSlots.toNat < c.maxSlot.toNat

/-- **The vote does not need those that a cleanup drops**: its slot is not
late, or nobody has voted for it yet, or it is the voter's first vote for
the slot and falls short of the threshold – or needs no other vote to reach
it. -/
def Independent (c : Collector) (v : Vote) : Prop :=
  ¬c.Late v.slot ∨ c.count v.slot = 0 ∨
    (v.voterID ∉ c.votesForSlot v.slot ∧
      (c.count v.slot + 1 < c.threshold ∨ c.threshold ≤ 1))

/-- Every valid vote is independent when it is counted, by a collector that
never cleans up. -/
def AllIndependent (c : Collector) : List Vote → Prop
  | [] => True
  | v :: vs =>
    (v.validate = .ok () → c.Independent v) ∧
      (c.afterCall (.addVote v)).AllIndependent vs

/-- **Having forgotten old votes**: as the other collector, but for slots
that are late, where some of the votes may be gone. -/
structure Forgets (c d : Collector) : Prop where
  threshold_eq : c.threshold = d.threshold
  maxSlot_eq : c.maxSlot = d.maxSlot
  /-- The votes for a slot are equal, or the slot is late. -/
  votes_eq : ∀ slot, c.votesForSlot slot = d.votesForSlot slot ∨ d.Late slot
  voters : ∀ slot voterID, voterID ∈ c.votesForSlot slot →
    voterID ∈ d.votesForSlot slot
  count_le : ∀ slot, c.count slot ≤ d.count slot

/-- No vote is held for a slot with count zero. -/
theorem votesForSlot_of_count {c : Collector} {slot : UInt64} (h : c.count slot = 0) :
    c.votesForSlot slot = ∅ :=
  AList.ext (List.length_eq_zero_iff.mp h)

/-- The highest slot does not fall, so a late slot stays late. -/
theorem Late.put {c : Collector} {slot : UInt64} (h : c.Late slot) (v : Vote)
    (hv : v.validate = .ok ()) : (c.put v hv).Late slot := by
  refine h.trans_le ?_
  show _ ≤ (if v.slot > c.maxSlot then v.slot else c.maxSlot).toNat
  split
  · next hgt => exact (UInt64.lt_iff_toNat_lt.mp hgt).le
  · exact le_refl _

theorem votesForSlot_cleanup (c : Collector) (slot : UInt64) :
    (c.Late slot ∧ (c.afterCall .cleanup).votesForSlot slot = ∅) ∨
      (¬c.Late slot ∧ (c.afterCall .cleanup).votesForSlot slot = c.votesForSlot
        slot) := by
  have hleft : (c.afterCall .cleanup).votesForSlot slot = _ :=
    c.votesForSlot_cleanupOldVotes c.maxSlot defaultVoteRetentionSlots slot
  have hlate : (defaultVoteRetentionSlots ≤ c.maxSlot ∧
      slot < c.maxSlot - defaultVoteRetentionSlots) ↔ c.Late slot := by
    unfold Late
    by_cases henough : defaultVoteRetentionSlots ≤ c.maxSlot
    · have hle := UInt64.le_iff_toNat_le.mp henough
      rw [and_iff_right henough, UInt64.lt_iff_toNat_lt,
        UInt64.toNat_sub_of_le _ _ henough]
      omega
    · have hlt := UInt64.lt_iff_toNat_lt.mp (UInt64.not_le.mp henough)
      exact ⟨fun h => absurd h.1 henough, fun h => by omega⟩
  rw [hleft]
  split_ifs with hold
  · exact Or.inl ⟨hlate.mp hold, Eq.refl _⟩
  · exact Or.inr ⟨fun h => hold (hlate.mpr h), Eq.refl _⟩

theorem threshold_cleanup (c : Collector) :
    (c.afterCall .cleanup).threshold = c.threshold ∧
      (c.afterCall .cleanup).maxSlot = c.maxSlot := by
  show (cleanupOldVotes _ _ _).threshold = _ ∧ (cleanupOldVotes _ _ _).maxSlot = _
  unfold cleanupOldVotes
  split
  · exact ⟨Eq.refl _, Eq.refl _⟩
  · exact ⟨Eq.refl _, Eq.refl _⟩

namespace Forgets

variable {c d : Collector}

theorem rfl (c : Collector) : c.Forgets c where
  threshold_eq := Eq.refl _
  maxSlot_eq := Eq.refl _
  votes_eq _ := Or.inl (Eq.refl _)
  voters _ _ h := h
  count_le _ := le_refl _

/-- Putting the same new vote forgets no more. -/
theorem put (h : c.Forgets d) {v : Vote} (hv : v.validate = .ok ())
    (hnew : v.voterID ∉ d.votesForSlot v.slot) :
    (c.put v hv).Forgets (d.put v hv) where
  threshold_eq := h.threshold_eq
  maxSlot_eq := by
    show (if v.slot > c.maxSlot then v.slot else c.maxSlot) = _
    rw [h.maxSlot_eq]
    exact Eq.refl _
  votes_eq slot := by
    obtain heq | hlate := h.votes_eq slot
    · refine Or.inl ?_
      by_cases hslot : slot = v.slot
      · subst hslot
        rw [votesForSlot_put, votesForSlot_put, heq]
      · rw [votesForSlot_put_ne c v hv hslot, votesForSlot_put_ne d v hv hslot, heq]
    · exact Or.inr (hlate.put v hv)
  voters slot voterID hmem := by
    by_cases hslot : slot = v.slot
    · subst hslot
      rw [votesForSlot_put, AList.mem_insert] at hmem ⊢
      exact hmem.imp_right (h.voters _ _)
    · rw [votesForSlot_put_ne c v hv hslot] at hmem
      rw [votesForSlot_put_ne d v hv hslot]
      exact h.voters _ _ hmem
  count_le slot := by
    by_cases hslot : slot = v.slot
    · subst hslot
      rw [count_put hv hnew, count_put hv (fun hmem => hnew (h.voters _ _ hmem))]
      exact Nat.succ_le_succ (h.count_le _)
    · unfold count
      rw [votesForSlot_put_ne c v hv hslot, votesForSlot_put_ne d v hv hslot]
      exact h.count_le slot

/-- **An independent vote** finds the same voters, or does not need them. -/
theorem votes_of_independent (h : c.Forgets d) {v : Vote} (hv : d.Independent v) :
    c.votesForSlot v.slot = d.votesForSlot v.slot ∨
      (v.voterID ∉ d.votesForSlot v.slot ∧
        (d.count v.slot + 1 < d.threshold ∨ d.threshold ≤ 1)) := by
  obtain hrecent | hnone | hfirst := hv
  · exact Or.inl ((h.votes_eq v.slot).resolve_right hrecent)
  · have hnone' := Nat.le_zero.mp ((h.count_le v.slot).trans hnone.le)
    exact Or.inl ((votesForSlot_of_count hnone').trans
      (votesForSlot_of_count hnone).symm)
  · exact Or.inr hfirst

/-- **One vote**: the answers are equal, and no more is forgotten after it. -/
theorem addVote (h : c.Forgets d) {v : Vote}
    (hv : v.validate = .ok () → d.Independent v) :
    c.answer v = d.answer v ∧
      (c.afterCall (.addVote v)).Forgets (d.afterCall (.addVote v)) := by
  dsimp only [answer, afterCall]
  cases hvalid : v.validate with
  | error err =>
    rw [addVote_of_invalid hvalid, addVote_of_invalid hvalid]
    exact ⟨Eq.refl _, h⟩
  | ok _ =>
    have hvotes := h.votes_of_independent (hv hvalid)
    by_cases hdup : v.voterID ∈ d.votesForSlot v.slot
    · have hsame := hvotes.resolve_right (fun hfirst => hfirst.1 hdup)
      rw [addVote_of_mem hvalid hdup, addVote_of_mem hvalid (hsame.symm ▸ hdup)]
      exact ⟨Eq.refl _, h⟩
    · have hnew : v.voterID ∉ c.votesForSlot v.slot :=
        fun hmem => hdup (h.voters _ _ hmem)
      have hreach : decide (c.threshold ≤ (c.put v hvalid).count v.slot)
          = decide (d.threshold ≤ (d.put v hvalid).count v.slot) := by
        have hle := h.count_le v.slot
        rw [h.threshold_eq, count_put hvalid hnew, count_put hvalid hdup,
          decide_eq_decide]
        obtain hsame | ⟨-, hfew⟩ := hvotes
        · unfold count
          rw [hsame]
        · omega
      rw [addVote_of_notMem hvalid hdup, addVote_of_notMem hvalid hnew, hreach]
      exact ⟨Eq.refl _, h.put hvalid hdup⟩

/-- **One cleanup** forgets only votes for late slots. -/
theorem cleanup (h : c.Forgets d) : (c.afterCall .cleanup).Forgets d where
  threshold_eq := c.threshold_cleanup.1.trans h.threshold_eq
  maxSlot_eq := c.threshold_cleanup.2.trans h.maxSlot_eq
  votes_eq slot := by
    obtain ⟨hlate, -⟩ | ⟨-, hkept⟩ := c.votesForSlot_cleanup slot
    · refine Or.inr ?_
      unfold Late at hlate ⊢
      rwa [← h.maxSlot_eq]
    · rw [hkept]
      exact h.votes_eq slot
  voters slot voterID hmem := by
    obtain ⟨-, hempty⟩ | ⟨-, hkept⟩ := c.votesForSlot_cleanup slot
    · rw [hempty] at hmem
      exact absurd hmem (AList.notMem_empty _)
    · rw [hkept] at hmem
      exact h.voters slot voterID hmem
  count_le slot := by
    unfold count
    obtain ⟨-, hempty⟩ | ⟨-, hkept⟩ := c.votesForSlot_cleanup slot
    · rw [hempty]
      exact Nat.zero_le _
    · rw [hkept]
      exact h.count_le slot

/-- **A run of calls**: with cleanups and without, the answers are equal. -/
theorem answers_eq {calls : List Call} (h : c.Forgets d)
    (hind : d.AllIndependent (Call.votes calls)) :
    c.answers calls = d.answers ((Call.votes calls).map .addVote) := by
  induction calls generalizing c d with
  | nil => exact Eq.refl _
  | cons call calls ih =>
    cases call with
    | addVote v =>
      obtain ⟨hanswer, hafter⟩ := h.addVote hind.1
      show c.answer v :: (c.afterCall (.addVote v)).answers calls
        = d.answer v :: (d.afterCall (.addVote v)).answers
          ((Call.votes calls).map .addVote)
      rw [hanswer, ih hafter hind.2]
    | cleanup => exact ih h.cleanup hind

end Forgets

/-- **A vote that needs what a cleanup drops** is answered differently after
one. -/
theorem answer_cleanup_ne {c : Collector} {v : Vote} (hv : v.validate = .ok ())
    (hdep : ¬c.Independent v) : (c.afterCall .cleanup).answer v ≠ c.answer v := by
  unfold Independent at hdep
  simp only [not_or, not_not, not_and, not_lt, not_le] at hdep
  obtain ⟨hlate, -, hfirst⟩ := hdep
  have hempty : (c.afterCall .cleanup).votesForSlot v.slot = ∅ := by
    obtain ⟨-, hempty⟩ | ⟨hrecent, -⟩ := c.votesForSlot_cleanup v.slot
    · exact hempty
    · exact absurd hlate hrecent
  have hnew : v.voterID ∉ (c.afterCall .cleanup).votesForSlot v.slot := by
    rw [hempty]
    exact AList.notMem_empty _
  have hone : ((c.afterCall .cleanup).put v hv).count v.slot = 1 := by
    rw [count_put hv hnew]
    unfold count
    rw [hempty]
    exact Eq.refl _
  unfold answer
  rw [addVote_of_notMem hv hnew, hone, c.threshold_cleanup.1]
  by_cases hdup : v.voterID ∈ c.votesForSlot v.slot
  · rw [addVote_of_mem hv hdup]
    exact fun h => by cases h
  · -- the vote makes the threshold with the others, and not alone
    obtain ⟨hreach, hmore⟩ := hfirst hdup
    rw [addVote_of_notMem hv hdup, count_put hv hdup, decide_eq_true hreach,
      decide_eq_false (Nat.not_le.mpr hmore)]
    exact fun h => by cases h

/-- **Cleanups do not show in the answers, wherever they are placed, exactly
if every valid vote is independent** of the votes they drop. -/
theorem answers_cleanup_iff (c : Collector) (vs : List Vote) :
    (∀ calls, Call.votes calls = vs → c.answers calls = c.answers (vs.map .addVote)) ↔
      c.AllIndependent vs := by
  refine ⟨fun hsame => ?_, fun hind calls hcalls => ?_⟩
  · induction vs generalizing c with
    | nil => exact trivial
    | cons v vs ih =>
      have hvotes : ∀ vs : List Vote, Call.votes (vs.map .addVote) = vs := by
        intro vs
        unfold Call.votes
        rw [List.filterMap_map]
        exact List.filterMap_some
      refine ⟨fun hv => ?_, ih _ (fun calls hcalls => ?_)⟩
      · by_contra hdep
        -- a cleanup just before the vote
        have hbefore := hsame (.cleanup :: .addVote v :: vs.map .addVote)
          (congrArg (v :: ·) (hvotes vs))
        exact answer_cleanup_ne hv hdep (List.cons.inj hbefore).1
      · have hafter := hsame (.addVote v :: calls) (congrArg (v :: ·) hcalls)
        exact (List.cons.inj hafter).2
  · subst hcalls
    exact (Forgets.rfl c).answers_eq hind

end Collector

end

/-! ## Examples -/

section Sample

attribute [local instance] Sample.primitives

open Sample

/-- Six validators, of which one can be faulty: two sets of four share two. -/
theorem quorumsOverlap_six :
    1 < (({0, 1, 2, 3} : Finset (Fin 6)) ∩ {2, 3, 4, 5}).card :=
  (Collector.quorumsOverlap_iff (by decide)).mpr (Or.inr ⟨2, rfl⟩)
    {0, 1, 2, 3} {2, 3, 4, 5} (by decide) (by decide)

/-- Four validators, of which one can be faulty: two votes commit a slot,
and two pairs of voters need not share any. -/
theorem quorums_apart :
    (Collector.new 4).threshold ≤ ({0, 1} : Finset (Fin 4)).card ∧
      (Collector.new 4).threshold ≤ ({2, 3} : Finset (Fin 4)).card ∧
      ¬(4 - 1) / 3 < (({0, 1} : Finset (Fin 4)) ∩ {2, 3}).card := by
  decide

/-- Two votes for slot 1, a vote for slot 2000 between them and, after it, a
cleanup. -/
def lateVoteCalls : List Collector.Call :=
  [.addVote (voteOf 1 1 zeroHash), .addVote (voteOf 1 2000 zeroHash), .cleanup,
    .addVote (voteOf 2 1 zeroHash)]

/-- **A cleanup that shows**: with four validators the second vote for slot
1 commits it, but not if a vote for slot 2000 and a cleanup come before it. -/
theorem cleanup_shows :
    (Collector.new 4).answers ((Collector.Call.votes lateVoteCalls).map .addVote)
        = [.ok (false, false), .ok (false, false), .ok (true, true)] ∧
      (Collector.new 4).answers lateVoteCalls
        = [.ok (false, false), .ok (false, false), .ok (false, false)] := by
  decide +kernel

end Sample

end Mmn
