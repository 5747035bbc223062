import Mathlib.Data.Finset.Card
import Mathlib.Data.Finset.Dedup

/-!
# A decision that waits for a proposal and for votes

A party counts votes, each voter's once, and it decides when it counts a
vote while it has the proposal and the count reaches the quorum. Votes may
come before the proposal; they are counted, but nothing is decided on them.
A party that votes itself counts its own vote when the proposal arrives, one
that does not only keeps the proposal.

What such a party has decided after all messages depends on their order in
one case only (`decided_deliver_iff`): a party without a vote of its own
does not decide when every voter it will hear of was counted before the
proposal.
-/

/-- **The state of a decision.** -/
@[ext] structure Tally (V : Type) where
  proposed : Bool
  voters : Finset V
  decided : Bool

namespace Tally

/-- A message. -/
inductive Message (V : Type) where
  | proposal
  | vote (v : V)

/-- The same message with other voters. -/
def Message.map {V W : Type} (f : V → W) : Message V → Message W
  | .proposal => .proposal
  | .vote v => .vote (f v)

variable {V : Type} [DecidableEq V]

/-- Count a vote, and decide if that completes a quorum. -/
def count (quorum : ℕ) (t : Tally V) (v : V) : Tally V :=
  if v ∈ t.voters then t
  else { t with
    voters := insert v t.voters
    decided := t.decided ||
      (t.proposed && decide (quorum ≤ (insert v t.voters).card)) }

/-- **One message.** `own` is the party as a voter, if it votes. -/
def deliver (quorum : ℕ) (own : Option V) (t : Tally V) : Message V → Tally V
  | .vote v => t.count quorum v
  | .proposal =>
    if t.proposed then t
    else match own with
      | none => { t with proposed := true }
      | some v => { t with proposed := true }.count quorum v

variable {quorum : ℕ}

theorem count_of_mem {t : Tally V} {v : V} (h : v ∈ t.voters) :
    t.count quorum v = t :=
  if_pos h

theorem count_of_notMem {t : Tally V} {v : V} (h : v ∉ t.voters) :
    t.count quorum v = { t with
      voters := insert v t.voters
      decided := t.decided ||
        (t.proposed && decide (quorum ≤ (insert v t.voters).card)) } :=
  if_neg h

theorem foldl_count_of_not_proposed {t : Tally V} (h : t.proposed = false)
    (vs : List V) :
    vs.foldl (count quorum) t = { t with voters := t.voters ∪ vs.toFinset } := by
  induction vs generalizing t with
  | nil => simp
  | cons v vs ih =>
    have hcount : t.count quorum v = { t with voters := insert v t.voters } := by
      unfold count
      split
      · next hv => rw [Finset.insert_eq_of_mem hv]
      · simp [h]
    rw [List.foldl_cons, hcount, ih (t := { t with voters := insert v t.voters }) h,
      List.toFinset_cons, Finset.insert_union, Finset.union_insert]

/-- Of a quorum, either enough were counted already or somebody is new. -/
theorem le_card_or_exists_notMem {s : Finset V} {vs : List V}
    (h : quorum ≤ (s ∪ vs.toFinset).card) : quorum ≤ s.card ∨ ∃ w ∈ vs, w ∉ s := by
  by_cases hnew : ∃ w ∈ vs, w ∉ s
  · exact Or.inr hnew
  · have hsub : vs.toFinset ⊆ s := by
      intro w hw
      by_contra hnot
      exact hnew ⟨w, List.mem_toFinset.mp hw, hnot⟩
    rw [Finset.union_eq_left.mpr hsub] at h
    exact Or.inl h

/-- **After the proposal, a quorum decides as soon as a vote is new.** The
last new vote finds all voters counted. -/
theorem decided_foldl_count {t : Tally V} (h : t.proposed = true) (vs : List V) :
    (vs.foldl (count quorum) t).decided = true ↔ t.decided = true ∨
      (∃ v ∈ vs, v ∉ t.voters) ∧ quorum ≤ (t.voters ∪ vs.toFinset).card := by
  induction vs generalizing t with
  | nil => simp
  | cons v vs ih =>
    rw [List.foldl_cons]
    by_cases hv : v ∈ t.voters
    · rw [count_of_mem hv, ih h, List.toFinset_cons, Finset.union_insert,
        Finset.insert_eq_of_mem (Finset.mem_union_left _ hv)]
      simp [hv]
    · have hcount : t.count quorum v = { t with
          voters := insert v t.voters
          decided := t.decided || decide (quorum ≤ (insert v t.voters).card) } := by
        rw [count_of_notMem hv, h, Bool.true_and]
      rw [ih (show (t.count quorum v).proposed = true by rw [hcount]; exact h),
        hcount, List.toFinset_cons, Finset.union_insert, ← Finset.insert_union]
      simp only [Bool.or_eq_true, decide_eq_true_eq]
      refine ⟨?_, ?_⟩
      · rintro ((hdec | hle) | ⟨-, hle⟩)
        · exact Or.inl hdec
        · refine Or.inr ⟨⟨v, List.mem_cons_self, hv⟩,
            hle.trans (Finset.card_le_card ?_)⟩
          exact Finset.subset_union_left
        · exact Or.inr ⟨⟨v, List.mem_cons_self, hv⟩, hle⟩
      · rintro (hdec | ⟨-, hle⟩)
        · exact Or.inl (Or.inl hdec)
        · -- either `v` was the last one, or a later vote is new as well
          rcases le_card_or_exists_notMem hle with hlast | hnew
          · exact Or.inl (Or.inr hlast)
          · exact Or.inr ⟨hnew, hle⟩

theorem foldl_deliver_vote (own : Option V) (vs : List V) (t : Tally V) :
    (vs.map Message.vote).foldl (deliver quorum own) t
      = vs.foldl (count quorum) t := by
  rw [List.foldl_map]
  rfl

/-- **What is decided once a proposal and a quorum of votes are delivered**,
those in `before` ahead of the proposal and those in `after` behind it: the
party decides unless it has no vote of its own and hears of nobody new after
the proposal. -/
theorem decided_deliver_iff {t : Tally V} {own : Option V} {before after : List V}
    (hproposed : t.proposed = false) (hdecided : t.decided = false)
    (hnew : ∀ v ∈ before ++ after, v ∉ t.voters)
    (hown : ∀ v ∈ own, v ∉ t.voters ∧ v ∉ before)
    (hquorum : quorum ≤ (before ++ after).toFinset.card) :
    ((before.map Message.vote ++ .proposal :: after.map Message.vote).foldl
        (deliver quorum own) t).decided = true ↔
      own ≠ none ∨ ∃ v ∈ after, v ∉ before := by
  have hall : quorum ≤ (t.voters ∪ before.toFinset ∪ after.toFinset).card := by
    refine hquorum.trans (Finset.card_le_card ?_)
    rw [List.toFinset_append, Finset.union_assoc]
    exact Finset.subset_union_right
  rw [List.foldl_append, List.foldl_cons, foldl_deliver_vote, foldl_deliver_vote,
    foldl_count_of_not_proposed hproposed]
  cases own with
  | none =>
    have hdeliver : deliver quorum none
        { t with voters := t.voters ∪ before.toFinset } .proposal
        = { t with proposed := true, voters := t.voters ∪ before.toFinset } := by
      simp [deliver, hproposed]
    rw [hdeliver, decided_foldl_count rfl]
    simp only [hdecided, Bool.false_eq_true, false_or, ne_eq, not_true_eq_false,
      Finset.mem_union, List.mem_toFinset, not_or, and_iff_left hall]
    refine ⟨?_, ?_⟩
    · rintro ⟨v, hv, -, hbefore⟩
      exact ⟨v, hv, hbefore⟩
    · rintro ⟨v, hv, hbefore⟩
      exact ⟨v, hv, hnew v (List.mem_append_right before hv), hbefore⟩
  | some o =>
    obtain ⟨hoV, hob⟩ := hown o rfl
    have hdeliver : deliver quorum (some o)
        { t with voters := t.voters ∪ before.toFinset } .proposal
        = { proposed := true
            voters := insert o (t.voters ∪ before.toFinset)
            decided :=
              decide (quorum ≤ (insert o (t.voters ∪ before.toFinset)).card) } := by
      simp [deliver, count, hproposed, hdecided, hoV, hob]
    rw [hdeliver, decided_foldl_count rfl]
    simp only [decide_eq_true_eq, ne_eq, reduceCtorEq, not_false_eq_true,
      true_or, iff_true]
    have hmore : quorum
        ≤ (insert o (t.voters ∪ before.toFinset) ∪ after.toFinset).card := by
      refine hall.trans (Finset.card_le_card ?_)
      exact Finset.union_subset_union_left (Finset.subset_insert o _)
    rcases le_card_or_exists_notMem hmore with henough | hlast
    · exact Or.inl henough
    · exact Or.inr ⟨hlast, hmore⟩

end Tally
