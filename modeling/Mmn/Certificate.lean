import Mmn.Sample
import Mmn.Steps

/-!
# What a commit is backed by

A block should be applied when enough validators voted for it. The collector
counts votes by slot: it looks neither at who votes nor at which block the
vote names, and the block applied is the one that happens to be stored at
the slot. A vote by anyone with a key counts, and it counts for a block it
does not name (`commit_without_certificate`).

What the count does guarantee is that the votes are valid and that the
voters are distinct. So if the votes held for a slot, when one is counted
for a slot with a block, are by validators and name that block, a commit is
backed by a certificate: as many validators as the threshold asks for voted
for the block applied (`commits_certified`).
-/

namespace Mmn

section

variable [Primitives]

/-- Is this one of the validators of the schedule? -/
def LeaderSchedule.IsMember (ls : LeaderSchedule) (voterID : String) : Prop :=
  voterID ∈ ls.entries.map LeaderScheduleEntry.leader

instance (ls : LeaderSchedule) (voterID : String) : Decidable (ls.IsMember voterID) :=
  inferInstanceAs (Decidable (_ ∈ _))

/-- **The validators whose votes name a hash**, among the votes held for a
slot. Every vote that is held is valid, and there is one for each voter. -/
def certifiers (ls : LeaderSchedule) {slot : UInt64} (votes : SlotVotes slot)
    (h : Hash) :
    List String :=
  votes.keys.filter (fun voterID =>
    decide (ls.IsMember voterID ∧ votes.hashOf voterID = some h))

/-- How many votes commit a slot. -/
def Config.threshold (cfg : Config) :
    ℕ := (Collector.new cfg.leaderSchedule.len).threshold

/-- **Every commit is backed by a certificate**: as many validators as the
threshold asks for voted for the block that was applied. -/
def CommitsCertified (cfg : Config) (history : List Event) : Prop :=
  ∀ before slot b votes, .committed before slot b votes ∈ history →
    cfg.threshold ≤ (certifiers cfg.leaderSchedule votes b.hash).length

/-- **The votes for a slot agree with its block**: a vote that is counted
for an open slot with a block is by a validator and names that block, and so
do the votes held for the slot. -/
def VotesAgree (cfg : Config) (n : Node) (i : Input) : Prop :=
  ∀ p ∈ n.nextVote cfg i, p.1.slot ∉ n.store.finalized →
    (cfg.leaderSchedule.IsMember p.1.voterID ∧ p.1.blockHash = p.2.hash) ∧
      ∀ voterID ∈ (n.collector.votesForSlot p.1.slot).keys,
        cfg.leaderSchedule.IsMember voterID ∧
          (n.collector.votesForSlot p.1.slot).hashOf voterID = some p.2.hash

instance (cfg : Config) (n : Node) (i : Input) : Decidable (VotesAgree cfg n i) :=
  inferInstanceAs (Decidable (∀ _ ∈ n.nextVote cfg i, _ → _ ∧ ∀ _ ∈ _, _))

theorem length_certifiers {ls : LeaderSchedule} {slot : UInt64}
    {votes : SlotVotes slot} {h : Hash}
    (hall : ∀ voterID ∈ votes.keys, ls.IsMember voterID ∧
      votes.hashOf voterID = some h) :
    (certifiers ls votes h).length = votes.entries.length := by
  unfold certifiers
  rw [List.filter_eq_self.mpr
    (fun voterID hmem => decide_eq_true (hall voterID hmem))]
  exact List.length_map _

/-- Votes that agree still do after one more that does. -/
theorem agree_put {ls : LeaderSchedule} {c : Collector} {v : Vote}
    (hv : v.validate = .ok ()) {h : Hash}
    (hnew : ls.IsMember v.voterID ∧ v.blockHash = h)
    (hall : ∀ voterID ∈ (c.votesForSlot v.slot).keys,
      ls.IsMember voterID ∧ (c.votesForSlot v.slot).hashOf voterID = some h) :
    ∀ voterID ∈ ((c.put v hv).votesForSlot v.slot).keys,
      ls.IsMember voterID ∧ ((c.put v hv).votesForSlot v.slot).hashOf
        voterID = some h := by
  rw [Collector.votesForSlot_put]
  intro voterID hmem
  unfold SlotVotes.hashOf
  by_cases hid : voterID = v.voterID
  · subst hid
    rw [AList.lookup_insert]
    exact ⟨hnew.1, congrArg some hnew.2⟩
  · rw [AList.lookup_insert_ne hid]
    obtain heq | hold := (AList.mem_insert _).mp (AList.mem_keys.mpr hmem)
    · exact absurd heq hid
    · exact hall voterID (AList.mem_keys.mp hold)

/-- The invariant of a core: the threshold is the schedule's, and the
commits so far are certified. -/
structure Certified (cfg : Config) (c : Core) : Prop where
  threshold : c.collector.threshold = cfg.threshold
  commits : CommitsCertified cfg c.history

theorem CommitsCertified.append {cfg : Config} {history : List Event} {e : Event}
    (h : CommitsCertified cfg history)
    (he : ∀ before slot b votes, e = .committed before slot b votes →
      cfg.threshold ≤ (certifiers cfg.leaderSchedule votes b.hash).length) :
    CommitsCertified cfg (history ++ [e]) := by
  intro before slot b votes hmem
  obtain hmem | hmem := List.mem_append.mp hmem
  · exact h before slot b votes hmem
  · exact he before slot b votes (List.mem_singleton.mp hmem).symm

theorem Certified.move {cfg : Config} {n : Node} {i : Input} {c c' : Core}
    (h : Certified cfg c) (hagree : VotesAgree cfg n i)
    (hmove : Core.Move cfg (Admits cfg n i) (Counts cfg n i) c c') :
    Certified cfg c' := by
  cases hmove with
  | addBlock => exact ⟨h.threshold, h.commits.append (fun _ _ _ _ => nofun)⟩
  | sync =>
    refine ⟨h.threshold, CommitsCertified.append ?_ (fun _ _ _ _ => nofun)⟩
    exact h.commits.append (fun _ _ _ _ => nofun)
  | cast => exact ⟨h.threshold, h.commits.append (fun _ _ _ _ => nofun)⟩
  | count => exact ⟨h.threshold, h.commits⟩
  | commit hcount hv _ hthreshold hb _ happlied =>
    refine ⟨h.threshold, h.commits.append ?_⟩
    intro before slot b' votes heq
    cases heq
    obtain ⟨hnext, hcollector, hfinalized⟩ := hcount.nextVote hb
    rw [hfinalized] at happlied
    obtain ⟨hnew, hall⟩ := hagree _ hnext happlied
    rw [← hcollector] at hall
    rw [length_certifiers (agree_put hv hnew hall), ← h.threshold]
    exact hthreshold
  | cleanup =>
    refine ⟨?_, h.commits⟩
    rw [← h.threshold]
    unfold Collector.periodicCleanup Collector.cleanupOldVotes
    dsimp only
    split
    · split <;> rfl
    · rfl

/-- **Commit certificates.** In every run in which the votes counted for a
slot with a block agree with it, every commit is backed by votes of as many
validators as the threshold asks for, all for the block applied. -/
theorem commits_certified (cfg : Config) (n : Node)
    (hrun : NodeRun cfg (VotesAgree cfg) n) :
    CommitsCertified cfg n.history := by
  have hinv := hrun.invariant (J := fun _ => True) (I := Certified cfg)
    (fun _ => trivial)
    (fun _ _ _ _ _ _ => trivial) ?_
      (fun n i c c' _ hagree hc hmove => hc.move hagree hmove)
  · exact hinv.2.commits
  · intro alloc now s _
    exact ⟨rfl, fun _ _ _ _ hmem => by cases hmem⟩

end

section Sample

attribute [local instance] Sample.primitives

/-- The block that is voted for. -/
def Sample.votedBlock : BroadcastedBlock := Sample.blockWith 1 1 0 []

/-- Was a block committed, with so many certifiers? -/
def Sample.commitsWith (cfg : Config) (p : ℕ → Bool) (n : Node) : Bool :=
  n.history.any fun e => match e with
    | .committed _ _ b votes => p (certifiers cfg.leaderSchedule votes b.hash).length
    | _ => false

/-- A run with a commit: a validator votes for the block it got. -/
theorem commits_certified_own_vote :
    ∃ n, NodeRun Sample.alone (VotesAgree Sample.alone) n ∧
      Sample.commitsWith Sample.alone (fun _ => true) n = true ∧
      CommitsCertified Sample.alone n.history := by
  obtain ⟨n, hrun, htest⟩ := exists_nodeRun Sample.alone (VotesAgree Sample.alone)
    (Sample.commitsWith Sample.alone fun _ => true) [] 0 [.block Sample.votedBlock]
    (by decide +kernel)
  exact ⟨n, hrun, htest, commits_certified Sample.alone n hrun⟩

/-- A node that only listens. -/
def Sample.listener : Config :=
  Sample.config Sample.aloneSchedule 1 true Sample.key_one

/-- **A commit without a certificate.** A listener has the leader's block.
One vote, by a key that is no validator's and for another hash, commits it. -/
theorem commit_without_certificate :
    ∃ n, NodeRun Sample.listener Machine.Always n ∧
      ¬ CommitsCertified Sample.listener n.history := by
  obtain ⟨n, hrun, htest⟩ := exists_nodeRun Sample.listener Machine.Always
    (Sample.commitsWith Sample.listener fun k =>
      decide (k < Sample.listener.threshold)) [] 0
    [.block Sample.votedBlock,
      .vote (Sample.voteOf 7 1 (Sample.blockWith 1 1 1 []).hash)]
    (by decide +kernel)
  refine ⟨n, hrun, fun hcertified => ?_⟩
  obtain ⟨e, he, hmatch⟩ := List.any_eq_true.mp htest
  split at hmatch
  · next before slot b votes =>
    exact absurd (hcertified before slot b votes he)
      (Nat.not_le.mpr (of_decide_eq_true hmatch))
  · cases hmatch

end Sample

end Mmn
