import Mathlib.Data.Fintype.Basic
import Mathlib.Logic.Function.Basic
import Mmn.Quorum
import Mmn.Sample
import Mmn.Steps

/-!
# Agreement between validators

Validators exchange blocks and votes, some of them are faulty and do as they
like, and messages arrive in any order. Agreement is that two honest
validators never commit blocks with different hashes at the same slot.

An honest validator votes only for the block it has stored, and it never
replaces a block, so all its votes for a slot name one hash. What is missing
is that a commit rests on votes for the block committed: the collector
counts all votes for a slot, whatever they name, and the threshold – twice a
third of the validators, rounded down – is too low for two sets of that size
to overlap in an honest validator. A leader that sends out two blocks for
its slot splits four validators (`disagreement_of_two_blocks`).

Where the held votes that name the stored block's hash are, at every commit,
more than half of the validators and the faulty ones together, agreement
holds (`agreement_of_quorums`).
-/

namespace Mmn

section

variable [Primitives]

/-! ## The network -/

/-- **The validators of a network**: one configuration each, with one
schedule and different keys. -/
structure Validators (N : ℕ) where
  cfg : Fin N → Config
  leaderSchedule : LeaderSchedule
  leaderSchedule_eq : ∀ v, (cfg v).leaderSchedule = leaderSchedule
  len_eq : leaderSchedule.len = N
  distinct : Function.Injective (fun v => (cfg v).selfPubKey)
  voting : ∀ v, (cfg v).isListener = false

/-- Does the input come through the live topics or the node's own loops? -/
def Input.live : Input → Bool
  | .emptyBlocks _ => false
  | .syncResponse _ _ => false
  | _ => true

/-- The vote of a vote message. -/
def Input.vote? : Input → Option Vote
  | .vote v => some v
  | _ => none

/-- Does the event sign a vote for a hash at a slot? -/
def Event.names (slot : UInt64) (h : Hash) : Event → Bool
  | .voted v => v.slot = slot && v.blockHash = h
  | _ => false

/-- A vote for the hash at the slot was signed. -/
def VotedFor (history : List Event) (slot : UInt64) (h : Hash) : Prop :=
  ∃ e ∈ history, e.names slot h = true

instance (history : List Event) (slot : UInt64) (h : Hash) :
    Decidable (VotedFor history slot h) :=
  inferInstanceAs (Decidable (∃ _ ∈ _, _))

namespace Validators

variable {N : ℕ}

/-- The public key of a validator. -/
def key (net : Validators N) (v : Fin N) : String := (net.cfg v).selfPubKey

/-- One input at one validator. -/
def step (net : Validators N) (st : Fin N → Node) (d : Fin N × Input) :
    Option (Fin N → Node) :=
  ((st d.1).step (net.cfg d.1) d.2).map (Function.update st d.1)

/-- **What can be delivered, where the validators of `F` are faulty**: any
block, and any vote except a vote that an honest validator is named in and
did not sign. -/
def Delivers (net : Validators N) (F : Finset (Fin N)) (st : Fin N → Node)
    (d : Fin N × Input) : Prop :=
  d.1 ∉ F ∧ d.2.live = true ∧
    ∀ v ∈ d.2.vote?, v.validate = .ok () → ∀ w ∉ F, v.voterID = net.key w →
      VotedFor (st w).history v.slot v.blockHash

instance (net : Validators N) (F : Finset (Fin N)) (st : Fin N → Node)
    (d : Fin N × Input) : Decidable (net.Delivers F st d) :=
  inferInstanceAs (Decidable (_ ∧ _ ∧ ∀ v ∈ d.2.vote?, v.validate = .ok () →
    ∀ w ∉ F, v.voterID = net.key w → VotedFor (st w).history v.slot v.blockHash))

/-- **The runs of the network** whose steps all meet a condition. Each
validator starts on a genesis database. -/
def Run (net : Validators N) (C : (Fin N → Node) → Fin N × Input → Prop)
    (st : Fin N → Node) : Prop :=
  ∃ start : Fin N → Node,
    (∀ v, ∃ alloc now s, initializeBlockchain alloc now = .ok s ∧
      start v = Node.new (net.cfg v) s.reopen) ∧
    Machine.Run net.step C start st

end Validators

/-- The node has committed a block at a slot. -/
def Commits (n : Node) (slot : UInt64) (b : Block) : Prop :=
  ∃ before votes, Event.committed before slot b votes ∈ n.history

/-- **Agreement**: honest validators commit blocks of one hash at a slot. -/
def Agreement {N : ℕ} (F : Finset (Fin N)) (st : Fin N → Node) : Prop :=
  ∀ v ∉ F, ∀ w ∉ F, ∀ slot b b', Commits (st v) slot b → Commits (st w) slot b' →
    b.hash = b'.hash

/-! ## The condition -/

namespace Validators

variable {N : ℕ}

/-- The validators whose votes name a hash. -/
def supporters (net : Validators N) {slot : UInt64} (votes : SlotVotes slot)
    (h : Hash) :
    Finset (Fin N) :=
  Finset.univ.filter (fun v => votes.hashOf (net.key v) = some h)

/-- A set of validators any two of which overlap in an honest one. -/
def IsQuorum (A : Finset (Fin N)) : Prop := N + (N - 1) / 3 < 2 * A.card

instance (A : Finset (Fin N)) : Decidable (IsQuorum A) :=
  inferInstanceAs (Decidable (_ < _))

/-- **Commits rest on quorums**: when the next vote reaches the threshold at
a slot whose block is not applied yet, the validators whose votes name the
hash of that block are a quorum. -/
def QuorumCommits (net : Validators N) (st : Fin N → Node)
    (d : Fin N × Input) : Prop :=
  ∀ p ∈ (st d.1).nextVote (net.cfg d.1) d.2,
    p.2.invalidPoH = false → p.1.slot ∉ (st d.1).store.finalized →
    ∀ hv : p.1.validate = .ok (),
      (st d.1).collector.threshold ≤ ((st d.1).collector.put p.1 hv).count p.1.slot →
      IsQuorum (net.supporters (((st d.1).collector.put p.1 hv).votesForSlot p.1.slot)
        p.2.hash)

instance (net : Validators N) (st : Fin N → Node) (d : Fin N × Input) :
    Decidable (net.QuorumCommits st d) :=
  inferInstanceAs (Decidable (∀ p ∈ (st d.1).nextVote (net.cfg d.1) d.2,
    p.2.invalidPoH = false → p.1.slot ∉ (st d.1).store.finalized →
    ∀ hv : p.1.validate = .ok (), _ → IsQuorum (net.supporters
      (((st d.1).collector.put p.1 hv).votesForSlot p.1.slot) p.2.hash)))

end Validators

/-! ## What an honest validator relies on -/

theorem VotedFor.mono {history history' : List Event} {slot : UInt64} {h : Hash}
    (hvoted : VotedFor history slot h) (hgrow : history <+: history') :
    VotedFor history' slot h := by
  obtain ⟨e, he, hnames⟩ := hvoted
  exact ⟨e, hgrow.subset he, hnames⟩

theorem votedFor_append {history : List Event} {e : Event} {slot : UInt64}
    {h : Hash} :
    VotedFor (history ++ [e]) slot h ↔ VotedFor history slot h ∨
      e.names slot h = true := by
  unfold VotedFor
  simp only [List.mem_append, List.mem_singleton, or_and_right, exists_or,
    exists_eq_left]

variable {N : ℕ}

/-- **What an honest validator relies on**, where `H` are the histories of
all: its own votes name the blocks it stores, the votes it holds of honest
validators were signed by them, and behind each block it committed there is
a quorum whose honest members voted for it. -/
structure Faithful (net : Validators N) (F : Finset (Fin N)) (H : Fin N → List Event)
    (c : Core) : Prop where
  voted : ∀ slot h, VotedFor c.history slot h →
    ∃ b, c.store.block slot = some b ∧ b.hash = h
  held : ∀ w ∉ F, ∀ slot h,
    (c.collector.votesForSlot slot).hashOf (net.key w) = some h →
    VotedFor (H w) slot h
  commits : ∀ before slot b votes, Event.committed before slot b votes ∈ c.history →
    ∃ A : Finset (Fin N), Validators.IsQuorum A ∧
      ∀ w ∈ A, w ∉ F → VotedFor (H w) slot b.hash

namespace Faithful

variable {net : Validators N} {F : Finset (Fin N)} {H H' : Fin N → List Event}
  {c c' : Core}

theorem mono (h : Faithful net F H c) (hH : ∀ w, H w <+: H' w) :
    Faithful net F H' c where
  voted := h.voted
  held w hw slot k hheld := (h.held w hw slot k hheld).mono (hH w)
  commits before slot b votes hmem := by
    obtain ⟨A, hA, hvoted⟩ := h.commits before slot b votes hmem
    exact ⟨A, hA, fun w hw hwF => (hvoted w hw hwF).mono (hH w)⟩

/-- The validator's own votes name its blocks after a move. -/
theorem voted_of_move {cfg : Config} {A : Core → BroadcastedBlock → Prop}
    {V : Core → Vote → Prop} (h : Faithful net F H c) (hmove : Core.Move cfg A V c c')
    {slot : UInt64} {k : Hash} (hvoted : VotedFor c'.history slot k) :
    ∃ b, c'.store.block slot = some b ∧ b.hash = k := by
  -- an older vote names a block that is still there
  have hold : VotedFor c.history slot k → ∃ b, c'.store.block slot = some b ∧
      b.hash = k := by
    intro hvoted
    obtain ⟨b, hb, hk⟩ := h.voted slot k hvoted
    obtain ⟨status, hb'⟩ := hmove.block_of_block hb
    exact ⟨_, hb', hk⟩
  cases hmove with
  | addBlock =>
    obtain hvoted | hnames := votedFor_append.mp hvoted
    · exact hold hvoted
    · cases hnames
  | sync =>
    obtain hvoted | hnames := votedFor_append.mp hvoted
    · obtain hvoted | hnames := votedFor_append.mp hvoted
      · exact hold hvoted
      · cases hnames
    · cases hnames
  | cast hb =>
    obtain hvoted | hnames := votedFor_append.mp hvoted
    · exact hold hvoted
    · simp only [Event.names, Bool.and_eq_true, decide_eq_true_eq] at hnames
      obtain ⟨rfl, rfl⟩ := hnames
      exact ⟨_, hb, rfl⟩
  | count => exact hold hvoted
  | commit =>
    obtain hvoted | hnames := votedFor_append.mp hvoted
    · exact hold hvoted
    · cases hnames
  | cleanup => exact hold hvoted

/-- **A move of an honest validator keeps what it relies on**, if the votes
it counts of honest validators were signed, and its commits rest on quorums. -/
theorem move {cfg : Config} {A : Core → BroadcastedBlock → Prop}
    {V : Core → Vote → Prop} (h : Faithful net F H c) (hH : ∀ w, H w <+: H' w)
    (hmove : Core.Move cfg A V c c')
    (hV : ∀ v, V c v → v.validate = .ok () → ∀ w ∉ F, v.voterID = net.key w →
      VotedFor (H w) v.slot v.blockHash)
    (hquorum : ∀ v b, V c v → c.store.block v.slot = some b → b.invalidPoH = false →
      v.slot ∉ c.store.finalized → ∀ hv : v.validate = .ok (),
        c.collector.threshold ≤ (c.collector.put v hv).count v.slot →
        Validators.IsQuorum
    (net.supporters ((c.collector.put v hv).votesForSlot v.slot)
          b.hash)) :
    Faithful net F H' c' := by
  have hmono := h.mono hH
  have hvoted := fun (slot : UInt64) (k : Hash) (hk : VotedFor c'.history slot k) =>
    voted_of_move h hmove hk
  have hput : ∀ v (hv : v.validate = .ok ()), V c v → ∀ w ∉ F, ∀ slot k,
      ((c.collector.put v hv).votesForSlot slot).hashOf (net.key w) = some k →
      VotedFor (H w) slot k := by
    intro v hv hcount w hw slot k hheld
    obtain ⟨rfl, hid, rfl⟩ | hheld := Collector.hashOf_put hheld
    · exact hV v hcount hv w hw hid.symm
    · exact h.held w hw slot k hheld
  have hstored : ∀ {s b' before slot b votes},
      Event.committed before slot b votes ∈ c.history ++ [.stored s b'] →
      Event.committed before slot b votes ∈ c.history := by
    intro s b' before slot b votes hmem
    obtain hmem | hmem := List.mem_append.mp hmem
    · exact hmem
    · cases List.mem_singleton.mp hmem
  cases hmove with
  | addBlock =>
    exact ⟨hvoted, hmono.held, fun before slot b votes hmem =>
      hmono.commits before slot b votes (hstored hmem)⟩
  | sync =>
    refine ⟨hvoted, hmono.held, fun before slot b votes hmem => ?_⟩
    obtain hmem | hmem := List.mem_append.mp hmem
    · exact hmono.commits before slot b votes (hstored hmem)
    · cases List.mem_singleton.mp hmem
  | cast =>
    refine ⟨hvoted, hmono.held, fun before slot b votes hmem => ?_⟩
    obtain hmem | hmem := List.mem_append.mp hmem
    · exact hmono.commits before slot b votes hmem
    · cases List.mem_singleton.mp hmem
  | count hcount hv =>
    exact ⟨hvoted, fun w hw slot k hheld =>
      (hput _ hv hcount w hw slot k hheld).mono (hH w), hmono.commits⟩
  | commit hcount hv _ hthreshold hb hpoh happlied =>
    refine ⟨hvoted, fun w hw slot k hheld =>
      (hput _ hv hcount w hw slot k hheld).mono (hH w),
      fun before slot b votes hmem => ?_⟩
    obtain hmem | hmem := List.mem_append.mp hmem
    · exact hmono.commits before slot b votes hmem
    · cases List.mem_singleton.mp hmem
      refine ⟨_, hquorum _ _ hcount hb hpoh happlied hv hthreshold, fun w hw hwF =>
        ?_⟩
      have hheld := (Finset.mem_filter.mp hw).2
      exact (hput _ hv hcount w hwF _ _ hheld).mono (hH w)
  | cleanup =>
    exact ⟨hvoted, fun w hw slot k hheld =>
      hmono.held w hw slot k (Collector.hashOf_periodicCleanup hheld), hmono.commits⟩

end Faithful

/-! ## Agreement -/

/-- The histories of the validators. -/
def histories (st : Fin N → Node) (w : Fin N) : List Event := (st w).history

/-- **Every honest validator can rely on the network.** -/
def Reliable (net : Validators N) (F : Finset (Fin N)) (st : Fin N → Node) : Prop :=
  ∀ v ∉ F, Faithful net F (histories st) (st v).toCore

theorem update_mono (H : Fin N → List Event) (u : Fin N) {l l' : List Event}
    (h : l <+: l') (w : Fin N) :
    Function.update H u l w <+: Function.update H u l' w := by
  by_cases hw : w = u
  · subst hw
    rw [Function.update_self, Function.update_self]
    exact h
  · rw [Function.update_of_ne hw, Function.update_of_ne hw]

/-- **The votes a step counts were signed**: those received by the honest
validator they name, and its own by the validator itself. -/
theorem votedFor_of_counts {net : Validators N} {F : Finset (Fin N)}
    {st : Fin N → Node} {u : Fin N} {i : Input} (hdelivers : net.Delivers F st (u, i))
    {c : Core} {v : Vote} (hcount : Counts (net.cfg u) (st u) i c v)
    (hv : v.validate = .ok ()) {w : Fin N} (hw : w ∉ F)
    (hid : v.voterID = net.key w) :
    VotedFor (Function.update (histories st) u c.history w) v.slot v.blockHash := by
  cases hcount with
  | received =>
    have hvoted := hdelivers.2.2 v rfl hv w hw hid
    by_cases hwu : w = u
    · subst hwu
      rwa [Function.update_self]
    · rwa [Function.update_of_ne hwu]
  | live _ _ _ _ _ hcast =>
    obtain rfl := net.distinct hid
    rw [Function.update_self]
    exact ⟨_, hcast, by simp [Event.names, ownVote, Vote.sign]⟩
  | own _ _ _ _ _ hcast =>
    obtain rfl := net.distinct hid
    rw [Function.update_self]
    exact ⟨_, hcast, by simp [Event.names, ownVote, Vote.sign]⟩

/-- **Along the moves of a step** the validator relies on the others and on
its own history so far. -/
theorem Reliable.moves {net : Validators N} {F : Finset (Fin N)} {st : Fin N → Node}
    {u : Fin N} {i : Input} (h : Reliable net F st)
    (hdelivers : net.Delivers F st (u, i)) (hquorum : net.QuorumCommits st (u, i))
    {c : Core} (hmoves : Core.Moves (net.cfg u) (Admits (net.cfg u) (st u) i)
      (Counts (net.cfg u) (st u) i) (st u).toCore c) :
    (st u).history <+: c.history ∧
      Faithful net F (Function.update (histories st) u c.history) c := by
  induction hmoves with
  | refl =>
    refine ⟨List.prefix_rfl, ?_⟩
    rw [show Function.update (histories st) u (st u).history = histories st from
      Function.update_eq_self u _]
    exact h u hdelivers.1
  | tail _ hmove ih =>
    obtain ⟨hgrow, hfaithful⟩ := ih
    refine ⟨hgrow.trans hmove.history_prefix,
      hfaithful.move (update_mono _ u hmove.history_prefix) hmove ?_ ?_⟩
    · intro v hcount hv w hw hid
      exact votedFor_of_counts hdelivers hcount hv hw hid
    · intro v b hcount hb hpoh happlied hv hthreshold
      obtain ⟨hnext, hcollector, hfinalized⟩ := hcount.nextVote hb
      rw [hcollector] at hthreshold ⊢
      rw [hfinalized] at happlied
      exact hquorum (v, b) hnext hpoh happlied hv hthreshold

/-- A step of one honest validator keeps the network reliable. -/
theorem Reliable.step {net : Validators N} {F : Finset (Fin N)}
    {st st' : Fin N → Node} {d : Fin N × Input} (h : Reliable net F st)
    (hdelivers : net.Delivers F st d) (hquorum : net.QuorumCommits st d)
    (hstep : net.step st d = some st') :
    Reliable net F st' := by
  obtain ⟨u, i⟩ := d
  obtain ⟨n', hn', rfl⟩ := Option.map_eq_some_iff.mp hstep
  obtain ⟨hgrow, hfaithful⟩ := h.moves hdelivers hquorum (Node.moves_of_step hn')
  have hhistories : histories (Function.update st u n')
      = Function.update (histories st) u n'.history := by
    funext w
    by_cases hw : w = u
    · subst hw
      simp [histories]
    · simp [histories, hw]
  intro v hv
  rw [hhistories]
  by_cases hvu : v = u
  · subst hvu
    rw [Function.update_self]
    exact hfaithful
  · rw [Function.update_of_ne hvu]
    refine (h v hv).mono fun w => ?_
    have hmono := update_mono (histories st) u hgrow w
    rwa [show Function.update (histories st) u (st u).history = histories st from
      Function.update_eq_self u _] at hmono

/-- A network that can be relied on agrees: two quorums overlap in an honest
validator, whose votes for a slot name one hash. -/
theorem Reliable.agreement {net : Validators N} {F : Finset (Fin N)}
    {st : Fin N → Node} (h : Reliable net F st) (hF : F.card ≤ (N - 1) / 3) :
    Agreement F st := by
  rintro v hv w hw slot b b' ⟨before, votes, hb⟩ ⟨before', votes', hb'⟩
  obtain ⟨A, hA, hAvoted⟩ := (h v hv).commits before slot b votes hb
  obtain ⟨B, hB, hBvoted⟩ := (h w hw).commits before' slot b' votes' hb'
  have hcard : Fintype.card (Fin N) + F.card < A.card + B.card := by
    unfold Validators.IsQuorum at hA hB
    rw [Fintype.card_fin]
    omega
  obtain ⟨x, hxA, hxB, hxF⟩ := Quorum.exists_correct_mem_inter hcard
  obtain ⟨c, hc, hcb⟩ := (h x hxF).voted slot b.hash (hAvoted x hxA hxF)
  obtain ⟨c', hc', hcb'⟩ := (h x hxF).voted slot b'.hash (hBvoted x hxB hxF)
  rw [← hcb, ← hcb', Option.some.inj (hc.symm.trans hc')]

/-- **Agreement.** With at most a third of the validators faulty, in every
run whose commits rest on quorums, honest validators agree. -/
theorem agreement_of_quorums (net : Validators N) (F : Finset (Fin N))
    (hF : F.card ≤ (N - 1) / 3) (st : Fin N → Node)
    (hrun : net.Run (fun st d => net.Delivers F st d ∧ net.QuorumCommits st d) st) :
    Agreement F st := by
  obtain ⟨start, hstart, hrun⟩ := hrun
  have hinv : Reliable net F st := by
    refine hrun.invariant (I := Reliable net F) ?_ ?_
    · intro v _
      obtain ⟨alloc, now, s, -, hnew⟩ := hstart v
      rw [hnew]
      exact ⟨fun _ _ ⟨_, he, _⟩ => (by cases he), fun _ _ _ _ hheld =>
        (by cases hheld), fun _ _ _ _ hmem => (by cases hmem)⟩
    · intro st d st' h hC hstep
      exact h.step hC.1 hC.2 hstep
  exact hinv.agreement hF

end

section Sample

attribute [local instance] Sample.primitives

namespace Sample

theorem key_fin_four : ∀ v : Fin 4,
    getPublicKeyFromLeaderID (keyID (v + 1)) = .ok (keyBytes (v + 1)) := by
  decide +kernel

/-- Four validators. -/
def four : Validators 4 where
  cfg v := config fourSchedule (v + 1) false (key_fin_four v)
  leaderSchedule := fourSchedule
  leaderSchedule_eq _ := rfl
  len_eq := rfl
  distinct := by
    have hinj : ∀ v w : Fin 4, keyID (v + 1) = keyID (w + 1) → v = w := by
      decide +kernel
    exact fun v w h => hinj v w h
  voting _ := rfl

/-- The hash of the block a node committed at a slot. -/
def committedHash (slot : UInt64) (n : Node) : Option Hash :=
  n.history.findSome? fun e => match e with
    | .committed _ s b _ => if s = slot then some b.hash else none
    | _ => none

theorem commits_of_committedHash {slot : UInt64} {n : Node} {h : Hash}
    (hn : committedHash slot n = some h) : ∃ b, Commits n slot b ∧ b.hash = h := by
  obtain ⟨e, he, hmatch⟩ := List.exists_of_findSome?_eq_some hn
  split at hmatch
  · next before s b votes =>
    split at hmatch
    · next hs =>
      subst hs
      exact ⟨b, ⟨before, votes, he⟩, Option.some.inj hmatch⟩
    · cases hmatch
  · cases hmatch

/-- The state of the four after some deliveries. -/
theorem exists_run_four (C : (Fin 4 → Node) → Fin 4 × Input → Prop)
    [∀ st d, Decidable (C st d)] (p : (Fin 4 → Node) → Bool)
    (ds : List (Fin 4 × Input))
    (h : (initializeBlockchain [] 0).toOption.any (fun s =>
      (Machine.exec four.step C (fun v => Node.new (four.cfg v) s.reopen) ds).any
        p) = true) :
    ∃ st, four.Run C st ∧ p st = true := by
  cases hinit : initializeBlockchain [] 0 with
  | error err =>
    rw [hinit] at h
    cases h
  | ok s =>
    rw [hinit] at h
    obtain ⟨st, hrun, hst⟩ := Machine.exists_run_of_exec (C := C) h
    exact ⟨st, ⟨_, fun v => ⟨[], 0, s, hinit, rfl⟩, hrun⟩, hst⟩

/-- The two blocks the first leader makes for its slot. -/
def firstBlock (now : UInt64) : BroadcastedBlock := blockWith 1 1 now []

end Sample

/-- A run in which two honest validators commit. The leader is faulty, but
sends all of them the same block; the second and the fourth hear of two
votes for it before they get it. -/
theorem agreement_of_quorums_four :
    ∃ st, Sample.four.Run
        (fun st d => Sample.four.Delivers {0} st d ∧ Sample.four.QuorumCommits st d)
          st ∧
      Sample.committedHash 1 (st 1) = some (Sample.firstBlock 1).hash ∧
      Sample.committedHash 1 (st 3) = some (Sample.firstBlock 1).hash ∧
      Agreement {0} st := by
  obtain ⟨st, hrun, htest⟩ := Sample.exists_run_four
    (fun st d => Sample.four.Delivers {0} st d ∧ Sample.four.QuorumCommits st d)
    (fun st => Sample.committedHash 1 (st 1) = some (Sample.firstBlock 1).hash
      && Sample.committedHash 1 (st 3) = some (Sample.firstBlock 1).hash)
    [(2, .block (Sample.firstBlock 1)),
      (1, .vote (Sample.voteOf 1 1 (Sample.firstBlock 1).hash)),
      (1, .vote (Sample.voteOf 3 1 (Sample.firstBlock 1).hash)),
      (1, .block (Sample.firstBlock 1)),
      (3, .vote (Sample.voteOf 1 1 (Sample.firstBlock 1).hash)),
      (3, .vote (Sample.voteOf 3 1 (Sample.firstBlock 1).hash)),
      (3, .block (Sample.firstBlock 1))]
    (by decide +kernel)
  simp only [Bool.and_eq_true, decide_eq_true_eq] at htest
  exact ⟨st, hrun, htest.1, htest.2,
    agreement_of_quorums Sample.four {0} (by decide) st hrun⟩

/-- **Disagreement.** The leader of slot one is faulty and sends one block
to the second validator and another to the third. They vote for what they
got, receive each other's vote, and each commits its own block. -/
theorem disagreement_of_two_blocks :
    ∃ st, Sample.four.Run (Sample.four.Delivers {0}) st ∧ ¬ Agreement {0} st := by
  obtain ⟨st, hrun, htest⟩ := Sample.exists_run_four (Sample.four.Delivers {0})
    (fun st => Sample.committedHash 1 (st 1) = some (Sample.firstBlock 1).hash
      && Sample.committedHash 1 (st 2) = some (Sample.firstBlock 2).hash)
    [(1, .block (Sample.firstBlock 1)), (2, .block (Sample.firstBlock 2)),
      (1, .vote (Sample.voteOf 3 1 (Sample.firstBlock 2).hash)),
      (2, .vote (Sample.voteOf 2 1 (Sample.firstBlock 1).hash))]
    (by decide +kernel)
  simp only [Bool.and_eq_true, decide_eq_true_eq] at htest
  obtain ⟨b, hb, hhash⟩ := Sample.commits_of_committedHash htest.1
  obtain ⟨b', hb', hhash'⟩ := Sample.commits_of_committedHash htest.2
  refine ⟨st, hrun, fun hagree => ?_⟩
  have heq := hagree 1 (by decide) 2 (by decide) 1 b b' hb hb'
  rw [hhash, hhash'] at heq
  exact absurd heq (by decide +kernel)

end Sample

end Mmn
