import Mmn.Block
import Mmn.Table

/-!
# Votes and the collector

A validator votes for the block it has stored at a slot; a slot is committed
when the collector has counted enough votes for it.

The collector keys votes by slot and voter and checks only that a vote is
signed by the voter it names. Its threshold is computed from the number of
validators as twice a third, rounded down, and at least one. Neither who the
voter is nor which block the vote names enters the count.

A vote is held under its own slot and voter, after its signature was
checked. The type `HeldVote` says so: a vote that is not valid, or is under
another key, cannot be held.
-/

namespace Mmn

variable [Primitives]

/-- A vote for a block of a slot. -/
structure Vote where
  slot : UInt64
  blockHash : Hash
  voterID : String
  signature : Bytes
deriving DecidableEq

/-- The public key of a voter. -/
def getPublicKeyFromVoterID (voterID : String) : Except String Bytes :=
  getPublicKeyFromID "voter ID" voterID

namespace Vote

/-- What a vote signs. -/
def serializeVote (v : Vote) : Bytes := marshalVote v.slot v.blockHash v.voterID

/-- Put the voter's signature. -/
def sign (v : Vote) (priv : Bytes) : Vote :=
  { v with signature := ed25519Sign priv v.serializeVote }

/-- **Is the vote signed by the voter it names?** -/
def validate (v : Vote) : Except String Unit :=
  match getPublicKeyFromVoterID v.voterID with
  | .error err => .error ("failed to get public key from VoterID: " ++ err)
  | .ok pubKey =>
    if v.signature.length = 0 then .error "missing signature"
    else if v.signature.length ≠ 64 then
      .error ("invalid signature size: expected 64, got "
        ++ toString v.signature.length)
    else if !ed25519Verify pubKey v.serializeVote v.signature then
      .error "invalid signature"
    else .ok ()

end Vote

/-- **A vote held by the collector**, under its slot and voter. -/
structure HeldVote (slot : UInt64) (voterID : String) where
  blockHash : Hash
  signature : Bytes
  valid : Vote.validate ⟨slot, blockHash, voterID, signature⟩ = .ok ()

/-- The votes held for a slot, by voter. -/
abbrev SlotVotes (slot : UInt64) : Type := AList (HeldVote slot)

/-- The hash that the vote of a voter names, if one is held. -/
def SlotVotes.hashOf {slot : UInt64} (votes : SlotVotes slot) (voterID : String) :
    Option Hash :=
  (votes.lookup voterID).map HeldVote.blockHash

/-- The votes counted so far. -/
structure Collector where
  votes : AList SlotVotes
  total : ℕ
  threshold : ℕ
  maxSlot : UInt64

/-- How many slots' votes a cleanup keeps. -/
abbrev defaultVoteRetentionSlots : UInt64 := 1500

namespace Collector

/-- The collector for `n` validators. -/
def new (n : ℕ) : Collector :=
  { votes := ∅, total := n, threshold := max (2 * (n / 3)) 1, maxSlot := 0 }

/-- The votes held for a slot. -/
def votesForSlot (c : Collector) (slot : UInt64) : SlotVotes slot :=
  (c.votes.lookup slot).getD ∅

/-- The collector with a valid vote put. -/
def put (c : Collector) (v : Vote) (hv : v.validate = .ok ()) : Collector :=
  { c with
    votes := c.votes.insert v.slot
      ((c.votesForSlot v.slot).insert v.voterID ⟨v.blockHash, v.signature, hv⟩)
    maxSlot := if v.slot > c.maxSlot then v.slot else c.maxSlot }

/-- How many votes are held for a slot. -/
def count (c : Collector) (slot : UInt64) : ℕ := (c.votesForSlot slot).entries.length

/-- **Count a vote.** A second vote of a voter for a slot is refused,
whatever it names. The answers are whether the slot is committed and whether
its block is to be applied; they are the same. -/
def addVote (c : Collector) (v : Vote) : Except String (Collector × Bool × Bool) :=
  match hv : v.validate with
  | .error err => .error err
  | .ok () =>
    if v.voterID ∈ c.votesForSlot v.slot then
      .error ("duplicate vote from " ++ v.voterID ++ " for slot " ++ toString v.slot)
    else
      let c := c.put v hv
      if c.count v.slot ≥ c.threshold then .ok (c, true, true)
        else .ok (c, false, false)

/-- Drop the votes for slots that are far behind. -/
def cleanupOldVotes (c : Collector) (currentSlot keepRecentSlots : UInt64) :
    Collector :=
  if currentSlot < keepRecentSlots then c
  else
    let slotsToDelete :=
      c.votes.keys.filter (fun slot => decide (slot < currentSlot - keepRecentSlots))
    { c with votes := slotsToDelete.foldl (fun votes slot =>
      votes.erase slot) c.votes }

/-- One run of the periodic cleanup. -/
def periodicCleanup (c : Collector) : Collector :=
  if c.maxSlot > 0 then c.cleanupOldVotes c.maxSlot defaultVoteRetentionSlots else c

/-- **What counting a vote can do**: refuse it, or put it and compare the
count with the threshold. -/
theorem addVote_eq_ok {c c' : Collector} {v : Vote} {committed needApply : Bool} :
    c.addVote v = .ok (c', committed, needApply) ↔
      ∃ hv : v.validate = .ok (), v.voterID ∉ c.votesForSlot v.slot ∧
      c' = c.put v hv ∧
        committed = decide (c.threshold ≤ (c.put v hv).count v.slot) ∧
        needApply = decide (c.threshold ≤ (c.put v hv).count v.slot) := by
  unfold addVote
  split
  · next err herr =>
    simp only [reduceCtorEq, false_iff, not_exists]
    intro hv
    rw [herr] at hv
    cases hv
  · next hv =>
    simp only [hv, exists_true_left]
    split
    · next hmem => simp [hmem]
    · next hmem =>
      have hthr : (c.put v hv).threshold = c.threshold := rfl
      rw [hthr]
      split
      · next hge =>
        simp [hmem, hge, eq_comm]
      · next hlt =>
        simp [hmem, hlt, eq_comm]

/-- A vote that is not valid is refused with its own error. -/
theorem addVote_of_invalid {c : Collector} {v : Vote} {err : String}
    (herr : v.validate = .error err) : c.addVote v = .error err := by
  unfold addVote
  split
  · next err' herr' =>
    rw [herr] at herr'
    cases herr'
    rfl
  · next hv =>
    rw [herr] at hv
    cases hv

theorem addVote_of_mem {c : Collector} {v : Vote} (hv : v.validate = .ok ())
    (hmem : v.voterID ∈ c.votesForSlot v.slot) :
    c.addVote v
      = .error ("duplicate vote from " ++ v.voterID ++ " for slot "
        ++ toString v.slot) := by
  unfold addVote
  split
  · next err herr =>
    rw [hv] at herr
    cases herr
  · rw [if_pos hmem]

theorem addVote_of_notMem {c : Collector} {v : Vote} (hv : v.validate = .ok ())
    (hmem : v.voterID ∉ c.votesForSlot v.slot) :
    c.addVote v = .ok (c.put v hv, decide (c.threshold ≤ (c.put v hv).count v.slot),
      decide (c.threshold ≤ (c.put v hv).count v.slot)) :=
  addVote_eq_ok.mpr ⟨hv, hmem, rfl, rfl, rfl⟩

/-- The votes for a slot after a vote is put. -/
theorem votesForSlot_put (c : Collector) (v : Vote) (hv : v.validate = .ok ()) :
    (c.put v hv).votesForSlot v.slot
      = (c.votesForSlot v.slot).insert v.voterID ⟨v.blockHash, v.signature, hv⟩ := by
  show ((c.votes.insert v.slot _).lookup v.slot).getD ∅ = _
  rw [AList.lookup_insert]
  rfl

theorem count_put {c : Collector} {v : Vote} (hv : v.validate = .ok ())
    (hnew : v.voterID ∉ c.votesForSlot v.slot) :
    (c.put v hv).count v.slot = c.count v.slot + 1 := by
  unfold count
  rw [votesForSlot_put, AList.entries_insert_of_notMem hnew, List.length_cons]

/-- Putting a vote leaves the votes for other slots. -/
theorem votesForSlot_put_ne (c : Collector) (v : Vote) (hv : v.validate = .ok ())
    {slot : UInt64} (h : slot ≠ v.slot) :
    (c.put v hv).votesForSlot slot = c.votesForSlot slot := by
  show ((c.votes.insert v.slot _).lookup slot).getD ∅ = _
  rw [AList.lookup_insert_ne h]
  rfl

/-- A vote held after one is put is that one, or was held before. -/
theorem hashOf_put {c : Collector} {v : Vote} {hv : v.validate = .ok ()}
    {slot : UInt64} {voterID : String} {h : Hash}
    (hheld : ((c.put v hv).votesForSlot slot).hashOf voterID = some h) :
    (slot = v.slot ∧ voterID = v.voterID ∧ h = v.blockHash) ∨
      (c.votesForSlot slot).hashOf voterID = some h := by
  by_cases hslot : slot = v.slot
  · subst hslot
    rw [votesForSlot_put] at hheld
    unfold SlotVotes.hashOf at hheld
    by_cases hid : voterID = v.voterID
    · subst hid
      rw [AList.lookup_insert] at hheld
      exact Or.inl ⟨rfl, rfl, (Option.some.inj hheld).symm⟩
    · rw [AList.lookup_insert_ne hid] at hheld
      exact Or.inr hheld
  · rw [votesForSlot_put_ne c v hv hslot] at hheld
    exact Or.inr hheld

/-- **What a cleanup leaves**: the votes for a slot that is not too far
behind. -/
theorem votesForSlot_cleanupOldVotes (c : Collector)
    (currentSlot keepRecentSlots slot : UInt64) :
    (c.cleanupOldVotes currentSlot keepRecentSlots).votesForSlot slot
      = if keepRecentSlots ≤ currentSlot ∧ slot < currentSlot - keepRecentSlots then ∅
        else c.votesForSlot slot := by
  unfold cleanupOldVotes
  split
  · next hfew => rw [if_neg (fun h => absurd h.1 (UInt64.not_le.mpr hfew))]
  · next henough =>
    unfold votesForSlot
    rw [AList.lookup_foldl_erase]
    simp only [List.mem_filter, decide_eq_true_eq, UInt64.not_lt.mp henough, true_and]
    by_cases hold : slot < currentSlot - keepRecentSlots
    · rw [if_pos hold]
      split
      · rfl
      · next hkey =>
        have habsent : slot ∉ c.votes :=
          fun hmem => hkey ⟨AList.mem_keys.mp hmem, hold⟩
        rw [AList.lookup_eq_none.mpr habsent]
        rfl
    · rw [if_neg hold, if_neg (fun h => hold h.2)]

/-- A cleanup drops all votes for a slot, or none. -/
theorem votesForSlot_periodicCleanup (c : Collector) (slot : UInt64) :
    c.periodicCleanup.votesForSlot slot = ∅ ∨
      c.periodicCleanup.votesForSlot slot = c.votesForSlot slot := by
  unfold periodicCleanup
  split
  · rw [votesForSlot_cleanupOldVotes]
    split
    · exact Or.inl rfl
    · exact Or.inr rfl
  · exact Or.inr rfl

/-- A vote held after a cleanup was held before. -/
theorem hashOf_periodicCleanup {c : Collector} {slot : UInt64} {voterID : String}
    {h : Hash} (hheld : (c.periodicCleanup.votesForSlot slot).hashOf voterID
      = some h) :
    (c.votesForSlot slot).hashOf voterID = some h := by
  obtain hempty | hsame := c.votesForSlot_periodicCleanup slot
  · rw [hempty] at hheld
    cases hheld
  · rwa [hsame] at hheld

end Collector

end Mmn
