import Mmn.Agreement

/-!
# What a leader's signature covers

A leader signs the hash of its block, and a node that receives the block
checks the signature against the hash the message carries. It does not
compute the hash again. Whoever relays a block can therefore change its
time, its previous hash or its entries and leave hash and signature as they
are: the altered block is stored all the same (`altered_block_stored`).

The hash itself binds what it should. Its bytes are a concatenation without
separators in which only the leader's identifier has no fixed width, but the
identifier is the base58 text of thirty-two bytes, and texts of that kind
differ in length by less than one entry record takes. So the bytes determine
the fields (`sameContent_of_hashPreimage_eq`).

What the signature of a stored block is worth is then a matter of the hops
between the leader and the node. The nodes of a network sign nothing but
blocks they have just assembled (`Node.assembledBy_of_mem_makes`), and the
check of the signature leads from a stored block back to one of those that
has the same hash. Whether it also has the same content is what nobody
checks: a stored block carries the hash of its own content exactly if no hop
has altered what the leader's node assembled and signed
(`hash_covers_content`).
-/

namespace Mmn

/-! ## The bytes of a block's hash -/

namespace BroadcastedBlock

/-- **The two blocks agree on what the hash is taken of**: slot, previous
hash, leader, time, and the number of hashes and the hash of each entry. -/
structure SameContent (b₁ b₂ : BroadcastedBlock) : Prop where
  slot : b₁.slot = b₂.slot
  prevHash : b₁.prevHash = b₂.prevHash
  leaderID : b₁.leaderID = b₂.leaderID
  timestamp : b₁.timestamp = b₂.timestamp
  entries : b₁.entries.map (fun e => (e.numHashes, e.hash))
    = b₂.entries.map (fun e => (e.numHashes, e.hash))

/-- The record of an entry in the bytes of a block's hash. -/
def entryRecord (e : UInt64 × Hash) : Bytes := putUint64 e.1 ++ e.2.toList

theorem length_entryRecord (e : UInt64 × Hash) : (entryRecord e).length = 40 := by
  rw [entryRecord, List.length_append, length_putUint64, List.Vector.toList_length]

theorem entryRecord_injective : Function.Injective entryRecord := by
  intro e e' h
  obtain ⟨hnum, hhash⟩ :=
    List.append_inj h (by rw [length_putUint64, length_putUint64])
  exact Prod.ext (putUint64_injective hnum) (List.Vector.toList_injective hhash)

/-- The bytes of a block's hash, field by field. -/
theorem hashPreimage_eq (b : BroadcastedBlock) :
    b.hashPreimage
      = putUint64 b.slot ++ (b.prevHash.toList ++ (textBytes b.leaderID
        ++ (putUint64 b.timestamp
          ++ (b.entries.map (fun e => (e.numHashes, e.hash))).flatMap
            entryRecord))) := by
  rw [List.flatMap_map]
  simp only [← List.append_assoc]
  rfl

theorem length_hashPreimage (b : BroadcastedBlock) :
    b.hashPreimage.length = 48 + (textBytes b.leaderID).length + 40
      * b.entries.length := by
  simp only [hashPreimage_eq, List.length_append, length_putUint64,
    List.Vector.toList_length, length_flatMap_of_width length_entryRecord,
    List.length_map]
  ring

/-- The identifier of a leader has thirty-two to sixty-four bytes. -/
theorem length_leaderID {leaderID : String} {key : Bytes}
    (h : getPublicKeyFromLeaderID leaderID = .ok key) :
    32 ≤ (textBytes leaderID).length ∧ (textBytes leaderID).length ≤ 64 := by
  obtain ⟨hdecode, hlen⟩ := decode_of_getPublicKeyFromID h
  have hbounds := Base58.length_of_decode hdecode
  rw [hlen] at hbounds
  exact hbounds

/-- **The bytes of a block's hash determine what they are taken of**, for
blocks whose leaders have keys. -/
theorem sameContent_of_hashPreimage_eq {b₁ b₂ : BroadcastedBlock} {key₁ key₂ : Bytes}
    (hkey₁ : getPublicKeyFromLeaderID b₁.leaderID = .ok key₁)
    (hkey₂ : getPublicKeyFromLeaderID b₂.leaderID = .ok key₂)
    (h : b₁.hashPreimage = b₂.hashPreimage) : SameContent b₁ b₂ := by
  -- the identifiers differ by at most 32 bytes and an entry record takes 40
  have hlen := congrArg List.length h
  rw [length_hashPreimage, length_hashPreimage] at hlen
  have hbounds₁ := length_leaderID hkey₁
  have hbounds₂ := length_leaderID hkey₂
  have hid : (textBytes b₁.leaderID).length = (textBytes b₂.leaderID).length := by
    omega
  have hcount : b₁.entries.length = b₂.entries.length := by omega
  rw [hashPreimage_eq, hashPreimage_eq] at h
  obtain ⟨hslot, h⟩ := List.append_inj h (by rw [length_putUint64, length_putUint64])
  obtain ⟨hprev, h⟩ := List.append_inj h
    (by rw [List.Vector.toList_length, List.Vector.toList_length])
  obtain ⟨hleader, h⟩ := List.append_inj h hid
  obtain ⟨htime, h⟩ := List.append_inj h (by rw [length_putUint64, length_putUint64])
  exact ⟨putUint64_injective hslot, List.Vector.toList_injective hprev,
    textBytes_injective hleader, putUint64_injective htime,
    eq_of_flatMap_eq entryRecord_injective length_entryRecord
      (by rw [List.length_map, List.length_map, hcount]) h⟩

theorem SameContent.hashPreimage_eq {b₁ b₂ : BroadcastedBlock}
    (h : SameContent b₁ b₂) :
    b₁.hashPreimage = b₂.hashPreimage := by
  rw [BroadcastedBlock.hashPreimage_eq, BroadcastedBlock.hashPreimage_eq, h.slot,
    h.prevHash, h.leaderID, h.timestamp, h.entries]

/-- **The bytes of a block's hash are unambiguous.** For blocks whose
leaders have keys they are equal exactly if the blocks agree on slot,
previous hash, leader, time and the list of entry hashes with their numbers. -/
theorem hashPreimage_eq_iff {b₁ b₂ : BroadcastedBlock} {key₁ key₂ : Bytes}
    (hkey₁ : getPublicKeyFromLeaderID b₁.leaderID = .ok key₁)
    (hkey₂ : getPublicKeyFromLeaderID b₂.leaderID = .ok key₂) :
    b₁.hashPreimage = b₂.hashPreimage ↔ SameContent b₁ b₂ :=
  ⟨sameContent_of_hashPreimage_eq hkey₁ hkey₂, SameContent.hashPreimage_eq⟩

end BroadcastedBlock

section

variable [Primitives]

/-! ## Live blocks that are stored -/

/-- **The node stores the live block**: its slot was free, and is not after
`onBlockReceived`. -/
def Node.Stores (cfg : Config) (n : Node) (blk : BroadcastedBlock) : Prop :=
  blk.slot ∉ n.store.blocks ∧
    (n.onBlockReceived cfg blk).any (fun a => decide (blk.slot ∈ a.1.store.blocks))
      = true

instance (cfg : Config) (n : Node) (blk : BroadcastedBlock) :
    Decidable (n.Stores cfg blk) :=
  inferInstanceAs (Decidable (_ ∧ _))

theorem Node.Stores.verifySignature {cfg : Config} {n : Node} {blk : BroadcastedBlock}
    (h : n.Stores cfg blk) : blk.verifySignature = true := by
  obtain ⟨hfree, hstored⟩ := h
  rw [Option.any_eq_true] at hstored
  obtain ⟨⟨n', r⟩, hstep, hmem⟩ := hstored
  obtain rfl | ⟨horigin, -⟩ := Node.onBlockReceived_cases hstep
  · exact absurd (of_decide_eq_true hmem) hfree
  · cases horigin with
    | live _ hsig => exact hsig

/-! ## What the nodes of a network sign

Signing is a thing of the leader's node: it calls `sign` on a block right
after `assembleBlock` has computed the block's hash, in two places only, and
on nothing else that is a block. So what a signature *should* stand for is a
matter of the run, not of the message. The network is therefore run together
with a log of the blocks each node has assembled and signed so far
(`Signers`); no function reads it, and without it the steps are those of
`Validators.step`. What a peer may deliver is left open: any block with any
content, at any time. -/

/-- **The blocks a node assembles and signs on an input.** The flush that
completes the block of a slot the node leads puts it into the outbox, and
the loop over the ordering queue makes up a block for each slot the node led
and has none for. What the loop takes off the queue, or has from the
message, is not the node's own. -/
def Node.makes (cfg : Config) (n : Node) : Input → List BroadcastedBlock
  | .tickAndFlush now => (n.tickAndFlush cfg now).outbox.drop n.outbox.length
  | .syncResponse msg clock =>
    (n.offered cfg (.syncResponse msg clock)).filter fun b =>
      b ∉ msg.toList ++ n.blockOrderingQueue.entries.map Sigma.snd
  | _ => []

/-- The block is what the code of a node assembles and signs with the node's
own keys, from some slot, previous hash, entries and time. -/
def BroadcastedBlock.AssembledBy (cfg : Config) (b : BroadcastedBlock) : Prop :=
  ∃ slot prevHash entries now,
    b = (assembleBlock slot prevHash cfg.selfPubKey entries now).sign cfg.selfPrivKey

/-- Assembly computes the hash, and signing does not touch it. -/
theorem BroadcastedBlock.AssembledBy.hash_eq {cfg : Config} {b : BroadcastedBlock}
    (h : b.AssembledBy cfg) : b.hash = b.computeHash := by
  obtain ⟨slot, prevHash, entries, now, rfl⟩ := h
  rfl

/-- The leader an assembled block names is the node, which has a key. -/
theorem BroadcastedBlock.AssembledBy.exists_key {cfg : Config} {b : BroadcastedBlock}
    (h : b.AssembledBy cfg) :
    ∃ key, getPublicKeyFromLeaderID b.leaderID = .ok key := by
  obtain ⟨slot, prevHash, entries, now, rfl⟩ := h
  obtain ⟨pub, hpub, -⟩ := cfg.keyPair
  exact ⟨pub, hpub⟩

/-- A flush puts into the outbox what the node assembled and signed. -/
theorem Node.outbox_tickAndFlush (cfg : Config) (n : Node) (now : UInt64) :
    ∃ made, (n.tickAndFlush cfg now).outbox = n.outbox ++ made ∧
      ∀ b ∈ made, b.AssembledBy cfg := by
  have hnone : ∃ made, n.outbox = n.outbox ++ made ∧ ∀ b ∈ made, b.AssembledBy cfg :=
    ⟨[], (List.append_nil _).symm, fun _ hb => by cases hb⟩
  unfold tickAndFlush
  split
  · exact hnone
  · dsimp only
    split
    · unfold handleEntry
      dsimp only
      split
      · refine ⟨[_], rfl, fun b hb => ?_⟩
        obtain rfl := List.mem_singleton.mp hb
        exact ⟨_, _, _, _, rfl⟩
      · split
        · exact hnone
        · exact hnone
    · exact hnone

/-- **What a node makes it has assembled and signed**, on every input. -/
theorem Node.assembledBy_of_mem_makes {cfg : Config} {n : Node} {i : Input}
    {b : BroadcastedBlock} (hb : b ∈ n.makes cfg i) : b.AssembledBy cfg := by
  unfold makes at hb
  split at hb
  · next now =>
    obtain ⟨made, houtbox, hmade⟩ := n.outbox_tickAndFlush cfg now
    rw [houtbox, List.drop_left] at hb
    exact hmade b hb
  · next msg clock =>
    rw [List.mem_filter, decide_eq_true_iff] at hb
    obtain ⟨hoffered, hnew⟩ := hb
    unfold offered at hoffered
    split at hoffered
    · next heq => cases heq
    · next heq => cases heq
    · next blk clock' heq =>
      cases heq
      split at hoffered
      · cases hoffered
      · split at hoffered
        · next c htake =>
          -- the loop takes blocks that wait, and makes up the others
          have hall := (takeConsecutive_spec (P := fun b =>
            b ∈ blk :: n.blockOrderingQueue.entries.map Sigma.snd ∨ b.AssembledBy cfg)
            (fun slot prevHash now _ => Or.inr ⟨slot, prevHash, _, now, rfl⟩)
              _ _ _ htake
            (fun slot b' hlook => Or.inl ?_) (fun _ h => by cases h)).1 b hoffered
          · exact hall.resolve_left hnew
          · by_cases hslot : slot = blk.slot
            · subst hslot
              rw [AList.lookup_insert] at hlook
              exact List.mem_cons.mpr (Or.inl (Option.some.inj hlook).symm)
            · rw [AList.lookup_insert_ne hslot] at hlook
              exact List.mem_cons_of_mem _
                (List.mem_map.mpr ⟨⟨slot, b'⟩, AList.mem_lookup_iff.mp hlook, rfl⟩)
        · cases hoffered
    · next heq => cases heq
    · cases hoffered
  · cases hb

/-- **The nodes of a network, and the log of what they have signed.** -/
structure Signers (N : ℕ) where
  nodes : Fin N → Node
  /-- For each node, the blocks it has assembled and signed, oldest first. -/
  signed : Fin N → List BroadcastedBlock

variable {N : ℕ}

/-- One input at one node: a step of the network, after which the log has
what the node has made of the input. -/
def Validators.signStep (net : Validators N) (st : Signers N) (d : Fin N × Input) :
    Option (Signers N) :=
  (net.step st.nodes d).map fun nodes =>
    { nodes := nodes
      signed := Function.update st.signed d.1
        (st.signed d.1 ++ (st.nodes d.1).makes (net.cfg d.1) d.2) }

/-- **The runs of the network with its log.** Each node starts on a genesis
database and has signed nothing; every input may come to every node. -/
def Validators.SignRun (net : Validators N) (st : Signers N) : Prop :=
  ∃ start : Signers N,
    (∀ v, start.signed v = [] ∧ ∃ alloc now s,
      initializeBlockchain alloc now = .ok s ∧
      start.nodes v = Node.new (net.cfg v) s.reopen) ∧
    Machine.Run net.signStep Machine.Always start st

/-- **What is in the log was assembled**, by the node that signed it. -/
theorem Validators.SignRun.assembledBy {net : Validators N} {st : Signers N}
    (hrun : net.SignRun st) {w : Fin N} {m : BroadcastedBlock}
    (hm : m ∈ st.signed w) :
    m.AssembledBy (net.cfg w) := by
  obtain ⟨start, hstart, hrun⟩ := hrun
  have hinv := hrun.invariant
    (I := fun st => ∀ w, ∀ m ∈ st.signed w, m.AssembledBy (net.cfg w)) ?_ ?_
  · exact hinv w m hm
  · intro w m hm
    rw [(hstart w).1] at hm
    cases hm
  · intro st d st' h _ hstep w m hm
    obtain ⟨nodes, -, rfl⟩ := Option.map_eq_some_iff.mp hstep
    dsimp only at hm
    by_cases hw : w = d.1
    · subst hw
      rw [Function.update_self] at hm
      obtain hm | hm := List.mem_append.mp hm
      · exact h _ m hm
      · exact Node.assembledBy_of_mem_makes hm
    · rw [Function.update_of_ne hw] at hm
      exact h w m hm

/-- **No hop has altered the block.** Its hash, and all that a block's hash
is taken of, are those of a block that a node of the network has assembled
and signed. A hop may still have touched what the hash does not cover:
status, flag, the marks and transactions of the entries. -/
def Signers.Unaltered (st : Signers N) (blk : BroadcastedBlock) : Prop :=
  ∃ w, ∃ m ∈ st.signed w, m.hash = blk.hash ∧ m.SameContent blk

/-- **The signature is not forged**: if it is accepted, the one it names as
the leader is a node of the network, and that node has signed a block of
this hash. It does not say what else is in that block. -/
def Validators.Unforged (net : Validators N) (st : Signers N)
    (blk : BroadcastedBlock) :
    Prop :=
  blk.verifySignature = true →
    ∃ w, blk.leaderID = net.key w ∧ ∃ m ∈ st.signed w, m.hash = blk.hash

instance (net : Validators N) (st : Signers N) (blk : BroadcastedBlock) :
    Decidable (net.Unforged st blk) :=
  inferInstanceAs (Decidable (_ → _))

/-- SHA-256 has no collision on the bytes of the two blocks. -/
def BroadcastedBlock.NoCollision (b₁ b₂ : BroadcastedBlock) : Prop :=
  sha256 b₁.hashPreimage = sha256 b₂.hashPreimage → b₁.hashPreimage = b₂.hashPreimage

instance BroadcastedBlock.decidableNoCollision (b₁ b₂ : BroadcastedBlock) :
    Decidable (b₁.NoCollision b₂) :=
  inferInstanceAs (Decidable (_ → _))

/-- A block that no hop has altered carries the hash of its content. -/
theorem Validators.SignRun.hash_eq {net : Validators N} {st : Signers N}
    (hrun : net.SignRun st) {blk : BroadcastedBlock} (h : st.Unaltered blk) :
    blk.hash = blk.computeHash := by
  obtain ⟨w, m, hm, hhash, hsame⟩ := h
  calc blk.hash
      = m.hash := hhash.symm
    _ = m.computeHash := (hrun.assembledBy hm).hash_eq
    _ = blk.computeHash := congrArg sha256 hsame.hashPreimage_eq

/-- **A stored live block that carries the hash of its content was altered
by no hop.** The check of the signature is what leads from the message to
the node that signed the hash. -/
theorem Validators.SignRun.unaltered {net : Validators N} {st : Signers N}
    (hrun : net.SignRun st) {cfg : Config} {n : Node} {blk : BroadcastedBlock}
    (hstores : n.Stores cfg blk) (hunforged : net.Unforged st blk)
    (hsha : ∀ w, ∀ m ∈ st.signed w, m.NoCollision blk)
    (h : blk.hash = blk.computeHash) : st.Unaltered blk := by
  obtain ⟨w, -, m, hm, hhash⟩ := hunforged hstores.verifySignature
  obtain ⟨key, hkey, -⟩ :=
    BroadcastedBlock.verifySignature_iff.mp hstores.verifySignature
  have hassembled := hrun.assembledBy hm
  obtain ⟨key', hkey'⟩ := hassembled.exists_key
  have hpreimage : m.hashPreimage = blk.hashPreimage := by
    refine hsha w m hm ?_
    calc sha256 m.hashPreimage
        = m.hash := hassembled.hash_eq.symm
      _ = blk.hash := hhash
      _ = sha256 blk.hashPreimage := h
  exact ⟨w, m, hm, hhash, BroadcastedBlock.sameContent_of_hashPreimage_eq hkey' hkey
    hpreimage⟩

/-- **What the leader's signature covers.** In every run of the network, and
whatever is delivered in it, a block that a node stores off the live topic
carries the hash of its own content exactly if no hop has altered what a
node of the network assembled and signed. Two stored blocks, at the same or
at different nodes and at any two moments of the run, that no hop has
altered and that have the same hash and signature agree on slot, previous
hash, leader, time and entry hashes. Signatures are taken as not forged, and
SHA-256 as free of collisions on the blocks that are compared. -/
theorem hash_covers_content (net : Validators N) {st st' : Signers N}
    (hrun : net.SignRun st) (hlater : Machine.Run net.signStep Machine.Always st st')
    {v v' : Fin N} {blk blk' : BroadcastedBlock}
    (hstores : (st.nodes v).Stores (net.cfg v) blk)
    (hstores' : (st'.nodes v').Stores (net.cfg v') blk')
    (hunforged : net.Unforged st blk)
    (hsha : ∀ w, ∀ m ∈ st.signed w, m.NoCollision blk)
    (hsha' : blk.NoCollision blk') :
    (blk.hash = blk.computeHash ↔ st.Unaltered blk) ∧
      (st.Unaltered blk → st'.Unaltered blk' → blk.hash = blk'.hash →
        blk.signature = blk'.signature → blk.SameContent blk') := by
  refine ⟨⟨hrun.unaltered hstores hunforged hsha, hrun.hash_eq⟩, fun h h' hhash _ =>
    ?_⟩
  have hrun' : net.SignRun st' := by
    obtain ⟨start, hstart, hrun⟩ := hrun
    exact ⟨start, hstart, hrun.trans hlater⟩
  obtain ⟨key, hkey, -⟩ :=
    BroadcastedBlock.verifySignature_iff.mp hstores.verifySignature
  obtain ⟨key', hkey', -⟩ :=
    BroadcastedBlock.verifySignature_iff.mp hstores'.verifySignature
  refine BroadcastedBlock.sameContent_of_hashPreimage_eq hkey hkey' (hsha' ?_)
  calc sha256 blk.hashPreimage
      = blk.hash := (hrun.hash_eq h).symm
    _ = blk'.hash := hhash
    _ = sha256 blk'.hashPreimage := hrun'.hash_eq h'

end

section Sample

attribute [local instance] Sample.primitives

/-- A block of the first leader. -/
def Sample.signedBlock : BroadcastedBlock := Sample.blockWith 1 1 0 []

/-- The block with another time. -/
def Sample.alteredBlock :
    BroadcastedBlock := { Sample.signedBlock with timestamp := 1 }

/-- The bytes of the block are those of a copy with another status, and not
those of the block with another time. -/
theorem hashPreimage_eq_iff_copy :
    Sample.signedBlock.hashPreimage
        = BroadcastedBlock.hashPreimage
          { Sample.signedBlock with status := .finalized } ∧
      Sample.signedBlock.hashPreimage ≠ Sample.alteredBlock.hashPreimage := by
  have hkey : getPublicKeyFromLeaderID Sample.signedBlock.leaderID
      = .ok (Sample.keyBytes 1) :=
    Sample.key_one
  have haltered : getPublicKeyFromLeaderID Sample.alteredBlock.leaderID
      = .ok (Sample.keyBytes 1) := Sample.key_one
  refine ⟨(BroadcastedBlock.hashPreimage_eq_iff hkey hkey).mpr
    ⟨rfl, rfl, rfl, rfl, rfl⟩, fun h => ?_⟩
  have hsame := (BroadcastedBlock.hashPreimage_eq_iff hkey haltered).mp h
  exact absurd hsame.timestamp (by decide)

namespace Sample

theorem hashes_of_two : (1 : UInt64) < 2 := by decide

theorem ticks_of_two : (0 : UInt64) < 2 := by decide

theorem len_fourSchedule : fourSchedule.len = 4 := rfl

/-- Four validators whose slots have two ticks, so that the leader of a slot
collects the entries of the first tick before the second completes its
block. -/
def fourAtTwoTicks : Validators 4 where
  cfg v := { four.cfg v with pohCfg := ⟨2, 2, hashes_of_two, ticks_of_two⟩ }
  leaderSchedule := fourSchedule
  leaderSchedule_eq _ := rfl
  len_eq := len_fourSchedule
  distinct := four.distinct
  voting _ := rfl

/-- The inputs on which the first validator begins its term, ticks twice,
and so assembles and signs the block of slot one. -/
def assembling : List (Fin 4 × Input) :=
  [.roleMonitor, .leaderWait false, .autoHash, .drainEntries, .tickAndFlush 0,
    .autoHash, .drainEntries, .tickAndFlush 0].map (fun i => (0, i))

/-- The block the first validator has signed, as the log has it. -/
def logged (st : Signers 4) : BroadcastedBlock := (st.signed 0).headD signedBlock

/-- What a test says of the network after the first validator has signed a
block. -/
theorem exists_signRun (p : Signers 4 → Bool)
    (h : (initializeBlockchain [] 0).toOption.any (fun s =>
      (Machine.exec fourAtTwoTicks.signStep Machine.Always
        ⟨fun v => Node.new (fourAtTwoTicks.cfg v) s.reopen, fun _ => []⟩
          assembling).any p)
      = true) :
    ∃ st, fourAtTwoTicks.SignRun st ∧ p st = true := by
  cases hinit : initializeBlockchain [] 0 with
  | error err =>
    rw [hinit] at h
    cases h
  | ok s =>
    rw [hinit] at h
    have h : (Machine.exec fourAtTwoTicks.signStep Machine.Always _ assembling).any p
        = true := h
    obtain ⟨st, hrun, hst⟩ := Machine.exists_run_of_exec h
    exact ⟨st, ⟨_, fun v => ⟨rfl, [], 0, s, hinit, rfl⟩, hrun⟩, hst⟩

end Sample

open Sample in
/-- The leader of slot one signs its block. The second validator stores it
as it is, and the third a copy with another status: both carry the hash of
their content, and they agree. The fourth stores it with another time, and
that one does not. -/
theorem hash_covers_content_copy :
    ∃ st, fourAtTwoTicks.SignRun st ∧
      (st.nodes 1).Stores (fourAtTwoTicks.cfg 1) (logged st) ∧
      (logged st).hash = (logged st).computeHash ∧
      (logged st).SameContent { logged st with status := .finalized } ∧
      (st.nodes 3).Stores (fourAtTwoTicks.cfg 3) { logged st with timestamp := 1 } ∧
      ¬ st.Unaltered { logged st with timestamp := 1 } := by
  obtain ⟨st, hrun, htest⟩ := exists_signRun (fun st => decide (
    logged st ∈ st.signed 0 ∧
    (st.nodes 1).Stores (fourAtTwoTicks.cfg 1) (logged st) ∧
    (st.nodes 2).Stores (fourAtTwoTicks.cfg 2)
      { logged st with status := .finalized } ∧
    (st.nodes 3).Stores (fourAtTwoTicks.cfg 3) { logged st with timestamp := 1 } ∧
    (∀ blk ∈ [logged st, { logged st with timestamp := 1 }],
      fourAtTwoTicks.Unforged st blk ∧ ∀ w, ∀ m ∈ st.signed w, m.NoCollision blk) ∧
    ¬ ({ logged st with timestamp := 1 } : BroadcastedBlock).hash
      = BroadcastedBlock.computeHash { logged st with timestamp := 1 }))
    (by decide +kernel)
  obtain ⟨hlogged, hstores, hcopy, hlate, hcrypto, haltered⟩ :=
    of_decide_eq_true htest
  obtain ⟨hunforged, hsha⟩ := hcrypto (logged st) List.mem_cons_self
  obtain ⟨hunforged', hsha'⟩ := hcrypto { logged st with timestamp := 1 }
    (List.mem_cons_of_mem _ (List.mem_singleton_self _))
  have hunaltered : st.Unaltered (logged st) :=
    ⟨0, _, hlogged, rfl, ⟨rfl, rfl, rfl, rfl, rfl⟩⟩
  have hunaltered' : st.Unaltered { logged st with status := .finalized } :=
    ⟨0, _, hlogged, rfl, ⟨rfl, rfl, rfl, rfl, rfl⟩⟩
  obtain ⟨hiff, hsame⟩ := hash_covers_content fourAtTwoTicks hrun .refl hstores hcopy
    hunforged hsha (fun _ => rfl)
  obtain ⟨hiff', -⟩ := hash_covers_content fourAtTwoTicks hrun .refl hlate hlate
    hunforged' hsha' (fun _ => rfl)
  exact ⟨st, hrun, hstores, hiff.mpr hunaltered,
    hsame hunaltered hunaltered' rfl rfl, hlate, fun h => haltered (hiff'.mpr h)⟩

/-- **An altered block is stored.** A node stores a leader's block, and
equally the block with its time changed: hash and signature are the same,
but the hash is no longer that of the block's content. -/
theorem altered_block_stored :
    ∃ n, NodeRun Sample.alone Machine.Always n ∧
      n.Stores Sample.alone Sample.signedBlock ∧
      n.Stores Sample.alone Sample.alteredBlock ∧
      Sample.alteredBlock.hash = Sample.signedBlock.hash ∧
      Sample.alteredBlock.signature = Sample.signedBlock.signature ∧
      Sample.alteredBlock.hash ≠ Sample.alteredBlock.computeHash ∧
      ¬ Sample.signedBlock.SameContent Sample.alteredBlock := by
  obtain ⟨n, hrun, htest⟩ := exists_nodeRun Sample.alone Machine.Always
    (fun n => decide (n.Stores Sample.alone Sample.signedBlock) &&
      decide (n.Stores Sample.alone Sample.alteredBlock))
    [] 0 [] (by decide +kernel)
  rw [Bool.and_eq_true, decide_eq_true_iff, decide_eq_true_iff] at htest
  refine ⟨n, hrun, htest.1, htest.2, rfl, rfl, by decide +kernel, fun hsame => ?_⟩
  exact absurd hsame.timestamp (by decide)

end Sample

end Mmn
