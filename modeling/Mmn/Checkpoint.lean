import Mmn.Operations
import Mmn.Stream

/-!
# Comparing checkpoints

A node can ask its peers for the hash of the block they have for a slot, and
compare it with its own. A peer answers if it has finalized the slot or a
later one and has a block there. If the hashes differ, the node asks for the
block of the slot, and the answer to that is a stream like any other.

Nothing comes of it. A block of a stream for a slot that has one is dropped
before it gets into the queue, and no other message puts a block in the
place of another. So what a comparison finds, it finds for good
(`verdict_fixed`): whatever is asked for and sent in between, and whatever
else happens to the two nodes, every later comparison of the slot ends as
the first. Nodes that agree go on to agree, and a node that differs from a
peer asks for the block again each time it compares.
-/

namespace Mmn

section

variable [Primitives]

/-- The answer to a request for the hash of a checkpoint. -/
structure CheckpointHashResponse where
  checkpoint : UInt64
  slot : UInt64
  blockHash : Hash
  peerID : String

/-- **The block of a checkpoint**, by its slot and hash. There is none to
compare for slot zero, for slots beyond the latest finalized one, and where
no block is stored. -/
def Store.getCheckpointHash (s : Store) (checkpoint : UInt64) :
    Option (UInt64 × Hash) :=
  if checkpoint = 0 then none
  else
    let latest := s.latestFinalized
    if latest = 0 then none
    else if latest < checkpoint then none
    else match s.block checkpoint with
      | none => none
      | some blk => some (checkpoint, blk.hash)

/-- **The answer of a peer**, if it has one. -/
def Store.handleCheckpointRequest (s : Store) (checkpoint : UInt64)
    (peerID : String) :
    Option CheckpointHashResponse :=
  match s.getCheckpointHash checkpoint with
  | none => none
  | some (localSlot, localHash) => some ⟨checkpoint, localSlot, localHash, peerID⟩

namespace SyncNetwork

/-- Ask for the block of a slot. The request is noted and published. -/
def requestSingleBlockSync (net : SyncNetwork) (slot : UInt64) (requestID : String) :
    SyncNetwork × Option SyncRequest :=
  ({ net with syncRequests :=
    net.syncRequests.insert requestID (.new requestID slot slot) },
    some ⟨requestID, slot, slot⟩)

/-- **An answer arrives.** If the hash differs from that of the node's own
block, the node asks for the block. -/
def handleCheckpointStream (net : SyncNetwork) (resp : CheckpointHashResponse)
    (requestID : String) :
    SyncNetwork × Option SyncRequest :=
  match net.node.store.getCheckpointHash resp.checkpoint with
  | none => (net, none)
  | some (_, localHash) =>
    if localHash ≠ resp.blockHash then net.requestSingleBlockSync
      resp.checkpoint requestID
      else (net, none)

theorem node_handleCheckpointStream (net : SyncNetwork)
    (resp : CheckpointHashResponse) (requestID : String) :
    (net.handleCheckpointStream resp requestID).1.node = net.node := by
  unfold handleCheckpointStream
  split
  · rfl
  · split <;> rfl

end SyncNetwork

/-! ## Two nodes -/

/-- **A node that compares, and a peer.** -/
structure Checkpoints where
  net : SyncNetwork
  peer : Node

/-- What happens to them. -/
inductive CheckpointEvent where
  | here (op : Operation)
  | there (op : Operation)
  /-- The node asks the peer for a checkpoint and gets the answer. -/
  | compare (checkpoint : UInt64) (peerID requestID : String)
  /-- Any peer answers a request for blocks. -/
  | stream (s : PeerStream) (clock : ℕ → ℕ → UInt64)

namespace Checkpoints

variable {cfg cfg' : Config}

/-- **One event.** A process that starts again has no requests. -/
def step (cfg cfg' : Config) (c : Checkpoints) : CheckpointEvent → Option Checkpoints
  | .here op => (c.net.node.operate cfg op).map fun n =>
    match op with
    | .restart => { c with net := ⟨n, ∅, c.net.closed⟩ }
    | _ => { c with net := { c.net with node := n } }
  | .there op => (c.peer.operate cfg' op).map fun n => { c with peer := n }
  | .compare checkpoint peerID requestID =>
    match c.peer.store.handleCheckpointRequest checkpoint peerID with
    | none => some c
    | some resp =>
      some { c with net := (c.net.handleCheckpointStream resp requestID).1 }
  | .stream s clock =>
    (c.net.handleBlockSyncRequestStream cfg s clock).map fun net =>
      { c with net := net }

end Checkpoints

/-! ## Streams are operations -/

namespace Node

variable {cfg : Config}

theorem later_of_handleBlocks {clock : ℕ → ℕ → UInt64}
    {blocks : List (Option BroadcastedBlock)} {n n' : Node} {totalBlocks total : ℕ}
    (h : n.handleBlocks cfg clock totalBlocks blocks = some (n', total)) :
    Later cfg n n' := by
  induction blocks generalizing n totalBlocks with
  | nil =>
    cases h
    exact .refl
  | cons blk blocks ih =>
    cases blk with
    | none => exact ih h
    | some blk =>
      unfold handleBlocks at h
      split at h
      · cases h
      · next n₁ hblk =>
        have hstep : n.operate cfg
          (.input (.syncResponse (some blk) (clock totalBlocks)))
            = some n₁ := hblk
        exact .head ⟨_, trivial, hstep⟩ (ih h)

theorem later_of_handleBatches {clock : ℕ → ℕ → UInt64}
    {batches : List (List (Option BroadcastedBlock))} {n n' : Node}
    {totalBlocks total : ℕ}
    (h : n.handleBatches cfg clock totalBlocks batches = some (n', total)) :
    Later cfg n n' := by
  induction batches generalizing n totalBlocks with
  | nil =>
    cases h
    exact .refl
  | cons blocks batches ih =>
    unfold handleBatches at h
    split at h
    · cases h
    · split at h
      · cases h
      · next n₁ total₁ hblocks => exact (later_of_handleBlocks hblocks).trans (ih h)

end Node

/-- Reading a stream is a sequence of operations of the node. -/
theorem SyncNetwork.later_of_stream {cfg : Config} {net net' : SyncNetwork}
    {s : PeerStream} {clock : ℕ → ℕ → UInt64}
    (h : net.handleBlockSyncRequestStream cfg s clock = some net') :
    Node.Later cfg net.node net'.node := by
  unfold handleBlockSyncRequestStream at h
  split at h
  · cases h
    exact .refl
  · dsimp only at h
    split at h
    · cases h
      exact .refl
    · split at h
      · cases h
      · next n total hbatches =>
        cases h
        refine (Node.later_of_handleBatches hbatches).trans ?_
        unfold finish
        dsimp only
        split <;> exact .refl

namespace Checkpoints

variable {cfg cfg' : Config}

/-- **An event is a sequence of operations** of each node. -/
theorem later_of_step {c c' : Checkpoints} {e : CheckpointEvent}
    (h : c.step cfg cfg' e = some c') :
    Node.Later cfg c.net.node c'.net.node ∧ Node.Later cfg' c.peer c'.peer := by
  cases e with
  | here op =>
    obtain ⟨n, hop, rfl⟩ := Option.map_eq_some_iff.mp h
    refine ⟨.single ⟨op, trivial, ?_⟩, ?_⟩
    · cases op <;> exact hop
    · cases op <;> exact .refl
  | there op =>
    obtain ⟨n, hop, rfl⟩ := Option.map_eq_some_iff.mp h
    exact ⟨.refl, .single ⟨op, trivial, hop⟩⟩
  | compare checkpoint peerID requestID =>
    dsimp only [step] at h
    split at h
    · cases h
      exact ⟨.refl, .refl⟩
    · next resp _ =>
      cases h
      refine ⟨?_, .refl⟩
      rw [SyncNetwork.node_handleCheckpointStream]
      exact .refl
  | stream s clock =>
    obtain ⟨net, hstream, rfl⟩ := Option.map_eq_some_iff.mp h
    exact ⟨SyncNetwork.later_of_stream hstream, .refl⟩

theorem later_of_run {c c' : Checkpoints}
    (h : Machine.Run (step cfg cfg') Machine.Always c c') :
    Node.Later cfg c.net.node c'.net.node ∧ Node.Later cfg' c.peer c'.peer := by
  induction h with
  | refl => exact ⟨.refl, .refl⟩
  | tail _ hlast ih =>
    obtain ⟨e, -, hstep⟩ := hlast
    obtain ⟨hnode, hpeer⟩ := later_of_step hstep
    exact ⟨ih.1.trans hnode, ih.2.trans hpeer⟩

end Checkpoints

/-! ## What is compared stays -/

omit [Primitives] in
/-- What a node has to compare is the hash of its block. -/
theorem Store.block_of_getCheckpointHash {s : Store} {checkpoint slot : UInt64}
    {hash : Hash} (h : s.getCheckpointHash checkpoint = some (slot, hash)) :
    slot = checkpoint ∧ ∃ b, s.block checkpoint = some b ∧ b.hash = hash := by
  unfold getCheckpointHash at h
  split at h
  · cases h
  · dsimp only at h
    split at h
    · cases h
    · split at h
      · cases h
      · split at h
        · cases h
        · next blk hblk =>
          cases h
          exact ⟨rfl, blk, hblk, rfl⟩

/-- **What a node has to compare does not change.** -/
theorem Node.Later.getCheckpointHash_eq {cfg : Config} {n n' : Node}
    (h : Later cfg n n') {checkpoint : UInt64} {r r' : UInt64 × Hash}
    (hr : n.store.getCheckpointHash checkpoint = some r)
    (hr' : n'.store.getCheckpointHash checkpoint = some r') : r' = r := by
  obtain ⟨hslot, b, hb, hhash⟩ := Store.block_of_getCheckpointHash hr
  obtain ⟨hslot', b', hb', hhash'⟩ := Store.block_of_getCheckpointHash hr'
  obtain ⟨status, hlater, -⟩ := h.changes.block_of_block hb
  obtain rfl : { b with status := status } = b' :=
    Option.some.inj (hlater.symm.trans hb')
  exact Prod.ext (hslot'.trans hslot.symm) (hhash'.symm.trans hhash)

namespace Checkpoints

variable {cfg cfg' : Config}

/-- **What a comparison finds, it finds for good.** The node has something
to compare with the answer of the peer, and again after any events –
comparisons, streams that answer what was asked for, whatever the two nodes
do. Then it asks for the block the second time exactly if it did the first
time. -/
theorem verdict_fixed {c c' : Checkpoints}
    (hrun : Machine.Run (step cfg cfg') Machine.Always c c') {checkpoint : UInt64}
    {peerID : String} {resp resp' : CheckpointHashResponse}
    (hresp : c.peer.store.handleCheckpointRequest checkpoint peerID = some resp)
    (hresp' : c'.peer.store.handleCheckpointRequest checkpoint peerID = some resp')
    (hlocal : c.net.node.store.getCheckpointHash checkpoint ≠ none)
    (hlocal' : c'.net.node.store.getCheckpointHash checkpoint ≠ none)
    (requestID : String) :
    (c'.net.handleCheckpointStream resp' requestID).2
      = (c.net.handleCheckpointStream resp requestID).2 := by
  obtain ⟨hnode, hpeer⟩ := later_of_run hrun
  obtain ⟨r, hr⟩ := Option.ne_none_iff_exists'.mp hlocal
  obtain ⟨r', hr'⟩ := Option.ne_none_iff_exists'.mp hlocal'
  obtain rfl := hnode.getCheckpointHash_eq hr hr'
  have hsame : resp' = resp := by
    unfold Store.handleCheckpointRequest at hresp hresp'
    split at hresp
    · cases hresp
    · next slot hash hp =>
      split at hresp'
      · cases hresp'
      · next slot' hash' hp' =>
        obtain ⟨rfl, rfl⟩ := Prod.mk.inj (hpeer.getCheckpointHash_eq hp hp')
        cases hresp
        cases hresp'
        rfl
  subst hsame
  have hfor : resp'.checkpoint = checkpoint := by
    unfold Store.handleCheckpointRequest at hresp
    split at hresp
    · cases hresp
    · cases hresp
      rfl
  unfold SyncNetwork.handleCheckpointStream
  rw [hfor, hr, hr']
  dsimp only
  split <;> rfl

end Checkpoints

end

section Sample

attribute [local instance] Sample.primitives

namespace Sample

/-- A node with a block of its own for the first slot, made at a time. -/
def finalizedAt (now : UInt64) : Node :=
  Node.new alone { Store.empty.addBlock (blockWith 1 1 now [])
    with latestFinalized := 1 }

/-- A node and a peer that have different blocks. -/
def differing : Checkpoints := ⟨⟨finalizedAt 0, ∅, ∅⟩, finalizedAt 5⟩

/-- The hash of the peer's block. -/
def differingHash : CheckpointHashResponse :=
  ⟨1, 1, (blockWith 1 1 5 []).hash, "peer"⟩

end Sample

open Sample

/-- The node asks for the block of the first slot, is sent it, and would ask
for it again. -/
theorem verdict_fixed_differing :
    ∃ c', Machine.Run (Checkpoints.step alone alone) Machine.Always differing c' ∧
      c'.net.node.store.getCheckpointHash 1 ≠ none ∧
      (differing.net.handleCheckpointStream differingHash "q").2.isSome = true ∧
      ∀ resp, c'.peer.store.handleCheckpointRequest 1 "peer" = some resp →
        (c'.net.handleCheckpointStream resp "q").2.isSome = true := by
  have hexec : (Machine.exec (Checkpoints.step alone alone) Machine.Always differing
      [.compare 1 "peer" "r",
        .stream ⟨7, "peer", some ⟨"r", 1, 1⟩, [[some (blockWith 1 1 5 [])]]⟩
        fun _ _ => 20]).any
      (fun c' => (c'.net.node.store.getCheckpointHash 1).isSome) = true := by
    decide +kernel
  obtain ⟨c', hrun, hlocal'⟩ := Machine.exists_run_of_exec hexec
  have hresp : differing.peer.store.handleCheckpointRequest 1 "peer"
      = some differingHash := rfl
  have hlocal : differing.net.node.store.getCheckpointHash 1 ≠ none :=
    Option.isSome_iff_ne_none.mp (by decide +kernel)
  have hlocal' := Option.isSome_iff_ne_none.mp hlocal'
  have hasks : (differing.net.handleCheckpointStream differingHash "q").2.isSome
      = true := by
    decide +kernel
  refine ⟨c', hrun, hlocal', hasks, fun resp hresp' => ?_⟩
  rw [Checkpoints.verdict_fixed hrun hresp hresp' hlocal hlocal' "q"]
  exact hasks

end Sample

end Mmn
