import Mmn.Operations

/-!
# The flag of invalid entries

A block whose entries do not follow from its previous hash is stored with
`InvalidPoH` set, and is never applied. The flag is part of `BlockCore`, and
so of the message a peer sends, and the two handlers only ever *set* it:
they recompute the verdict and raise the flag when it is bad, but a flag
that arrives raised stays raised when the verdict is good. Neither the
block's hash nor its signature covers it. Whoever relays a block can
therefore raise it, and a node that gets the block from there stores it and
never applies it (`flag_raised_by_peer`).

What a node stores is the flag it was sent or else the verdict
(`invalidPoH_markPoH_iff`), and it stays so, because stored blocks never
change. The flag is faithful exactly if the message came without it or
deserves it (`Node.flag_faithful_iff`).
-/

namespace Mmn

section

variable [Primitives]

/-- **What `markPoH` leaves in the flag**: what was there, or else a bad
verdict. -/
theorem BroadcastedBlock.invalidPoH_markPoH_iff (b : BroadcastedBlock) :
    b.markPoH.invalidPoH = true ↔
      b.invalidPoH = true ∨ verifyEntries b.prevHash b.entries b.slot ≠ .ok () := by
  unfold markPoH verifyPoH
  split
  · next err hbad => simp [hbad]
  · next hgood => simp [hgood]

namespace Node

variable {cfg : Config}

/-- **When the flag is faithful.** A block that is stored on receipt has,
from then on, its flag set exactly if its entries do not follow – if and
only if it came without the flag or its entries do not follow. -/
theorem flag_faithful_iff {n n' n'' : Node} {op : Operation} {blk : BroadcastedBlock}
    {b : Block} (hop : op.fromPeer = some blk) (hstep : n.operate cfg op = some n')
    (hfree : n.store.block blk.slot = none) (hstored : n'.store.block blk.slot ≠ none)
    (hlater : Later cfg n' n'') (hb : n''.store.block blk.slot = some b) :
    (b.invalidPoH = true ↔ verifyEntries blk.prevHash blk.entries blk.slot ≠ .ok ()) ↔
      (blk.invalidPoH = false ∨
        verifyEntries blk.prevHash blk.entries blk.slot ≠ .ok ()) := by
  obtain rfl | ⟨-, -, hchanges⟩ := changes_of_fromPeer hop hstep
  · exact absurd hfree hstored
  have hadd : (n.toCore.addBlock blk.markPoH).store.block blk.slot
      = some (broadcastedBlockToBlock blk.markPoH) := by
    show (n.store.addBlock blk.markPoH).block blk.slot = _
    rw [Store.block_addBlock, if_pos (BroadcastedBlock.slot_markPoH blk).symm]
  obtain ⟨status, hkept, -⟩ :=
    Core.Changes.block_of_block (hchanges.trans hlater.changes) hadd
  rw [hb] at hkept
  have hflag : b.invalidPoH = blk.markPoH.invalidPoH := by
    rw [Option.some.inj hkept]
    rfl
  rw [hflag, BroadcastedBlock.invalidPoH_markPoH_iff, ← Bool.not_eq_true]
  tauto

end Node

end

/-! ## Examples -/

section Sample

attribute [local instance] Sample.primitives

open Sample

/-- A block of slot 1 whose entries follow, with the flag a relay chooses. -/
def relayed (flag : Bool) :
    BroadcastedBlock := { blockWith 1 1 0 [] with invalidPoH := flag }

/-- **A node stores the block of slot 1** on an operation, with the flag,
and applies it or not. -/
def StoresWith (op : Operation) (flag applied : Bool) : Prop :=
  ∃ n n', Operated alone n ∧ n.store.block 1 = none ∧ n.operate alone op = some n' ∧
    (n'.store.block 1).map (fun b => b.invalidPoH) = some flag ∧
    n'.store.isApplied 1 = applied

/-- A node on a new database does, by evaluation. -/
theorem storesWith_of_test (op : Operation) (flag applied : Bool)
    (h : (initializeBlockchain [] 0).toOption.any (fun s =>
      (Machine.exec (Node.operate alone) Machine.Always
        (Node.new alone s.reopen) []).any
        (fun n => decide (n.store.block 1 = none) && (n.operate alone op).any
          (fun n' =>
          decide ((n'.store.block 1).map (fun b => b.invalidPoH) = some flag) &&
            decide (n'.store.isApplied 1 = applied)))) = true) :
    StoresWith op flag applied := by
  obtain ⟨n, hn, htest⟩ := exists_operated alone _ [] 0 [] h
  rw [Bool.and_eq_true, Option.any_eq_true, decide_eq_true_iff] at htest
  obtain ⟨hfree, n', hstep, hn'⟩ := htest
  rw [Bool.and_eq_true, decide_eq_true_iff, decide_eq_true_iff] at hn'
  exact ⟨n, n', hn, hfree, hstep, hn'⟩

/-- **A relay raises the flag of a good block**: on both ways the block is
stored with it and not applied, where without it the sync would apply it. -/
theorem flag_raised_by_peer :
    verifyEntries (relayed true).prevHash (relayed true).entries
      (relayed true).slot = .ok () ∧
      StoresWith (.onBlockReceived (relayed true)) true false ∧
      StoresWith (.processBlock (relayed true)) true false ∧
      StoresWith (.processBlock (relayed false)) false true :=
  ⟨by decide +kernel, storesWith_of_test _ _ _ (by decide +kernel),
    storesWith_of_test _ _ _ (by decide +kernel),
    storesWith_of_test _ _ _ (by decide +kernel)⟩

/-- Without the flag the block is stored as it deserves. -/
theorem flag_faithful_unflagged :
    ∃ n n' b, Operated alone n ∧
      n.operate alone (.onBlockReceived (relayed false)) = some n' ∧
      n'.store.block 1 = some b ∧
      (b.invalidPoH = true ↔
        verifyEntries (relayed false).prevHash (relayed false).entries
        (relayed false).slot ≠ .ok ()) := by
  obtain ⟨n, n', hn, hfree, hstep, hflag, -⟩ :
      StoresWith (.onBlockReceived (relayed false)) false true :=
    storesWith_of_test _ _ _ (by decide +kernel)
  obtain ⟨b, hb, -⟩ := Option.map_eq_some_iff.mp hflag
  have hstored : n'.store.block 1 ≠ none := by
    rw [hb]
    exact Option.some_ne_none b
  have hop : Operation.fromPeer (.onBlockReceived (relayed false))
      = some (relayed false) := rfl
  exact ⟨n, n', b, hn, hstep, hb,
    (Node.flag_faithful_iff hop hstep hfree hstored .refl hb).mpr (Or.inl rfl)⟩

end Sample

end Mmn
