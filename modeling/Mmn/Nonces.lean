import Mmn.Proposal
import Mmn.Steps

/-!
# The nonce a client is told

A nonce is a slot. A client that is about to make a transfer asks a node for
one, and the node answers with the slot *before* the one it finalized last,
to which the client adds one. Whether the mempool of the same node then
accepts the nonce is decided by another number, the slot up to which the
node has tried to finalize blocks that were voted for. The first is kept by
the block store, the second by the mempool; the sync stream moves the first
and not the second.

As long as a node finalizes by votes, the number of the mempool is never
behind that of the store (`Node.Ahead`). So a nonce that was handed out is
never too high, at whatever later time it is used; it is accepted until the
node is more than 150 slots further on, with one exception: a node that has
finalized no block but that of genesis hands out a nonce that is refused
(`nonce_accepted_iff`). A node that is behind and finalizes by the sync
stream hands out nonces that it refuses as too high
(`nonce_refused_after_sync`).
-/

namespace Mmn

/-! ## The service -/

/-- The answer to a question for a nonce. -/
structure GetCurrentNonceResponse where
  address : String
  nonce : UInt64
  tag : String
  error : String
deriving DecidableEq

/-- **The nonce of an account.** It does not depend on the account, and the
two tags mean the same. Before the first block is finalized the subtraction
wraps. -/
def AccountService.getCurrentNonce (s : Store) (addr tag : String) :
    GetCurrentNonceResponse :=
  if tag ≠ "latest" ∧ tag ≠ "pending" then
    { address := "", nonce := 0, tag := "",
      error := "invalid tag: must be 'latest' or 'pending'" }
  else { address := addr, nonce := s.latestFinalized - 1, tag := tag, error := "" }

section

variable [Primitives]

namespace Node

variable {cfg : Config} {n n' : Node}

/-! ## The two slots -/

/-- **The slot of the mempool is not behind**: it moves forward, and what is
finalized is not above it. -/
structure Ahead (n n' : Node) : Prop where
  le : n.mempool.netCurrentSlot ≤ n'.mempool.netCurrentSlot
  /-- The latest finalized slot is the same, or not above it. -/
  finalized : n'.store.latestFinalized = n.store.latestFinalized ∨
    n'.store.latestFinalized ≤ n'.mempool.netCurrentSlot

namespace Ahead

theorem of_eq (hstore : n'.store.latestFinalized = n.store.latestFinalized)
    (hmempool : n'.mempool.netCurrentSlot = n.mempool.netCurrentSlot) : Ahead n n' :=
  ⟨hmempool ▸ UInt64.le_refl _, Or.inl hstore⟩

theorem trans {n₁ n₂ n₃ : Node} (h : Ahead n₁ n₂) (h' : Ahead n₂ n₃) :
    Ahead n₁ n₃ where
  le := UInt64.le_trans h.le h'.le
  finalized := by
    obtain heq | hle := h'.finalized
    · rw [heq]
      exact h.finalized.imp_right fun hle => UInt64.le_trans hle h'.le
    · exact Or.inr hle

/-- **Applying the block of a slot** moves the slot of the mempool to it
first. -/
theorem of_applyDataToBlock {slot : UInt64} {r : Except String Unit}
    (h : n.applyDataToBlock cfg slot = some (n', r)) : Ahead n n' := by
  obtain rfl | ⟨b, t, hb, -, rfl | ⟨-, rfl⟩⟩ := applyDataToBlock_cases h
  · exact .of_eq rfl rfl
  · exact ⟨(n.mempool.le_setCurrentSlot slot).1, Or.inl rfl⟩
  · refine ⟨(n.mempool.le_setCurrentSlot slot).1, Or.inr ?_⟩
    show b.slot ≤ (n.mempool.setCurrentSlot slot).netCurrentSlot
    rw [Store.slot_of_block hb]
    exact (n.mempool.le_setCurrentSlot slot).2

theorem of_processVote {v : Vote} {r : Except String Unit}
    (h : n.processVote cfg v = some (n', r)) :
    Ahead n n' := by
  unfold processVote at h
  split at h
  · cases h
    exact .of_eq rfl rfl
  dsimp only at h
  split at h
  · cases h
    exact .of_eq rfl rfl
  split at h
  · refine trans ?_ (of_applyDataToBlock h)
    exact .of_eq rfl rfl
  · cases h
    exact .of_eq rfl rfl

theorem of_part (h : Part cfg n n') : Ahead n n' := by
  cases h with
  | same hstore _ hmempool => exact .of_eq (by rw [hstore]) (by rw [hmempool])
  | add blk _ hstore _ hmempool =>
    exact .of_eq (by rw [hstore, Store.addBlock, Store.foldl_putTx_frame])
      (by rw [hmempool])
  | vote v r h => exact .of_processVote h
  | put tx hstore _ hmempool =>
    exact .of_eq (by rw [hstore]) (by rw [hmempool, (n.mempool.put_frame tx).2.2])

theorem of_parts (h : Parts cfg n n') : Ahead n n' := by
  induction h with
  | refl => exact .of_eq rfl rfl
  | tail _ hlast ih => exact ih.trans (.of_part hlast)

theorem of_leaderBatch (h : n.leaderBatch cfg = some n') : Ahead n n' := by
  obtain ⟨-, rfl⟩ | ⟨mempool, _, _, _, _, _, -, hpull, rfl, -⟩ := leaderBatch_cases h
  · exact .of_eq rfl rfl
  · obtain ⟨mp, hdrop, rfl, -⟩ := Mempool.pullBatch_cases hpull
    have hkeep := Mempool.netCurrentSlot_dropAll hdrop
    exact .of_eq rfl hkeep

end Ahead

/-- The input is not a block of the sync stream. -/
def Unsynced (_ : Node) : Input → Prop
  | .syncResponse _ _ => False
  | _ => True

instance (n : Node) : (i : Input) → Decidable (n.Unsynced i)
  | .syncResponse _ _ => isFalse id
  | .block _ | .emptyBlocks _ | .vote _ | .transaction _ | .latestSlot _
    _ | .autoHash | .leaderBatch
  | .drainEntries | .tickAndFlush _ | .roleMonitor | .leaderWait _ | .broadcast _ _
    | .cleanupVotes
  | .expireDedup _ => isTrue trivial

/-- **Every step without the sync stream keeps the mempool ahead.** -/
theorem Ahead.of_step {i : Input} (hi : n.Unsynced i) (h : n.step cfg i = some n') :
    Ahead n n' := by
  by_cases hbatch : i = .leaderBatch
  · subst hbatch
    exact .of_leaderBatch h
  · refine .of_parts (parts_of_step hbatch ?_ h)
    rintro msg clock rfl
    exact hi

/-- **Without the sync stream**: the second node is reached from the first
by steps that are not blocks of the sync stream. -/
def ByVotes (cfg : Config) : Node → Node → Prop := Machine.Run (step cfg) Unsynced

theorem Ahead.of_byVotes (h : ByVotes cfg n n') : Ahead n n' :=
  h.invariant (I := Ahead n) (.of_eq rfl rfl) fun _ _ _ hahead hi hstep =>
    hahead.trans (.of_step hi hstep)

/-- When the services of a validator start, the mempool is told the latest
finalized slot. -/
theorem latestFinalized_le_of_startCoreServices (hlistener : cfg.isListener = false)
    (h : n.startCoreServices cfg = some n') :
    n'.store.latestFinalized ≤ n'.mempool.netCurrentSlot := by
  unfold startCoreServices at h
  rw [hlistener, if_neg Bool.false_ne_true] at h
  split at h
  · cases h
  · cases h
    exact (n.mempool.le_setCurrentSlot _).2

/-! ## The nonce -/

omit [Primitives] in
theorem getCurrentNonce_add_one (s : Store) (addr : String) {tag : String}
    (htag : tag = "latest" ∨ tag = "pending") :
    (AccountService.getCurrentNonce s addr tag).nonce + 1 = s.latestFinalized := by
  unfold AccountService.getCurrentNonce
  rw [if_neg (by rintro ⟨hlatest, hpending⟩; exact htag.elim hlatest hpending)]
  exact UInt64.sub_add_cancel _ _

omit [Primitives] in
/-- A nonce that is not above the slot of the mempool is accepted or too
low. -/
theorem validateNonce_of_le {mp : Mempool} {tx : Transaction}
    (hle : tx.nonce ≤ mp.netCurrentSlot) :
    mp.validateNonce [tx] = .ok () ∨ mp.validateNonce [tx]
      = .error (networkError "nonce_too_low" "Transaction nonce is too low") := by
  unfold Mempool.validateNonce
  rw [if_neg (UInt64.not_lt.mpr hle)]
  generalize (if mp.netCurrentSlot > nonceWindow
    then mp.netCurrentSlot - nonceWindow else 1) = minNonce
  by_cases hlow : tx.nonce < minNonce
  · exact Or.inr (if_pos hlow)
  · exact Or.inl (if_neg hlow)

/-- **When a nonce is accepted.** The services of a validator have started,
and from then on it finalizes by votes. A client asks for a nonce and uses
the next one, now or later. It is accepted exactly if the node had finalized
a block after that of genesis when it was asked, and the mempool is not more
than the window further on by now. Otherwise it is refused as too low; it is
never too high. -/
theorem nonce_accepted_iff (hlistener : cfg.isListener = false) {n₀ n₁ n₂ : Node}
    (hstart : n.startCoreServices cfg = some n₀) (hasked : ByVotes cfg n₀ n₁)
    (hused : ByVotes cfg n₁ n₂) (addr : String) {tag : String}
    (htag : tag = "latest" ∨ tag = "pending") {tx : Transaction}
    (hnonce : tx.nonce = (AccountService.getCurrentNonce n₁.store addr tag).nonce
      + 1) :
    (n₂.mempool.validateNonce [tx] = .ok () ↔
      n₁.store.latestFinalized ≠ 0 ∧
        n₂.mempool.netCurrentSlot.toNat
          ≤ n₁.store.latestFinalized.toNat + nonceWindow.toNat) ∧
      (n₂.mempool.validateNonce [tx] = .ok () ∨ n₂.mempool.validateNonce [tx]
        = .error (networkError "nonce_too_low" "Transaction nonce is too low")) := by
  have hahead := Ahead.of_byVotes hasked
  have hlater := (Ahead.of_byVotes hused).le
  have hstarted := latestFinalized_le_of_startCoreServices hlistener hstart
  -- what is finalized when the client asks is not above the slot of the
  -- mempool then, or later
  have hle : n₁.store.latestFinalized ≤ n₂.mempool.netCurrentSlot := by
    refine UInt64.le_trans ?_ hlater
    obtain heq | hle := hahead.finalized
    · rw [heq]
      exact UInt64.le_trans hstarted hahead.le
    · exact hle
  rw [getCurrentNonce_add_one _ _ htag] at hnonce
  have hpos : 1 ≤ n₁.store.latestFinalized.toNat ↔ n₁.store.latestFinalized ≠ 0 := by
    rw [Nat.one_le_iff_ne_zero, ne_eq, ne_eq, ← UInt64.toNat_inj]
    rfl
  refine ⟨?_, validateNonce_of_le (hnonce ▸ hle)⟩
  rw [Mempool.validateNonce_eq_ok, List.forall_mem_singleton, Mempool.minNonce_le_iff,
    hnonce, hpos]
  exact and_iff_left hle

end Node

end

/-! ## Examples -/

section Sample

attribute [local instance] Sample.primitives

open Sample

/-- A validator that is alone, on a database of genesis, when its services
have started. -/
def Sample.started : Option Node :=
  (initializeBlockchain [] 0).toOption.bind fun s =>
    (Node.new alone s.reopen).startCoreServices alone

/-- The nonce handed out before the first block is refused; the one handed
out after it is accepted. -/
theorem nonce_accepted_iff_first :
    ∃ n n₀ n₁ : Node, n.startCoreServices alone = some n₀ ∧ Node.ByVotes alone n₀ n₁ ∧
      n₀.mempool.validateNonce [transfer 2 1 30 0 0]
        = .error (networkError "nonce_too_low" "Transaction nonce is too low") ∧
      n₁.mempool.validateNonce [transfer 2 1 30 1 0] = .ok () := by
  have htest : (initializeBlockchain [] 0).toOption.any (fun s =>
      ((Node.new alone s.reopen).startCoreServices alone).any (fun n₀ =>
        decide (n₀.store.latestFinalized = 0) &&
        (Machine.exec (Node.step alone) Node.Unsynced n₀
          [.block (blockWith 1 1 0 [])]).any (fun n₁ =>
          decide (n₁.store.latestFinalized = 1)
            && decide (n₁.mempool.netCurrentSlot = 1))))
              = true := by
    decide +kernel
  obtain ⟨s, -, htest⟩ := Option.any_eq_true _ _ |>.mp htest
  obtain ⟨n₀, hstart, htest⟩ := Option.any_eq_true _ _ |>.mp htest
  rw [Bool.and_eq_true, decide_eq_true_iff] at htest
  obtain ⟨hzero, htest⟩ := htest
  obtain ⟨n₁, hrun, htest⟩ := Machine.exists_run_of_exec htest
  rw [Bool.and_eq_true, decide_eq_true_iff, decide_eq_true_iff] at htest
  have hnow : Node.ByVotes alone n₀ n₀ := .refl
  have hlater : Node.ByVotes alone n₁ n₁ := .refl
  have hnext : ∀ m : Node,
    (AccountService.getCurrentNonce m.store (keyID 2) "pending").nonce + 1
      = m.store.latestFinalized :=
        fun m => Node.getCurrentNonce_add_one _ _ (Or.inr rfl)
  refine ⟨_, n₀, n₁, hstart, hrun, ?_, ?_⟩
  · have hnonce : (transfer 2 1 30 0 0).nonce
        = (AccountService.getCurrentNonce n₀.store (keyID 2) "pending").nonce
            + 1 := by
      rw [hnext, hzero]
      rfl
    obtain ⟨hiff, hcases⟩ :=
      Node.nonce_accepted_iff rfl hstart hnow hnow (keyID 2) (Or.inr rfl) hnonce
    exact hcases.resolve_left fun hok => (hiff.mp hok).1 hzero
  · rw [(Node.nonce_accepted_iff rfl hstart hrun hlater (keyID 2) (Or.inr rfl)
      (by rw [hnext, htest.1]; rfl)).1, htest.1, htest.2]
    decide

/-- **A node that syncs refuses the nonces it hands out**: it has started,
and finalizes the block of slot 1 from the sync stream. -/
theorem nonce_refused_after_sync :
    ∃ n₀ n₁, Sample.started = some n₀ ∧
      Machine.Run (Node.step alone) Machine.Always n₀ n₁ ∧
      (AccountService.getCurrentNonce n₁.store (keyID 2) "pending").nonce + 1 = 1 ∧
      n₁.mempool.validateNonce [transfer 2 1 30 1 0]
        = .error (networkError "nonce_too_high" "Transaction nonce is too high") := by
  have htest : started.any
    (fun n₀ => (Machine.exec (Node.step alone) Machine.Always n₀
      [.latestSlot 1 0, .syncResponse (some (blockWith 1 1 0 [])) (fun _ => 0)]).any
        (fun n₁ =>
        decide ((AccountService.getCurrentNonce n₁.store (keyID 2) "pending").nonce
          + 1 = 1) &&
        decide (n₁.mempool.validateNonce [transfer 2 1 30 1 0]
          = .error (networkError "nonce_too_high" "Transaction nonce is too high"))))
              = true := by
    decide +kernel
  obtain ⟨n₀, hstarted, htest⟩ := Option.any_eq_true _ _ |>.mp htest
  obtain ⟨n₁, hrun, htest⟩ := Machine.exists_run_of_exec htest
  rw [Bool.and_eq_true, decide_eq_true_iff, decide_eq_true_iff] at htest
  exact ⟨n₀, n₁, hstarted, hrun, htest.1, htest.2⟩

end Sample

end Mmn
