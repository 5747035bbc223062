import Mmn.Sample
import Mmn.System

/-!
# Initializing a node twice

`mmn init` creates the accounts of the genesis configuration one by one,
stores the genesis block and marks it as finalized. It says of itself that
it is idempotent and safe to run multiple times. Here it is run with faults:
each call it makes to the database may succeed or fail, and before each the
process may stop.

The three parts are three kinds of writes, and only the presence of the
*block* tells a second run whether to do anything. A run that was cut off
after the first account finds that account existing and fails, every time;
one that was cut off between the block and its mark finds the block, skips
everything and leaves slot zero without its mark. So a second run repairs
the first exactly if there is nothing to repair: the first has finished, or
has written nothing at all (`initializeNode_again_iff`).
-/

namespace Mmn

namespace InitCmd

/-! ## Faults -/

/-- What becomes of a call to the database. -/
inductive Fate where
  | succeeds
  /-- It returns an error and writes nothing. -/
  | fails (err : String)
  | stops

/-- How a part of the command ends early. -/
inductive Halt where
  | failed (err : String)
  | stopped
  deriving DecidableEq

/-- The error is wrapped in another. -/
def Halt.within (lead : String) : Halt → Halt
  | failed err => failed (lead ++ err)
  | stopped => stopped

/-- A call, and the error its caller makes of its error. -/
def Fate.call (wrap : String → String) : Fate → Except Halt Unit
  | succeeds => .ok ()
  | fails err => .error (.failed (wrap err))
  | stops => .error .stopped

/-- **The calls of the command.** Those for the accounts are numbered by the
account. -/
structure Faults where
  /-- `HasCompleteBlock`, by which the command is skipped. -/
  hasGenesis : Fate
  /-- `ExistsByAddr`. -/
  existsByAddr : ℕ → Fate
  /-- `Store` of an account. -/
  store : ℕ → Fate
  /-- `Has` in `AddBlockPending`. -/
  hasBlock : Fate
  /-- The batch written by `AddBlockPending`. -/
  writeBlock : Fate
  /-- `HasCompleteBlock` in `FinalizeBlock`. -/
  hasStored : Fate
  /-- The batch written by `FinalizeBlock`. -/
  writeFinalized : Fate

/-- Every call succeeds. -/
def Faults.none : Faults :=
  { hasGenesis := .succeeds, existsByAddr := fun _ => .succeeds, store := fun _ =>
    .succeeds,
    hasBlock := .succeeds, writeBlock := .succeeds, hasStored :=
      .succeeds, writeFinalized :=
      .succeeds }

/-! ## The command -/

/-- **A read, what is decided by it, and a write.** The database is changed
by the write alone. -/
def around (read write : Except Halt Unit) (s : Store) (op : Except String Store) :
    Store × Except Halt Unit :=
  match read with
  | .error halt => (s, .error halt)
  | .ok () =>
    match op with
    | .error err => (s, .error (.failed err))
    | .ok s' =>
      match write with
      | .error halt => (s, .error halt)
      | .ok () => (s', .ok ())

/-- `createAccountWithoutLocking`. -/
def createAccountWithoutLocking (f : Faults) (i : ℕ) (s : Store) (addr : String)
    (balance : BitVec 256) :
    Store × Except Halt Unit :=
  around
    ((f.existsByAddr i).call
      (fun err => "could not check existence of account: " ++ err))
    ((f.store i).call (fun err =>
      "failed to store account: failed write account failed to write account to db: "
        ++ err))
    s (Ledger.createAccountWithoutLocking s addr balance)

/-- **`CreateAccountsFromGenesis`.** -/
def createAccountsFromGenesis (f : Faults) :
    ℕ → Store → List Ledger.Address → Store × Except Halt Unit
  | _, s, [] => (s, .ok ())
  | i, s, a :: addrs =>
    match createAccountWithoutLocking f i s a.address a.amount with
    | (s, .error halt) =>
      (s, .error
        (halt.within ("could not create genesis account " ++ a.address ++ ": ")))
    | (s, .ok ()) => createAccountsFromGenesis f (i + 1) s addrs

section

variable [Primitives]

/-- `AddBlockPending`. A failed batch leaves the database as it was; the
latest stored slot is kept in memory before the write, but slot zero is not
later than any. -/
def addBlockPending (f : Faults) (s : Store) (b : BroadcastedBlock) :
    Store × Except Halt Unit :=
  around (f.hasBlock.call (fun err => "failed to check block existence: " ++ err))
    (f.writeBlock.call (fun err => "failed to batch write to database: " ++ err))
    s (s.addBlockPending b)

omit [Primitives] in
/-- `FinalizeBlock`. A block whose presence cannot be read does not exist. -/
def finalizeBlock (f : Faults) (s : Store) (blk : Block) : Store × Except Halt Unit :=
  around (f.hasStored.call (fun _ => s!"block at slot {blk.slot} does not exist"))
    (f.writeFinalized.call (fun err => "failed to write batch: " ++ err))
    s (s.finalizeBlock blk ∅ ∅ ∅)

/-- `initializeBlockchainWithGenesis`. -/
def initializeBlockchainWithGenesis (f : Faults) (s : Store)
    (alloc : List Ledger.Address) (now : UInt64) :
    Store × Except Halt BroadcastedBlock :=
  match createAccountsFromGenesis f 0 s alloc with
  | (s, .error halt) =>
    (s, .error (halt.within "failed to create genesis alloc account: "))
  | (s, .ok ()) => (s, .ok (genesisBlock now))

/-- How the command ends. -/
inductive Outcome where
  | skipped
  /-- The genesis block is stored and finalized. -/
  | completed
  | failed (message err : String)
  | stopped
  deriving DecidableEq

/-- The end of the command by the end of a part. -/
def Halt.outcome (message : String) : Halt → Outcome
  | failed err => .failed message err
  | stopped => .stopped

/-- **`initializeNode`**, from the opening of the database on. -/
def initializeNode (f : Faults) (alloc : List Ledger.Address) (now : UInt64)
    (disk : Store) :
    Store × Outcome :=
  let s := disk.reopen
  -- A block whose presence cannot be read does not exist here either.
  let found := match f.hasGenesis with
    | .succeeds => some (s.hasCompleteBlock 0)
    | .fails _ => some false
    | .stops => none
  match found with
  | none => (s, .stopped)
  | some true => (s, .skipped)
  | some false =>
    match initializeBlockchainWithGenesis f s alloc now with
    | (s, .error halt) =>
      (s, halt.outcome "Failed to initialize blockchain with genesis:")
    | (s, .ok b) =>
      match addBlockPending f s b with
      | (s, .error halt) =>
        (s, halt.outcome "Failed to persist genesis block to database:")
      | (s, .ok ()) =>
        match finalizeBlock f s (broadcastedBlockToBlock b) with
        | (s, .error halt) => (s, halt.outcome "Failed to finalize genesis block :")
        | (s, .ok ()) => (s, .completed)

/-! ## One part of the command -/

section

variable {read write : Except Halt Unit} {s s' : Store} {op : Except String Store}

omit [Primitives] in
/-- **A part that succeeds** has read and written, and what it wrote is what
it should. -/
theorem around_eq_ok_iff :
    around read write s op = (s', .ok ()) ↔ read = .ok () ∧ op = .ok s' ∧
      write = .ok () := by
  unfold around
  cases read with
  | error => simp
  | ok =>
    cases op with
    | error => simp
    | ok =>
      cases write with
      | error => simp
      | ok => simp

omit [Primitives] in
/-- **A part that does not succeed leaves the database as it was.** -/
theorem eq_of_around_error {halt : Halt}
    (h : around read write s op = (s', .error halt)) :
    s' = s := by
  unfold around at h
  split at h
  · exact (congrArg Prod.fst h).symm
  · split at h
    · exact (congrArg Prod.fst h).symm
    · split at h
      · exact (congrArg Prod.fst h).symm
      · cases h

omit [Primitives] in
/-- Without faults a part succeeds if its checks pass. -/
theorem around_ok (h : op = .ok s') :
    around (.ok ()) (.ok ()) s op = (s', .ok ()) := by
  rw [h]
  rfl

end

/-! ## The accounts -/

section

omit [Primitives]

/-- The accounts of an allocation put into a database. -/
def withAccounts (s : Store) (alloc : List Ledger.Address) : Store :=
  { s with
    accounts := alloc.foldl
      (fun m a => m.insert a.address { balance := a.amount, nonce := 0 }) s.accounts }

/-- **The accounts of an allocation can be created**: their addresses are
distinct and new. -/
structure Fresh (s : Store) (alloc : List Ledger.Address) : Prop where
  nodup : (alloc.map Ledger.Address.address).Nodup
  new : ∀ a ∈ alloc, a.address ∉ s.accounts

/-- The account an allocation gives to an address. -/
def configured (alloc : List Ledger.Address) (addr : String) :
    Option (Account addr) :=
  (alloc.find? (fun a => a.address == addr)).map
    (fun a => { balance := a.amount, nonce := 0 })

variable {s s' : Store} {a : Ledger.Address} {alloc : List Ledger.Address}

theorem fresh_nil (s : Store) : Fresh s [] :=
  ⟨List.nodup_nil, fun _ ha => absurd ha List.not_mem_nil⟩

theorem fresh_cons_iff :
    Fresh s (a :: alloc) ↔ a.address ∉ s.accounts ∧
      Fresh (withAccounts s [a]) alloc := by
  have hmem : ∀ addr, addr ∈ (withAccounts s [a]).accounts ↔ addr = a.address ∨
      addr ∈ s.accounts :=
    fun addr => AList.mem_insert s.accounts
  constructor
  · rintro ⟨hnodup, hnew⟩
    rw [List.map_cons, List.nodup_cons] at hnodup
    refine ⟨hnew a List.mem_cons_self, hnodup.2, fun c hc hold => ?_⟩
    obtain heq | hold := (hmem c.address).mp hold
    · exact hnodup.1 (heq ▸ List.mem_map_of_mem hc)
    · exact hnew c (List.mem_cons_of_mem a hc) hold
  · rintro ⟨ha, hnodup, hnew⟩
    refine ⟨List.nodup_cons.mpr ⟨fun hold => ?_, hnodup⟩, fun c hc hold => ?_⟩
    · obtain ⟨c, hc, heq⟩ := List.mem_map.mp hold
      exact hnew c hc ((hmem c.address).mpr (Or.inl heq))
    · obtain rfl | hc := List.mem_cons.mp hc
      · exact ha hold
      · exact hnew c hc ((hmem c.address).mpr (Or.inr hold))

theorem configured_cons_self (a : Ledger.Address) (alloc : List Ledger.Address) :
    configured (a :: alloc) a.address = some { balance := a.amount, nonce := 0 } := by
  have hfirst : (a :: alloc).find? (fun c => c.address == a.address) = some a :=
    List.find?_cons_of_pos (beq_self_eq_true a.address)
  rw [configured, hfirst]
  rfl

theorem configured_cons_ne {addr : String} (h : a.address ≠ addr) :
    configured (a :: alloc) addr = configured alloc addr := by
  have hrest : (a :: alloc).find? (fun c => c.address == addr)
      = alloc.find? (fun c => c.address == addr) :=
    List.find?_cons_of_neg (by simpa using h)
  rw [configured, hrest]
  rfl

theorem configured_eq_none {addr : String}
    (h : addr ∉ alloc.map Ledger.Address.address) :
    configured alloc addr = none := by
  rw [configured, Option.map_eq_none_iff, List.find?_eq_none]
  intro c hc heq
  exact h (List.mem_map.mpr ⟨c, hc, eq_of_beq heq⟩)

/-- **What is found under an address** once the accounts are there. -/
theorem lookup_withAccounts (h : Fresh s alloc) (addr : String) :
    (withAccounts s alloc).accounts.lookup addr
      = (configured alloc addr).or (s.accounts.lookup addr) := by
  induction alloc generalizing s with
  | nil => rfl
  | cons a alloc ih =>
    obtain ⟨ha, hrest⟩ := fresh_cons_iff.mp h
    show (withAccounts (withAccounts s [a]) alloc).accounts.lookup addr = _
    rw [ih hrest]
    by_cases haddr : a.address = addr
    · subst haddr
      rw [configured_cons_self, configured_eq_none (List.nodup_cons.mp h.nodup).1]
      exact AList.lookup_insert _
    · rw [configured_cons_ne haddr]
      exact congrArg _ (AList.lookup_insert_ne (fun heq => haddr heq.symm))

/-- The accounts that were put are new ones, if there are any. -/
theorem accounts_withAccounts_eq_iff (h : Fresh s alloc) :
    (withAccounts s alloc).accounts = s.accounts ↔ alloc = [] := by
  refine ⟨fun heq => ?_, fun heq => by rw [heq]; rfl⟩
  cases alloc with
  | nil => rfl
  | cons a alloc =>
    have hlook := lookup_withAccounts h a.address
    have hnew := AList.lookup_eq_none.mpr (h.new a List.mem_cons_self)
    rw [heq, hnew, configured_cons_self] at hlook
    cases hlook

theorem ledger_createAccountWithoutLocking_eq_ok_iff :
    Ledger.createAccountWithoutLocking s a.address a.amount = .ok s' ↔
      a.address ∉ s.accounts ∧ s' = withAccounts s [a] := by
  unfold Ledger.createAccountWithoutLocking
  split
  · next hold => simp [hold]
  · next hnew =>
    rw [Except.ok.injEq]
    exact ⟨fun heq => ⟨hnew, heq.symm⟩, fun heq => heq.2.symm⟩

/-- **The accounts are created one by one**: those of the first entries of
the allocation, which are all of them exactly if the call succeeds. -/
theorem createAccountsFromGenesis_spec (f : Faults) (i : ℕ) (s : Store)
    (alloc : List Ledger.Address) :
    ∃ k ≤ alloc.length, (createAccountsFromGenesis f i s alloc).1 = withAccounts s
      (alloc.take k) ∧ Fresh s (alloc.take k) ∧
      ((createAccountsFromGenesis f i s alloc).2 = .ok () ↔ k = alloc.length) := by
  induction alloc generalizing i s with
  | nil => exact ⟨0, le_rfl, rfl, fresh_nil s, by simp [createAccountsFromGenesis]⟩
  | cons a alloc ih =>
    rw [createAccountsFromGenesis]
    split
    · next s₁ halt hcreate =>
      have hsame : s₁ = s := eq_of_around_error hcreate
      -- Nothing is created from here on, and nothing that was created is
      -- taken back.
      refine ⟨0, Nat.zero_le _, hsame, fresh_nil s, ?_⟩
      simp
    · next s₁ hcreate =>
      obtain ⟨-, hledger, -⟩ := around_eq_ok_iff.mp hcreate
      obtain ⟨hnew, rfl⟩ := ledger_createAccountWithoutLocking_eq_ok_iff.mp hledger
      obtain ⟨k, hk, hstore, hfresh, hok⟩ := ih (i + 1) (withAccounts s [a])
      refine ⟨k + 1, Nat.succ_le_succ hk, hstore,
        fresh_cons_iff.mpr ⟨hnew, hfresh⟩, ?_⟩
      rw [hok, List.length_cons, Nat.add_right_cancel_iff]

/-- Without faults all are created if they can be. -/
theorem createAccountsFromGenesis_none (i : ℕ) (h : Fresh s alloc) :
    createAccountsFromGenesis .none i s alloc = (withAccounts s alloc, .ok ()) := by
  induction alloc generalizing i s with
  | nil => rfl
  | cons a alloc ih =>
    obtain ⟨hnew, hrest⟩ := fresh_cons_iff.mp h
    have hledger := ledger_createAccountWithoutLocking_eq_ok_iff.mpr ⟨hnew, rfl⟩
    have hcreate : createAccountWithoutLocking .none i s a.address a.amount
        = (withAccounts s [a], .ok ()) :=
      around_ok hledger
    rw [createAccountsFromGenesis, hcreate]
    exact ih (i + 1) hrest

end

/-! ## What a run leaves -/

/-- The genesis block marked as finalized, in a database that holds it. -/
def markGenesis (now : UInt64) (s : Store) : Store :=
  s.putFinalized (broadcastedBlockToBlock (genesisBlock now)) ∅ ∅ ∅

/-- **What a run can leave** of a database: some of the accounts; all of
them and the block; or all of them and the block with its mark. -/
inductive Leftover (alloc : List Ledger.Address) (now : UInt64) (s : Store) :
    Store → Prop where
  | accounts (k : ℕ) (h : Fresh s (alloc.take k)) : Leftover alloc now s
    (withAccounts s (alloc.take k))
  | stored (h : Fresh s alloc) :
    Leftover alloc now s ((withAccounts s alloc).addBlock (genesisBlock now))
  | finalized (h : Fresh s alloc) :
    Leftover alloc now s
      (markGenesis now ((withAccounts s alloc).addBlock (genesisBlock now)))

variable {alloc : List Ledger.Address} {now : UInt64} {s disk : Store}

theorem finalizeBlock_genesis_eq_ok_iff {s' : Store} :
    s.finalizeBlock (broadcastedBlockToBlock (genesisBlock now)) ∅ ∅ ∅ = .ok s' ↔
      0 ∈ s.blocks ∧ s' = markGenesis now s := by
  rw [Store.finalizeBlock_eq_ok]
  exact ⟨fun h => ⟨h.1, h.2.2⟩, fun h =>
    ⟨h.1, fun e he => absurd he List.not_mem_nil, h.2⟩⟩

/-- **Every run leaves one of these.** -/
theorem leftover_initializeNode (f : Faults) (alloc : List Ledger.Address)
    (now : UInt64) (disk : Store) :
    Leftover alloc now disk.reopen (initializeNode f alloc now disk).1 := by
  have hnothing : Leftover alloc now disk.reopen disk.reopen :=
    .accounts 0 (fresh_nil _)
  unfold initializeNode
  dsimp only
  split
  · exact hnothing
  · exact hnothing
  · obtain ⟨k, -, hstore, hfresh, hok⟩ :=
      createAccountsFromGenesis_spec f 0 disk.reopen alloc
    unfold initializeBlockchainWithGenesis
    cases hcreate : createAccountsFromGenesis f 0 disk.reopen alloc with
    | mk s₁ end₁ =>
      rw [hcreate] at hstore hok
      cases end₁ with
      | error halt => exact hstore ▸ .accounts k hfresh
      | ok =>
        rw [hok.mp rfl, List.take_length] at hstore hfresh
        obtain rfl : s₁ = withAccounts disk.reopen alloc := hstore
        have hall : Leftover alloc now disk.reopen
            (withAccounts disk.reopen alloc) := by
          have hlast : Leftover alloc now disk.reopen _ :=
            .accounts alloc.length (by rwa [List.take_length])
          rwa [List.take_length] at hlast
        dsimp only
        split
        · next s₂ halt hadd => exact eq_of_around_error hadd ▸ hall
        · next s₂ hadd =>
          obtain ⟨-, hpending, -⟩ := around_eq_ok_iff.mp hadd
          obtain ⟨-, rfl⟩ := Store.addBlockPending_eq_ok.mp hpending
          split
          · next s₃ halt hfin => exact eq_of_around_error hfin ▸ .stored hfresh
          · next s₃ hfin =>
            obtain ⟨-, hmark, -⟩ := around_eq_ok_iff.mp hfin
            obtain ⟨-, rfl⟩ := finalizeBlock_genesis_eq_ok_iff.mp hmark
            exact .finalized hfresh

/-! ## A run without faults -/

section

omit [Primitives]

theorem blocks_reopen (s : Store) : s.reopen.blocks = s.blocks := by
  rw [Store.reopen_frame]

theorem finalized_reopen (s : Store) : s.reopen.finalized = s.finalized := by
  rw [Store.reopen_frame]

theorem accounts_reopen (s : Store) : s.reopen.accounts = s.accounts := by
  rw [Store.reopen_frame]

theorem fresh_reopen_iff : Fresh disk.reopen alloc ↔ Fresh disk alloc := by
  constructor
  · rintro ⟨hnodup, hnew⟩
    rw [accounts_reopen] at hnew
    exact ⟨hnodup, hnew⟩
  · rintro ⟨hnodup, hnew⟩
    rw [← accounts_reopen] at hnew
    exact ⟨hnodup, hnew⟩

end

/-- **A run that finds the block does nothing.** -/
theorem initializeNode_none_of_mem (h : 0 ∈ disk.blocks) (alloc : List Ledger.Address)
    (now : UInt64) :
    initializeNode .none alloc now disk = (disk.reopen, .skipped) := by
  have hfound : disk.reopen.hasCompleteBlock 0 = true :=
    Store.hasCompleteBlock_iff.mpr ((blocks_reopen disk).symm ▸ h)
  unfold initializeNode
  dsimp only [Faults.none]
  rw [hfound]

theorem mem_blocks_addGenesis (now : UInt64) (s : Store) :
    0 ∈ (s.addBlock (genesisBlock now)).blocks :=
  (Store.mem_blocks_addBlock s (genesisBlock now) 0).mpr (Or.inl rfl)

theorem mem_blocks_markGenesis (now : UInt64) (s : Store) :
    0 ∈ (markGenesis now s).blocks :=
  (AList.mem_insert s.blocks).mpr (Or.inl rfl)

/-- **A run that finds neither block nor accounts writes both**, and the
mark. -/
theorem initializeNode_none_of_fresh (h : 0 ∉ disk.blocks) (hfresh : Fresh disk alloc)
    (now : UInt64) :
    initializeNode .none alloc now disk
      = (markGenesis now ((withAccounts disk.reopen alloc).addBlock
        (genesisBlock now)), .completed) := by
  have hfree : 0 ∉ (withAccounts disk.reopen alloc).blocks :=
    (blocks_reopen disk).symm ▸ h
  have hfound : disk.reopen.hasCompleteBlock 0 = false :=
    Bool.eq_false_iff.mpr (fun htrue => hfree (Store.hasCompleteBlock_iff.mp htrue))
  have hcreate := createAccountsFromGenesis_none 0 (fresh_reopen_iff.mpr hfresh)
  have hadd : addBlockPending .none (withAccounts disk.reopen alloc)
    (genesisBlock now)
      = (_, .ok ()) :=
    around_ok (Store.addBlockPending_eq_ok.mpr ⟨hfree, rfl⟩)
  have hstored := mem_blocks_addGenesis now (withAccounts disk.reopen alloc)
  have hfin : finalizeBlock .none
    ((withAccounts disk.reopen alloc).addBlock (genesisBlock now))
      (broadcastedBlockToBlock (genesisBlock now)) = (_, .ok ()) :=
    around_ok (finalizeBlock_genesis_eq_ok_iff.mpr ⟨hstored, rfl⟩)
  unfold initializeNode initializeBlockchainWithGenesis
  dsimp only [show Faults.none.hasGenesis = .succeeds from rfl]
  rw [hfound, hcreate]
  dsimp only
  rw [hadd]
  dsimp only
  rw [hfin]
  rfl

/-- **A run that cannot create the accounts does not mark the block**,
whatever its faults. -/
theorem finalized_initializeNode_of_not_fresh (f : Faults)
    (hfresh : ¬Fresh disk alloc) (now : UInt64) :
    (initializeNode f alloc now disk).1.finalized = disk.finalized := by
  have hleft := leftover_initializeNode f alloc now disk
  generalize (initializeNode f alloc now disk).1 = s at hleft
  cases hleft with
  | accounts k => exact finalized_reopen disk
  | stored h => exact absurd (fresh_reopen_iff.mp h) hfresh
  | finalized h => exact absurd (fresh_reopen_iff.mp h) hfresh

/-! ## Running the command again -/

/-- **A database that is initialized**: the genesis block is finalized, and
the accounts are exactly the configured ones. -/
structure Initialized (alloc : List Ledger.Address) (s : Store) : Prop where
  finalized : 0 ∈ s.finalized
  block : ∃ now, s.block 0
    = some { broadcastedBlockToBlock (genesisBlock now) with status := .finalized }
  accounts : ∀ addr, s.accounts.lookup addr = configured alloc addr

theorem initialized_markGenesis (hempty : s.accounts = ∅) (hfresh : Fresh s alloc)
    (now : UInt64) :
    Initialized alloc
      (markGenesis now ((withAccounts s alloc).addBlock (genesisBlock now))) := by
  refine ⟨Finset.mem_insert_self 0 _, ⟨now, ?_⟩, fun addr => ?_⟩
  · exact (Store.block_putFinalized _ _ _ _ _ 0).trans (if_pos rfl)
  · show ((withAccounts s alloc).addBlock (genesisBlock now)).accounts.lookup addr = _
    rw [Store.accounts_addBlock, lookup_withAccounts hfresh, hempty]
    exact Option.or_none

omit [Primitives] in
/-- An allocation can be created on an empty table exactly if its addresses
are distinct. -/
theorem fresh_iff_of_empty (hempty : s.accounts = ∅) :
    Fresh s alloc ↔ (alloc.map Ledger.Address.address).Nodup := by
  refine ⟨Fresh.nodup, fun hnodup => ⟨hnodup, fun a _ hmem => ?_⟩⟩
  rw [hempty] at hmem
  exact AList.notMem_empty a.address hmem

/-- **On a database without the block** a run without faults initializes
exactly if there are no accounts yet and the addresses are distinct. -/
theorem initialized_none_iff (hfree : 0 ∉ disk.blocks) (hmark : 0 ∉ disk.finalized)
    (now : UInt64) :
    Initialized alloc (initializeNode .none alloc now disk).1 ↔
      disk.accounts = ∅ ∧ (alloc.map Ledger.Address.address).Nodup := by
  constructor
  · intro h
    have hfresh : Fresh disk alloc := by
      by_contra hnot
      have hsame := finalized_initializeNode_of_not_fresh .none hnot now
      exact hmark (hsame ▸ h.finalized)
    refine ⟨AList.eq_empty_of_lookup (fun addr => ?_), hfresh.nodup⟩
    -- An account the allocation does not name would be left beside those it
    -- names.
    have hreopen := fresh_reopen_iff.mpr hfresh
    have hlook := h.accounts addr
    rw [initializeNode_none_of_fresh hfree hfresh] at hlook
    change ((withAccounts disk.reopen alloc).addBlock
      (genesisBlock now)).accounts.lookup addr = _ at hlook
    rw [Store.accounts_addBlock, lookup_withAccounts hreopen, accounts_reopen]
      at hlook
    by_cases hnamed : addr ∈ alloc.map Ledger.Address.address
    · obtain ⟨a, ha, rfl⟩ := List.mem_map.mp hnamed
      exact AList.lookup_eq_none.mpr (hfresh.new a ha)
    · rwa [configured_eq_none hnamed, Option.none_or] at hlook
  · rintro ⟨hempty, hnodup⟩
    have hfresh : Fresh disk alloc := (fresh_iff_of_empty hempty).mpr hnodup
    rw [initializeNode_none_of_fresh hfree hfresh]
    exact initialized_markGenesis ((accounts_reopen disk).trans hempty)
      (fresh_reopen_iff.mpr hfresh) now

omit [Primitives] in
theorem ledger_createAccountsFromGenesis_eq_ok_iff {s s' : Store} :
    Ledger.createAccountsFromGenesis s alloc = .ok s' ↔ Fresh s alloc ∧
      s' = withAccounts s alloc := by
  induction alloc generalizing s with
  | nil =>
    rw [Ledger.createAccountsFromGenesis, Except.ok.injEq]
    exact ⟨fun h => ⟨fresh_nil s, h.symm⟩, fun h => h.2.symm⟩
  | cons a alloc ih =>
    rw [Ledger.createAccountsFromGenesis, fresh_cons_iff]
    split
    · next err hfail =>
      have hold : ¬a.address ∉ s.accounts := fun hnew => by
        rw [ledger_createAccountWithoutLocking_eq_ok_iff.mpr ⟨hnew, rfl⟩] at hfail
        cases hfail
      simp [hold]
    · next s₁ hcreate =>
      obtain ⟨hnew, rfl⟩ := ledger_createAccountWithoutLocking_eq_ok_iff.mp hcreate
      rw [ih]
      exact ⟨fun h => ⟨⟨hnew, h.1⟩, h.2⟩, fun h => ⟨h.1.2, h.2⟩⟩

/-- **The database of a new node is what a run without faults makes of an
empty one**, and there is one exactly if the addresses are distinct. -/
theorem initializeBlockchain_eq_ok_iff :
    initializeBlockchain alloc now = .ok s ↔
      (alloc.map Ledger.Address.address).Nodup ∧
      s = (initializeNode .none alloc now Store.empty).1 := by
  have hfree : 0 ∉ Store.empty.blocks := AList.notMem_empty 0
  have hfresh : Fresh Store.empty alloc ↔ _ := fresh_iff_of_empty rfl
  constructor
  · intro h
    unfold initializeBlockchain at h
    split at h
    · cases h
    · next s₁ hcreate =>
      obtain ⟨hnew, rfl⟩ := ledger_createAccountsFromGenesis_eq_ok_iff.mp hcreate
      split at h
      · cases h
      · next s₂ hadd =>
        obtain ⟨-, rfl⟩ := Store.addBlockPending_eq_ok.mp hadd
        obtain ⟨-, rfl⟩ := finalizeBlock_genesis_eq_ok_iff.mp h
        rw [initializeNode_none_of_fresh hfree hnew]
        exact ⟨hnew.nodup, rfl⟩
  · rintro ⟨hnodup, rfl⟩
    have hnew := hfresh.mpr hnodup
    have hadd := Store.addBlockPending_eq_ok.mpr
      ⟨show (genesisBlock now).slot ∉ (withAccounts Store.empty alloc).blocks
        from hfree, rfl⟩
    unfold initializeBlockchain
    rw [ledger_createAccountsFromGenesis_eq_ok_iff.mpr ⟨hnew, rfl⟩]
    dsimp only
    rw [hadd, initializeNode_none_of_fresh hfree hnew]
    exact finalizeBlock_genesis_eq_ok_iff.mpr ⟨mem_blocks_addGenesis now _, rfl⟩

omit [Primitives] in
theorem block_reopen (s : Store) (slot : UInt64) :
    s.reopen.block slot = s.block slot := by
  unfold Store.block
  rw [blocks_reopen]

theorem Initialized.reopen (h : Initialized alloc s) :
    Initialized alloc s.reopen := by
  refine ⟨?_, ?_, ?_⟩
  · rw [finalized_reopen]
    exact h.finalized
  · rw [block_reopen]
    exact h.block
  · rw [accounts_reopen]
    exact h.accounts

omit [Primitives] in
/-- **A failing call leaves the accounts of the entries before the failing
one.** -/
theorem createAccountsFromGenesis_of_error {f : Faults} {i : ℕ} {halt : Halt}
    (h : (createAccountsFromGenesis f i s alloc).2 = .error halt) :
    ∃ k < alloc.length, (createAccountsFromGenesis f i s alloc).1 = withAccounts s
      (alloc.take k) ∧
      ((createAccountsFromGenesis f i s alloc).1.accounts = s.accounts ↔ k = 0) := by
  obtain ⟨k, hk, hstore, hfresh, hok⟩ := createAccountsFromGenesis_spec f i s alloc
  have hlt : k < alloc.length := by
    refine lt_of_le_of_ne hk (fun heq => ?_)
    rw [hok.mpr heq] at h
    cases h
  refine ⟨k, hlt, hstore, ?_⟩
  rw [hstore, accounts_withAccounts_eq_iff hfresh, List.take_eq_nil_iff]
  refine ⟨fun h => h.resolve_right (fun hnil => ?_), Or.inl⟩
  rw [hnil] at hlt
  exact absurd hlt (Nat.not_lt_zero k)

/-- **A second run repairs the first exactly if there is nothing to
repair**: the first has marked the genesis block, or it has written nothing
and the addresses are distinct. And a failing call of
`CreateAccountsFromGenesis` leaves the accounts of the entries before the
failing one. -/
theorem initializeNode_again_iff (f : Faults) (alloc : List Ledger.Address)
    (now now' : UInt64) :
    (Initialized alloc
        (initializeNode .none alloc now' (initializeNode f alloc now Store.empty).1).1
          ↔
      0 ∈ (initializeNode f alloc now Store.empty).1.finalized ∨
        ((initializeNode f alloc now Store.empty).1.accounts = ∅ ∧
          0 ∉ (initializeNode f alloc now Store.empty).1.blocks ∧
          (alloc.map Ledger.Address.address).Nodup)) ∧
    (∀ i s err, (createAccountsFromGenesis f i s alloc).2 = .error (.failed err) →
      ∃ k < alloc.length, (createAccountsFromGenesis f i s alloc).1
        = withAccounts s (alloc.take k) ∧
        ((createAccountsFromGenesis f i s alloc).1.accounts = s.accounts ↔
          k = 0)) := by
  refine ⟨?_, fun i s err h => createAccountsFromGenesis_of_error h⟩
  have hleft := leftover_initializeNode f alloc now Store.empty
  generalize (initializeNode f alloc now Store.empty).1 = disk at hleft ⊢
  cases hleft with
  | accounts k hfresh =>
    have hfree : 0 ∉ (withAccounts Store.empty.reopen (alloc.take k)).blocks :=
      AList.notMem_empty 0
    have hmark : 0 ∉ (withAccounts Store.empty.reopen (alloc.take k)).finalized :=
      Finset.notMem_empty 0
    rw [initialized_none_iff hfree hmark]
    exact ⟨fun h => Or.inr ⟨h.1, hfree, h.2⟩,
      fun h => (h.resolve_left hmark).imp_right And.right⟩
  | stored hfresh =>
    -- The block is found, and the mark is never made.
    have hblock := mem_blocks_addGenesis now (withAccounts Store.empty.reopen alloc)
    have hmark : 0
        ∉ ((withAccounts Store.empty.reopen alloc).addBlock
          (genesisBlock now)).finalized := by
      rw [Store.finalized_addBlock]
      exact Finset.notMem_empty 0
    rw [initializeNode_none_of_mem hblock]
    constructor
    · intro h
      have hfinalized := h.finalized
      rw [finalized_reopen] at hfinalized
      exact absurd hfinalized hmark
    · rintro (h | ⟨-, hfree, -⟩)
      · exact absurd h hmark
      · exact absurd hblock hfree
  | finalized hfresh =>
    have hblock := mem_blocks_markGenesis now
      ((withAccounts Store.empty.reopen alloc).addBlock (genesisBlock now))
    have hinit := initialized_markGenesis rfl hfresh now
    rw [initializeNode_none_of_mem hblock]
    exact ⟨fun _ => Or.inl hinit.finalized, fun _ => hinit.reopen⟩

end

section

attribute [local instance] Sample.primitives

/-- Two accounts. -/
def twoAccounts : List Ledger.Address := [⟨"alice", 70⟩, ⟨"bob", 30⟩]

/-- The second account cannot be written. -/
def secondStoreFails : Faults :=
  { Faults.none with
    store := fun i => if i = 1 then .fails "no space left on device" else .succeeds }

/-- The process stops between the block and its mark. -/
def stopsBeforeMark : Faults := { Faults.none with writeFinalized := .stops }

/-- **Two runs that no second run repairs.** If the second account cannot be
written the first stays, and the second run fails at it; and if the process
stops before the mark is made, the second run skips everything. -/
theorem initializeNode_not_repaired :
    (twoAccounts.map Ledger.Address.address).Nodup ∧
      (initializeNode secondStoreFails twoAccounts 0 Store.empty).2
        = .failed "Failed to initialize blockchain with genesis:"
            ("failed to create genesis alloc account: could not create genesis account bob: " ++
              "failed to store account: failed write account failed to write account to db: " ++
              "no space left on device") ∧
      (initializeNode secondStoreFails twoAccounts 0 Store.empty).1.accounts.keys =
        ["alice"] ∧
      (initializeNode .none twoAccounts 1
          (initializeNode secondStoreFails twoAccounts 0 Store.empty).1).2
        = .failed "Failed to initialize blockchain with genesis:"
            ("failed to create genesis alloc account: could not create genesis account alice: " ++
              "account existed") ∧
      0 ∉ (initializeNode .none twoAccounts 1
          (initializeNode secondStoreFails twoAccounts 0 Store.empty).1).1.finalized ∧
      (initializeNode .none twoAccounts 1
          (initializeNode stopsBeforeMark twoAccounts 0 Store.empty).1).2 = .skipped ∧
      0 ∉ (initializeNode .none twoAccounts 1
          (initializeNode stopsBeforeMark twoAccounts 0
            Store.empty).1).1.finalized := by
  decide +kernel

end

end InitCmd
end Mmn
