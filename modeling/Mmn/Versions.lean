import Mmn.Lineage
import Mmn.Supply

/-!
# The versions of user content

A piece of user content is a root, or it names its root and the version it
follows. The ledger keeps for each root the hash of the latest version. A
version is valid if the version it follows is the latest, and has the same
sender and recipient; it is then the latest itself.

Where the ledger looks things up is not where they are decided. The version
followed is read from the transaction store, which has pending and failed
transactions too; the latest versions are read for the roots a block names,
changed in memory while its contents are checked, and written back with the
block. What holds all the time is that the latest versions, as recorded and
then changed by the block so far (`Store.current`), and the contents found
valid form lines, one for each root (`Lineage.Coherent`).
`versions_form_a_line` says it of whole runs. It needs that no content is
applied twice – a root applied again would start over – and that no two
different transactions with the same hash are stored.
-/

namespace Mmn

section

variable [Primitives]

/-! ## Contents as versions -/

/-- The content of a transaction. -/
def contentOf (tx : Transaction) : UserContent :=
  (unmarshalUserContent tx.extraInfo).getD UserContent.empty

/-- **Contents are versions**: named by their hashes, linked by the hashes
of their root and parent, and owned by sender and recipient. -/
def versions : Lineage Transaction String (String × String) where
  id tx := Transaction.hash (some tx)
  link tx :=
    if (contentOf tx).parentHash = "" ∧ (contentOf tx).rootHash = "" then none
    else some ((contentOf tx).rootHash, (contentOf tx).parentHash)
  owner tx := (tx.sender, tx.recipient)

/-- **What checking a content can do**: refuse it, accept a root, or accept
a version that follows the latest one of its root. -/
theorem validateUserContent_cases (tx : Transaction)
    (related : AList (fun _ : String => Transaction)) (latest : LatestVersions) :
    (∃ err, validateUserContent tx related latest = (latest, .error err)) ∨
      (versions.link tx = none ∧
        validateUserContent tx related latest
          = (latest.insert (versions.id tx) (versions.id tx), .ok ())) ∨
      ∃ root p parent, versions.link tx = some (root, p) ∧
      related.lookup p = some parent ∧
        parent.type = txTypeUserContent ∧ versions.owner parent = versions.owner tx ∧
        latest.lookup root = some p ∧
        validateUserContent tx related latest
          = (latest.insert root (versions.id tx), .ok ()) := by
  generalize h : validateUserContent tx related latest = out
  unfold validateUserContent at h
  dsimp only at h
  split at h
  · exact Or.inl ⟨_, h.symm⟩
  split at h
  · exact Or.inl ⟨_, h.symm⟩
  split at h
  · exact Or.inl ⟨_, h.symm⟩
  split at h
  · exact Or.inl ⟨_, h.symm⟩
  split at h
  · next hroot => exact Or.inr (Or.inl ⟨if_pos hroot, h.symm⟩)
  next hnot =>
  split at h
  · exact Or.inl ⟨_, h.symm⟩
  split at h
  · exact Or.inl ⟨_, h.symm⟩
  next parent hparent =>
  split at h
  · exact Or.inl ⟨_, h.symm⟩
  next hsame =>
  split at h
  · exact Or.inl ⟨_, h.symm⟩
  next latestHash hlatest =>
  split at h
  · exact Or.inl ⟨_, h.symm⟩
  next hfollows =>
  simp only [not_or, not_not] at hsame hfollows
  refine Or.inr (Or.inr ⟨_, _, parent, if_neg hnot, hparent, hsame.1, ?_, ?_, h.symm⟩)
  · exact congrArg₂ Prod.mk hsame.2.1 hsame.2.2
  · exact hlatest.trans (congrArg some hfollows)

/-! ## The latest versions -/

namespace Store

omit [Primitives] in
/-- The recorded latest versions, as texts. -/
def recorded (s : Store) (root : String) : Option String :=
  (s.latestVersions.lookup root).map hexEncode

omit [Primitives] in
/-- **The latest versions while a block is checked**: what the block has
read and changed, and the records for the rest. -/
def current (s : Store) (latest : LatestVersions) (root : String) : Option String :=
  (latest.lookup root).or (s.recorded root)

omit [Primitives] in
theorem current_insert (s : Store) (latest : LatestVersions) (root h : String) :
    s.current (latest.insert root h) = Function.update (s.current latest) root
      (some h) := by
  funext root'
  unfold current
  rw [Function.update_apply]
  split
  · next heq => rw [heq, AList.lookup_insert, Option.some_or]
  · next hne => rw [AList.lookup_insert_ne hne]

omit [Primitives] in
theorem current_loaded (s : Store) (roots : List String) :
    s.current (s.getBatchLatestVersionContentHash roots) = s.recorded := by
  funext root
  unfold current getBatchLatestVersionContentHash
  rw [AList.lookup_loadAll]
  split
  · exact Option.or_self
  · exact Option.none_or

end Store

omit [Primitives] in
/-- Every latest version is the text of some bytes. -/
def HexTexts (latest : LatestVersions) : Prop :=
  ∀ root h, latest.lookup root = some h → ∃ bs, h = hexEncode bs

theorem HexTexts.insert {latest : LatestVersions} (h : HexTexts latest)
    (root : String) (tx : Transaction) :
    HexTexts (latest.insert root (versions.id tx)) := by
  intro root' h' hlook
  by_cases heq : root' = root
  · rw [heq, AList.lookup_insert] at hlook
    exact ⟨_, (Option.some.inj hlook).symm⟩
  · rw [AList.lookup_insert_ne heq] at hlook
    exact h root' h' hlook

omit [Primitives] in
theorem hexTexts_loaded (s : Store) (roots : List String) :
    HexTexts (s.getBatchLatestVersionContentHash roots) := by
  intro root h hlook
  unfold Store.getBatchLatestVersionContentHash at hlook
  rw [AList.lookup_loadAll] at hlook
  split at hlook
  · obtain ⟨bs, -, rfl⟩ := Option.map_eq_some_iff.mp hlook
    exact ⟨bs, rfl⟩
  · cases hlook

/-! ## The transactions of a block -/

/-- The content of the transaction decodes. -/
def isContent (tx : Transaction) : Bool :=
  tx.type = txTypeUserContent && (unmarshalUserContent tx.extraInfo).isSome

/-- **A transaction succeeded**, according to its meta record. -/
def Succeeded (txMetas : AList TransactionMeta) (txHash : String) : Prop :=
  ∃ m, txMetas.lookup txHash = some m ∧ m.status = .success

omit [Primitives] in
/-- A record that is put changes what succeeded at its own key only. -/
theorem Succeeded.of_insert {txMetas : AList TransactionMeta} {txHash h : String}
    {m : TransactionMeta txHash} (hs : Succeeded (txMetas.insert txHash m) h) :
    (h = txHash ∧ m.status = .success) ∨ Succeeded txMetas h := by
  obtain ⟨m', hlook, hstatus⟩ := hs
  by_cases heq : h = txHash
  · subst heq
    rw [AList.lookup_insert] at hlook
    obtain rfl := Option.some.inj hlook
    exact Or.inl ⟨rfl, hstatus⟩
  · rw [AList.lookup_insert_ne heq] at hlook
    exact Or.inr ⟨m', hlook, hstatus⟩

/-- A transaction is set aside if it is a content. -/
theorem txContents_runTx (b : Block) (r : BlockRun) (tx : Transaction) :
    (runTx b r tx).txContents = r.txContents ++ [tx].filter isContent := by
  obtain ⟨-, hnone, heq⟩ | ⟨htype, hsome, related, roots, heq⟩ | ⟨htype, status, err,
    -, heq⟩ :=
    runTx_cases b r tx
  · have hnot : isContent tx = false := by
      unfold isContent
      rw [hnone]
      exact Bool.and_false _
    rw [heq, List.filter_cons, hnot]
    exact (List.append_nil _).symm
  · have hyes : isContent tx = true := by
      unfold isContent
      rw [htype, hsome]
      rfl
    rw [heq, List.filter_cons, hyes]
    rfl
  · have hnot : isContent tx = false := by
      unfold isContent
      rw [decide_eq_false htype]
      exact Bool.false_and _
    rw [heq, List.filter_cons, hnot]
    exact (List.append_nil _).symm

omit [Primitives] in
/-- A transaction without an amount is no transfer. -/
theorem applyTx_of_no_amount (state : LedgerState) {tx : Transaction}
    (hamount : tx.amount = none) :
    (applyTx state tx).2 ≠ .ok () := by
  unfold applyTx
  rw [hamount]
  exact fun h => by cases h

/-- No other transaction succeeds than a transfer with an amount. -/
theorem Succeeded.of_runTx {b : Block} {r : BlockRun} {tx : Transaction} {h : String}
    (hs : Succeeded (runTx b r tx).txMetas h) : Succeeded r.txMetas h ∨
      (tx.type ≠ txTypeUserContent ∧ tx.amount ≠ none ∧ versions.id tx = h) := by
  obtain ⟨-, -, heq⟩ | ⟨-, -, related, roots, heq⟩ | ⟨htype, status, err,
    hstatus, heq⟩ :=
    runTx_cases b r tx
  · rw [heq] at hs
    obtain ⟨-, hfailed⟩ | hs := hs.of_insert
    · cases hfailed
    · exact Or.inl hs
  · rw [heq] at hs
    exact Or.inl hs
  · rw [heq] at hs
    obtain ⟨hid, hsuccess⟩ | hs := hs.of_insert
    · refine Or.inr ⟨htype, fun hamount => ?_, hid.symm⟩
      obtain ⟨-, hok⟩ | ⟨hstatus, -⟩ := hstatus
      · exact applyTx_of_no_amount r.state hamount hok
      · exact absurd (hstatus.symm.trans hsuccess) (by decide)
    · exact Or.inl hs

/-- **The loop over the transactions** sets aside the contents, and no other
transaction succeeds than a transfer with an amount. -/
theorem foldl_runTx_contents (b : Block) (txs : List Transaction) (r : BlockRun) :
    (txs.foldl (runTx b) r).txContents = r.txContents ++ txs.filter isContent ∧
      ∀ h, Succeeded (txs.foldl (runTx b) r).txMetas h → Succeeded r.txMetas h ∨
        ∃ tx ∈ txs, tx.type ≠ txTypeUserContent ∧ tx.amount ≠ none ∧
        versions.id tx = h := by
  induction txs generalizing r with
  | nil => exact ⟨(List.append_nil _).symm, fun h hs => Or.inl hs⟩
  | cons tx txs ih =>
    obtain ⟨hcontents, hsucceeded⟩ := ih (runTx b r tx)
    refine ⟨?_, fun h hs => ?_⟩
    · rw [List.foldl_cons, hcontents, txContents_runTx, List.append_assoc,
        ← List.filter_append]
      rfl
    · obtain hs | ⟨tx', htx', htransfer⟩ := hsucceeded h hs
      · exact hs.of_runTx.imp_right fun htransfer =>
          ⟨tx, List.mem_cons_self, htransfer⟩
      · exact Or.inr ⟨tx', List.mem_cons_of_mem tx htx', htransfer⟩

/-! ## The contents of a block -/

/-- The contents of a list that are found valid, one after the other. -/
def validContents (related : AList (fun _ : String => Transaction)) :
    LatestVersions → List Transaction → List Transaction
  | _, [] => []
  | latest, tx :: txs =>
    match validateUserContent tx related latest with
    | (latest, .error _) => validContents related latest txs
    | (latest, .ok ()) => tx :: validContents related latest txs

theorem validContents_subset (related : AList (fun _ : String => Transaction))
    (latest : LatestVersions) (txs : List Transaction) :
    validContents related latest txs
      ⊆ txs := by
  induction txs generalizing latest with
  | nil => exact List.Subset.refl _
  | cons tx txs ih =>
    unfold validContents
    split
    · exact List.subset_cons_of_subset tx (ih _)
    · exact List.cons_subset_cons tx (ih _)

/-- A content that is refused, in the loop. -/
theorem runContent_of_error (b : Block)
    {related : AList (fun _ : String => Transaction)} {latest : LatestVersions}
    {tx : Transaction} {err : String}
    (h : validateUserContent tx related latest = (latest, .error err))
    (metas : AList TransactionMeta) :
    runContent b related (metas, latest) tx
      = (metas.insert (versions.id tx) (b.txMeta tx .failed err),
          latest) := by
  unfold runContent
  rw [h]
  rfl

/-- A content that is accepted, in the loop. -/
theorem runContent_of_ok (b : Block) {related : AList (fun _ : String => Transaction)}
    {latest latest' : LatestVersions} {tx : Transaction}
    (h : validateUserContent tx related latest = (latest', .ok ()))
    (metas : AList TransactionMeta) :
    runContent b related (metas, latest) tx
      = (metas.insert (versions.id tx) (b.txMeta tx .success ""),
          latest') := by
  unfold runContent
  rw [h]
  rfl

/-- **What a loop over contents leaves**: the latest versions and the valid
contents in lines, and success only where it was or a content is valid. -/
structure Leaves (s : Store) (metas : AList TransactionMeta)
    (accepted valid : List Transaction) (r : AList TransactionMeta × LatestVersions) :
    Prop where
  coherent : versions.Coherent (s.current r.2) (accepted ++ valid)
  texts : HexTexts r.2
  succeeded : ∀ h, Succeeded r.1 h → Succeeded metas h ∨ ∃ y ∈ valid,
    versions.id y = h

section

variable {s : Store} {b : Block} {related : AList (fun _ : String => Transaction)}
  {tx : Transaction} {txs : List Transaction} {metas : AList TransactionMeta}
  {latest latest' : LatestVersions} {accepted : List Transaction}

/-- A content that is not valid leaves the lines to the rest of the loop. -/
theorem Leaves.of_error {err : String}
    (herr : validateUserContent tx related latest = (latest, .error err))
    (hrest : Leaves s (metas.insert (versions.id tx) (b.txMeta tx .failed err))
      accepted (validContents related latest txs) (txs.foldl (runContent b related)
        (metas.insert (versions.id tx) (b.txMeta tx .failed err), latest))) :
    Leaves s metas accepted (validContents related latest (tx :: txs))
      ((tx :: txs).foldl (runContent b related) (metas, latest)) := by
  have hvalid : validContents related latest (tx :: txs)
      = validContents related latest txs := by
    rw [validContents, herr]
  rw [List.foldl_cons, runContent_of_error b herr, hvalid]
  refine ⟨hrest.coherent, hrest.texts, fun h hs =>
    (hrest.succeeded h hs).imp_left fun hs => ?_⟩
  obtain ⟨-, hstatus⟩ | hs := hs.of_insert
  · cases hstatus
  · exact hs

/-- The rest of the loop finds a valid content among the accepted ones. -/
theorem Leaves.of_ok (hok : validateUserContent tx related latest = (latest', .ok ()))
    (hrest : Leaves s (metas.insert (versions.id tx) (b.txMeta tx .success ""))
      (accepted ++ [tx])
      (validContents related latest' txs) (txs.foldl (runContent b related)
        (metas.insert (versions.id tx) (b.txMeta tx .success ""), latest'))) :
    Leaves s metas accepted (validContents related latest (tx :: txs))
      ((tx :: txs).foldl (runContent b related) (metas, latest)) := by
  have hvalid : validContents related latest (tx :: txs)
      = tx :: validContents related latest' txs := by
    rw [validContents, hok]
  rw [List.foldl_cons, runContent_of_ok b hok, hvalid]
  refine ⟨by simpa using hrest.coherent, hrest.texts, fun h hs => ?_⟩
  obtain hs | ⟨y, hy, hid⟩ := hrest.succeeded h hs
  · obtain ⟨heq, -⟩ | hs := hs.of_insert
    · exact Or.inr ⟨tx, List.mem_cons_self, heq.symm⟩
    · exact Or.inl hs
  · exact Or.inr ⟨y, List.mem_cons_of_mem tx hy, hid⟩

/-- **One content keeps the lines.** It fails, or it is a new first or next
version. -/
theorem validateUserContent_coherent
    (hcoherent : versions.Coherent (s.current latest) accepted)
    (htexts : HexTexts latest) (hnew : ∀ y ∈ accepted, versions.id y ≠ versions.id tx)
    (hparent : ∀ p parent, related.lookup p = some parent →
      parent.type = txTypeUserContent →
      ∀ y ∈ accepted, versions.id y = p → parent = y) :
    (∃ err, validateUserContent tx related latest = (latest, .error err)) ∨
      ∃ latest', validateUserContent tx related latest = (latest', .ok ()) ∧
        versions.Coherent (s.current latest') (accepted ++ [tx]) ∧
        HexTexts latest' := by
  obtain herr | ⟨hlink, hok⟩ | ⟨root, p, parent, hlink, hlook, htype, howner,
    hlatest, hok⟩ :=
    validateUserContent_cases tx related latest
  · exact Or.inl herr
  · refine Or.inr ⟨_, hok, ?_, htexts.insert _ tx⟩
    rw [Store.current_insert]
    exact hcoherent.root hlink hnew
  · refine Or.inr ⟨_, hok, ?_, htexts.insert _ tx⟩
    rw [Store.current_insert]
    have hcurrent : s.current latest root = some p := by
      unfold Store.current
      rw [hlatest, Option.some_or]
    refine hcoherent.next hlink hcurrent hnew fun y hy hid => ?_
    rw [← howner, hparent p parent hlook htype y hy hid]

/-- **The loop over the contents.** The contents are new, and the version a
content follows is the accepted one of that hash. -/
theorem leaves_foldl_runContent
    (hcoherent : versions.Coherent (s.current latest) accepted)
    (htexts : HexTexts latest) (hnodup : (txs.map versions.id).Nodup)
    (hnew : ∀ x ∈ txs, ∀ y ∈ accepted, versions.id y ≠ versions.id x)
    (hparent : ∀ p parent, related.lookup p = some parent →
      parent.type = txTypeUserContent →
      ∀ y, y ∈ accepted ∨ y ∈ txs → versions.id y = p → parent = y) :
    Leaves s metas accepted (validContents related latest txs)
      (txs.foldl (runContent b related) (metas, latest)) := by
  induction txs generalizing metas latest accepted with
  | nil =>
    refine ⟨?_, htexts, fun h hs => Or.inl hs⟩
    unfold validContents
    rw [List.append_nil]
    exact hcoherent
  | cons tx txs ih =>
    obtain ⟨htx, hnodup⟩ := List.nodup_cons.mp hnodup
    obtain ⟨err, herr⟩ | ⟨latest', hok, hcoherent', htexts'⟩ :=
      validateUserContent_coherent hcoherent htexts (hnew tx List.mem_cons_self)
        fun p parent hlook htype y hy => hparent p parent hlook htype y (Or.inl hy)
    · refine .of_error herr (ih hcoherent htexts hnodup (fun x hx => ?_) ?_)
      · exact hnew x (List.mem_cons_of_mem tx hx)
      · intro p parent hlook htype y hy
        exact hparent p parent hlook htype y (hy.imp_right (List.mem_cons_of_mem tx))
    · refine .of_ok hok (ih hcoherent' htexts' hnodup (fun x hx y hy heq => ?_) ?_)
      · obtain hy | hy := List.mem_append.mp hy
        · exact hnew x (List.mem_cons_of_mem tx hx) y hy heq
        · rw [List.mem_singleton.mp hy] at heq
          exact htx (List.mem_map.mpr ⟨x, hx, heq.symm⟩)
      · intro p parent hlook htype y hy
        refine hparent p parent hlook htype y ?_
        simp only [List.mem_append, List.mem_cons, List.not_mem_nil, or_false] at hy ⊢
        tauto

end

/-! ## Whole blocks -/

/-- What is found under a hash has it. -/
theorem lookup_indexByHash {txs : List Transaction} {h : String} {tx : Transaction}
    (hlook : (indexByHash txs).lookup h = some tx) :
    tx ∈ txs ∧ versions.id tx = h := by
  have hloop : ∀ (txs : List Transaction) (m : AList (fun _ : String => Transaction)),
      (txs.foldl (fun m tx => m.insert (Transaction.hash (some tx)) tx) m).lookup
        h = some tx →
      (tx ∈ txs ∧ versions.id tx = h) ∨ m.lookup h = some tx := by
    intro txs
    induction txs with
    | nil => exact fun m hm => Or.inr hm
    | cons tx' txs ih =>
      intro m hm
      obtain ⟨hmem, hid⟩ | hm := ih _ hm
      · exact Or.inl ⟨List.mem_cons_of_mem tx' hmem, hid⟩
      · by_cases heq : h = Transaction.hash (some tx')
        · rw [heq, AList.lookup_insert] at hm
          obtain rfl := Option.some.inj hm
          exact Or.inl ⟨List.mem_cons_self, heq.symm⟩
        · rw [AList.lookup_insert_ne heq] at hm
          exact Or.inr hm
  exact (hloop txs ∅ hlook).resolve_right (fun hm => by cases hm)

namespace Store

/-- The user contents of a block. -/
def blockContents (s : Store) (b : Block) : List Transaction :=
  (s.txsInBlock b).filter fun tx => tx.type = txTypeUserContent

/-- The loop over the transactions of a block. -/
def blockRun (s : Store) (b : Block) : BlockRun :=
  runTxs b (s.getAccountBatch (accAddrs (s.txsInBlock b))) (s.txsInBlock b)

/-- The transactions the contents of a block refer to. -/
def relatedContents (s : Store) (b : Block) : AList (fun _ : String => Transaction) :=
  indexByHash (s.getTxBatch (s.blockRun b).relatedContentHashes)

/-- **The contents of a block that are found valid** when it is applied. -/
def validContents (s : Store) (b : Block) : List Transaction :=
  Mmn.validContents (s.relatedContents b)
    (s.getBatchLatestVersionContentHash (s.blockRun b).rootContentHashes)
      (s.blockRun b).txContents

/-- The contents of a block, as the loop over its transactions sets them
aside. -/
theorem txContents_blockRun (s : Store) (b : Block) :
    (s.blockRun b).txContents = (s.blockContents b).filter isContent := by
  unfold blockContents
  rw [List.filter_filter]
  refine (foldl_runTx_contents b (s.txsInBlock b) _).1.trans
    (List.filter_congr fun tx _ => ?_)
  unfold isContent
  cases decide (tx.type = txTypeUserContent) <;> simp

omit [Primitives] in
/-- A transaction that is read is stored under its hash, or null is. -/
theorem mem_getTxBatch {s : Store} {hs : List String} {tx : Transaction}
    (h : tx ∈ s.getTxBatch hs) :
    (∃ h ∈ hs, s.txs.lookup h = some (some tx)) ∨ tx = Transaction.zero := by
  obtain ⟨key, hmem, hread⟩ := List.mem_filterMap.mp h
  obtain ⟨otx, hlook, rfl⟩ := Option.map_eq_some_iff.mp hread
  cases otx with
  | none => exact Or.inr rfl
  | some tx => exact Or.inl ⟨key, hmem, hlook⟩

theorem recorded_addBlock (s : Store) (b : BroadcastedBlock) :
    (s.addBlock b).recorded = s.recorded := by
  unfold recorded
  rw [latestVersions_addBlock]

/-- Applying a block writes back the latest versions. -/
theorem recorded_applyBlock {s : Store} {b : Block}
    (h : HexTexts (s.executeBlock b).latest) :
    (s.applyBlock b).recorded = s.current (s.executeBlock b).latest := by
  funext root
  show ((AList.writeAll _ (s.executeBlock b).latest s.latestVersions).lookup root).map
    hexEncode = _
  unfold current recorded
  rw [AList.lookup_writeAll]
  cases hlook : (s.executeBlock b).latest.lookup root with
  | none => rfl
  | some text =>
    obtain ⟨bs, rfl⟩ := h root text hlook
    rw [Option.map_some, Option.some_or, Option.map_some, hexDecode_hexEncode]
    rfl

theorem succeeded_of_addBlock {s : Store} {b : BroadcastedBlock} {h : String}
    (hs : Succeeded (s.addBlock b).txMetas h) : Succeeded s.txMetas h := by
  have hloop : ∀ (txs : List (Option Transaction)) (s : Store),
      Succeeded (txs.foldl (putTx b.slot b.hashString) s).txMetas h →
      Succeeded s.txMetas h := by
    intro txs
    induction txs with
    | nil => exact fun s hs => hs
    | cons tx txs ih =>
      intro s hs
      obtain ⟨-, hstatus⟩ | hs := (ih _ hs).of_insert
      · cases hstatus
      · exact hs
  unfold addBlock at hs
  exact (hloop b.blockTxs _ hs :)

theorem succeeded_of_applyBlock {s : Store} {b : Block} {h : String}
    (hs : Succeeded (s.applyBlock b).txMetas h) :
    Succeeded (s.executeBlock b).txMetas h ∨ Succeeded s.txMetas h := by
  obtain ⟨m, hlook, hstatus⟩ := hs
  change (AList.writeAll (fun _ m => m) (s.executeBlock b).txMetas s.txMetas).lookup h
    = some m at hlook
  rw [AList.lookup_writeAll] at hlook
  cases hnew : (s.executeBlock b).txMetas.lookup h with
  | none =>
    rw [hnew] at hlook
    exact Or.inr ⟨m, hlook, hstatus⟩
  | some m' =>
    rw [hnew] at hlook
    obtain rfl : m' = m := Option.some.inj hlook
    exact Or.inl ⟨m', hnew, hstatus⟩

end Store

/-! ## Runs -/

/-- **A ledger in use**, with what it has met. -/
structure VersionRun where
  store : Store
  tracker : TransactionTracker
  stored : List (Option Transaction)
  /-- The user contents of the blocks applied, oldest first. -/
  contents : List Transaction
  validated : List Transaction

namespace VersionRun

/-- One request. A block that is flagged, or whose application fails, is not
applied. -/
def step (v : VersionRun) : LedgerRequest → Option VersionRun
  | .addBlockPending b =>
    match v.store.addBlockPending b with
    | .ok s => some { v with store := s, stored := v.stored ++ b.blockTxs }
    | .error _ => some v
  | .finalizeBlock b isListener =>
    match Ledger.finalizeBlock v.store v.tracker b isListener with
    | none => none
    | some (s, t, .error _) => some { v with store := s, tracker := t }
    | some (s, t, .ok ()) =>
      if b.invalidPoH then some { v with store := s, tracker := t }
      else some { v with
        store := s
        tracker := t
        contents := v.contents ++ v.store.blockContents b
        validated := v.validated ++ v.store.validContents b }

/-- **The run keeps to the assumptions**: no content was applied twice, and
no two different transactions with the same hash were stored. -/
structure Fair (v : VersionRun) : Prop where
  distinct : (v.contents.map fun tx => Transaction.hash (some tx)).Nodup
  hashes : ∀ tx ∈ v.stored, ∀ tx' ∈ v.stored, Transaction.hash tx = Transaction.hash
    tx' → tx = tx'

/-- **The versions are in lines.** -/
structure Versioned (v : VersionRun) : Prop where
  keyed : ∀ h tx, v.store.txs.lookup h = some tx → Transaction.hash tx = h ∧
    tx ∈ v.stored
  /-- The recorded latest versions and the valid contents form lines. -/
  coherent : versions.Coherent v.store.recorded v.validated
  applied : ∀ x ∈ v.validated, x ∈ v.contents
  contents : ∀ x ∈ v.contents, x.type = txTypeUserContent ∧ some x ∈ v.stored
  succeeded : ∀ h, Succeeded v.store.txMetas h →
    (∃ x ∈ v.validated, versions.id x = h) ∨
    ∃ x, some x ∈ v.stored ∧ x.type ≠ txTypeUserContent ∧ versions.id x = h

/-- **What a request can do**: nothing but to the tracker, store a block at
a free slot, or apply a block. -/
theorem step_cases {v v' : VersionRun} {i : LedgerRequest} (h : v.step i = some v') :
    (∃ t, v' = { v with tracker := t }) ∨
      (∃ b, v' = { v with store := v.store.addBlock b, stored := v.stored
        ++ b.blockTxs }) ∨
      ∃ b t, v' = { v with
        store := v.store.applyBlock b
        tracker := t
        contents := v.contents ++ v.store.blockContents b
        validated := v.validated ++ v.store.validContents b } := by
  cases i with
  | addBlockPending b =>
    dsimp only [step] at h
    split at h
    · next s hok =>
      cases h
      obtain ⟨-, rfl⟩ := Store.addBlockPending_eq_ok.mp hok
      exact Or.inr (Or.inl ⟨b, rfl⟩)
    · cases h
      exact Or.inl ⟨v.tracker, rfl⟩
  | finalizeBlock b isListener =>
    dsimp only [step] at h
    split at h
    · cases h
    · next s t err hfin =>
      cases h
      obtain ⟨rfl, -⟩ | ⟨-, -, -, hok⟩ := finalizeBlock_cases hfin
      · exact Or.inl ⟨t, rfl⟩
      · cases hok
    · next s t hfin =>
      split at h
      · next hpoh =>
        cases h
        obtain ⟨rfl, -⟩ | ⟨-, hnot, -⟩ := finalizeBlock_cases hfin
        · exact Or.inl ⟨t, rfl⟩
        · rw [hpoh] at hnot
          cases hnot
      · next hpoh =>
        cases h
        obtain ⟨-, hflag | hnot⟩ | ⟨rfl, -⟩ := finalizeBlock_cases hfin
        · exact absurd hflag hpoh
        · exact absurd rfl hnot
        · exact Or.inr (Or.inr ⟨b, t, rfl⟩)

/-- A fair run was fair before its last step. -/
theorem Fair.of_step {v v' : VersionRun} {i : LedgerRequest} (h : v'.Fair)
    (hstep : v.step i = some v') : v.Fair := by
  obtain ⟨t, rfl⟩ | ⟨b, rfl⟩ | ⟨b, t, rfl⟩ := step_cases hstep
  · exact ⟨h.distinct, h.hashes⟩
  · exact ⟨h.distinct, fun tx htx tx' htx' =>
      h.hashes tx (List.mem_append_left _ htx) tx' (List.mem_append_left _ htx')⟩
  · refine ⟨?_, h.hashes⟩
    have hdistinct := h.distinct
    rw [List.map_append] at hdistinct
    exact (List.nodup_append.mp hdistinct).1

variable {v v' : VersionRun}

/-- A transaction that is read from the store was put into it, unless it is
the empty one. -/
theorem Versioned.mem_stored (h : v.Versioned) {hs : List String} {tx : Transaction}
    (htx : tx ∈ v.store.getTxBatch hs) (hzero : tx ≠ Transaction.zero) :
    some tx ∈ v.stored := by
  obtain ⟨key, -, hlook⟩ | heq := Store.mem_getTxBatch htx
  · exact (h.keyed key _ hlook).2
  · exact absurd heq hzero

omit [Primitives] in
theorem ne_zero_of_type {tx : Transaction} (h : tx.type = txTypeUserContent) :
    tx ≠ Transaction.zero := by
  rintro rfl
  cases h

/-- The contents of a block are of their type, and stored. -/
theorem Versioned.blockContents (h : v.Versioned) {b : Block} {x : Transaction}
    (hx : x ∈ v.store.blockContents b) :
    x.type = txTypeUserContent ∧ some x ∈ v.stored := by
  obtain ⟨hmem, htype⟩ := List.mem_filter.mp hx
  have htype := of_decide_eq_true htype
  exact ⟨htype, h.mem_stored hmem (ne_zero_of_type htype)⟩

theorem Versioned.leaves (h : v.Versioned) {b : Block}
    (hdistinct : ((v.contents ++ v.store.blockContents b).map versions.id).Nodup)
    (hhashes : ∀ tx ∈ v.stored, ∀ tx' ∈ v.stored,
      Transaction.hash tx = Transaction.hash tx' → tx = tx') :
    Leaves v.store (v.store.blockRun b).txMetas v.validated (v.store.validContents b)
      ((v.store.executeBlock b).txMetas, (v.store.executeBlock b).latest) := by
  rw [List.map_append, List.nodup_append] at hdistinct
  obtain ⟨-, hnodup, hdisjoint⟩ := hdistinct
  have hsub : ∀ x ∈ (v.store.blockRun b).txContents, x ∈ v.store.blockContents b := by
    intro x hx
    rw [Store.txContents_blockRun] at hx
    exact List.mem_of_mem_filter hx
  refine leaves_foldl_runContent ?_ (hexTexts_loaded _ _) ?_ ?_ ?_
  · rw [Store.current_loaded]
    exact h.coherent
  · rw [Store.txContents_blockRun]
    exact hnodup.sublist (List.filter_sublist.map _)
  · intro x hx y hy
    exact hdisjoint _ (List.mem_map_of_mem (h.applied y hy)) _
      (List.mem_map_of_mem (hsub x hx))
  · intro p parent hlook htype y hy hid
    obtain ⟨hread, hparent⟩ := lookup_indexByHash hlook
    have hystored : some y ∈ v.stored :=
      hy.elim (fun hy => (h.contents y (h.applied y hy)).2)
      (fun hy => (h.blockContents (hsub y hy)).2)
    exact Option.some.inj (hhashes _ (h.mem_stored hread (ne_zero_of_type htype))
      _ hystored (hparent.trans hid.symm))

/-- **Every request keeps the versions in lines**, as long as the run is
fair. -/
theorem Versioned.step {i : LedgerRequest} (h : v.Versioned)
    (hstep : v.step i = some v') (hfair : v'.Fair) : v'.Versioned := by
  obtain ⟨t, rfl⟩ | ⟨b, rfl⟩ | ⟨b, t, rfl⟩ := step_cases hstep
  · exact ⟨h.keyed, h.coherent, h.applied, h.contents, h.succeeded⟩
  · refine ⟨fun key tx hlook => ?_, ?_, h.applied, fun x hx => ?_, fun key hs => ?_⟩
    · obtain ⟨tx', hmem, hhash, hnew⟩ | ⟨-, hold⟩ := v.store.lookup_txs_addBlock b key
      · obtain rfl := Option.some.inj (hnew.symm.trans hlook)
        exact ⟨hhash, List.mem_append_right _ hmem⟩
      · obtain ⟨hhash, hmem⟩ := h.keyed key tx (hold.symm.trans hlook)
        exact ⟨hhash, List.mem_append_left _ hmem⟩
    · show versions.Coherent (v.store.addBlock b).recorded v.validated
      rw [Store.recorded_addBlock]
      exact h.coherent
    · exact (h.contents x hx).imp_right (List.mem_append_left _)
    · exact (h.succeeded key (Store.succeeded_of_addBlock hs)).imp_right
        fun ⟨x, hx, hrest⟩ =>
        ⟨x, List.mem_append_left _ hx, hrest⟩
  · have hleaves := h.leaves (b := b) hfair.distinct hfair.hashes
    refine ⟨h.keyed, ?_, fun x hx => ?_, fun x hx => ?_, fun key hs => ?_⟩
    · show versions.Coherent (v.store.applyBlock b).recorded _
      rw [Store.recorded_applyBlock hleaves.texts]
      exact hleaves.coherent
    · obtain hx | hx := List.mem_append.mp hx
      · exact List.mem_append_left _ (h.applied x hx)
      · have hcontent := validContents_subset _ _ _ hx
        rw [Store.txContents_blockRun] at hcontent
        exact List.mem_append_right _ (List.mem_of_mem_filter hcontent)
    · obtain hx | hx := List.mem_append.mp hx
      · exact h.contents x hx
      · exact h.blockContents hx
    · obtain hs | hs := Store.succeeded_of_applyBlock hs
      · obtain hs | ⟨y, hy, hid⟩ := hleaves.succeeded key hs
        · obtain hs | ⟨tx, htx, htype, hamount, hid⟩ :=
            (foldl_runTx_contents b _ _).2 key hs
          · obtain ⟨m, hlook, -⟩ := hs
            cases hlook
          · refine Or.inr ⟨tx, h.mem_stored htx ?_, htype, hid⟩
            rintro rfl
            exact hamount rfl
        · exact Or.inl ⟨y, List.mem_append_right _ hy, hid⟩
      · exact (h.succeeded key hs).imp_left fun ⟨x, hx, hid⟩ =>
          ⟨x, List.mem_append_left _ hx, hid⟩

theorem Versioned.start {s : Store} (htxs : s.txs = ∅) (hmetas : s.txMetas = ∅)
    (hlatest : s.latestVersions = ∅) (t : TransactionTracker) :
    Versioned ⟨s, t, [], [], []⟩ where
  keyed h tx hlook := by
    rw [htxs] at hlook
    cases hlook
  coherent := by
    have hnone : s.recorded = fun _ => none := by
      funext r
      unfold Store.recorded
      rw [hlatest]
      rfl
    show versions.Coherent s.recorded []
    rw [hnone]
    exact .empty versions
  applied _ hx := absurd hx List.not_mem_nil
  contents _ hx := absurd hx List.not_mem_nil
  succeeded h hs := by
    obtain ⟨m, hlook, -⟩ := hs
    rw [hmetas] at hlook
    cases hlook

/-- **A version that succeeded**: a stored content with the given root whose
meta record says so. -/
structure Succeeds (v : VersionRun) (root : String) (x : Transaction) : Prop where
  stored : some x ∈ v.stored
  type : x.type = txTypeUserContent
  rootHash : (contentOf x).rootHash = root
  succeeded : Succeeded v.store.txMetas (Transaction.hash (some x))

theorem Succeeds.mem_validated {root : String} {x : Transaction}
    (hx : v.Succeeds root x) (h : v.Versioned) (hfair : v.Fair) :
    x ∈ v.validated := by
  obtain ⟨y, hy, hid⟩ | ⟨y, hy, htype, hid⟩ := h.succeeded _ hx.succeeded
  · have heq := hfair.hashes _ (h.contents y (h.applied y hy)).2 _ hx.stored hid
    exact Option.some.inj heq ▸ hy
  · have heq := hfair.hashes _ hy _ hx.stored hid
    exact absurd hx.type (Option.some.inj heq ▸ htype)

theorem hash_ne_empty (tx : Option Transaction) : Transaction.hash tx ≠ "" := by
  intro h
  have hdecode : some (sha256 (Transaction.bytes tx)).toList = some [] := by
    rw [← hexDecode_hexEncode]
    exact congrArg hexDecode h
  have hlength := congrArg List.length (Option.some.inj hdecode)
  rw [List.Vector.toList_length] at hlength
  cases hlength

/-- **The versions of a content form one line.** After any requests on a
store without transactions, in which no content was applied twice and no two
different transactions with the same hash were stored: for every root with a
latest version there is a line of versions that were found valid, from the
latest back to the root, each following the next and all with the same
sender and recipient; every version of the root that succeeded is on it, and
no two of these follow the same version. -/
theorem versions_form_a_line {s : Store} (htxs : s.txs = ∅) (hmetas : s.txMetas = ∅)
    (hlatest : s.latestVersions = ∅) (t : TransactionTracker)
    (hrun : Machine.Run step Machine.Always ⟨s, t, [], [], []⟩ v) (hfair : v.Fair)
    {root latest : String} (hroot : v.store.recorded root = some latest) :
    ∃ chain, versions.Line root chain ∧ chain.head?.map versions.id = some latest ∧
      (∀ x ∈ chain, x ∈ v.validated) ∧
      (∃ x ∈ chain, (contentOf x).parentHash = "" ∧ (contentOf x).rootHash = "" ∧
        Transaction.hash (some x) = root) ∧
      (∀ x ∈ chain, ∀ y ∈ chain, x.sender = y.sender ∧ x.recipient = y.recipient) ∧
      (∀ x, v.Succeeds root x → x ∈ chain) ∧
      ∀ x y, v.Succeeds root x → v.Succeeds root y →
        (contentOf x).parentHash = (contentOf y).parentHash → x = y := by
  have hversioned : v.Fair → v.Versioned :=
    hrun.invariant (I := fun v => v.Fair → v.Versioned)
    (fun _ => .start htxs hmetas hlatest t) fun v i v' h _ hstep hfair' =>
      (h (hfair'.of_step hstep)).step hstep hfair'
  have h := hversioned hfair
  obtain ⟨x, xs, hid, hline, hnodup, hsub, hall⟩ := h.coherent.line root latest hroot
  obtain ⟨z, hz, hzlink, hzid⟩ := hline.exists_root
  have hzroot : (contentOf z).parentHash = "" ∧ (contentOf z).rootHash = "" := by
    by_contra hnot
    exact absurd hzlink (by
      show (if _ then none else some _) ≠ none
      rw [if_neg hnot]
      exact Option.some_ne_none _)
  have hlink : ∀ y, (contentOf y).rootHash = root →
      versions.link y = some (root, (contentOf y).parentHash) := by
    intro y hy
    show (if _ then none else some _) = _
    rw [if_neg, hy]
    rintro ⟨-, hempty⟩
    exact hash_ne_empty (some z) (hzid.trans (hy.symm.trans hempty))
  have hon : ∀ y, v.Succeeds root y → y ∈ x :: xs := fun y hy =>
    hall y (hy.mem_validated h hfair) (Or.inr ⟨_, hlink y hy.rootHash⟩)
  refine ⟨x :: xs, hline, congrArg some hid, hsub, ⟨z, hz, hzroot.1, hzroot.2, hzid⟩,
    ?_, hon, ?_⟩
  · intro y hy y' hy'
    exact Prod.mk.inj ((hline.owner_eq y hy).trans (hline.owner_eq y' hy').symm)
  · intro y y' hy hy' hparent
    refine hline.eq_of_link hnodup (hon y hy) (hon y' hy') (hlink y hy.rootHash) ?_
    rw [hparent]
    exact hlink y' hy'.rootHash

end VersionRun

end

/-! ## Examples -/

namespace Sample

/-- A note of a sender, made at a time, with a text that stands for its
links. -/
def note (sender : String) (now : UInt64) (links : String) : Transaction :=
  { Transaction.zero with
    type := txTypeUserContent
    sender := sender
    recipient := "bob"
    timestamp := now
    extraInfo := links }

/-- A root. -/
def rootNote : Transaction := note "alice" 1 ""

/-- The version after it. -/
def secondNote : Transaction := note "alice" 2 "root"

/-- Another version after the root, which comes too late. -/
def lateNote : Transaction := note "alice" 3 "root"

/-- The hash of a note. -/
def noteHash (tx : Transaction) : String := @Transaction.hash primitives (some tx)

/-- The links of a note. -/
def readNote (links : String) : Option UserContent :=
  let content :=
    { UserContent.empty with type := "note", title := "-", description := "-" }
  if links = "root" then some { content with
    rootHash := noteHash rootNote, parentHash := noteHash rootNote }
  else some content

/-- Primitives that evaluate and read notes. -/
@[reducible] def notePrimitives : Primitives :=
  { primitives with unmarshalUserContent := readNote }

end Sample

section Sample

attribute [local instance] Sample.notePrimitives

namespace Sample

/-- A block is stored and applied. -/
def applies (slot : UInt64) (txs : List Transaction) : List LedgerRequest :=
  [.addBlockPending (blockWith 1 slot 0 txs),
    .finalizeBlock (broadcastedBlockToBlock (blockWith 1 slot 0 txs)) true]

/-- The second note is the latest, and the run is fair. -/
def secondIsLatest (v : VersionRun) : Bool :=
  decide (v.contents.map fun tx => Transaction.hash (some tx)).Nodup &&
    decide (∀ tx ∈ v.stored, ∀ tx' ∈ v.stored,
      Transaction.hash tx = Transaction.hash tx' → tx = tx') &&
    decide (v.store.recorded (noteHash rootNote) = some (noteHash secondNote))

end Sample

open Sample

/-- Three notes in two blocks: the root and the second note are the line of
versions. -/
theorem two_notes_form_a_line :
    ∃ v, Machine.Run VersionRun.step Machine.Always ⟨.empty, .new, [], [], []⟩ v ∧
      ∃ chain, versions.Line (noteHash rootNote) chain ∧
        chain.head?.map versions.id = some (noteHash secondNote) ∧
        ∀ x, v.Succeeds (noteHash rootNote) x → x ∈ chain := by
  have hexec : (Machine.exec VersionRun.step Machine.Always ⟨.empty, .new, [], [], []⟩
      (applies 1 [rootNote, secondNote] ++ applies 2 [lateNote])).any
      secondIsLatest = true := by decide +kernel
  obtain ⟨v, hrun, htest⟩ := Machine.exists_run_of_exec hexec
  obtain ⟨hfair, hlatest⟩ := Bool.and_eq_true_iff.mp htest
  obtain ⟨hdistinct, hhashes⟩ := Bool.and_eq_true_iff.mp hfair
  obtain ⟨chain, hline, hhead, -, -, -, hall, -⟩ :=
    VersionRun.versions_form_a_line rfl rfl rfl .new hrun
      ⟨of_decide_eq_true hdistinct, of_decide_eq_true hhashes⟩
        (of_decide_eq_true hlatest)
  exact ⟨v, hrun, chain, hline, hhead, hall⟩

end Sample

end Mmn
