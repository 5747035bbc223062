import Mmn.Accounting
import Mmn.Versions

/-!
# Two checks of user content

User content is checked twice by separate code: at admission, with single
reads of the transaction store, and when its block is applied, against maps
that were filled by batch reads. Both ask the same things – the fields, the
address, the references, the version that is followed – and differ in where
they look. `Acceptable` is what they ask, over any source of transactions
and of latest versions; each check is `Acceptable` over its own source
(`Mempool.validateUserContent_eq_ok`, `validateUserContent_eq_ok`).

The sources differ in one point. Admission counts what is stored *under* the
hashes a content refers to. The ledger files what it reads by the hash *of*
it, computed again. For a stored transaction that is the same hash. A null
transaction, though, is stored under the hash of null and read back as the
zero transaction, which has another hash. So the two checks agree exactly
where no admissible content refers to a stored null
(`content_checks_agree_iff`), and a block that brought one is enough to make
them disagree (`admitted_but_refused`).
-/

namespace Mmn

section

variable [Primitives]

/-! ## What both checks ask -/

/-- **Acceptable content**, where `found` are the hashes that may be
referred to, `read` gives the version followed and `latest` the latest
version of a root. -/
structure Acceptable (tx : Transaction) (content : UserContent)
    (found : String → Prop) (read : String → Option Transaction)
    (latest : String → Option String) : Prop where
  fields : isBlank content.type = false ∧ isBlank content.title = false ∧
    isBlank content.description = false
  address : shouldValidateAddress content.type = true →
    validateTxAddress tx.recipient = true
  few : content.referenceTxHashes.length ≤ maxReferenceTxs
  references : ∀ h ∈ content.referenceTxHashes, found h
  /-- It is a root, or follows the latest version of its root, by the same
  sender to the same recipient. -/
  follows : (content.parentHash = "" ∧ content.rootHash = "") ∨
    (content.parentHash ≠ "" ∧ content.rootHash ≠ "" ∧
      (∃ parent, read content.parentHash = some parent ∧
        parent.type = txTypeUserContent ∧
        parent.sender = tx.sender ∧ parent.recipient = tx.recipient) ∧
      latest content.rootHash = some content.parentHash)

omit [Primitives] in
/-- The latest version as admission reads it, without a record the empty
text, is a text that is not empty exactly if it is the recorded one. -/
theorem Store.getLatestVersionContentHash_eq {s : Store} {root h : String}
    (hne : h ≠ "") :
    s.getLatestVersionContentHash root = h ↔ s.recorded root = some h := by
  unfold getLatestVersionContentHash recorded
  cases s.latestVersions.lookup root with
  | none => simp [hne.symm]
  | some bs => simp

/-! ### Chains of checks

Both functions are chains of checks that end at the first failure; the
ledger's answers come with its map. -/

section Chains

variable {ε σ : Type} {c : Prop} [Decidable c]

omit [Primitives] in
theorem ite_error_eq_ok {e : ε} {rest : Except ε Unit} :
    (if c then .error e else rest) = .ok () ↔ ¬c ∧ rest = .ok () := by
  split <;> simp [*]

omit [Primitives] in
theorem ite_ok_eq_ok {rest : Except ε Unit} :
    (if c then .ok () else rest) = .ok () ↔ c ∨ rest = .ok () := by
  split <;> simp [*]

omit [Primitives] in
theorem ite_error_snd_eq_ok {s : σ} {e : ε} {rest : σ × Except ε Unit} :
    (if c then (s, .error e) else rest).2 = .ok () ↔ ¬c ∧ rest.2 = .ok () := by
  split <;> simp [*]

omit [Primitives] in
theorem ite_ok_snd_eq_ok {s : σ} {rest : σ × Except ε Unit} :
    (if c then (s, .ok ()) else rest).2 = .ok () ↔ c ∨ rest.2 = .ok () := by
  split <;> simp [*]

end Chains

/-- **The check at admission** looks at the store. -/
theorem Mempool.validateUserContent_eq_ok {s : Store} {tx : Transaction} :
    Mempool.validateUserContent s tx = .ok () ↔
      ∃ content, unmarshalUserContent tx.extraInfo = some content ∧
        Acceptable tx content (fun h => (s.getTxByHash h).isSome = true) s.getTxByHash
          s.recorded := by
  unfold Mempool.validateUserContent
  dsimp only
  cases unmarshalUserContent tx.extraInfo with
  | none => simp
  | some content =>
    simp only [Option.some.injEq, exists_eq_left', ite_error_eq_ok, ite_ok_eq_ok]
    unfold Store.getTxBatch
    rw [not_not, List.filterMap_length_eq_length]
    constructor
    · rintro ⟨hfields, haddress, hfew, hfound, hfollows⟩
      refine ⟨by simpa [and_assoc] using hfields, by
        simpa using haddress, Nat.not_lt.mp hfew,
        hfound, hfollows.imp_right fun ⟨hlinked, hparent⟩ => ?_⟩
      obtain ⟨hp, hr⟩ := not_or.mp hlinked
      split at hparent
      · cases hparent
      next parent hread =>
      rw [ite_error_eq_ok, ite_error_eq_ok, not_not,
        Store.getLatestVersionContentHash_eq hp] at hparent
      obtain ⟨hsame, hlatest, -⟩ := hparent
      simp only [not_or, not_not] at hsame
      exact ⟨hp, hr, ⟨parent, hread, hsame⟩, hlatest⟩
    · rintro ⟨hfields, haddress, hfew, hfound, hfollows⟩
      refine ⟨by simpa [and_assoc] using hfields, by
        simpa using haddress, Nat.not_lt.mpr hfew,
        hfound, hfollows.imp_right fun ⟨hp, hr, ⟨parent, hread, hsame⟩, hlatest⟩ =>
          ⟨not_or.mpr ⟨hp, hr⟩, ?_⟩⟩
      rw [hread]
      dsimp only
      rw [ite_error_eq_ok, ite_error_eq_ok, not_not,
        Store.getLatestVersionContentHash_eq hp]
      exact ⟨by simpa using hsame, hlatest, rfl⟩

/-- **The check of the ledger** looks at the maps it is given. -/
theorem validateUserContent_eq_ok {tx : Transaction} {content : UserContent}
    (hcontent : unmarshalUserContent tx.extraInfo = some content)
    (related : AList (fun _ : String => Transaction)) (latest : LatestVersions) :
    (validateUserContent tx related latest).2 = .ok () ↔
      Acceptable tx content (· ∈ related) related.lookup latest.lookup := by
  unfold validateUserContent
  rw [hcontent]
  simp only [Option.getD_some, ite_error_snd_eq_ok, ite_ok_snd_eq_ok]
  constructor
  · rintro ⟨hfields, haddress, hfew, hfound, hfollows⟩
    refine ⟨by simpa [and_assoc] using hfields, by
      simpa using haddress, Nat.not_lt.mp hfew,
      by simpa using hfound, hfollows.imp_right fun ⟨hlinked, hparent⟩ => ?_⟩
    obtain ⟨hp, hr⟩ := not_or.mp hlinked
    split at hparent
    · cases hparent
    next parent hread =>
    rw [ite_error_snd_eq_ok] at hparent
    obtain ⟨hsame, hlatest⟩ := hparent
    simp only [not_or, not_not] at hsame
    split at hlatest
    · cases hlatest
    next version hversion =>
    rw [ite_error_snd_eq_ok, not_not] at hlatest
    exact ⟨hp, hr, ⟨parent, hread, hsame⟩, hversion.trans (congrArg some hlatest.1)⟩
  · rintro ⟨hfields, haddress, hfew, hfound, hfollows⟩
    refine ⟨by simpa [and_assoc] using hfields, by
      simpa using haddress, Nat.not_lt.mpr hfew,
      by simpa using hfound,
      hfollows.imp_right fun ⟨hp, hr, ⟨parent, hread, hsame⟩, hlatest⟩ =>
        ⟨not_or.mpr ⟨hp, hr⟩, ?_⟩⟩
    rw [hread]
    dsimp only
    rw [ite_error_snd_eq_ok, hlatest]
    dsimp only
    rw [ite_error_snd_eq_ok]
    exact ⟨by simpa using hsame, not_not.mpr rfl, rfl⟩

/-! ## What the ledger looks at -/

/-- The hashes a content refers to, the version it follows first. -/
def UserContent.relatedHashes (content : UserContent) : List String :=
  (if content.parentHash = "" then [] else [content.parentHash])
    ++ content.referenceTxHashes

/-- The root a content names. -/
def UserContent.rootHashes (content : UserContent) : List String :=
  if content.rootHash = "" then [] else [content.rootHash]

omit [Primitives] in
theorem mem_foldl_addOnce {hs l : List String} {h : String} :
    h ∈ hs.foldl addOnce l ↔ h ∈ l ∨ h ∈ hs := by
  induction hs generalizing l with
  | nil => simp
  | cons k hs ih =>
    rw [List.foldl_cons, ih, mem_addOnce, List.mem_cons, or_assoc]

/-- **One transaction** adds the hashes its content names. -/
theorem mem_hashes_runTx (b : Block) (r : BlockRun) (tx : Transaction) (h : String) :
    (h ∈ (runTx b r tx).relatedContentHashes ↔ h ∈ r.relatedContentHashes ∨
        (isContent tx = true ∧ h ∈ (contentOf tx).relatedHashes)) ∧
      (h ∈ (runTx b r tx).rootContentHashes ↔ h ∈ r.rootContentHashes ∨
        (isContent tx = true ∧ h ∈ (contentOf tx).rootHashes)) := by
  unfold runTx isContent contentOf
  dsimp only
  split
  · next htype =>
    split
    · next hnone => simp [hnone]
    · next content hsome =>
      rw [hsome]
      simp only [htype, decide_true, Option.isSome_some, Bool.and_self, true_and,
        Option.getD_some, mem_foldl_addOnce, UserContent.relatedHashes,
        UserContent.rootHashes, List.mem_append]
      constructor
      · split
        · simp
        · simp only [mem_addOnce, List.mem_singleton]
          exact or_assoc
      · split
        · simp
        · simp only [mem_addOnce, List.mem_singleton]
  · next htype =>
    split <;> simp [htype]

/-- **The loop over the transactions** collects the hashes the contents
name. -/
theorem mem_hashes_foldl_runTx (b : Block) (txs : List Transaction) (r : BlockRun)
    (h : String) :
    (h ∈ (txs.foldl (runTx b) r).relatedContentHashes ↔ h ∈ r.relatedContentHashes ∨
        ∃ tx ∈ txs, isContent tx = true ∧ h ∈ (contentOf tx).relatedHashes) ∧
      (h ∈ (txs.foldl (runTx b) r).rootContentHashes ↔ h ∈ r.rootContentHashes ∨
        ∃ tx ∈ txs, isContent tx = true ∧ h ∈ (contentOf tx).rootHashes) := by
  induction txs generalizing r with
  | nil => simp
  | cons tx txs ih =>
    obtain ⟨hrelated, hroots⟩ := mem_hashes_runTx b r tx h
    rw [List.foldl_cons, (ih _).1, (ih _).2, hrelated, hroots]
    simp only [List.mem_cons, exists_eq_or_imp, or_assoc, and_self]

/-- What the ledger files is what was read, under its own hash. -/
theorem mem_indexByHash {txs : List Transaction} {h : String} :
    h ∈ indexByHash txs ↔ ∃ tx ∈ txs, Transaction.hash (some tx) = h := by
  have hloop : ∀ m : AList (fun _ : String => Transaction),
      h ∈ txs.foldl (fun m tx => m.insert (Transaction.hash (some tx)) tx) m ↔
        h ∈ m ∨ ∃ tx ∈ txs, Transaction.hash (some tx) = h := by
    induction txs with
    | nil => simp
    | cons tx txs ih =>
      intro m
      rw [List.foldl_cons, ih, AList.mem_insert, List.exists_mem_cons_iff, or_assoc,
        or_left_comm, eq_comm]
  rw [indexByHash, hloop]
  exact or_iff_right (AList.notMem_empty h)

namespace Store

section

variable {s : Store} {b : Block} {tx : Transaction} {content : UserContent}

/-- The hashes and roots collected for a block with one content. -/
theorem mem_hashes_blockRun (honly : ∀ t, t ∈ s.blockContents b ↔ t = tx)
    (hcontent : unmarshalUserContent tx.extraInfo = some content) (h : String) :
    (h ∈ (s.blockRun b).relatedContentHashes ↔ h ∈ content.relatedHashes) ∧
      (h ∈ (s.blockRun b).rootContentHashes ↔ h ∈ content.rootHashes) := by
  have hblock : ∀ p : Transaction → Prop,
      (∃ t ∈ s.txsInBlock b, isContent t = true ∧ p t) ↔ p tx := by
    intro p
    have hmem : ∀ t, t ∈ s.txsInBlock b ∧ isContent t = true ↔ t = tx := by
      intro t
      constructor
      · rintro ⟨hmem, hcontent⟩
        exact (honly t).mp
          (List.mem_filter.mpr ⟨hmem, (Bool.and_eq_true_iff.mp hcontent).1⟩)
      · rintro rfl
        obtain ⟨hmem, htype⟩ := List.mem_filter.mp ((honly t).mpr rfl)
        refine ⟨hmem, Bool.and_eq_true_iff.mpr ⟨htype, ?_⟩⟩
        rw [hcontent, Option.isSome_some]
    simp only [← and_assoc, hmem, exists_eq_left]
  have hof : contentOf tx = content := by
    unfold contentOf
    rw [hcontent, Option.getD_some]
  unfold blockRun runTxs
  rw [(mem_hashes_foldl_runTx b _ _ h).1, (mem_hashes_foldl_runTx b _ _ h).2, hblock,
    hblock, hof]
  simp only [List.not_mem_nil, false_or, and_self]

end

variable {s : Store}

/-- What is read under a hash has it, or is a null transaction. -/
theorem Named.read (h : s.Named) {k : String} {tx : Transaction}
    (hread : s.getTxByHash k = some tx) :
    (s.txs.lookup k = some (some tx) ∧ Transaction.hash (some tx) = k) ∨
      (s.txs.lookup k = some none ∧ tx = Transaction.zero) := by
  obtain ⟨otx, hlook, rfl⟩ := Option.map_eq_some_iff.mp hread
  cases otx with
  | none => exact Or.inr ⟨hlook, rfl⟩
  | some tx => exact Or.inl ⟨hlook, h k _ hlook⟩

/-- **A content refers to a stored null** that the ledger does not find: the
zero transaction it is read as has another hash. -/
def RefersToNull (s : Store) (content : UserContent) : Prop :=
  ∃ h ∈ content.referenceTxHashes, s.txs.lookup h = some none ∧
    Transaction.hash (some Transaction.zero) ≠ h

/-- **The condition for agreement**: a content that has its fields, its
address, its references and the version it follows in the store does not
refer to a stored null. -/
def SafelyRefers (s : Store) (tx : Transaction) : Prop :=
  ∀ content, unmarshalUserContent tx.extraInfo = some content →
    Acceptable tx content (fun h => (s.getTxByHash h).isSome = true) s.getTxByHash
      s.recorded → ¬ s.RefersToNull content

/-! ## The two checks compared

In this section the ledger's maps are filled for a block with one content. -/

section

variable {b : Block} {tx : Transaction} {content : UserContent}

/-- The ledger finds a hash that was read, and the hash of what was read
under another. -/
theorem mem_relatedContents (honly : ∀ t, t ∈ s.blockContents b ↔ t = tx)
    (hcontent : unmarshalUserContent tx.extraInfo = some content) (h : String) :
    h ∈ s.relatedContents b ↔ ∃ k ∈ content.relatedHashes, ∃ t,
      s.getTxByHash k = some t ∧ Transaction.hash (some t) = h := by
  unfold relatedContents getTxBatch
  rw [mem_indexByHash]
  simp only [List.mem_filterMap, (mem_hashes_blockRun honly hcontent _).1]
  constructor
  · rintro ⟨t, ⟨k, hk, hread⟩, hhash⟩
    exact ⟨k, hk, t, hread, hhash⟩
  · rintro ⟨k, hk, t, hread, hhash⟩
    exact ⟨t, ⟨k, hk, hread⟩, hhash⟩

/-- **A null is not found** under the hash of null. -/
theorem Named.notMem_of_null (hnamed : s.Named)
    (honly : ∀ t, t ∈ s.blockContents b ↔ t = tx)
    (hcontent : unmarshalUserContent tx.extraInfo = some content) {h : String}
    (hnull : s.txs.lookup h = some none)
    (hzero : Transaction.hash (some Transaction.zero) ≠ h) :
    h ∉ s.relatedContents b := by
  rw [mem_relatedContents honly hcontent]
  rintro ⟨k, -, t, hread, rfl⟩
  obtain ⟨hlook, rfl⟩ | ⟨-, rfl⟩ := hnamed.read hread
  · rw [hlook] at hnull
    cases hnull
  · exact hzero rfl

/-- The latest version of the root a content names, as the ledger has read
it. -/
theorem lookup_latest (honly : ∀ t, t ∈ s.blockContents b ↔ t = tx)
    (hcontent : unmarshalUserContent tx.extraInfo = some content)
    (hroot : content.rootHash ≠ "") :
    (s.getBatchLatestVersionContentHash (s.blockRun b).rootContentHashes).lookup
      content.rootHash = s.recorded content.rootHash := by
  unfold getBatchLatestVersionContentHash
  rw [AList.lookup_loadAll, if_pos]
  · rfl
  · rw [(mem_hashes_blockRun honly hcontent _).2, UserContent.rootHashes,
      if_neg hroot]
    exact List.mem_singleton_self _

/-- **A version the ledger finds** is the one that is stored. -/
theorem Named.read_of_lookup (hnamed : s.Named) {h : String} {t : Transaction}
    (hlook : (s.relatedContents b).lookup h = some t)
    (htype : t.type = txTypeUserContent) :
    s.getTxByHash h = some t := by
  obtain ⟨hmem, hhash⟩ := lookup_indexByHash hlook
  obtain ⟨k, -, hread⟩ := List.mem_filterMap.mp hmem
  obtain ⟨-, hkey⟩ | ⟨-, rfl⟩ := hnamed.read hread
  · have hsame : k = h := hkey.symm.trans hhash
    rw [← hsame, hread]
  · exact absurd htype (by decide)

/-- **What the ledger accepts, admission accepts.** -/
theorem Named.acceptable_of_ledger (hnamed : s.Named)
    (honly : ∀ t, t ∈ s.blockContents b ↔ t = tx)
    (hcontent : unmarshalUserContent tx.extraInfo = some content)
    (h : Acceptable tx content (· ∈ s.relatedContents b) (s.relatedContents b).lookup
      (s.getBatchLatestVersionContentHash (s.blockRun b).rootContentHashes).lookup) :
    Acceptable tx content (fun h => (s.getTxByHash h).isSome = true) s.getTxByHash
      s.recorded where
  fields := h.fields
  address := h.address
  few := h.few
  references r hr := by
    have hrelated : ∀ k ∈ content.relatedHashes, k ∈ s.relatedContents b := by
      intro k hk
      obtain hparent | hreference := List.mem_append.mp hk
      · split at hparent
        · cases hparent
        next hne =>
        obtain rfl := List.mem_singleton.mp hparent
        obtain ⟨hroot, -⟩ | ⟨-, -, ⟨parent, hlook, -⟩, -⟩ := h.follows
        · exact absurd hroot hne
        · exact AList.lookup_isSome.mp (hlook ▸ rfl)
      · exact h.references k hreference
    obtain ⟨k, hk, t, hread, hhash⟩ :=
      (mem_relatedContents honly hcontent r).mp (h.references r hr)
    obtain ⟨-, hkey⟩ | ⟨hnull, rfl⟩ := hnamed.read hread
    · rw [← hhash, hkey, hread, Option.isSome_some]
    · -- the null under `k` is itself found, so the zero transaction has the hash `k`
      by_cases hzero : Transaction.hash (some Transaction.zero) = k
      · rw [← hhash, hzero, hread, Option.isSome_some]
      · exact absurd (hrelated k hk)
          (hnamed.notMem_of_null honly hcontent hnull hzero)
  follows := h.follows.imp_right fun ⟨hp, hr, ⟨parent, hlook, hsame⟩, hlatest⟩ =>
    ⟨hp, hr, ⟨parent, hnamed.read_of_lookup hlook hsame.1, hsame⟩,
      (lookup_latest honly hcontent hr).symm.trans hlatest⟩

/-- **What admission accepts, the ledger accepts**, unless it refers to a
null. -/
theorem Named.acceptable_of_admission (hnamed : s.Named)
    (honly : ∀ t, t ∈ s.blockContents b ↔ t = tx)
    (hcontent : unmarshalUserContent tx.extraInfo = some content)
    (hnull : ¬ s.RefersToNull content)
    (h : Acceptable tx content (fun h => (s.getTxByHash h).isSome = true)
      s.getTxByHash s.recorded) :
    Acceptable tx content (· ∈ s.relatedContents b) (s.relatedContents b).lookup
      (s.getBatchLatestVersionContentHash
        (s.blockRun b).rootContentHashes).lookup where
  fields := h.fields
  address := h.address
  few := h.few
  references r hr := by
    obtain ⟨t, hread⟩ := Option.isSome_iff_exists.mp (h.references r hr)
    refine (mem_relatedContents honly hcontent r).mpr
      ⟨r, List.mem_append_right _ hr, t, hread, ?_⟩
    obtain ⟨-, hkey⟩ | ⟨hlook, rfl⟩ := hnamed.read hread
    · exact hkey
    · by_contra hzero
      exact hnull ⟨r, hr, hlook, hzero⟩
  follows := h.follows.imp_right fun ⟨hp, hr, ⟨parent, hread, hsame⟩, hlatest⟩ => by
    refine ⟨hp, hr, ⟨parent, ?_, hsame⟩,
      (lookup_latest honly hcontent hr).trans hlatest⟩
    obtain ⟨hlook, hkey⟩ | ⟨-, rfl⟩ := hnamed.read hread
    swap
    · exact absurd hsame.1 (by decide)
    have hin : content.parentHash ∈ s.relatedContents b := by
      refine (mem_relatedContents honly hcontent _).mpr
        ⟨_, List.mem_append_left _ ?_, parent, hread, hkey⟩
      rw [if_neg hp]
      exact List.mem_singleton_self _
    obtain ⟨t, hfound⟩ := Option.isSome_iff_exists.mp (AList.lookup_isSome.mpr hin)
    rw [hfound]
    -- whatever is filed under the hash of the parent is the parent
    obtain ⟨hmem, hhash⟩ := lookup_indexByHash hfound
    obtain ⟨k, hk, hreadt⟩ := List.mem_filterMap.mp hmem
    obtain ⟨-, hkeyt⟩ | ⟨hlookt, rfl⟩ := hnamed.read hreadt
    · have hsamekey : k = content.parentHash := hkeyt.symm.trans hhash
      rw [← hsamekey, hreadt] at hread
      exact hread
    · exfalso
      rw [(mem_hashes_blockRun honly hcontent k).1, UserContent.relatedHashes,
        if_neg hp] at hk
      obtain hk | hk := List.mem_append.mp hk
      · rw [List.mem_singleton.mp hk, hlook] at hlookt
        cases hlookt
      · refine hnull ⟨k, hk, hlookt, fun hzero => ?_⟩
        rw [← hzero, show Transaction.hash (some Transaction.zero)
          = content.parentHash from hhash, hlook] at hlookt
        cases hlookt

end

end Store

/-- **The two checks agree** on a user content, in a store that has every
transaction under its own hash and for a block with no other content,
exactly if the content refers safely. -/
theorem content_checks_agree_iff {s : Store} (hnamed : s.Named) {b : Block}
    {tx : Transaction} (honly : ∀ t, t ∈ s.blockContents b ↔ t = tx) :
    (Mempool.validateUserContent s tx = .ok () ↔
      (unmarshalUserContent tx.extraInfo).isSome = true ∧
        (validateUserContent tx (s.relatedContents b)
          (s.getBatchLatestVersionContentHash (s.blockRun b).rootContentHashes)).2
            = .ok ()) ↔
      s.SafelyRefers tx := by
  unfold Store.SafelyRefers
  cases hcontent : unmarshalUserContent tx.extraInfo with
  | none =>
    have hrefused : Mempool.validateUserContent s tx ≠ .ok () := by
      rw [Ne, Mempool.validateUserContent_eq_ok, hcontent]
      simp
    simp [hrefused]
  | some content =>
    rw [validateUserContent_eq_ok hcontent,
      Mempool.validateUserContent_eq_ok, hcontent]
    simp only [Option.some.injEq, exists_eq_left', forall_eq',
      Option.isSome_some, true_and]
    constructor
    · rintro hiff hadmitted ⟨h, hmem, hnull, hzero⟩
      exact hnamed.notMem_of_null honly hcontent hnull hzero
        ((hiff.mp hadmitted).references h hmem)
    · intro hnull
      exact ⟨fun hadmitted =>
          hnamed.acceptable_of_admission honly hcontent (hnull hadmitted) hadmitted,
        hnamed.acceptable_of_ledger honly hcontent⟩

end

section Sample

open Sample

/-- A piece of content with nothing else to it. -/
def Sample.post : Transaction := { Transaction.zero with type := txTypeUserContent }

/-- A block that brings some transactions in one entry. -/
def Sample.bringing [Primitives] (txs : List (Option Transaction)) :
    BroadcastedBlock :=
  assembleBlock 1 zeroHash (keyID 1)
    [{ numHashes := 1, hash := zeroHash, transactions := txs, tick := false }] 0

/-- Primitives with which every content refers to null. -/
@[reducible] def Sample.referringPrimitives : Primitives :=
  { Sample.contentPrimitives with
    unmarshalUserContent := fun _ => some
      { type := "post", title := "a", description := "b", parentHash := "",
        rootHash := "",
        referenceTxHashes := [hexEncode (Sample.digest (textBytes "null")).toList] } }

section

attribute [local instance] Sample.contentPrimitives

/-- A root without references, stored with its block: both checks accept it. -/
theorem content_checks_agree_root :
    ∃ (s : Store) (b : Block) (tx : Transaction), s.Named ∧
      (∀ t, t ∈ s.blockContents b ↔ t = tx) ∧
      Mempool.validateUserContent s tx = .ok () ∧
      (validateUserContent tx (s.relatedContents b)
        (s.getBatchLatestVersionContentHash (s.blockRun b).rootContentHashes)).2
          = .ok () := by
  obtain ⟨s, hs⟩ : ∃ s, s = Store.empty.addBlock (bringing [some post]) := ⟨_, rfl⟩
  have hnamed : s.Named := hs ▸ Store.Named.empty.addBlock _
  have hone : s.blockContents (broadcastedBlockToBlock (bringing [some post]))
      = [post] := by
    rw [hs]
    decide +kernel
  have honly : ∀ t, t ∈ s.blockContents
      (broadcastedBlockToBlock (bringing [some post])) ↔ t = post := by
    intro t
    rw [hone]
    exact List.mem_singleton
  have hadmitted : Mempool.validateUserContent s post = .ok () := by
    rw [hs]
    decide +kernel
  have hsafe : s.SafelyRefers post := by
    intro content hcontent _ ⟨h, hmem, _⟩
    obtain rfl := Option.some.inj hcontent
    exact absurd hmem List.not_mem_nil
  have hagree := (content_checks_agree_iff hnamed honly).mpr hsafe
  exact ⟨s, _, _, hnamed, honly, hadmitted, (hagree.mp hadmitted).2⟩

end

section

attribute [local instance] Sample.referringPrimitives

/-- **Admitted but refused.** A block brings a null transaction and a
content that refers to it; with the block stored, admission accepts the
content and the ledger does not. -/
theorem admitted_but_refused :
    ∃ (s : Store) (b : BroadcastedBlock) (tx : Transaction),
      s = Store.empty.addBlock b ∧
      s.Named ∧ (∀ t, t ∈ s.blockContents (broadcastedBlockToBlock b) ↔ t = tx) ∧
      Mempool.validateUserContent s tx = .ok () ∧
      (validateUserContent tx (s.relatedContents (broadcastedBlockToBlock b))
        (s.getBatchLatestVersionContentHash
          (s.blockRun (broadcastedBlockToBlock b)).rootContentHashes)).2
            ≠ .ok () := by
  obtain ⟨b, hb⟩ : ∃ b, b = bringing [none, some post] := ⟨_, rfl⟩
  have hone : (Store.empty.addBlock b).blockContents (broadcastedBlockToBlock b)
      = [post] := by
    rw [hb]
    decide +kernel
  refine ⟨_, b, post, rfl, Store.Named.empty.addBlock b, fun t => ?_, ?_, ?_⟩
  · rw [hone]
    exact List.mem_singleton
  · rw [hb]
    decide +kernel
  · rw [hb]
    decide +kernel

end

end Sample

end Mmn
