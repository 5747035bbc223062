import Mathlib.Data.Set.List
import Mmn.JsonScan
import Mmn.Sample

/-!
# What the hashes of entries commit to

The hash of a block covers of each entry only its number of hashes and its
hash. The transactions come in through the chain: an entry with transactions
ends in the hash of the chain so far and a digest of their JSON, joined
without a separator. Two blocks with the same entry hashes carry the same
transactions all the same (`transactions_committed`), for three reasons.

The joined JSON comes apart in one way: a transaction is an object of texts
and numbers, and a reader sees where it ends (`Transaction.stops_json`). The
last hash of an entry tells whether there were transactions: what is hashed
then has sixty-four bytes, and thirty-two otherwise. And SHA-256 has no
collision among what the two checks hash. It does have collisions elsewhere,
so that this is asked of the inputs at hand (`checkedInputs`) and not of
all.
-/

namespace Mmn

/-! ## The JSON of transactions, joined -/

namespace Transaction

/-- An amount is digits in quotes, or `null`. -/
theorem flat_amountJson (amount : Option (BitVec 256)) :
    Json.Flat (amountJson amount) := by
  cases amount with
  | none => rfl
  | some v => exact Json.flat_quoted_nat v.toNat

/-- The values of a transaction's JSON are texts and numbers. -/
theorem flat_of_mem_json {tx : Transaction} {m : String × String}
    (h : m ∈ tx.jsonRequired ++ tx.jsonOptional) : Json.Flat m.2 := by
  have homit : ∀ {name value : String}, m ∈ Json.omitEmpty name value →
      Json.Flat m.2 := by
    intro name value hm
    unfold Json.omitEmpty at hm
    split at hm
    · cases hm
    · rw [List.mem_singleton.mp hm]
      exact Json.flat_string value
  obtain h | h := List.mem_append.mp h
  · unfold jsonRequired at h
    simp only [List.mem_cons, List.not_mem_nil, or_false] at h
    obtain rfl | rfl | rfl | rfl | rfl | rfl := h
    · exact Json.flat_toString_int _
    · exact Json.flat_string _
    · exact Json.flat_string _
    · exact flat_amountJson _
    · exact Json.flat_toString_nat _
    · exact Json.flat_string _
  · unfold jsonOptional at h
    simp only [List.mem_append] at h
    obtain (((h | h) | h) | h) | h := h
    · split at h
      · cases h
      · rw [List.mem_singleton.mp h]
        exact Json.flat_toString_nat _
    all_goals exact homit h

/-- **A reader sees where the JSON of a transaction ends.** -/
theorem stops_json (tx : Transaction) :
    Scanner.Stops Json.scan .outside tx.json.toList :=
  Json.stops_object fun _ => flat_of_mem_json

/-- The bytes of transactions, joined, are those of their JSON, joined. -/
theorem flatMap_bytes (txs : List Transaction) :
    (txs.map some).flatMap bytes
      = textBytes (String.ofList (txs.map (fun tx => tx.json.toList)).flatten) := by
  induction txs with
  | nil => rfl
  | cons tx txs ih =>
    rw [List.map_cons, List.flatMap_cons, ih, List.map_cons, List.flatten_cons,
      String.ofList_append, String.ofList_toList, textBytes_append]
    rfl

/-- **The joined JSON of transactions comes apart in one way.** -/
theorem bytes_eq_of_flatMap_eq {txs₁ txs₂ : List Transaction}
    (h : (txs₁.map some).flatMap bytes = (txs₂.map some).flatMap bytes) :
    (txs₁.map some).map bytes = (txs₂.map some).map bytes := by
  rw [flatMap_bytes, flatMap_bytes] at h
  have hchars := String.ofList_injective (textBytes_injective h)
  have hjson := Scanner.uniquelyDecodable_stops Json.scan .outside _ _
    (by simpa using fun tx _ => stops_json tx)
      (by simpa using fun tx _ => stops_json tx) hchars
  have hbytes : ∀ txs : List Transaction, (txs.map some).map bytes
      = (txs.map (fun tx => tx.json.toList)).map
          (fun cs => textBytes (String.ofList cs)) := by
    intro txs
    simp [bytes, Function.comp_def]
  rw [hbytes, hbytes, hjson]

end Transaction

section

variable [Primitives]

/-! ## What the check hashes -/

/-- What the last hash of an entry is taken of: the hash of the chain so
far, and the digest of the transactions if there are any. -/
def entryInput (cur : Hash) (e : Entry) : Bytes :=
  let cur := hashChain^[(e.numHashes - 1).toNat] cur
  if e.transactions.length = 0 then cur.toList
  else cur.toList ++ (hashTransactions e.transactions).toList

theorem entryHash_eq (cur : Hash) (e : Entry) :
    entryHash cur e = sha256 (entryInput cur e) := by
  unfold entryHash entryInput
  dsimp only
  split <;> rfl

/-- **What the check of entries hashes** last for each of them, and the
joined JSON of its transactions. -/
def checkedInputs : Hash → List Entry → List Bytes
  | _, [] => []
  | cur, e :: es =>
    (if e.transactions.length = 0 then []
      else [e.transactions.flatMap Transaction.bytes])
      ++ entryInput cur e :: checkedInputs (entryHash cur e) es

/-- Of the lists of inputs of two checks, none of the first collides with
one of the second. -/
def NoCollision (inputs₁ inputs₂ : List Bytes) : Prop :=
  ∀ x ∈ inputs₁, ∀ y ∈ inputs₂, sha256 x = sha256 y → x = y

omit [Primitives] in
theorem exists_transactions_of_validateEntry {e : Entry}
    (h : validateEntry e = .ok ()) :
    ∃ txs : List Transaction, txs.map some = e.transactions := by
  have hrange : e.transactions ∈ Set.range (List.map some) := by
    rw [Set.range_list_map]
    intro tx htx
    have hsome :=
      (length_of_validateEntryTxs (validateEntryTxs_of_validateEntry h) htx).1
    obtain ⟨t, rfl⟩ := Option.isSome_iff_exists.mp hsome
    exact ⟨t, rfl⟩
  exact hrange

/-- **What an entry's last hash is taken of determines its transactions**,
if their digests do. -/
theorem bytes_eq_of_entryInput_eq {cur : Hash} {e₁ e₂ : Entry}
    (hnum : e₁.numHashes = e₂.numHashes)
    (hvalid₁ : validateEntry e₁ = .ok ()) (hvalid₂ : validateEntry e₂ = .ok ())
    (hdigest : e₁.transactions.length ≠ 0 → e₂.transactions.length ≠ 0 →
      hashTransactions e₁.transactions = hashTransactions e₂.transactions →
      e₁.transactions.flatMap Transaction.bytes
        = e₂.transactions.flatMap Transaction.bytes)
    (h : entryInput cur e₁ = entryInput cur e₂) :
    e₁.transactions.map Transaction.bytes
      = e₂.transactions.map Transaction.bytes := by
  obtain ⟨txs₁, htxs₁⟩ := exists_transactions_of_validateEntry hvalid₁
  obtain ⟨txs₂, htxs₂⟩ := exists_transactions_of_validateEntry hvalid₂
  have hlength := congrArg List.length h
  unfold entryInput at h hlength
  rw [hnum] at h hlength
  dsimp only at h hlength
  by_cases hnil₁ : e₁.transactions.length
    = 0 <;> by_cases hnil₂ : e₂.transactions.length = 0
  · rw [List.length_eq_zero_iff.mp hnil₁, List.length_eq_zero_iff.mp hnil₂]
  · simp [hnil₁, hnil₂] at hlength
  · simp [hnil₁, hnil₂] at hlength
  · rw [if_neg hnil₁, if_neg hnil₂] at h
    have hmixin := List.Vector.toList_injective (List.append_cancel_left h)
    have hjoined := hdigest hnil₁ hnil₂ hmixin
    rw [← htxs₁, ← htxs₂] at hjoined ⊢
    exact Transaction.bytes_eq_of_flatMap_eq hjoined

/-- **Entries with the same hashes have the same transactions**, along the
chain. Both checks arrive at an entry with the same hash, because the entry
before it ended in the same. -/
theorem bytes_eq_of_recomputed {cur : Hash} {es₁ es₂ : List Entry}
    (hpairs : es₁.map (fun e => (e.numHashes, e.hash))
      = es₂.map (fun e => (e.numHashes, e.hash)))
    (hvalid₁ : ∀ e ∈ es₁, validateEntry e = .ok ())
    (hvalid₂ : ∀ e ∈ es₂, validateEntry e = .ok ())
    (h₁ : recomputed cur es₁ = es₁.map Entry.hash)
    (h₂ : recomputed cur es₂ = es₂.map Entry.hash)
    (hsha : NoCollision (checkedInputs cur es₁) (checkedInputs cur es₂)) :
    es₁.map (fun e => e.transactions.map Transaction.bytes)
      = es₂.map (fun e => e.transactions.map Transaction.bytes) := by
  induction es₁ generalizing es₂ cur with
  | nil =>
    cases es₂ with
    | nil => rfl
    | cons e₂ es₂ => cases hpairs
  | cons e₁ es₁ ih =>
    cases es₂ with
    | nil => cases hpairs
    | cons e₂ es₂ =>
      simp only [List.map_cons, List.cons.injEq, Prod.mk.injEq] at hpairs
      obtain ⟨⟨hnum, hhash⟩, hpairs⟩ := hpairs
      rw [List.forall_mem_cons] at hvalid₁ hvalid₂
      simp only [recomputed, List.map_cons, List.cons.injEq] at h₁ h₂
      obtain ⟨hend₁, h₁⟩ := h₁
      obtain ⟨hend₂, h₂⟩ := h₂
      have hend : entryHash cur e₁ = entryHash cur e₂ := by rw [hend₁, hhash, hend₂]
      unfold checkedInputs at hsha
      have hinput : entryInput cur e₁ = entryInput cur e₂ := by
        refine hsha _ (by simp) _ (by simp) ?_
        rw [← entryHash_eq, ← entryHash_eq, hend]
      have htxs := bytes_eq_of_entryInput_eq hnum hvalid₁.1 hvalid₂.1
        (fun hne₁ hne₂ => hsha _ (by simp [hne₁]) _ (by simp [hne₂])) hinput
      rw [← hend] at h₂ hsha
      have hrest := ih hpairs hvalid₁.2 hvalid₂.2 h₁ h₂
        fun x hx y hy => hsha x (by simp [hx]) y (by simp [hy])
      rw [List.map_cons, List.map_cons, htxs, hrest]

/-- **The entry hashes of a block commit to its transactions.** Two blocks
continue from the same hash and have entries with the same numbers of hashes
and the same hashes, and the check accepts both. If SHA-256 has no collision
among what the two checks hash, then entry by entry the two carry the same
list of transactions, as JSON. -/
theorem transactions_committed {b₁ b₂ : BroadcastedBlock}
    (hprev : b₁.prevHash = b₂.prevHash)
    (hpairs : b₁.entries.map (fun e => (e.numHashes, e.hash))
      = b₂.entries.map (fun e => (e.numHashes, e.hash)))
    (h₁ : verifyEntries b₁.prevHash b₁.entries b₁.slot = .ok ())
    (h₂ : verifyEntries b₂.prevHash b₂.entries b₂.slot = .ok ())
    (hsha : NoCollision (checkedInputs b₁.prevHash b₁.entries)
      (checkedInputs b₂.prevHash b₂.entries)) :
    b₁.entries.map (fun e => e.transactions.map Transaction.bytes)
      = b₂.entries.map (fun e => e.transactions.map Transaction.bytes) := by
  obtain ⟨hvalid₁, hhashes₁⟩ := recomputed_of_verifyEntries h₁
  obtain ⟨hvalid₂, hhashes₂⟩ := recomputed_of_verifyEntries h₂
  rw [← hprev] at hhashes₂ hsha
  exact bytes_eq_of_recomputed hpairs hvalid₁ hvalid₂ hhashes₁ hhashes₂ hsha

instance (inputs₁ inputs₂ : List Bytes) : Decidable (NoCollision inputs₁ inputs₂) :=
  inferInstanceAs
    (Decidable (∀ x ∈ inputs₁, ∀ y ∈ inputs₂, sha256 x = sha256 y → x = y))

end

section Sample

attribute [local instance] Sample.primitives

namespace Sample

/-- A transaction that is small enough for an entry. -/
def smallTx (memo : String) : Transaction :=
  { Transaction.zero with sender := "a", recipient := "b", textData := memo }

/-- An entry with two transactions, and a tick after it. -/
def twoEntries (ticks : Bool) : List Entry :=
  let e := entryAfter zeroHash [smallTx "\x7d\"", smallTx ""]
  [{ e with tick := ticks },
    { newTickEntry 2 (hashChain^[2] e.hash) with tick := ticks }]

/-- A block of a slot with the two entries. -/
def twoEntryBlock (slot : UInt64) (ticks : Bool) : BroadcastedBlock :=
  assembleBlock slot zeroHash "" (twoEntries ticks) 0

end Sample

/-- Two blocks that differ in their slots and in which entries are marked as
ticks. The memo of a transaction holds a brace and a quote. -/
theorem two_blocks_committed :
    Sample.twoEntryBlock 1 true ≠ Sample.twoEntryBlock 2 false ∧
      (Sample.twoEntryBlock 1 true).entries.map
        (fun e => e.transactions.map Transaction.bytes)
        = (Sample.twoEntryBlock 2 false).entries.map
            (fun e => e.transactions.map Transaction.bytes) := by
  exact ⟨by decide +kernel, transactions_committed rfl (by decide +kernel)
    (by decide +kernel) (by decide +kernel) (by decide +kernel)⟩

end Sample

end Mmn
