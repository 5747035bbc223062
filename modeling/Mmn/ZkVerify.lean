import Mmn.Memo
import Mmn.Serialization

/-!
# The cache of the zero-knowledge verifier

Checking a proof is expensive, so `ZkVerify` keeps its answers. The key of
an answer is the four arguments of the check – sender, public key, proof and
public input – joined by bars, and a bar in the sender is not escaped: a
check for the sender `X|K'` and one for the sender `X` with the key `K'` can
have the same key. The first of the two decides both (`answers_collide`).

The sender is the only argument that matters. A public key is base58 text
and has no bar, and a proof or public input with a bar is not base64, so
that a check with one fails whatever the cache says. As long as checks with
the same key name the same sender the cached answers are those of the plain
check (`answers_eq_verifyInternal`); in particular they are where no sender
has a bar (`answers_eq_of_bars`).
-/

namespace Mmn

/-- **The proof library** as the node uses it, under its verifying key. -/
structure Groth16 where
  Proof : Type
  Witness : Type
  readProof : Bytes → Option Proof
  readWitness : Bytes → Option Witness
  /-- The vector of a public input, as text. -/
  vectorString : Witness → String
  verify : Proof → Witness → Bool

namespace ZkVerify

/-! ## The check -/

/-- The order of the scalar field. -/
def scalarField : ℕ :=
  21888242871839275222246405745257275088548364400416034343698204186575808495617

/-- A text as an element of the scalar field. -/
def stringToBigIntBN254FromBytes (s : String) : ℕ :=
  Nat.ofDigits 256 ((textBytes s).map UInt8.toNat).reverse % scalarField

/-- Cut characters off both ends. -/
def trim (p : Char → Bool) (cs : List Char) : List Char :=
  ((cs.dropWhile p).reverse.dropWhile p).reverse

/-- The elements of a vector's text. -/
def pubStringArray (pubString : String) : List String :=
  let trimmed := trim isSpace (trim (fun c => c = '[' || c = ']') pubString.toList)
  if trimmed = [] then []
  else (trimmed.splitOn ',').map (fun part => String.ofList (trim isSpace part))

/-- **The plain check**: the public input has four elements, the last two of
which are the public key and the sender, and the proof shows it. -/
def verifyInternal (g : Groth16) (sender pubKey proofB64 pubB64 : String) : Bool :=
  match Base64.decode proofB64 with
  | none => false
  | some proofBytes =>
    match g.readProof proofBytes with
    | none => false
    | some proof =>
      match Base64.decode pubB64 with
      | none => false
      | some pwBytes =>
        match g.readWitness pwBytes with
        | none => false
        | some pw =>
          let array := pubStringArray (g.vectorString pw)
          if array.length ≠ 4 then false
          else if array[3]? ≠ some (toString (stringToBigIntBN254FromBytes sender))
            then false
          else if array[2]? ≠ some (toString (stringToBigIntBN254FromBytes pubKey))
            then false
          else g.verify proof pw

/-- A bar in the proof or the public input fails the check. -/
theorem verifyInternal_of_bars {g : Groth16} {sender pubKey proofB64 pubB64 : String}
    (h : bars proofB64 ≠ 0 ∨ bars pubB64 ≠ 0) :
    verifyInternal g sender pubKey proofB64 pubB64 = false := by
  have hdecode : ∀ s : String, bars s ≠ 0 → Base64.decode s = none := by
    intro s hs
    by_contra hsome
    obtain ⟨bs, hbs⟩ := Option.ne_none_iff_exists'.mp hsome
    have hmem : '|' ∈ s.toList := List.count_pos_iff.mp (Nat.pos_of_ne_zero hs)
    have hbar := Base64.mem_of_decode hbs hmem
    revert hbar
    decide
  unfold verifyInternal
  split
  · rfl
  next proofBytes hproof =>
  split
  · rfl
  obtain hbad | hbad := h
  · rw [hdecode _ hbad] at hproof
    cases hproof
  · rw [hdecode _ hbad]

/-! ## The cache -/

/-- The key of a check. -/
def makeCacheKey (sender pubKey proofB64 pubB64 : String) : String :=
  sender ++ "|" ++ pubKey ++ "|" ++ proofB64 ++ "|" ++ pubB64

end ZkVerify

/-- **The verifier**: the answers it keeps. -/
structure ZkVerify where
  zkCache : Memo.Cache String Bool

namespace ZkVerify

/-- The verifier of a fresh process. -/
def new : ZkVerify := { zkCache := ∅ }

/-- **A check through the cache.** -/
def verify (g : Groth16) (v : ZkVerify) (sender pubKey proofB64 pubB64 : String) :
    Bool × ZkVerify :=
  let cacheKey := makeCacheKey sender pubKey proofB64 pubB64
  match v.zkCache.lookup cacheKey with
  | some cacheResult => (cacheResult, v)
  | none =>
    let result := verifyInternal g sender pubKey proofB64 pubB64
    (result, { v with zkCache := v.zkCache.insert cacheKey result })

/-- The arguments of a check. The public key is that of a signature:
thirty-two bytes. -/
structure Call where
  sender : String
  key : List.Vector UInt8 32
  proofB64 : String
  pubB64 : String

namespace Call

/-- The public key as text. -/
def pubKey (c : Call) : String := Base58.encode c.key.toList

/-- The key of the check. -/
def cacheKey (c : Call) : String := makeCacheKey c.sender c.pubKey c.proofB64 c.pubB64

/-- The plain check. -/
def verifyInternal (g : Groth16) (c : Call) : Bool :=
  ZkVerify.verifyInternal g c.sender c.pubKey c.proofB64 c.pubB64

end Call

/-- **The answers to a sequence of checks**, between which the cache may
drop entries. -/
def answers (g : Groth16) (v : ZkVerify) : List (Memo.Op Call String) → List Bool
  | [] => []
  | .call c :: ops =>
    let (result, v) := v.verify g c.sender c.pubKey c.proofB64 c.pubB64
    result :: v.answers g ops
  | .evict k :: ops =>
    ({ v with zkCache := v.zkCache.erase k } : ZkVerify).answers g ops

/-- The verifier is the plain check behind a cache. -/
theorem answers_eq_memo (g : Groth16) (v : ZkVerify)
    (ops : List (Memo.Op Call String)) :
    v.answers g ops = Memo.answers (Call.verifyInternal g) Call.cacheKey
      v.zkCache ops := by
  induction ops generalizing v with
  | nil => rfl
  | cons op ops ih =>
    cases op with
    | call c =>
      have hverify : v.verify g c.sender c.pubKey c.proofB64 c.pubB64
          = ((Memo.request (Call.verifyInternal g) Call.cacheKey v.zkCache c).1,
            ⟨(Memo.request (Call.verifyInternal g) Call.cacheKey v.zkCache
              c).2⟩) := by
        dsimp only [verify, Memo.request, Call.cacheKey]
        cases v.zkCache.lookup (makeCacheKey c.sender c.pubKey c.proofB64 c.pubB64)
          <;> rfl
      dsimp only [answers, Memo.answers]
      rw [hverify, ih]
    | evict k => exact ih _

/-! ## What a key determines -/

theorem bars_pubKey (c : Call) : bars c.pubKey = 0 := by
  refine List.count_eq_zero.mpr fun hmem => ?_
  have halpha := Base58.mem_alphabet_of_mem_encode hmem
  revert halpha
  decide

/-- Without bars in the senders, the key determines the sender. -/
theorem sender_eq_of_cacheKey_eq {c c' : Call} (h : c.cacheKey = c'.cacheKey)
    (hc : bars c.sender = 0) (hc' : bars c'.sender = 0) : c.sender = c'.sender := by
  unfold Call.cacheKey makeCacheKey at h
  simp only [String.append_assoc] at h
  exact (bar_inj h (hc.trans hc'.symm)).1

/-- **With the sender, the key determines the answer.** If the bar between
proof and public input is at another place, both checks have a bar where
there must be none. -/
theorem verifyInternal_eq_of_cacheKey_eq (g : Groth16) {c c' : Call}
    (h : c.cacheKey = c'.cacheKey) (hsender : c.sender = c'.sender) :
    c.verifyInternal g = c'.verifyInternal g := by
  unfold Call.cacheKey makeCacheKey at h
  simp only [String.append_assoc] at h
  obtain ⟨-, hrest⟩ := bar_inj h (congrArg bars hsender)
  obtain ⟨hkey, hrest⟩ := bar_inj hrest ((bars_pubKey c).trans (bars_pubKey c').symm)
  unfold Call.verifyInternal
  by_cases hbars : bars c.proofB64 = bars c'.proofB64
  · obtain ⟨hproof, hpub⟩ := bar_inj hrest hbars
    rw [hsender, hkey, hproof, hpub]
  · have htotal : bars c.proofB64 + bars c.pubB64
        = bars c'.proofB64 + bars c'.pubB64 := by
      have hcount := congrArg bars hrest
      unfold bars at hcount ⊢
      simp only [String.toList_append, List.count_append] at hcount
      omega
    rw [verifyInternal_of_bars (by omega), verifyInternal_of_bars (by omega)]

/-- **The cache does not show** as long as checks with the same key name the
same sender. -/
theorem answers_eq_verifyInternal (g : Groth16) {ops : List (Memo.Op Call String)}
    (h : ∀ c c', .call c ∈ ops → .call c' ∈ ops → c.cacheKey = c'.cacheKey →
      c.sender = c'.sender) :
    new.answers g ops = (ops.filterMap Memo.Op.arg?).map (Call.verifyInternal g) := by
  rw [answers_eq_memo]
  exact Memo.answers_eq (fun c c' hc hc' hkey =>
    verifyInternal_eq_of_cacheKey_eq g hkey (h c c' hc hc' hkey))

/-- **The cache does not show where no sender has a bar**, as with
addresses, which are base58 text: a key then has the sender up to its first
bar. -/
theorem answers_eq_of_bars (g : Groth16) {ops : List (Memo.Op Call String)}
    (h : ∀ c, .call c ∈ ops → bars c.sender = 0) :
    new.answers g ops = (ops.filterMap Memo.Op.arg?).map (Call.verifyInternal g) := by
  rw [answers_eq_memo]
  refine Memo.answers_eq fun c c' hc hc' hkey => ?_
  have hsender := sender_eq_of_cacheKey_eq hkey (h c hc) (h c' hc')
  exact verifyInternal_eq_of_cacheKey_eq g hkey hsender

end ZkVerify

/-! ## Examples -/

section Sample

open Sample ZkVerify

/-- The key with a number, as a vector. -/
def keyVector (i : ℕ) : List.Vector UInt8 32 := ⟨keyBytes i, rfl⟩

/-- A check for a sender whose name has a bar. -/
def barredCall : Call := ⟨"X|" ++ keyID 2, keyVector 1, "AAAA", "AAAA"⟩

/-- A check for another sender with another key, without a proof. -/
def forgedCall : Call := ⟨"X", keyVector 2, keyID 1, "AAAA|AAAA"⟩

/-- A library with one public input, that of `barredCall`, and a proof of
it. -/
def oneProof : Groth16 where
  Proof := Unit
  Witness := Unit
  readProof _ := some ()
  readWitness _ := some ()
  vectorString _ := "[0,0,"
    ++ toString (stringToBigIntBN254FromBytes barredCall.pubKey)
    ++ "," ++ toString (stringToBigIntBN254FromBytes barredCall.sender) ++ "]"
  verify _ _ := true

/-- **Two checks with one key**: after the first has passed, the second is
answered with its result, although it fails by itself. -/
theorem answers_collide :
    ZkVerify.new.answers oneProof [.call barredCall, .call forgedCall] =
      [true, true] ∧ barredCall.verifyInternal oneProof = true ∧
      forgedCall.verifyInternal oneProof = false := by
  decide +kernel

/-- Repeated checks for one sender, one of them with a text that is not a
proof. -/
theorem answers_one_sender :
    ZkVerify.new.answers oneProof
        [.call barredCall, .evict "", .call barredCall,
          .call { barredCall with proofB64 := "|" }]
      = [true, true, false] := by
  have hsender : ∀ c, .call c ∈ [Memo.Op.call barredCall, .evict "", .call barredCall,
      .call { barredCall with proofB64 := "|" }] → c.sender = barredCall.sender := by
    intro c hc
    simp only [List.mem_cons, Memo.Op.call.injEq, reduceCtorEq,
      List.not_mem_nil, or_false, false_or] at hc
    obtain rfl | rfl | rfl := hc <;> rfl
  rw [answers_eq_verifyInternal oneProof
    (fun c c' hc hc' _ => (hsender c hc).trans (hsender c' hc').symm)]
  decide +kernel

end Sample

end Mmn
