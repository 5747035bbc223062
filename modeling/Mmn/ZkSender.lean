import Mmn.ZkVerify

/-!
# Whom a proof is for

A proof is bound to its sender by one element of the public input: the text
of the sender's address, read as a number in base 256 (`base256`) and
reduced modulo the order of the scalar field. That element is all the check
knows of the sender. A proof that is accepted for one sender is accepted for
another exactly if the numbers of their texts are congruent modulo that
order (`accepted_for_iff`).

An address is the base58 text of thirty-two bytes. There are `2 ^ 256` of
them and fewer than `2 ^ 254` elements, so that different addresses must
share one; and because the digits of an address can be changed
independently, two that do are not hard to come by. The difference of two
texts is a short vector of a lattice, and a lattice reduction finds one at
once. The two addresses of `accepted_for_two_addresses` were found in this
way.
-/

namespace Mmn

namespace ZkVerify

/-- A text as a number: its bytes are digits in base 256, the first the most
significant. -/
def base256 (s : String) : ℕ :=
  (textBytes s).foldl (fun n b => 256 * n + b.toNat) 0

/-- The element of a text is its number, reduced. -/
theorem stringToBigIntBN254FromBytes_eq (s : String) :
    stringToBigIntBN254FromBytes s = base256 s % scalarField := by
  unfold stringToBigIntBN254FromBytes base256
  rw [Nat.ofDigits_eq_foldr, List.foldr_reverse, List.foldl_map]
  congr 2
  funext n b
  exact Nat.add_comm _ _

theorem verifyInternal_eq_true_iff {g : Groth16}
    {sender pubKey proofB64 pubB64 : String} :
    verifyInternal g sender pubKey proofB64 pubB64 = true ↔
      ∃ proofBytes proof pwBytes pw,
        Base64.decode proofB64 = some proofBytes ∧
        g.readProof proofBytes = some proof ∧
        Base64.decode pubB64 = some pwBytes ∧ g.readWitness pwBytes = some pw ∧
        (pubStringArray (g.vectorString pw)).length = 4 ∧
        (pubStringArray (g.vectorString pw))[3]?
          = some (toString (stringToBigIntBN254FromBytes sender)) ∧
        (pubStringArray (g.vectorString pw))[2]?
          = some (toString (stringToBigIntBN254FromBytes pubKey)) ∧
        g.verify proof pw = true := by
  unfold verifyInternal
  cases Base64.decode proofB64 with
  | none => simp
  | some proofBytes =>
    dsimp only
    cases hproof : g.readProof proofBytes with
    | none => simp [hproof]
    | some proof =>
      dsimp only
      cases Base64.decode pubB64 with
      | none => simp
      | some pwBytes =>
        dsimp only
        cases hpw : g.readWitness pwBytes with
        | none => simp [hpw]
        | some pw => simp [hproof, hpw]

/-- **A proof is for one element of the field.** What is accepted for a
sender is accepted for another sender exactly if the texts of the two, as
numbers in base 256, are congruent modulo the order of the field. -/
theorem accepted_for_iff {g : Groth16} {sender pubKey proofB64 pubB64 : String}
    (h : verifyInternal g sender pubKey proofB64 pubB64 = true) (sender' : String) :
    verifyInternal g sender' pubKey proofB64 pubB64 = true ↔
      base256 sender' ≡ base256 sender [MOD scalarField] := by
  rw [Nat.ModEq, ← stringToBigIntBN254FromBytes_eq, ← stringToBigIntBN254FromBytes_eq]
  rw [verifyInternal_eq_true_iff] at h ⊢
  obtain ⟨proofBytes, proof, pwBytes, pw, hproofB64, hproof, hpubB64, hpw, hlen,
    hsender, hkey, hverify⟩ := h
  constructor
  · rintro ⟨proofBytes', proof', pwBytes', pw', -, -, hpubB64', hpw', -,
      hsender', -, -⟩
    -- the public input is the same, and so is its last element
    obtain rfl := Option.some.inj (hpubB64'.symm.trans hpubB64)
    obtain rfl := Option.some.inj (hpw'.symm.trans hpw)
    exact toString_nat_injective (Option.some.inj (hsender'.symm.trans hsender))
  · intro heq
    rw [heq]
    exact ⟨proofBytes, proof, pwBytes, pw, hproofB64, hproof, hpubB64, hpw, hlen,
      hsender, hkey, hverify⟩

end ZkVerify

/-! ## Two addresses with one element -/

section Sample

open Sample ZkVerify

/-- A library that accepts every proof for the sender with a text, under the
first key. -/
def proofFor (sender : String) : Groth16 where
  Proof := Unit
  Witness := Unit
  readProof _ := some ()
  readWitness _ := some ()
  vectorString _ := "[0,0," ++ toString (stringToBigIntBN254FromBytes (keyID 1))
    ++ "," ++ toString (stringToBigIntBN254FromBytes sender) ++ "]"
  verify _ _ := true

/-- An address. -/
def firstAddress : String := "z211582G2171441E111113DF1B111DaAA3CAN981F1B"

/-- Another address whose text is congruent to the first. -/
def secondAddress : String := "x1A11AJ11AA6AAQ18845511161EAP1421A1111111D1"

/-- **One proof for two addresses.** Both are the base58 texts of thirty-two
bytes, different ones, and what is accepted for the first is accepted for
the second. -/
theorem accepted_for_two_addresses :
    (∃ bs bs' : List.Vector UInt8 32, Base58.encode bs.toList = firstAddress ∧
        Base58.encode bs'.toList = secondAddress) ∧
      firstAddress ≠ secondAddress ∧
      stringToBigIntBN254FromBytes firstAddress = stringToBigIntBN254FromBytes
        secondAddress ∧
      verifyInternal (proofFor firstAddress) firstAddress (keyID 1) "AAAA"
        "AAAA" = true ∧
      verifyInternal (proofFor firstAddress) secondAddress (keyID 1) "AAAA" "AAAA"
        = true := by
  refine ⟨⟨⟨(Base58.decode firstAddress).getD [], by decide +kernel⟩,
    ⟨(Base58.decode secondAddress).getD [], by decide +kernel⟩, by decide +kernel,
    by decide +kernel⟩, by decide, by decide +kernel, by decide +kernel, by
      decide +kernel⟩

/-- A proof for the first address is not one for the second key. -/
theorem not_accepted_for_key :
    verifyInternal (proofFor firstAddress) firstAddress (keyID 1) "AAAA"
      "AAAA" = true ∧
      ¬verifyInternal (proofFor firstAddress) (keyID 2) (keyID 1) "AAAA" "AAAA"
        = true := by
  have h : verifyInternal (proofFor firstAddress) firstAddress (keyID 1) "AAAA" "AAAA"
      = true := by
    decide +kernel
  exact ⟨h, (accepted_for_iff h (keyID 2)).not.mpr (by decide +kernel)⟩

end Sample

end Mmn
