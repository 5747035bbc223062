import Mmn.Sample

/-!
# What the signed bytes of a transaction determine

A transaction is signed as seven fields joined by bars. Three of the fields
are texts that anybody may fill – a bar is not escaped, and neither `verify`
nor the mempool looks for one. Bytes that were signed for one transaction
are then the bytes of others: a bar moved across a field boundary turns a
piece of the memo into the amount and the amount into a piece of the
recipient (`signed_for_two_transfers`).

What the bytes do determine is every field, as soon as the number of bars in
the sender, the recipient and the memo is known, and whether the amount is
there – a missing amount is written as zero (`sameSigned_iff`).
-/

namespace Mmn

/-- How many bars are in a text. -/
def bars (s : String) : ℕ := s.toList.count '|'

theorem bar_inj {a b x y : String} (h : a ++ ("|" ++ x) = b ++ ("|" ++ y))
    (hbars : bars a = bars b) : a = b ∧ x = y :=
  String.append_sep_inj (by decide) h hbars

namespace Transaction

/-- **The two agree on the signed fields.** -/
def SameSigned (t₁ t₂ : Transaction) : Prop :=
  t₁.type = t₂.type ∧ t₁.sender = t₂.sender ∧ t₁.recipient = t₂.recipient ∧
    t₁.amount = t₂.amount ∧ t₁.textData = t₂.textData ∧ t₁.nonce = t₂.nonce ∧
    t₁.extraInfo = t₂.extraInfo

/-- **The same bars in the same fields**, and an amount in both or neither. -/
def SameBars (t₁ t₂ : Transaction) : Prop :=
  bars t₁.sender = bars t₂.sender ∧ bars t₁.recipient = bars t₂.recipient ∧
    bars t₁.textData = bars t₂.textData ∧ t₁.amount.isSome = t₂.amount.isSome

theorem bars_uint256ToString (amount : Option (BitVec 256)) :
    bars (uint256ToString amount) = 0 := by
  cases amount with
  | none => decide
  | some v => exact count_toString_nat (by decide) v.toNat

/-- The text of an amount determines it, if it is known to be there or not. -/
theorem uint256ToString_inj {a₁ a₂ : Option (BitVec 256)}
    (hsome : a₁.isSome = a₂.isSome) (h : uint256ToString a₁ = uint256ToString a₂) :
    a₁ = a₂ := by
  cases a₁ with
  | none =>
    cases a₂ with
    | none => rfl
    | some v₂ => cases hsome
  | some v₁ =>
    cases a₂ with
    | none => cases hsome
    | some v₂ =>
      exact congrArg some (BitVec.eq_of_toNat_eq (toString_nat_injective h))

/-- **The bytes determine the fields** where the bars are in the same
fields. -/
theorem sameSigned_of_sameBars {t₁ t₂ : Transaction} (h : t₁.serialize = t₂.serialize)
    (hbars : SameBars t₁ t₂) : SameSigned t₁ t₂ := by
  obtain ⟨hsender, hrecipient, htext, hamount⟩ := hbars
  have htexts := textBytes_injective h
  simp only [String.append_assoc] at htexts
  -- from the left, one field after the other
  obtain ⟨htype, htexts⟩ := bar_inj htexts
    ((count_toString_int (by decide) (by decide) _).trans
      (count_toString_int (by decide) (by decide) _).symm)
  obtain ⟨hsender, htexts⟩ := bar_inj htexts hsender
  obtain ⟨hrecipient, htexts⟩ := bar_inj htexts hrecipient
  obtain ⟨hamountText, htexts⟩ := bar_inj htexts
    ((bars_uint256ToString _).trans (bars_uint256ToString _).symm)
  obtain ⟨htext, htexts⟩ := bar_inj htexts htext
  obtain ⟨hnonce, hextra⟩ := bar_inj htexts
    ((count_toString_nat (by decide) _).trans (count_toString_nat (by decide) _).symm)
  exact ⟨Int32.toInt_inj.mp (toString_int_injective htype), hsender, hrecipient,
    uint256ToString_inj hamount hamountText, htext,
    UInt64.toNat_inj.mp (toString_nat_injective hnonce), hextra⟩

/-- **What is signed for one transaction is signed for another exactly if a
bar is in another field or a missing amount stands for zero.** -/
theorem sameSigned_iff {t₁ t₂ : Transaction} (h : t₁.serialize = t₂.serialize) :
    SameSigned t₁ t₂ ↔ SameBars t₁ t₂ := by
  refine ⟨fun hsame => ?_, sameSigned_of_sameBars h⟩
  obtain ⟨-, hsender, hrecipient, hamount, htext, -, -⟩ := hsame
  exact ⟨congrArg bars hsender, congrArg bars hrecipient, congrArg bars htext,
    congrArg Option.isSome hamount⟩

end Transaction

/-! ## Examples -/

section Sample

attribute [local instance] Sample.primitives

open Sample Transaction

/-- Two transfers that differ in the timestamp, which is not signed. -/
theorem sameSigned_timestamps :
    (transfer 1 2 5 1 0).SameSigned (transfer 1 2 5 1 7) :=
  (sameSigned_iff (by decide +kernel)).mpr ⟨rfl, rfl, rfl, rfl⟩

/-- A transfer of five, with a memo that has a bar. -/
def smallTransfer : Transaction :=
  let tx : Transaction :=
    { Transaction.zero with
      type := txTypeTransferByKey
      sender := keyID 1
      recipient := "r"
      amount := some 5
      textData := "700|t"
      nonce := 1 }
  { tx with signature := Base58.encode (signWith (keyBytes 1) tx.serialize) }

/-- A transfer of seven hundred to somebody else, under the same signature. -/
def largeTransfer : Transaction :=
  { smallTransfer with recipient := "r|5", amount := some 700, textData := "t" }

/-- **A signature for two transfers**: both verify, and they differ in
recipient and amount. -/
theorem signed_for_two_transfers :
    smallTransfer.verify = true ∧ largeTransfer.verify = true ∧
      smallTransfer.serialize = largeTransfer.serialize ∧
      smallTransfer.recipient ≠ largeTransfer.recipient ∧
      smallTransfer.amount ≠ largeTransfer.amount := by
  decide +kernel

end Sample

end Mmn
