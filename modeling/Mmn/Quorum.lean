import Mathlib.Data.Finset.Card
import Mathlib.Data.Fintype.Card

/-!
# Quorums that overlap in a correct member

Two sets of voters that are together larger than the electorate overlap, and
if they are larger by more than the number of faulty voters then one of the
voters they share is correct. This is the counting fact behind every
quorum-based agreement argument: what two quorums certify, one correct voter
has certified both times.

The bound is attained: of every size there are two sets that overlap no more
than they have to (`exists_card_inter_eq`), so a size for which the bound
says nothing is one for which nothing holds.
-/

namespace Quorum

variable {V : Type} [Fintype V] [DecidableEq V]

/-- The overlap of two sets of voters is at least what they exceed the
electorate by. -/
theorem card_add_card_le (A B : Finset V) :
    A.card + B.card ≤ (A ∩ B).card + Fintype.card V := by
  have hsum := Finset.card_union_add_card_inter A B
  have hunion : (A ∪ B).card ≤ Fintype.card V := Finset.card_le_univ _
  omega

/-- **Two quorums share a correct voter** when their sizes exceed the
electorate by more than the number of faulty voters. -/
theorem exists_correct_mem_inter {A B F : Finset V}
    (h : Fintype.card V + F.card < A.card + B.card) :
    ∃ v, v ∈ A ∧ v ∈ B ∧ v ∉ F := by
  have hover := card_add_card_le A B
  have hlarge : F.card < (A ∩ B).card := by omega
  obtain ⟨v, hv, hvF⟩ := Finset.exists_mem_notMem_of_card_lt_card hlarge
  exact ⟨v, Finset.mem_of_mem_inter_left hv, Finset.mem_of_mem_inter_right hv, hvF⟩

/-- **Two sets of a size that overlap as little as they can.** The second is
taken outside the first as far as there is room. -/
theorem exists_card_inter_eq {q : ℕ} (hq : q ≤ Fintype.card V) :
    ∃ A B : Finset V, A.card = q ∧ B.card = q ∧
      (A ∩ B).card = 2 * q - Fintype.card V := by
  obtain ⟨A, -, hA⟩ := Finset.exists_subset_card_eq
    (show q ≤ (Finset.univ : Finset V).card from hq)
  have hcompl : Aᶜ.card = Fintype.card V - q := by
    rw [Finset.card_compl, hA]
  by_cases hroom : q ≤ Aᶜ.card
  · obtain ⟨B, hsub, hB⟩ := Finset.exists_subset_card_eq hroom
    refine ⟨A, B, hA, hB, ?_⟩
    have hempty : A ∩ B = ∅ := by
      ext v
      simp only [Finset.mem_inter, Finset.notMem_empty, iff_false, not_and]
      exact fun hvA hvB => Finset.mem_compl.mp (hsub hvB) hvA
    rw [hempty, Finset.card_empty]
    omega
  · obtain ⟨B, hsub, -, hB⟩ := Finset.exists_subsuperset_card_eq
      (Finset.subset_univ Aᶜ) (by omega)
        (show q ≤ (Finset.univ : Finset V).card from hq)
    refine ⟨A, B, hA, hB, ?_⟩
    have huniv : A ∪ B = Finset.univ := by
      ext v
      simp only [Finset.mem_union, Finset.mem_univ, iff_true]
      by_cases hv : v ∈ A
      · exact Or.inl hv
      · exact Or.inr (hsub (Finset.mem_compl.mpr hv))
    have hsum := Finset.card_union_add_card_inter A B
    rw [huniv, Finset.card_univ, hA, hB] at hsum
    omega

end Quorum
