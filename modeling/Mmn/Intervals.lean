import Mathlib.Data.List.Basic
import Mathlib.Order.Lattice

/-!
# Ranges in order

A list of ranges, each with two ends, in which every range begins no earlier
than the one before it and after the end of that one. Nothing asks of a
range that its ends are in order: one whose last point lies before its first
covers nothing and is in nobody's way. Points between two ranges are covered
by neither.

In such a list a point is covered by one range at most
(`length_filter_covers_le_one`), and the only candidate is the last range
that begins at or before the point (`find?_covers`). This is what lets a
search look at a single range.
-/

namespace Intervals

variable {α β : Type} [LinearOrder α] (lo hi : β → α)

/-- The range covers the point, ends included. -/
def Covers (x : α) (b : β) : Prop := lo b ≤ x ∧ x ≤ hi b

instance (x : α) : DecidablePred (Covers lo hi x) :=
  fun _ => inferInstanceAs (Decidable (_ ∧ _))

/-- **Two ranges in order**: the second begins no earlier than the first,
and after its end. -/
def Apart (a b : β) : Prop := lo a ≤ lo b ∧ hi a < lo b

variable {lo hi} {l : List β} {x : α}

theorem Apart.trans {a b c : β} (hab : Apart lo hi a b) (hbc : Apart lo hi b c) :
    Apart lo hi a c :=
  ⟨hab.1.trans hbc.1, hab.2.trans_le hbc.1⟩

/-- Ranges in order are in order with all that follow, not only with their
neighbour. -/
theorem pairwise_of_isChain (h : l.IsChain (Apart lo hi)) :
    l.Pairwise (Apart lo hi) := by
  have : Trans (Apart lo hi) (Apart lo hi) (Apart lo hi) := ⟨Apart.trans⟩
  exact List.isChain_iff_pairwise.mp h

/-- Of two ranges in order only one covers a point. -/
theorem not_covers_of_apart {a b : β} (h : Apart lo hi a b) (hb : lo b ≤ x) :
    ¬Covers lo hi x a :=
  fun ha => absurd (ha.2.trans_lt h.2) (not_lt.mpr hb)

/-- **A point is covered by one range at most.** -/
theorem length_filter_covers_le_one (h : l.Pairwise (Apart lo hi)) :
    (l.filter (Covers lo hi x)).length ≤ 1 := by
  induction l with
  | nil => exact Nat.zero_le 1
  | cons a l ih =>
    obtain ⟨ha, hl⟩ := List.pairwise_cons.mp h
    by_cases hcov : Covers lo hi x a
    · have hrest : l.filter (Covers lo hi x) = [] := by
        refine List.filter_eq_nil_iff.mpr fun b hb hcovb => ?_
        exact not_covers_of_apart (ha b hb) (of_decide_eq_true hcovb).1 hcov
      rw [List.filter_cons_of_pos (by simpa using hcov), hrest]
      exact Nat.le_refl 1
    · rw [List.filter_cons_of_neg (by simpa using hcov)]
      exact ih hl

/-- **The only candidate** is the last range that begins at or before the
point. -/
theorem find?_covers {pre post : List β} {b : β}
    (h : (pre ++ b :: post).Pairwise (Apart lo hi)) (hb : lo b ≤ x)
    (hpost : ∀ c ∈ post, x < lo c) :
    (pre ++ b :: post).find? (Covers lo hi x) = if Covers lo hi x b then some b
      else none := by
  obtain ⟨-, -, hcross⟩ := List.pairwise_append.mp h
  have hbefore : pre.find? (Covers lo hi x) = none := by
    refine List.find?_eq_none.mpr fun a ha hcov => ?_
    exact not_covers_of_apart (hcross a ha b List.mem_cons_self) hb
      (of_decide_eq_true hcov)
  have hafter : post.find? (Covers lo hi x) = none := by
    refine List.find?_eq_none.mpr fun c hc hcov => ?_
    exact not_le.mpr (hpost c hc) (of_decide_eq_true hcov).1
  rw [List.find?_append, hbefore, Option.none_or, List.find?_cons, hafter]
  by_cases hcov : Covers lo hi x b <;> simp [hcov]

/-- Where there is one element at most to be found, it is found. -/
theorem find?_eq_some_of_mem {p : β → Bool} (hone : (l.filter p).length ≤ 1) {b : β}
    (hb : b ∈ l) (hp : p b = true) : l.find? p = some b := by
  have hmem : b ∈ l.filter p := List.mem_filter.mpr ⟨hb, hp⟩
  rw [← List.head?_filter]
  match hl : l.filter p with
  | [] =>
    rw [hl] at hmem
    exact absurd hmem List.not_mem_nil
  | [c] =>
    rw [hl, List.mem_singleton] at hmem
    rw [hmem]
    rfl
  | _ :: _ :: _ =>
    rw [hl] at hone
    simp at hone

end Intervals
