import Mathlib.Data.List.Basic

/-!
# Two ways to go through a list

A function that may fail is applied to the elements of a list. Either the
first failure ends it all – that is `List.mapM` – or every failure is
reported and its element left out (`skipReport`). The two policies are often
written out separately, with errors of different kinds, and what relates
them is this: if the first one succeeds, the second one gives the same
results and reports nothing, and if the first one fails, the second one
reports something (`skipReport_of_mapM_eq_ok`, `reports_of_mapM_eq_error`).
All that is needed is that the two functions fail at the same elements and
agree at the others (`SameOk`).
-/

namespace Traversal

variable {α β γ ε ρ : Type}

/-- Apply a function to all elements; elements at which it fails are left
out and reported. -/
def skipReport (g : α → Except ρ β) : List α → List β × List ρ
  | [] => ([], [])
  | a :: as =>
    match g a with
    | .error report => ((skipReport g as).1, report :: (skipReport g as).2)
    | .ok b => (b :: (skipReport g as).1, (skipReport g as).2)

/-- **The same successes**: the two functions succeed at the same elements,
with the same result. -/
def SameOk (f : α → Except ε β) (g : α → Except ρ β) : Prop :=
  ∀ a b, f a = .ok b ↔ g a = .ok b

variable {f : α → Except ε β} {g : α → Except ρ β} {a : α} {as : List α}

/-- Where one of the functions fails, so does the other. -/
theorem SameOk.exists_error (h : SameOk f g) {err : ε} (hf : f a = .error err) :
    ∃ report, g a = .error report := by
  cases hg : g a with
  | error report => exact ⟨report, rfl⟩
  | ok b =>
    rw [(h a b).mpr hg] at hf
    cases hf

theorem mapM_cons_eq_ok {bs : List β} (h : (a :: as).mapM f = .ok bs) :
    ∃ b bs', f a = .ok b ∧ as.mapM f = .ok bs' ∧ bs = b :: bs' := by
  rw [List.mapM_cons] at h
  cases hf : f a with
  | error err =>
    rw [hf] at h
    cases h
  | ok b =>
    rw [hf] at h
    cases hrest : as.mapM f with
    | error err =>
      rw [hrest] at h
      cases h
    | ok bs' =>
      rw [hrest] at h
      cases h
      exact ⟨b, bs', rfl, rfl, rfl⟩

/-- The first element fails, or it succeeds and the rest fails. -/
theorem mapM_cons_eq_error {err : ε} (h : (a :: as).mapM f = .error err) :
    f a = .error err ∨ (∃ b, f a = .ok b) ∧ as.mapM f = .error err := by
  rw [List.mapM_cons] at h
  cases hf : f a with
  | error err' =>
    rw [hf] at h
    cases h
    exact Or.inl rfl
  | ok b =>
    rw [hf] at h
    cases hrest : as.mapM f with
    | error err' =>
      rw [hrest] at h
      cases h
      exact Or.inr ⟨⟨b, rfl⟩, rfl⟩
    | ok bs =>
      rw [hrest] at h
      cases h

/-- **If the first policy succeeds**, the second one gives the same and
reports nothing. -/
theorem skipReport_of_mapM_eq_ok (h : SameOk f g) {bs : List β}
    (hok : as.mapM f = .ok bs) :
    skipReport g as = (bs, []) := by
  induction as generalizing bs with
  | nil =>
    cases hok
    rfl
  | cons a as ih =>
    obtain ⟨b, bs', hf, hrest, rfl⟩ := mapM_cons_eq_ok hok
    unfold skipReport
    rw [(h a b).mp hf, ih hrest]

/-- **If the first policy fails**, the second one reports something. -/
theorem reports_of_mapM_eq_error (h : SameOk f g) {err : ε}
    (hfail : as.mapM f = .error err) :
    (skipReport g as).2 ≠ [] := by
  induction as with
  | nil => cases hfail
  | cons a as ih =>
    unfold skipReport
    obtain hf | ⟨⟨b, hf⟩, hrest⟩ := mapM_cons_eq_error hfail
    · obtain ⟨report, hg⟩ := h.exists_error hf
      rw [hg]
      exact List.cons_ne_nil _ _
    · rw [(h a b).mp hf]
      exact ih hrest

/-- A failure of the first policy is that of the function at some element. -/
theorem exists_mem_of_mapM_eq_error {err : ε} (hfail : as.mapM f = .error err) :
    ∃ a ∈ as, f a = .error err := by
  induction as with
  | nil => cases hfail
  | cons a as ih =>
    obtain hf | ⟨-, hrest⟩ := mapM_cons_eq_error hfail
    · exact ⟨a, List.mem_cons_self, hf⟩
    · obtain ⟨a', hmem, ha'⟩ := ih hrest
      exact ⟨a', List.mem_cons_of_mem a hmem, ha'⟩

/-- What the first policy gives is what the function gives, element by
element. -/
theorem map_eq_of_mapM_eq_ok {k : α → γ} {l : β → γ}
    (hk : ∀ a b, f a = .ok b → k a = l b) {bs : List β} (hok : as.mapM f = .ok bs) :
    as.map k = bs.map l := by
  induction as generalizing bs with
  | nil =>
    cases hok
    rfl
  | cons a as ih =>
    obtain ⟨b, bs', hf, hrest, rfl⟩ := mapM_cons_eq_ok hok
    rw [List.map_cons, List.map_cons, hk a b hf, ih hrest]

end Traversal
