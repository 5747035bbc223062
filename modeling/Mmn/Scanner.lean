import Mathlib.Data.List.Basic
import Mathlib.InformationTheory.Coding.UniquelyDecodable

/-!
# Words that say where they end

Words are written one after the other without a mark between them. They can
be told apart if a reader that goes from left to right notices the last
symbol of each: a *scanner* has a state, reads one symbol at a time, and
goes on in a new state or stops. The words at whose last symbol a scanner
stops, and not before, form a code in which no word begins with another, so
that a concatenation of them has one decomposition
(`uniquelyDecodable_stops`).

To show that a word is of this kind, one shows of its parts in turn that the
scanner passes them (`passes_append`).
-/

namespace Scanner

variable {σ α : Type} {step : σ → α → Option σ}

/-- **The scanner passes a word**: it goes on at every symbol, from one
state to another. -/
def Passes (step : σ → α → Option σ) (s : σ) (w : List α) (t : σ) : Prop :=
  w.foldlM step s = some t

/-- **The scanner stops with a word**: at its last symbol, and not before. -/
def Stops (step : σ → α → Option σ) (s : σ) (w : List α) : Prop :=
  ∃ body a t, w = body ++ [a] ∧ Passes step s body t ∧ step t a = none

theorem passes_nil (s : σ) : Passes step s [] s := rfl

theorem passes_singleton {s t : σ} {a : α} (h : step s a = some t) :
    Passes step s [a] t := by
  unfold Passes
  rw [List.foldlM_cons, h]
  rfl

theorem passes_append {s t u : σ} {v w : List α} (hv : Passes step s v t)
    (hw : Passes step t w u) : Passes step s (v ++ w) u := by
  unfold Passes at *
  rw [List.foldlM_append, hv]
  exact hw

/-- A scanner that stays where it is at every symbol of a word passes the
word. -/
theorem passes_of_forall {s : σ} {w : List α} (h : ∀ a ∈ w, step s a = some s) :
    Passes step s w s := by
  induction w with
  | nil => exact passes_nil s
  | cons a w ih =>
    exact passes_append (passes_singleton (h a List.mem_cons_self))
      (ih fun b hb => h b (List.mem_cons_of_mem a hb))

/-- What a scanner passes does not begin with what it stops at. -/
theorem not_passes_of_stop {s t u : σ} {v w : List α} {a : α} (hv : Passes step s v t)
    (hstop : step t a = none) : ¬Passes step s (v ++ a :: w) u := by
  unfold Passes at *
  rw [List.foldlM_append, hv]
  simp [hstop]

/-- **No word the scanner stops with begins with another.** -/
theorem stops_append_inj {s : σ} {v w x y : List α} (hv : Stops step s v)
    (hw : Stops step s w) (h : v ++ x = w ++ y) : v = w ∧ x = y := by
  obtain ⟨v, a, t, rfl, hpass, hstop⟩ := hv
  obtain ⟨w, b, u, rfl, hpass', hstop'⟩ := hw
  rw [List.append_assoc, List.append_assoc, List.singleton_append,
    List.singleton_append] at h
  obtain ⟨c, hcw, hc⟩ | ⟨c, hcv, hc⟩ := List.append_eq_append_iff.mp h
  · cases c with
    | nil =>
      obtain ⟨rfl, rfl⟩ := List.cons.inj hc
      rw [hcw, List.append_nil]
      exact ⟨rfl, rfl⟩
    | cons d c =>
      obtain ⟨rfl, -⟩ := List.cons.inj hc
      exact absurd (hcw ▸ hpass') (not_passes_of_stop hpass hstop)
  · cases c with
    | nil =>
      obtain ⟨rfl, rfl⟩ := List.cons.inj hc
      rw [hcv, List.append_nil]
      exact ⟨rfl, rfl⟩
    | cons d c =>
      obtain ⟨rfl, -⟩ := List.cons.inj hc
      exact absurd (hcv ▸ hpass) (not_passes_of_stop hpass' hstop')

/-- A word a scanner stops with has a last symbol. -/
theorem ne_nil_of_stops {s : σ} {w : List α} (h : Stops step s w) : w ≠ [] := by
  obtain ⟨body, a, -, rfl, -⟩ := h
  exact List.append_ne_nil_of_right_ne_nil body (List.cons_ne_nil a [])

/-- **The words a scanner stops with can be told apart in a concatenation.** -/
theorem uniquelyDecodable_stops (step : σ → α → Option σ) (s : σ) :
    InformationTheory.UniquelyDecodable {w | Stops step s w} := by
  intro vs ws hvs hws h
  induction vs generalizing ws with
  | nil =>
    cases ws with
    | nil => rfl
    | cons w ws =>
      have hnil : w = [] := (List.append_eq_nil_iff.mp h.symm).1
      exact absurd hnil (ne_nil_of_stops (hws w List.mem_cons_self))
  | cons v vs ih =>
    cases ws with
    | nil =>
      have hnil : v = [] := (List.append_eq_nil_iff.mp h).1
      exact absurd hnil (ne_nil_of_stops (hvs v List.mem_cons_self))
    | cons w ws =>
      obtain ⟨rfl, hrest⟩ := stops_append_inj (hvs v List.mem_cons_self)
        (hws w List.mem_cons_self) h
      rw [ih ws (fun u hu => hvs u (List.mem_cons_of_mem v hu))
        (fun u hu => hws u (List.mem_cons_of_mem v hu)) hrest]

end Scanner
