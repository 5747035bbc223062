import Mathlib.Data.List.Nodup
import Mathlib.Logic.Function.Basic

/-!
# Versions that follow one another

Things have versions. A version is a root, or it names the root it goes back
to and the version it follows. A registry keeps, for each root, the name of
the latest version. It accepts a root under its own name, and a version that
follows the latest one of its root and has the same owner; the accepted
version is then the latest.

The accepted versions of a root form one line (`Line`), from the latest back
to the root, and none is off it (`Coherent`). This needs that no two
versions accepted have the same name: a root accepted a second time would
hide the versions that follow it.
-/

/-- What is read off a version. -/
structure Lineage (τ κ ω : Type) where
  id : τ → κ
  /-- The names of its root and of the version it follows, unless it is a
  root. -/
  link : τ → Option (κ × κ)
  owner : τ → ω

namespace Lineage

variable {τ κ ω : Type} (L : Lineage τ κ ω)

/-! ## Lines -/

/-- **A line of versions**, from the latest to the root. -/
inductive Line (r : κ) : List τ → Prop where
  | root {x : τ} (hid : L.id x = r) (hlink : L.link x = none) : Line r [x]
  | next {x y : τ} {ys : List τ} (hrest : Line r (y :: ys))
      (hlink : L.link x = some (r, L.id y)) (howner : L.owner x = L.owner y) :
      Line r (x :: y :: ys)

/-- The version goes back to the root `r`, or is it. -/
def Belongs (x : τ) (r : κ) : Prop :=
  (L.link x = none ∧ L.id x = r) ∨ ∃ p, L.link x = some (r, p)

variable {L} {r : κ} {x y : τ} {xs : List τ}

theorem Line.exists_root (h : L.Line r xs) :
    ∃ x ∈ xs, L.link x = none ∧ L.id x = r := by
  induction h with
  | root hid hlink => exact ⟨_, List.mem_cons_self, hlink, hid⟩
  | next _ _ _ ih =>
    obtain ⟨x, hx, hroot⟩ := ih
    exact ⟨x, List.mem_cons_of_mem _ hx, hroot⟩

theorem Line.owner_eq (h : L.Line r (x :: xs)) :
    ∀ y ∈ x :: xs, L.owner y = L.owner x := by
  generalize hline : x :: xs = line at h
  induction h generalizing x xs with
  | root =>
    cases hline
    exact fun y hy => by rw [List.mem_singleton.mp hy]
  | next _ _ howner ih =>
    cases hline
    intro z hz
    obtain rfl | hz := List.mem_cons.mp hz
    · rfl
    · exact (ih rfl z hz).trans howner.symm

/-- What a version of a line follows comes after the latest. -/
theorem Line.parent_mem (h : L.Line r (x :: xs)) {p : κ} (hy : y ∈ x :: xs)
    (hlink : L.link y = some (r, p)) : p ∈ xs.map L.id := by
  generalize hline : x :: xs = line at h hy
  induction h generalizing x xs with
  | root _ hroot =>
    cases hline
    rw [List.mem_singleton.mp hy, hroot] at hlink
    cases hlink
  | next hrest hlink' _ ih =>
    cases hline
    obtain rfl | hy := List.mem_cons.mp hy
    · obtain ⟨-, rfl⟩ := Prod.mk.inj (Option.some.inj (hlink'.symm.trans hlink))
      exact List.mem_cons_self
    · exact List.mem_cons_of_mem _ (ih rfl hy)

/-- **No two versions of a line follow the same one.** -/
theorem Line.eq_of_link (h : L.Line r xs) (hnodup : (xs.map L.id).Nodup) {p : κ}
    (hx : x ∈ xs) (hy : y ∈ xs) (hxlink : L.link x = some (r, p))
    (hylink : L.link y = some (r, p)) :
    x = y := by
  induction h with
  | root => rw [List.mem_singleton.mp hx, List.mem_singleton.mp hy]
  | @next a b bs hrest hlink _ ih =>
    -- one that is further back cannot follow what the latest follows
    have hback : ∀ z ∈ b :: bs, L.link z = some (r, p) → L.link a ≠ some (r, p) := by
      intro z hz hzlink halink
      obtain ⟨-, hp⟩ := Prod.mk.inj (Option.some.inj (hlink.symm.trans halink))
      have hmem := hrest.parent_mem hz hzlink
      rw [List.map_cons, List.map_cons, List.nodup_cons, List.nodup_cons] at hnodup
      exact hnodup.2.1 (hp ▸ hmem)
    obtain hxa | hxb := List.mem_cons.mp hx
    · obtain hya | hyb := List.mem_cons.mp hy
      · exact hxa.trans hya.symm
      · exact absurd (hxa ▸ hxlink) (hback y hyb hylink)
    · obtain hya | hyb := List.mem_cons.mp hy
      · exact absurd (hya ▸ hylink) (hback x hxb hxlink)
      · exact ih (List.nodup_cons.mp hnodup).2 hxb hyb

/-! ## The registry -/

variable (L)

/-- **The latest versions and the versions accepted agree.** -/
structure Coherent (latest : κ → Option κ) (accepted : List τ) : Prop where
  /-- A latest version is the head of a line of accepted versions, with all
  that belong to the root. -/
  line : ∀ r k, latest r = some k → ∃ x xs, L.id x = k ∧ L.Line r (x :: xs) ∧
    ((x :: xs).map L.id).Nodup ∧ (∀ y ∈ x :: xs, y ∈ accepted) ∧
    ∀ y ∈ accepted, L.Belongs y r → y ∈ x :: xs
  known : ∀ y ∈ accepted, ∀ r, L.Belongs y r → latest r ≠ none

theorem Coherent.empty : L.Coherent (fun _ => none) [] where
  line _ _ h := by cases h
  known _ h := by cases h

variable {L} [DecidableEq κ] {latest : κ → Option κ} {accepted : List τ}

/-- A change of one root, with a version that belongs to it alone. -/
theorem Coherent.update (h : L.Coherent latest accepted)
    (hbelongs : ∀ r', L.Belongs x r' → r' = r)
    (hline : ∃ xs, L.Line r (x :: xs) ∧ ((x :: xs).map L.id).Nodup ∧
      (∀ y ∈ xs, y ∈ accepted) ∧ ∀ y ∈ accepted, L.Belongs y r → y ∈ xs) :
    L.Coherent (Function.update latest r (some (L.id x))) (accepted ++ [x]) where
  line r' k hk := by
    by_cases heq : r' = r
    · subst heq
      rw [Function.update_self] at hk
      obtain ⟨xs, hl, hnodup, hsub, hall⟩ := hline
      refine ⟨x, xs, Option.some.inj hk, hl, hnodup, fun y hy => ?_, fun y hy hb =>
        ?_⟩
      · obtain rfl | hy := List.mem_cons.mp hy
        · exact List.mem_append_right _ List.mem_cons_self
        · exact List.mem_append_left _ (hsub y hy)
      · obtain hy | hy := List.mem_append.mp hy
        · exact List.mem_cons_of_mem x (hall y hy hb)
        · rw [List.mem_singleton.mp hy]
          exact List.mem_cons_self
    · rw [Function.update_of_ne heq] at hk
      obtain ⟨x', xs, hid, hl, hnodup, hsub, hall⟩ := h.line r' k hk
      refine ⟨x', xs, hid, hl, hnodup, fun y hy => List.mem_append_left _ (hsub y hy),
        fun y hy hb => ?_⟩
      obtain hy | hy := List.mem_append.mp hy
      · exact hall y hy hb
      · rw [List.mem_singleton.mp hy] at hb
        exact absurd (hbelongs r' hb) heq
  known y hy r' hb := by
    by_cases heq : r' = r
    · rw [heq, Function.update_self]
      exact Option.some_ne_none _
    · rw [Function.update_of_ne heq]
      obtain hy | hy := List.mem_append.mp hy
      · exact h.known y hy r' hb
      · rw [List.mem_singleton.mp hy] at hb
        exact absurd (hbelongs r' hb) heq

theorem Coherent.root (h : L.Coherent latest accepted) (hlink : L.link x = none)
    (hnew : ∀ y ∈ accepted, L.id y ≠ L.id x) :
    L.Coherent (Function.update latest (L.id x) (some (L.id x)))
      (accepted ++ [x]) := by
  have hnone : latest (L.id x) = none := by
    cases hk : latest (L.id x) with
    | none => rfl
    | some k =>
      obtain ⟨x', xs, -, hl, -, hsub, -⟩ := h.line _ k hk
      obtain ⟨y, hy, -, hid⟩ := hl.exists_root
      exact absurd hid (hnew y (hsub y hy))
  refine h.update ?_ ⟨[], .root rfl hlink, List.nodup_singleton _,
    fun y hy => absurd hy List.not_mem_nil, fun y hy hb =>
      absurd hnone (h.known y hy _ hb)⟩
  rintro r' (⟨-, hid⟩ | ⟨p, hp⟩)
  · exact hid.symm
  · rw [hlink] at hp
    cases hp

/-- **A new version that follows the latest one is accepted**, if it has the
same owner. -/
theorem Coherent.next (h : L.Coherent latest accepted) {p : κ}
    (hlink : L.link x = some (r, p)) (hlatest : latest r = some p)
    (hnew : ∀ y ∈ accepted, L.id y ≠ L.id x)
    (howner : ∀ y ∈ accepted, L.id y = p → L.owner x = L.owner y) :
    L.Coherent (Function.update latest r (some (L.id x))) (accepted ++ [x]) := by
  obtain ⟨y, ys, rfl, hl, hnodup, hsub, hall⟩ := h.line r p hlatest
  refine h.update ?_ ⟨y :: ys,
    .next hl hlink (howner y (hsub y List.mem_cons_self) rfl), ?_, hsub, hall⟩
  · rintro r' (⟨hnone, -⟩ | ⟨p, hp⟩)
    · rw [hlink] at hnone
      cases hnone
    · exact (Prod.mk.inj (Option.some.inj (hlink.symm.trans hp))).1.symm
  · rw [List.map_cons, List.nodup_cons]
    refine ⟨fun hmem => ?_, hnodup⟩
    obtain ⟨z, hz, hid⟩ := List.mem_map.mp hmem
    exact hnew z (hsub z hz) hid

end Lineage
