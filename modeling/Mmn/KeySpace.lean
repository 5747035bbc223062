import Mathlib.Data.List.Infix
import Mathlib.Logic.Function.Basic

/-!
# One space of keys

A key–value store has one space of keys for everything. Several kinds of
records share it by giving each kind a *tag* that its keys begin with; what
follows the tag is free. `Separated` is the condition on the tags under
which that is safe: no tag begins another. Then a key determines its kind
and what follows the tag (`Separated.append_inj`), whatever the latter is –
in particular when it is a text from outside that looks like another tag.

A batch of puts is written as a whole (`writeBatch`). It leaves every key it
does not name, and where it puts at most one value under a key, its order
does not matter (`writeBatch_eq_or`).
-/

namespace KeySpace

/-! ## Tags -/

section Tags

variable {ι α : Type*} {tag : ι → List α}

/-- **No tag begins another.** -/
def Separated (tag : ι → List α) : Prop :=
  ∀ i j, tag i <+: tag j → i = j

/-- **A key determines its kind and the rest.** -/
theorem Separated.append_inj (h : Separated tag) {i j : ι} {s t : List α}
    (heq : tag i ++ s = tag j ++ t) : i = j ∧ s = t := by
  have hi : tag i <+: tag j ++ t := heq ▸ List.prefix_append (tag i) s
  have hj : tag j <+: tag j ++ t := List.prefix_append (tag j) t
  have hij : i = j := by
    obtain hle | hle := List.prefix_or_prefix_of_prefix hi hj
    · exact h i j hle
    · exact (h j i hle).symm
  subst hij
  exact ⟨rfl, List.append_cancel_left heq⟩

end Tags

/-! ## Batches -/

section Batches

variable {κ ν : Type*} [DecidableEq κ]

/-- **A batch of puts**, written in its order. -/
def writeBatch (db : κ → Option ν) (puts : List (κ × ν)) : κ → Option ν :=
  puts.foldl (fun db p => Function.update db p.1 (some p.2)) db

variable {db : κ → Option ν} {puts : List (κ × ν)} {k : κ}

/-- A key the batch does not name keeps its value. -/
theorem writeBatch_of_notMem (h : k ∉ puts.map Prod.fst) :
    writeBatch db puts k = db k := by
  induction puts generalizing db with
  | nil => rfl
  | cons p puts ih =>
    rw [List.map_cons, List.mem_cons, not_or] at h
    rw [writeBatch, List.foldl_cons]
    exact (ih h.2).trans (Function.update_of_ne h.1 _ _)

/-- A key that is named with one value only has that value. -/
theorem writeBatch_of_mem {v : ν} (h : (k, v) ∈ puts)
    (hone : ∀ v', (k, v') ∈ puts → v' = v) :
    writeBatch db puts k = some v := by
  induction puts generalizing db with
  | nil => cases h
  | cons p puts ih =>
    rw [writeBatch, List.foldl_cons]
    by_cases hlater : (k, v) ∈ puts
    · exact ih hlater fun v' hv' => hone v' (List.mem_cons_of_mem p hv')
    · obtain rfl | h := List.mem_cons.mp h
      · refine (writeBatch_of_notMem fun hmem => ?_).trans
          (Function.update_self _ _ _)
        obtain ⟨⟨k', v'⟩, hput, rfl⟩ := List.mem_map.mp hmem
        have hsame : v' = v := hone v' (List.mem_cons_of_mem _ hput)
        exact hlater (hsame ▸ hput)
      · exact absurd h hlater

/-- **What a batch leaves under a key**, where at most one value is put:
that value, or what was there. The order of the puts does not matter. -/
theorem writeBatch_eq_or {val : Option ν} (h : ∀ v, (k, v) ∈ puts ↔ val = some v) :
    writeBatch db puts k = val.or (db k) := by
  cases val with
  | none =>
    refine writeBatch_of_notMem fun hmem => ?_
    obtain ⟨⟨k', v⟩, hput, rfl⟩ := List.mem_map.mp hmem
    cases (h v).mp hput
  | some v =>
    exact writeBatch_of_mem ((h v).mpr rfl) fun v' hv' =>
      Option.some.inj ((h v').mp hv').symm

end Batches

end KeySpace
