import Mathlib.Data.List.Induction
import Mathlib.Data.List.Sigma

/-!
# Releasing numbered items in order

Items have numbers and arrive in any order. A sequencer keeps the items that
are too early and releases the rest in the order of their numbers, without a
gap, up to a last number. It looks for items to release only when one
arrives, so that items it holds from the start may wait although they are
next in line.

What it has released depends on the items that have arrived and not on their
order (`released_run_perm`), provided that no two of them have the same
number and none has the number of an item held from the start. The reason is
that the state is a function of the items so far (`Tracks`): released are
the items from the first number to the first one missing (`takeFrom`), and
the others wait.
-/

namespace Sequencing

variable {β : Type}

/-! ## The items before the first one missing -/

/-- The items numbered `k`, `k + 1`, …, up to the first one missing, and at
most `m` of them. -/
def takeFrom (f : ℕ → Option β) : ℕ → ℕ → List β
  | 0, _ => []
  | m + 1, k =>
    match f k with
    | none => []
    | some b => b :: takeFrom f m (k + 1)

variable {f g : ℕ → Option β}

@[simp] theorem takeFrom_zero (k : ℕ) : takeFrom f 0 k = [] := rfl

theorem takeFrom_of_none {k : ℕ} (h : f k = none) (m : ℕ) : takeFrom f m k = [] := by
  cases m with
  | zero => rfl
  | succ m =>
    unfold takeFrom
    rw [h]

theorem takeFrom_of_some {k : ℕ} {b : β} (h : f k = some b) (m : ℕ) :
    takeFrom f (m + 1) k = b :: takeFrom f m (k + 1) := by
  rw [takeFrom, h]

/-- Only the numbers from `k` on matter. -/
theorem takeFrom_congr {m k : ℕ} (h : ∀ i, k ≤ i → f i = g i) :
    takeFrom f m k = takeFrom g m k := by
  induction m generalizing k with
  | zero => rfl
  | succ m ih =>
    unfold takeFrom
    rw [h k le_rfl, ih (fun i hi => h i (Nat.le_of_succ_le hi))]

/-- The items taken are those of the numbers passed. -/
theorem takeFrom_isSome {m k i : ℕ} (hk : k ≤ i)
    (hi : i < k + (takeFrom f m k).length) :
    (f i).isSome = true := by
  induction m generalizing k with
  | zero =>
    rw [takeFrom_zero, List.length_nil] at hi
    omega
  | succ m ih =>
    cases h : f k with
    | none =>
      rw [takeFrom_of_none h, List.length_nil] at hi
      omega
    | some b =>
      rw [takeFrom_of_some h, List.length_cons] at hi
      obtain rfl | hlt := Nat.eq_or_lt_of_le hk
      · rw [h]
        rfl
      · exact ih (k := k + 1) hlt (by omega)

theorem exists_of_mem_takeFrom {m k : ℕ} {b : β} (h : b ∈ takeFrom f m k) :
    ∃ i, f i = some b := by
  induction m generalizing k with
  | zero => cases h
  | succ m ih =>
    cases hk : f k with
    | none =>
      rw [takeFrom_of_none hk] at h
      cases h
    | some b' =>
      rw [takeFrom_of_some hk] at h
      obtain rfl | h := List.mem_cons.mp h
      · exact ⟨k, hk⟩
      · exact ih h

/-- What stops before `m` items stops at one missing. -/
theorem takeFrom_end {m k : ℕ} (h : (takeFrom f m k).length < m) :
    f (k + (takeFrom f m k).length) = none := by
  induction m generalizing k with
  | zero => omega
  | succ m ih =>
    cases hk : f k with
    | none =>
      rw [takeFrom_of_none hk]
      exact hk
    | some b =>
      rw [takeFrom_of_some hk, List.length_cons] at h ⊢
      rw [show k + ((takeFrom f m (k + 1)).length + 1)
        = k + 1 + (takeFrom f m (k + 1)).length from by omega]
      exact ih (by omega)

/-- **Taking goes on where it stopped**: with more items there, the longer
list begins with the shorter one and continues from the number after it. -/
theorem takeFrom_append (hle : ∀ i b, g i = some b → f i = some b) (m k : ℕ) :
    takeFrom f m k = takeFrom g m k ++
      takeFrom f (m - (takeFrom g m k).length) (k + (takeFrom g m k).length) := by
  induction m generalizing k with
  | zero => rfl
  | succ m ih =>
    cases h : g k with
    | none =>
      rw [takeFrom_of_none h]
      rfl
    | some b =>
      rw [takeFrom_of_some h, takeFrom_of_some (hle k b h), List.cons_append,
        List.length_cons, ih (k + 1)]
      have hm : m + 1 - ((takeFrom g m (k + 1)).length + 1)
          = m - (takeFrom g m (k + 1)).length := by
        omega
      have hk : k + ((takeFrom g m (k + 1)).length + 1)
          = k + 1 + (takeFrom g m (k + 1)).length := by
        omega
      rw [hm, hk, ← ih (k + 1)]

end Sequencing

open Sequencing

/-- **A sequencer**: what it has released so far, and what it keeps. -/
structure Sequencer (β : Type) where
  next : ℕ
  /-- The items that wait. -/
  waiting : ℕ → Option β
  /-- The items released, first to last. -/
  released : List β

namespace Sequencer

variable {β : Type} {k last : ℕ} {w : ℕ → Option β}

/-- Nothing has arrived yet; the items `w` wait from the start. -/
def holding (k : ℕ) (w : ℕ → Option β) : Sequencer β := ⟨k, w, []⟩

/-- Release what is next in line, up to the last number. -/
def release (last : ℕ) (s : Sequencer β) : Sequencer β :=
  let items := takeFrom s.waiting (last + 1 - s.next) s.next
  { next := s.next + items.length
    waiting := fun i =>
      if s.next ≤ i ∧ i < s.next + items.length then none else s.waiting i
    released := s.released ++ items }

/-- An item arrives. -/
def arrive (last : ℕ) (s : Sequencer β) (a : Sigma fun _ : ℕ => β) :
    Sequencer β :=
  release last { s with waiting := Function.update s.waiting a.1 (some a.2) }

/-- Items arrive, one after the other. -/
def run (last k : ℕ) (w : ℕ → Option β) (as : List (Sigma fun _ : ℕ => β)) :
    Sequencer β :=
  as.foldl (arrive last) (holding k w)

/-! ## The state as a function of the items -/

/-- The items that are there, released or not: those that have arrived and
those held from the start. -/
def available (w : ℕ → Option β) (as : List (Sigma fun _ : ℕ => β)) (i : ℕ) :
    Option β :=
  (as.dlookup i).or (w i)

theorem available_eq_none {as : List (Sigma fun _ : ℕ => β)} {i : ℕ} :
    available w as i = none ↔ i ∉ as.keys ∧ w i = none := by
  rw [available, Option.or_eq_none_iff, List.dlookup_eq_none]

/-- **One more item**, whose number is new. -/
theorem available_append_singleton {as : List (Sigma fun _ : ℕ => β)}
    {a : Sigma fun _ : ℕ => β} (hnew : available w as a.1 = none) :
    available w (as ++ [a])
      = Function.update (available w as) a.1 (some a.2) := by
  funext i
  rw [available, List.dlookup_append, Function.update_apply]
  split
  · next h =>
    subst h
    rw [List.dlookup_eq_none.mpr (available_eq_none.mp hnew).1]
    exact congrArg (fun o => Option.or o (w a.1))
      (List.dlookup_cons_eq (β := fun _ => β) [] a.1 a.2)
  · next h =>
    rw [List.dlookup_cons_ne [] a h, List.dlookup_nil, Option.or_none]
    rfl

/-- **What is released after the items `as`**: nothing before the first of
them arrives, and from then on the items before the first one missing. -/
def items (last k : ℕ) (w : ℕ → Option β)
    (as : List (Sigma fun _ : ℕ => β)) : List β :=
  if as = [] then [] else takeFrom (available w as) (last + 1 - k) k

theorem items_of_ne_nil {as : List (Sigma fun _ : ℕ => β)} (h : as ≠ []) :
    items last k w as = takeFrom (available w as) (last + 1 - k) k :=
  if_neg h

/-- With one more item, releasing goes on where it stopped. -/
theorem items_append_singleton {as : List (Sigma fun _ : ℕ => β)}
    {a : Sigma fun _ : ℕ => β} (hnew : available w as a.1 = none) :
    items last k w (as ++ [a]) = items last k w as
      ++ takeFrom (available w (as ++ [a]))
        (last + 1 - (k + (items last k w as).length))
        (k + (items last k w as).length) := by
  rw [items_of_ne_nil (List.append_ne_nil_of_right_ne_nil _ (List.cons_ne_nil _ _)),
    ← Nat.sub_sub]
  by_cases has : as = []
  · subst has
    rfl
  · rw [items_of_ne_nil has]
    refine takeFrom_append (fun i b hb => ?_) _ _
    rw [available_append_singleton hnew, Function.update_of_ne, hb]
    rintro rfl
    rw [hnew] at hb
    cases hb

/-- **The state after the items `as`.** -/
structure Tracks (last k : ℕ) (w : ℕ → Option β)
    (as : List (Sigma fun _ : ℕ => β)) (s : Sequencer β) : Prop where
  released : s.released = items last k w as
  next : s.next = k + s.released.length
  /-- The others wait. -/
  waiting : ∀ i, s.waiting i
    = if k ≤ i ∧ i < s.next then none else available w as i

theorem Tracks.holding (last k : ℕ) (w : ℕ → Option β) :
    Tracks last k w [] (holding k w) where
  released := rfl
  next := rfl
  waiting _ := (if_neg (fun h => absurd h.2 (not_lt.mpr h.1))).symm

/-- A number that is passed has had its item. -/
theorem Tracks.isSome_available {as : List (Sigma fun _ : ℕ => β)}
    {s : Sequencer β} (h : Tracks last k w as s) {i : ℕ} (hk : k ≤ i)
    (hi : i < s.next) : (available w as i).isSome = true := by
  rw [h.next, h.released] at hi
  unfold items at hi
  split at hi
  · exact absurd hi (not_lt.mpr hk)
  · exact takeFrom_isSome hk hi

/-- An item released has arrived, or was held from the start. -/
theorem Tracks.exists_available {as : List (Sigma fun _ : ℕ => β)}
    {s : Sequencer β} (h : Tracks last k w as s) {b : β}
    (hb : b ∈ s.released) : ∃ i, available w as i = some b := by
  rw [h.released] at hb
  unfold items at hb
  split at hb
  · cases hb
  · exact exists_of_mem_takeFrom hb

/-- Once an item has arrived, a next number that is not beyond the last one
has no item. -/
theorem Tracks.available_next {as : List (Sigma fun _ : ℕ => β)}
    {s : Sequencer β} (h : Tracks last k w as s) (has : as ≠ [])
    (hlast : s.next ≤ last) : available w as s.next = none := by
  have hnext := h.next
  rw [h.released, items_of_ne_nil has] at hnext
  have hend : (takeFrom (available w as) (last + 1 - k) k).length
      < last + 1 - k := by omega
  rw [hnext]
  exact takeFrom_end hend

/-- **One more item**, whose number is new. -/
theorem Tracks.arrive {as : List (Sigma fun _ : ℕ => β)} {s : Sequencer β}
    {a : Sigma fun _ : ℕ => β} (h : Tracks last k w as s)
    (hnew : available w as a.1 = none) :
    Tracks last k w (as ++ [a]) (s.arrive last a) := by
  have hpassed : ¬ (k ≤ a.1 ∧ a.1 < s.next) := by
    intro hin
    have hsome := h.isSome_available hin.1 hin.2
    rw [hnew] at hsome
    cases hsome
  -- the number of the new item is not passed, so it waits with the others
  have hwaiting : ∀ i, Function.update s.waiting a.1 (some a.2) i
      = if k ≤ i ∧ i < s.next then none else available w (as ++ [a]) i := by
    intro i
    rw [available_append_singleton hnew, Function.update_apply,
      Function.update_apply, h.waiting]
    split
    · next heq => rw [if_neg (heq ▸ hpassed)]
    · rfl
  have hitems : takeFrom (Function.update s.waiting a.1 (some a.2))
      (last + 1 - s.next) s.next
      = takeFrom (available w (as ++ [a])) (last + 1 - s.next) s.next := by
    refine takeFrom_congr fun i hi => ?_
    rw [hwaiting, if_neg (fun hin => absurd hin.2 (not_lt.mpr hi))]
  have hreleased : (s.arrive last a).released
      = items last k w (as ++ [a]) := by
    rw [items_append_singleton hnew, ← h.released, ← h.next]
    exact congrArg (s.released ++ ·) hitems
  have hnext : (s.arrive last a).next
      = k + (s.arrive last a).released.length := by
    show s.next + _ = k + (s.released ++ _).length
    rw [h.next, List.length_append, Nat.add_assoc]
  refine ⟨hreleased, hnext, fun i => ?_⟩
  show (if s.next ≤ i ∧ i < (s.arrive last a).next then none
    else Function.update s.waiting a.1 (some a.2) i) = _
  have hgrows : s.next ≤ (s.arrive last a).next := Nat.le_add_right _ _
  have hk : k ≤ s.next := h.next ▸ Nat.le_add_right _ _
  rw [hwaiting]
  split_ifs <;> first | rfl | omega

/-- **The state is a function of the items that have arrived**, if they have
different numbers and none has that of an item held from the start. -/
theorem tracks_run {as : List (Sigma fun _ : ℕ => β)}
    (hnodup : as.NodupKeys) (hfree : ∀ i ∈ as.keys, w i = none)
    (last k : ℕ) : Tracks last k w as (run last k w as) := by
  induction as using List.reverseRecOn with
  | nil => exact .holding last k w
  | append_singleton as a ih =>
    have hkeys : (as ++ [a]).keys = as.keys ++ [a.1] := List.map_append
    have hsplit : (as ++ [a]).keys.Nodup := hnodup
    rw [hkeys, List.nodup_append] at hsplit
    obtain ⟨has, -, hdisjoint⟩ := hsplit
    rw [hkeys] at hfree
    rw [run, List.foldl_append]
    refine (ih has fun i hi => hfree i (List.mem_append_left _ hi)).arrive ?_
    rw [available_eq_none]
    exact ⟨fun hmem => hdisjoint a.1 hmem a.1 List.mem_cons_self rfl,
      hfree a.1 (List.mem_append_right _ List.mem_cons_self)⟩

/-- **The order of arrival does not matter.** -/
theorem released_run_perm {as bs : List (Sigma fun _ : ℕ => β)}
    (hnodup : as.NodupKeys) (hfree : ∀ i ∈ as.keys, w i = none)
    (hperm : as.Perm bs) (last k : ℕ) :
    (run last k w as).released = (run last k w bs).released := by
  have hkeys : bs.keys.Perm as.keys := (hperm.map Sigma.fst).symm
  rw [(tracks_run hnodup hfree last k).released,
    (tracks_run ((List.perm_nodupKeys hperm).mp hnodup)
      (fun i hi => hfree i (hkeys.mem_iff.mp hi)) last k).released]
  have hsame : available w as = available w bs := by
    funext i
    rw [available, available, List.perm_dlookup i hnodup hperm]
  by_cases has : as = []
  · subst has
    rw [hperm.nil_eq]
  · have hbs : bs ≠ [] := fun h => has (List.Perm.eq_nil (h ▸ hperm))
    rw [items_of_ne_nil has, items_of_ne_nil hbs, hsame]

end Sequencer
