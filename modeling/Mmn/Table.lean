import Mathlib.Data.List.AList
import Mathlib.Algebra.Order.BigOperators.Group.Finset
import Mathlib.Tactic.Ring

/-!
# Tables: finite maps read and written in bulk

A key–value store is used in four ways that a plain finite map does not
name: a *batch read* loads the entries of a list of keys into a fresh map, a
*batch write* puts every entry of one map into another, a *sweep* goes
through a map and drops or replaces its entries, and an audit *sums* a
weight over all entries. Mathlib's `AList` is the map; this file gives the
four operations on it and what a lookup sees after each.

The weight of a key is `0` where the key is absent, which is what makes sums
compositional: a total can be taken over any finite set of keys that
contains the keys of the map (`total_eq_sum`), and two maps over different
key sets can then be compared on a common one.
-/

namespace AList

variable {α : Type} [DecidableEq α] {β γ : α → Type}

theorem lookup_of_lookup_erase {m : AList β} {a a' : α} {v : β a'}
    (h : (m.erase a).lookup a' = some v) : m.lookup a' = some v := by
  by_cases haa : a' = a
  · subst haa
    rw [lookup_erase] at h
    cases h
  · rwa [lookup_erase_ne haa] at h

/-- A map in which nothing is found is empty. -/
theorem eq_empty_of_lookup {m : AList β} (h : ∀ a, m.lookup a = none) : m = ∅ := by
  refine AList.ext (List.eq_nil_iff_forall_not_mem.mpr (fun e he => ?_))
  have hlook : m.lookup e.1 = some e.2 := mem_lookup_iff.mpr he
  rw [h] at hlook
  cases hlook

/-! ## Batch reads -/

/-- Erasing a list of keys leaves what is under the others. -/
theorem lookup_foldl_erase (ks : List α) (m : AList β) (a : α) :
    (ks.foldl (fun m k => m.erase k) m).lookup a = if a ∈ ks then none
      else m.lookup a := by
  induction ks generalizing m with
  | nil => rfl
  | cons k ks ih =>
    rw [List.foldl_cons, ih]
    by_cases hks : a ∈ ks
    · rw [if_pos hks, if_pos (List.mem_cons_of_mem k hks)]
    · rw [if_neg hks]
      by_cases hk : a = k
      · subst hk
        rw [if_pos List.mem_cons_self, lookup_erase]
      · rw [if_neg (by simp [hk, hks]), lookup_erase_ne hk]

/-- **Erasing the entries that pass a test** leaves the others. -/
theorem lookup_foldl_erase_filter (m : AList β) (p : Sigma β → Bool) (a : α) :
    (((m.entries.filter p).map Sigma.fst).foldl (fun m k => m.erase k) m).lookup a
      = (m.lookup a).filter (fun v => !p ⟨a, v⟩) := by
  rw [lookup_foldl_erase]
  cases hlook : m.lookup a with
  | none => rw [ite_self, Option.filter_none]
  | some v =>
    have hmem : a ∈ (m.entries.filter p).map Sigma.fst ↔ p ⟨a, v⟩ = true := by
      constructor
      · rintro hkey
        obtain ⟨⟨a', v'⟩, hentry, rfl⟩ := List.mem_map.mp hkey
        obtain ⟨hentry, hp⟩ := List.mem_filter.mp hentry
        have hsame : m.lookup a' = some v' := mem_lookup_iff.mpr hentry
        rw [hlook] at hsame
        rwa [Option.some.inj hsame]
      · intro hp
        exact List.mem_map.mpr
          ⟨⟨a, v⟩, List.mem_filter.mpr ⟨mem_lookup_iff.mp hlook, hp⟩, rfl⟩
    cases hp : p ⟨a, v⟩ with
    | false =>
      rw [if_neg (by rw [hmem, hp]; exact Bool.false_ne_true), Option.filter_some];
        simp [hp]
    | true => rw [if_pos (hmem.mpr hp), Option.filter_some]; simp [hp]

/-- **A batch read**: the entries a reader `get` gives for the keys of the
list, in a fresh map. A key that `get` does not find is skipped. -/
def loadAll (ks : List α) (get : ∀ a, Option (β a)) : AList β :=
  ks.foldl (fun acc k => match get k with
    | some v => acc.insert k v
    | none => acc) ∅

/-- What the loop of a batch read has found so far: the keys already
visited, and what the map it started from held. -/
theorem lookup_loadAll_aux (get : ∀ a, Option (β a)) (ks : List α)
    (acc : AList β) (a : α) :
    (ks.foldl (fun acc k => match get k with
        | some v => acc.insert k v
        | none => acc) acc).lookup a
      = if a ∈ ks then (get a).or (acc.lookup a) else acc.lookup a := by
  induction ks generalizing acc with
  | nil => simp
  | cons k ks ih =>
    rw [List.foldl_cons, ih]
    by_cases hak : a = k
    · subst hak
      cases h : get a with
      | none => simp
      | some v => simp [lookup_insert]
    · cases h : get k with
      | none => simp [hak]
      | some v => simp [hak, lookup_insert_ne hak]

/-- **A batch read agrees with single reads** on the keys it was asked for
and holds nothing else. -/
@[simp] theorem lookup_loadAll (ks : List α) (get : ∀ a, Option (β a)) (a : α) :
    (loadAll ks get).lookup a = if a ∈ ks then get a else none := by
  rw [loadAll, lookup_loadAll_aux]
  simp

theorem mem_of_mem_loadAll {ks : List α} {get : ∀ a, Option (β a)} {a : α}
    (h : a ∈ loadAll ks get) : a ∈ ks := by
  by_contra hnot
  refine lookup_eq_none.mp ?_ h
  rw [lookup_loadAll, if_neg hnot]

/-- A batch read depends only on what the reader finds at the keys asked
for. -/
theorem loadAll_congr {ks : List α} {get get' : ∀ a, Option (β a)}
    (h : ∀ k ∈ ks, get k = get' k) : loadAll ks get = loadAll ks get' := by
  unfold loadAll
  refine List.foldl_ext _ _ _ (fun acc k hk => ?_)
  rw [h k hk]

/-! ## Batch writes -/

/-- **A batch write**: every entry of `batch` put into `m`, its value passed
through `f` (an encoding, say). -/
def writeAll (f : ∀ a, β a → γ a) (batch : AList β) (m : AList γ) : AList γ :=
  batch.entries.foldl (fun m e => m.insert e.1 (f e.1 e.2)) m

/-- The loop of a batch write, over any list of entries with distinct keys. -/
theorem lookup_writeAll_aux (f : ∀ a, β a → γ a) (l : List (Sigma β))
    (hl : l.NodupKeys) (m : AList γ) (a : α) :
    (l.foldl (fun m e => m.insert e.1 (f e.1 e.2)) m).lookup a
      = ((l.dlookup a).map (f a)).or (m.lookup a) := by
  induction l generalizing m with
  | nil => simp
  | cons e l ih =>
    obtain ⟨k, v⟩ := e
    rw [List.nodupKeys_cons] at hl
    rw [List.foldl_cons, ih hl.2]
    by_cases hak : a = k
    · subst hak
      have hnone : l.dlookup a = none := List.dlookup_eq_none.mpr hl.1
      rw [hnone, lookup_insert, List.dlookup_cons_eq]
      rfl
    · rw [lookup_insert_ne hak, List.dlookup_cons_ne _ ⟨k, v⟩ hak]

/-- **After a batch write** a key of the batch reads as its written value,
and every other key as before. -/
@[simp] theorem lookup_writeAll (f : ∀ a, β a → γ a) (batch : AList β)
    (m : AList γ) (a : α) :
    (writeAll f batch m).lookup a
      = ((batch.lookup a).map (f a)).or (m.lookup a) :=
  lookup_writeAll_aux f batch.entries batch.nodupKeys m a

/-! ## Sweeps -/

/-- An entry is dropped or put back, as a function of it says. -/
def sweepEntry (f : ∀ a, β a → Option (β a)) (m : AList β) (e : Sigma β) : AList β :=
  (f e.1 e.2).elim (m.erase e.1) (m.insert e.1)

/-- **Going through a map**, with what is done to each entry. -/
def sweep (f : ∀ a, β a → Option (β a)) (m : AList β) : AList β :=
  m.entries.foldl (sweepEntry f) m

/-- The loop of a sweep, over any list of entries with distinct keys. -/
theorem lookup_sweep_aux (f : ∀ a, β a → Option (β a)) (l : List (Sigma β))
    (hl : l.NodupKeys) (m : AList β) (a : α) :
    (l.foldl (sweepEntry f) m).lookup a = (l.dlookup a).elim (m.lookup a) (f a) := by
  induction l generalizing m with
  | nil => rfl
  | cons e l ih =>
    obtain ⟨b, v⟩ := e
    rw [List.nodupKeys_cons] at hl
    rw [List.foldl_cons, ih hl.2, sweepEntry]
    by_cases hab : a = b
    · subst hab
      rw [List.dlookup_cons_eq, List.dlookup_eq_none.mpr hl.1, Option.elim_none,
        Option.elim_some]
      cases hf : f a v with
      | none => exact lookup_erase a m
      | some v' => exact lookup_insert m
    · rw [List.dlookup_cons_ne _ ⟨b, v⟩ hab]
      congr 1
      cases f b v with
      | none => exact lookup_erase_ne hab
      | some v' => exact lookup_insert_ne hab

/-- **After a sweep** a key reads as what was done to its entry. -/
@[simp] theorem lookup_sweep (f : ∀ a, β a → Option (β a)) (m : AList β) (a : α) :
    (m.sweep f).lookup a = (m.lookup a).bind (f a) := by
  unfold sweep
  rw [lookup_sweep_aux f m.entries m.nodupKeys m a]
  show (m.lookup a).elim (m.lookup a) (f a) = _
  cases m.lookup a <;> rfl

/-! ## Totals -/

/-- The weight of a key: that of its entry, and `0` where there is none. -/
def weight (w : ∀ a, β a → ℕ) (m : AList β) (a : α) : ℕ :=
  ((m.lookup a).map (w a)).getD 0

/-- **The total weight of a map**, summed over all its entries. -/
def total (w : ∀ a, β a → ℕ) (m : AList β) : ℕ :=
  (m.entries.map (fun e => w e.1 e.2)).sum

variable {w : ∀ a, β a → ℕ}

theorem weight_eq_zero {m : AList β} {a : α} (h : a ∉ m) : m.weight w a = 0 := by
  rw [weight, lookup_eq_none.mpr h]
  rfl

/-- The total is the sum of the weights of the keys. -/
theorem total_eq_sum_keys (m : AList β) :
    m.total w = (m.keys.map (m.weight w)).sum := by
  unfold total
  rw [show m.keys = m.entries.map Sigma.fst from rfl, List.map_map]
  refine congrArg List.sum (List.map_congr_left (fun e he => ?_))
  have hlook : m.lookup e.1 = some e.2 := mem_lookup_iff.mpr he
  rw [Function.comp_apply, weight, hlook]
  rfl

/-- **A total can be taken over any set of keys that covers the map.** -/
theorem total_eq_sum (m : AList β) {S : Finset α} (hS : ∀ a ∈ m, a ∈ S) :
    m.total w = ∑ a ∈ S, m.weight w a := by
  rw [total_eq_sum_keys, ← List.sum_toFinset _ m.keys_nodup]
  refine Finset.sum_subset (fun a ha => hS a ?_) (fun a _ ha => weight_eq_zero ?_)
  · exact mem_keys.mpr (List.mem_toFinset.mp ha)
  · intro hmem
    exact ha (List.mem_toFinset.mpr (mem_keys.mp hmem))

/-- The weights of any set of keys add up to at most the total. -/
theorem sum_weight_le_total (m : AList β) (S : Finset α) :
    ∑ a ∈ S, m.weight w a ≤ m.total w := by
  rw [total_eq_sum m (S := m.keys.toFinset ∪ S) (fun a ha =>
    Finset.mem_union_left _ (List.mem_toFinset.mpr (mem_keys.mp ha)))]
  exact Finset.sum_le_sum_of_subset Finset.subset_union_right

/-- **Two maps that differ at one key only** differ in their totals by the
weights of that key. -/
theorem total_add_weight {m m' : AList β} {a : α}
    (h : ∀ b, b ≠ a → m'.lookup b = m.lookup b) :
    m'.total w + m.weight w a = m.total w + m'.weight w a := by
  set S : Finset α := Insert.insert a (m.keys.toFinset ∪ m'.keys.toFinset) with hS
  have hm : ∀ b ∈ m, b ∈ S := fun b hb => Finset.mem_insert_of_mem
    (Finset.mem_union_left _ (List.mem_toFinset.mpr (mem_keys.mp hb)))
  have hm' : ∀ b ∈ m', b ∈ S := fun b hb => Finset.mem_insert_of_mem
    (Finset.mem_union_right _ (List.mem_toFinset.mpr (mem_keys.mp hb)))
  have haS : a ∈ S := Finset.mem_insert_self a _
  have hrest : ∑ b ∈ S.erase a, m'.weight w b = ∑ b ∈ S.erase a, m.weight w b := by
    refine Finset.sum_congr rfl (fun b hb => ?_)
    rw [weight, h b (Finset.ne_of_mem_erase hb)]
    rfl
  rw [total_eq_sum m' hm', total_eq_sum m hm, ← Finset.add_sum_erase S _ haS,
    ← Finset.add_sum_erase S (m.weight w) haS, hrest]
  ring

/-- **An insertion replaces one weight by another.** -/
theorem total_insert (m : AList β) (a : α) (v : β a) :
    (m.insert a v).total w + m.weight w a = m.total w + w a v := by
  rw [total_add_weight (fun b hb => lookup_insert_ne hb)]
  unfold weight
  rw [lookup_insert]
  rfl

/-- **An erasure takes the weight of its key off the total.** -/
theorem total_erase (m : AList β) (a : α) :
    (m.erase a).total w + m.weight w a = m.total w := by
  rw [total_add_weight (fun b hb => lookup_erase_ne hb)]
  unfold weight
  rw [lookup_erase]
  rfl

theorem weight_le_total (m : AList β) (a : α) : m.weight w a ≤ m.total w := by
  rw [← total_erase m a]
  exact Nat.le_add_left _ _

/-! ## Load, change, write back -/

theorem weight_loadAll (ks : List α) (m : AList β) (a : α) :
    (loadAll ks m.lookup).weight w a = if a ∈ ks then m.weight w a else 0 := by
  unfold weight
  rw [lookup_loadAll]
  split <;> rfl

/-- What is loaded weighs at most what is there. -/
theorem total_loadAll_le (ks : List α) (m : AList β) :
    (loadAll ks m.lookup).total w ≤ m.total w := by
  have hks : ∀ a ∈ loadAll ks m.lookup, a ∈ ks.toFinset := fun a ha =>
    List.mem_toFinset.mpr (mem_of_mem_loadAll ha)
  rw [total_eq_sum _ hks]
  refine le_trans (Finset.sum_le_sum (fun a _ => ?_))
    (sum_weight_le_total m ks.toFinset)
  rw [weight_loadAll]
  split
  · exact le_rfl
  · exact Nat.zero_le _

/-- **The load–change–write cycle.** A batch that was loaded from a map, was
changed only at the keys asked for and lost none of them, replaces in the
map's total exactly what was loaded. -/
theorem total_writeAll_loadAll {ks : List α} {m batch : AList β}
    (hks : ∀ a ∈ batch, a ∈ ks) (hkeep : ∀ a ∈ ks, a ∈ m → a ∈ batch) :
    (writeAll (fun _ v => v) batch m).total w + (loadAll ks m.lookup).total w
      = m.total w + batch.total w := by
  set S : Finset α := ks.toFinset ∪ m.keys.toFinset with hS
  have hkS : ∀ a ∈ ks, a ∈ S := fun a ha =>
    Finset.mem_union_left _ (List.mem_toFinset.mpr ha)
  have hmS : ∀ a ∈ m, a ∈ S := fun a ha =>
    Finset.mem_union_right _ (List.mem_toFinset.mpr (mem_keys.mp ha))
  have hwS : ∀ a ∈ writeAll (fun _ v => v) batch m, a ∈ S := by
    intro a ha
    by_contra hnot
    have hb : batch.lookup a = none :=
      lookup_eq_none.mpr (fun h => hnot (hkS a (hks a h)))
    have hm : m.lookup a = none := lookup_eq_none.mpr (fun h => hnot (hmS a h))
    refine lookup_eq_none.mp ?_ ha
    rw [lookup_writeAll, hb, hm]
    rfl
  have hlS : ∀ a ∈ loadAll ks m.lookup, a ∈ S := fun a ha =>
    hkS a (mem_of_mem_loadAll ha)
  rw [total_eq_sum _ hwS, total_eq_sum _ hlS, total_eq_sum m hmS,
    total_eq_sum batch (fun a ha => hkS a (hks a ha)), ← Finset.sum_add_distrib,
    ← Finset.sum_add_distrib]
  refine Finset.sum_congr rfl (fun a _ => ?_)
  rw [weight_loadAll]
  unfold weight
  rw [lookup_writeAll]
  cases hb : batch.lookup a with
  | some v =>
    have ha : a ∈ ks := hks a (lookup_isSome.mp (by rw [hb]; rfl))
    rw [if_pos ha]
    exact Nat.add_comm _ _
  | none =>
    have hnot : a ∉ batch := lookup_eq_none.mp hb
    split
    · next ha =>
      have hm : m.lookup a = none :=
        lookup_eq_none.mpr (fun h => hnot (hkeep a ha h))
      rw [hm]
      rfl
    · rfl

end AList
