import Mmn.Table

/-!
# Reading through encoded keys

A store that keeps its records under encoded keys answers a batch of keys in
four moves. It encodes the keys, remembering which one each encoding came
from; it reads the encodings; it walks through what was read, in whatever
order a map is walked; and it decodes each record and files it under the key
it came from. Encodings that were not found and records that do not decode
are left out.

If the encoding is injective, the result is the one of reading the keys one
by one (`lookup_decodeAll`): the walk meets each encoding once, and finds
its key again.
-/

namespace EncodedReads

variable {κ β ρ ν : Type} [DecidableEq κ] [DecidableEq β] {key : κ → β} {ks : List κ}

/-- Which key each encoding came from. -/
def origins (key : κ → β) (ks : List κ) : AList (fun _ : β => κ) :=
  ks.foldl (fun m k => m.insert (key k) k) ∅

/-- **The walk** through what was read. An encoding of unknown origin would
be filed under `zero`. -/
def decodeAll (origin : AList (fun _ : β => κ)) (zero : κ) (decode : ρ → Option ν)
    (read : List (Sigma fun _ : β => ρ)) : AList (fun _ : κ => ν) :=
  read.foldl (fun acc e => match decode e.2 with
    | some v => acc.insert ((origin.lookup e.1).getD zero) v
    | none => acc) ∅

omit [DecidableEq κ] in
/-- The loop that notes the origins: a key that is yet to come, or was
noted, is found. -/
theorem lookup_origins_aux (hkey : Function.Injective key) {k : κ}
    (m : AList fun _ : β => κ) (h : k ∈ ks ∨ m.lookup (key k) = some k) :
    (ks.foldl (fun m k => m.insert (key k) k) m).lookup (key k) = some k := by
  induction ks generalizing m with
  | nil => exact h.resolve_left List.not_mem_nil
  | cons k' ks ih =>
    rw [List.foldl_cons]
    refine ih _ ?_
    by_cases heq : k = k'
    · subst heq
      exact Or.inr (AList.lookup_insert _)
    · rw [AList.lookup_insert_ne fun h => heq (hkey h)]
      exact h.imp_left fun hmem => (List.mem_cons.mp hmem).resolve_left heq

omit [DecidableEq κ] in
theorem lookup_origins (hkey : Function.Injective key) {k : κ} (hk : k ∈ ks) :
    (origins key ks).lookup (key k) = some k :=
  lookup_origins_aux hkey ∅ (Or.inl hk)

/-- The loop of the walk, over any part of what was read: it meets every
encoding once at most, and knows its origin. -/
theorem lookup_decodeAll_aux (hkey : Function.Injective key) (zero : κ)
    (decode : ρ → Option ν) {read : List (Sigma fun _ : β => ρ)}
    (hnodup : read.NodupKeys) (hfrom : ∀ e ∈ read, ∃ k ∈ ks, e.1 = key k)
    (acc : AList fun _ : κ => ν) (k : κ) :
    (read.foldl (fun acc e => match decode e.2 with
        | some v => acc.insert (((origins key ks).lookup e.1).getD zero) v
        | none => acc) acc).lookup k
      = ((read.dlookup (key k)).bind decode).or (acc.lookup k) := by
  induction read generalizing acc with
  | nil => rfl
  | cons e read ih =>
    obtain ⟨b, r⟩ := e
    obtain ⟨hhead, hrest⟩ := List.forall_mem_cons.mp hfrom
    obtain ⟨k', hk', hb⟩ := hhead
    dsimp only at hb
    subst hb
    rw [List.nodupKeys_cons] at hnodup
    rw [List.foldl_cons, ih hnodup.2 hrest]
    dsimp only
    rw [lookup_origins hkey hk', Option.getD_some]
    by_cases heq : k = k'
    · -- No record further on has this encoding.
      subst heq
      rw [List.dlookup_eq_none.mpr hnodup.1, List.dlookup_cons_eq]
      cases hdecode : decode r with
      | none => simp [hdecode]
      | some v => simp [hdecode, AList.lookup_insert]
    · have hne : key k ≠ key k' := fun h => heq (hkey h)
      rw [List.dlookup_cons_ne _ (⟨key k', r⟩ : Sigma fun _ : β => ρ) hne]
      cases decode r with
      | none => rfl
      | some v =>
        dsimp only
        rw [AList.lookup_insert_ne heq]

/-- **A batch read through encoded keys is the one of single reads**, in
whatever order the records are walked through. -/
theorem lookup_decodeAll (hkey : Function.Injective key) (zero : κ)
    (decode : ρ → Option ν) {db : β → Option ρ} {read : List (Sigma fun _ : β => ρ)}
    (hread : read.Perm (AList.loadAll (ks.map key) db).entries) (k : κ) :
    (decodeAll (origins key ks) zero decode read).lookup k
      = if k ∈ ks then (db (key k)).bind decode else none := by
  have hnodup : read.NodupKeys :=
    (List.perm_nodupKeys hread).mpr (AList.loadAll (ks.map key) db).nodupKeys
  have hfrom : ∀ e ∈ read, ∃ k ∈ ks, e.1 = key k := by
    intro e he
    have hmem : e.1 ∈ AList.loadAll (ks.map key) db :=
      List.mem_keys_of_mem (hread.mem_iff.mp he)
    obtain ⟨k, hk, heq⟩ := List.mem_map.mp (AList.mem_of_mem_loadAll hmem)
    exact ⟨k, hk, heq.symm⟩
  have hfound : read.dlookup (key k) = if k ∈ ks then db (key k) else none := by
    rw [List.perm_dlookup (key k) hnodup hread]
    refine (AList.lookup_loadAll (ks.map key) db (key k)).trans ?_
    simp only [List.mem_map_of_injective hkey]
  unfold decodeAll
  rw [lookup_decodeAll_aux hkey zero decode hnodup hfrom, hfound]
  split
  · exact Option.or_none
  · rfl

end EncodedReads
