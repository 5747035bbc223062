import Mathlib.Data.List.AList

/-!
# Locks that are made on demand

A table gives each key a lock the first time the key is asked for, and the
same lock from then on. Clients are numbers; a lock has at most one holder.
Exclusion by such locks rests on the *identity* of the lock: two clients of
one key exclude each other as long as the table gave both the same lock.
Dropping a key from the table does not take its lock from those who have it,
but the next client is given another.
-/

/-- **A table of locks**, which are numbers. -/
structure LockTable (κ : Type) where
  locks : AList (fun _ : κ => ℕ)
  made : ℕ
  holder : AList (fun _ : ℕ => ℕ)

namespace LockTable

variable {κ : Type} [DecidableEq κ]

/-- The table before any key is asked for. -/
def new : LockTable κ := ⟨∅, 0, ∅⟩

/-- The lock of a key, made if there is none. -/
def get (t : LockTable κ) (k : κ) : ℕ × LockTable κ :=
  match t.locks.lookup k with
  | some l => (l, t)
  | none => (t.made, { t with locks := t.locks.insert k t.made, made := t.made + 1 })

/-- Take a lock, if nobody holds it. -/
def acquire (t : LockTable κ) (l client : ℕ) : Option (LockTable κ) :=
  if l ∈ t.holder then none else some { t with holder := t.holder.insert l client }

/-- Give a lock back. -/
def release (t : LockTable κ) (l : ℕ) :
    LockTable κ := { t with holder := t.holder.erase l }

/-- Forget the lock of a key. -/
def drop (t : LockTable κ) (k : κ) :
    LockTable κ := { t with locks := t.locks.erase k }

@[simp] theorem holder_get (t : LockTable κ) (k : κ) :
    (t.get k).2.holder = t.holder := by
  unfold get
  split <;> rfl

/-- **Asking for a key** changes no other key's lock, and gives the key the
lock returned. -/
theorem lookup_get (t : LockTable κ) (k k' : κ) :
    (t.get k).2.locks.lookup k' = if k' = k then some (t.get k).1
      else t.locks.lookup k' := by
  unfold get
  split
  · next l hl =>
    split
    · next hk => rw [hk, hl]
    · rfl
  · split
    · next hk =>
      subst hk
      exact AList.lookup_insert _
    · next hk => exact AList.lookup_insert_ne hk

/-- A lock that a key has stays with it when another lock is asked for. -/
theorem lookup_get_of_lookup {t : LockTable κ} {k k' : κ} {l : ℕ}
    (h : t.locks.lookup k' = some l) : (t.get k).2.locks.lookup k' = some l := by
  rw [lookup_get]
  split
  · next hk =>
    subst hk
    unfold get
    rw [h]
  · exact h

omit [DecidableEq κ] in
/-- **A lock is taken only if it is free.** -/
theorem acquire_eq_some {t t' : LockTable κ} {l client : ℕ} :
    t.acquire l client = some t' ↔
      t.holder.lookup l = none ∧
      t' = { t with holder := t.holder.insert l client } := by
  unfold acquire
  rw [AList.lookup_eq_none]
  split
  · next h => simp [h]
  · next h =>
    rw [Option.some.injEq]
    exact ⟨fun heq => ⟨h, heq.symm⟩, fun heq => heq.2.symm⟩

theorem lookup_drop_ne {t : LockTable κ} {k k' : κ} (h : k' ≠ k) :
    (t.drop k).locks.lookup k' = t.locks.lookup k' := AList.lookup_erase_ne h

end LockTable
