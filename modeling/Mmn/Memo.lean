import Mathlib.Data.List.AList

/-!
# A function behind a cache

Answers of a function are kept under keys computed from its arguments, and
entries may be dropped at any time. The answers are those of the function as
soon as arguments that are asked for and share a key also share their value
(`answers_eq`); where they do not, whichever is asked for first decides.
-/

namespace Memo

variable {α κ β : Type} [DecidableEq κ]

/-- The values kept, by key. -/
abbrev Cache (κ β : Type) : Type := AList (fun _ : κ => β)

/-- What can happen to a cache. -/
inductive Op (α κ : Type) where
  | call (a : α)
  | evict (k : κ)

/-- The argument asked for, if any. -/
def Op.arg? : Op α κ → Option α
  | .call a => some a
  | .evict _ => none

/-- **Ask for an argument**: the value kept under its key, or else the
function's, which is then kept. -/
def request (f : α → β) (key : α → κ) (cache : Cache κ β) (a : α) : β × Cache κ β :=
  match cache.lookup (key a) with
  | some b => (b, cache)
  | none => (f a, cache.insert (key a) (f a))

/-- The answers to the arguments asked for, in order. -/
def answers (f : α → β) (key : α → κ) (cache : Cache κ β) : List (Op α κ) → List β
  | [] => []
  | .call a :: ops =>
    (request f key cache a).1 :: answers f key (request f key cache a).2 ops
  | .evict k :: ops => answers f key (cache.erase k) ops

/-- **The cache holds values of arguments** that satisfy `P`. -/
def Holds (f : α → β) (key : α → κ) (P : α → Prop) (cache : Cache κ β) : Prop :=
  ∀ k b, cache.lookup k = some b → ∃ a, P a ∧ key a = k ∧ f a = b

variable {f : α → β} {key : α → κ} {P : α → Prop} {cache : Cache κ β}

theorem holds_empty : Holds f key P ∅ := by
  intro k b h
  simp at h

theorem Holds.erase (h : Holds f key P cache) (k : κ) :
    Holds f key P (cache.erase k) := by
  intro k' b hb
  by_cases hk : k' = k
  · subst hk
    rw [AList.lookup_erase] at hb
    cases hb
  · rw [AList.lookup_erase_ne hk] at hb
    exact h k' b hb

/-- **One request**: the answer is the function's, and the cache holds no
more than it may. -/
theorem Holds.request (hP : ∀ a a', P a → P a' → key a = key a' → f a = f a')
    (h : Holds f key P cache) {a : α} (ha : P a) :
    (request f key cache a).1 = f a ∧ Holds f key P (request f key cache a).2 := by
  unfold Memo.request
  cases hlook : cache.lookup (key a) with
  | some b =>
    obtain ⟨a', ha', hkey, rfl⟩ := h _ _ hlook
    exact ⟨hP a' a ha' ha hkey, h⟩
  | none =>
    refine ⟨rfl, fun k b hb => ?_⟩
    by_cases hk : k = key a
    · subst hk
      rw [AList.lookup_insert] at hb
      exact ⟨a, ha, rfl, Option.some.inj hb⟩
    · rw [AList.lookup_insert_ne hk] at hb
      exact h k b hb

/-- All requests, from any cache that holds no more than it may. -/
theorem Holds.answers (hP : ∀ a a', P a → P a' → key a = key a' → f a = f a')
    (h : Holds f key P cache) {ops : List (Op α κ)}
    (hops : ∀ a, .call a ∈ ops → P a) :
    answers f key cache ops = (ops.filterMap Op.arg?).map f := by
  induction ops generalizing cache with
  | nil => rfl
  | cons op ops ih =>
    have htail : ∀ a, .call a ∈ ops → P a :=
      fun a ha => hops a (List.mem_cons_of_mem op ha)
    cases op with
    | call a =>
      obtain ⟨hanswer, hafter⟩ := h.request hP (hops a List.mem_cons_self)
      show (Memo.request f key cache a).1 :: Memo.answers f key _ ops = f a :: _
      rw [hanswer, ih hafter htail]
    | evict k => exact ih (h.erase k) htail

/-- **The cache does not show** if arguments asked for that share a key
share their value. -/
theorem answers_eq {ops : List (Op α κ)}
    (h : ∀ a a', .call a ∈ ops → .call a' ∈ ops → key a = key a' → f a = f a') :
    answers f key ∅ ops = (ops.filterMap Op.arg?).map f :=
  Holds.answers h holds_empty (fun _ ha => ha)

end Memo
