import Mathlib.Data.List.Perm.Basic
import Mathlib.Data.List.Sublists
import Mathlib.Data.Set.Defs
import Mathlib.Logic.Relation

/-!
# Runs of a machine that reads inputs

A machine is a partial step function `step : σ → ι → Option σ`: the state
after one input, or nothing when the machine stops there. Its runs are the
chains of steps, and what is asked of them is of four kinds.

* **Invariants.** A property of the first state that every step keeps holds
  of every state reached (`Run.invariant`). The steps of a run may be
  restricted by a condition `C` on the state before the step and its input;
  a property can then need the condition, and hold only along the runs that
  meet it.
* **Refinement.** A run on a list of messages computes, under an abstraction
  of the state, a fold over the messages (`exec_refines`).
* **Exact conditions.** Where a condition on the inputs is not only enough
  but needed, all states along a run are good exactly when all inputs meet
  it (`forall_prefix_iff`).
* **Reordering.** Two runs that make the same moves in different orders end
  in the same state as soon as the moves they order differently commute
  (`foldl_eq_of_perm`). Nothing is asked of moves that both runs order the
  same way. Moves commute where they are local to different parts of the
  state (`LocalOn.comm`).
-/

namespace Machine

variable {σ ι : Type}

/-! ## Invariants -/

/-- One step on some input that meets the condition. -/
def StepWith (step : σ → ι → Option σ) (C : σ → ι → Prop) (s s' : σ) : Prop :=
  ∃ i, C s i ∧ step s i = some s'

/-- **A run whose steps all meet the condition** `C`. -/
def Run (step : σ → ι → Option σ) (C : σ → ι → Prop) : σ → σ → Prop :=
  Relation.ReflTransGen (StepWith step C)

/-- The condition that asks nothing: `Run step Always` are all runs. -/
def Always (_ : σ) (_ : ι) : Prop := True

variable {step : σ → ι → Option σ} {C : σ → ι → Prop}

/-- **The invariant rule**: what holds at the start and is kept by every
step that meets the condition holds of every state reached. -/
theorem Run.invariant {I : σ → Prop} {s s' : σ} (hrun : Run step C s s')
    (h₀ : I s)
    (hstep : ∀ t i t', I t → C t i → step t i = some t' → I t') : I s' := by
  induction hrun with
  | refl => exact h₀
  | tail _ hlast ih =>
    obtain ⟨i, hC, hi⟩ := hlast
    exact hstep _ i _ ih hC hi

/-- A run under a condition is a run under any weaker one. -/
theorem Run.mono {C' : σ → ι → Prop} (h : ∀ s i, C s i → C' s i) {s s' : σ}
    (hrun : Run step C s s') : Run step C' s s' := by
  have hstep : ∀ t t', StepWith step C t t' → StepWith step C' t t' := by
    rintro t t' ⟨i, hC, hi⟩
    exact ⟨i, h t i hC, hi⟩
  exact Relation.ReflTransGen.mono hstep s s' hrun

instance (s : σ) (i : ι) : Decidable (Always s i) := isTrue trivial

/-- The machine run on a list of inputs, as long as each of them meets the
condition. -/
def exec (step : σ → ι → Option σ) (C : σ → ι → Prop) [∀ s i, Decidable (C s i)] :
    σ → List ι → Option σ
  | s, [] => some s
  | s, i :: is =>
    if C s i then (step s i).bind (fun s' => exec step C s' is) else none

theorem exec_always_cons (s : σ) (i : ι) (is : List ι) :
    exec step Always s (i :: is)
      = (step s i).bind (fun s' => exec step Always s' is) :=
  if_pos trivial

/-- **Executing a list of inputs is a run.** -/
theorem run_of_exec [∀ s i, Decidable (C s i)] {is : List ι} {s s' : σ}
    (h : exec step C s is = some s') : Run step C s s' := by
  induction is generalizing s with
  | nil =>
    cases h
    exact Relation.ReflTransGen.refl
  | cons i is ih =>
    unfold exec at h
    split at h
    · next hC =>
      obtain ⟨t, ht, hrest⟩ := Option.bind_eq_some_iff.mp h
      exact Relation.ReflTransGen.head ⟨i, hC, ht⟩ (ih hrest)
    · cases h

/-- **A run by evaluation**: the state after a list of inputs passes a test. -/
theorem exists_run_of_exec [∀ s i, Decidable (C s i)] {is : List ι} {s : σ}
    {p : σ → Bool} (h : (exec step C s is).any p = true) :
    ∃ s', Run step C s s' ∧ p s' = true := by
  cases hexec : exec step C s is with
  | none =>
    rw [hexec] at h
    cases h
  | some s' =>
    rw [hexec] at h
    exact ⟨s', run_of_exec hexec, h⟩

/-- **Running on a list of messages refines a fold.** A machine that never
stops on such messages, and whose state after one abstracts to the fold's
next state, comes to a state that abstracts to the whole fold. -/
theorem exec_refines {τ κ : Type} {I : σ → Prop} {P : κ → Prop} (toInput : κ → ι)
    (abstract : σ → τ) (f : τ → κ → τ)
    (hstep : ∀ s k, I s → P k →
      ∃ s', step s (toInput k) = some s' ∧ I s' ∧ abstract s' = f (abstract s) k)
    {ks : List κ} (hks : ∀ k ∈ ks, P k) {s : σ} (hs : I s) :
    ∃ s', exec step Always s (ks.map toInput) = some s' ∧ I s' ∧
      abstract s' = ks.foldl f (abstract s) := by
  induction ks generalizing s with
  | nil => exact ⟨s, rfl, hs, rfl⟩
  | cons k ks ih =>
    obtain ⟨t, ht, hI, hf⟩ := hstep s k hs (hks k List.mem_cons_self)
    obtain ⟨s', hexec, hI', hf'⟩ :=
      ih (fun j hj => hks j (List.mem_cons_of_mem k hj)) hI
    refine ⟨s', ?_, hI', ?_⟩
    · show (if Always s (toInput k) then _ else _) = _
      rw [if_pos (show Always s (toInput k) from trivial), ht]
      exact hexec
    · rw [hf', hf]
      rfl

/-! ## Exact conditions -/

/-- **A condition is exact** if, from a state that meets the invariant, an
input leads to a good state exactly when it meets the condition, and then to
the invariant again. Along a list of inputs all states are good exactly when
all inputs meet the condition. -/
theorem forall_prefix_iff (f : σ → ι → σ) {I G : σ → Prop} (hG : ∀ s, I s → G s)
    (hC : ∀ s i, I s → (G (f s i) ↔ C s i)) (hI : ∀ s i, I s → C s i → I (f s i))
    {s : σ} (hs : I s) (is : List ι) :
    (∀ pre post, is = pre ++ post → G (pre.foldl f s)) ↔
      ∀ pre i post, is = pre ++ i :: post → C (pre.foldl f s) i := by
  induction is generalizing s with
  | nil =>
    refine ⟨fun _ pre i post heq => by simp at heq, fun _ pre post heq => ?_⟩
    obtain ⟨rfl, -⟩ := List.append_eq_nil_iff.mp heq.symm
    exact hG s hs
  | cons i is ih =>
    constructor
    · intro hgood
      have hi : C s i := (hC s i hs).mp (hgood [i] is rfl)
      have htail := (ih (hI s i hs hi)).mp (fun pre post heq =>
        hgood (i :: pre) post (congrArg (List.cons i) heq))
      rintro (_ | ⟨j, pre⟩) k post heq
      · cases heq
        exact hi
      · cases heq
        exact htail pre k post rfl
    · intro hcond
      have hi : C s i := hcond [] i is rfl
      have htail := (ih (hI s i hs hi)).mpr (fun pre k post heq =>
        hcond (i :: pre) k post (congrArg (List.cons i) heq))
      rintro (_ | ⟨j, pre⟩) post heq
      · exact hG s hs
      · cases heq
        exact htail pre post rfl

/-! ## Reordering -/

variable {α : Type}

/-- A move that commutes with every move of a list can be made before all of
them instead of after. -/
theorem foldl_commute_head (f : σ → α → σ) (a : α) (l : List α)
    (hl : ∀ b ∈ l, ∀ s, f (f s b) a = f (f s a) b) (s : σ) :
    f (l.foldl f s) a = l.foldl f (f s a) := by
  induction l generalizing s with
  | nil => rfl
  | cons b l ih =>
    rw [List.foldl_cons, List.foldl_cons,
      ih (fun c hc => hl c (List.mem_cons_of_mem b hc)),
      hl b List.mem_cons_self]

/-- **Two orders of the same moves end in the same state** when every two
moves the orders disagree on commute. The orders are lists without
repetition, and "`a` before `b`" is that `[a, b]` is a sublist. -/
theorem foldl_eq_of_perm (f : σ → α → σ) {l₁ l₂ : List α} (hnd : l₁.Nodup)
    (hperm : l₁.Perm l₂)
    (hcomm : ∀ a b, [a, b].Sublist l₁ → [b, a].Sublist l₂ →
      ∀ s, f (f s a) b = f (f s b) a) (s : σ) :
    l₁.foldl f s = l₂.foldl f s := by
  induction l₁ generalizing l₂ s with
  | nil => rw [List.nil_perm.mp hperm]
  | cons a l₁ ih =>
    -- `a` comes first in one order; bring it to the front of the other
    obtain ⟨p, q, rfl⟩ := List.append_of_mem (hperm.subset List.mem_cons_self)
    have htail : l₁.Perm (p ++ q) :=
      (List.perm_cons a).mp (hperm.trans List.perm_middle)
    have hfront : (p ++ a :: q).foldl f s = (p ++ q).foldl f (f s a) := by
      rw [List.foldl_append, List.foldl_append, List.foldl_cons,
        foldl_commute_head f a p (fun b hb t => ?_) s]
      have hb₁ : b ∈ l₁ := htail.symm.subset (List.mem_append_left q hb)
      refine (hcomm a b ?_ ?_ t).symm
      · exact (List.singleton_sublist.mpr hb₁).cons_cons a
      · exact (List.singleton_sublist.mpr hb).append
          (List.singleton_sublist.mpr List.mem_cons_self)
    rw [hfront, List.foldl_cons]
    refine ih (List.nodup_cons.mp hnd).2 htail (fun b c hbc hcb t => ?_) (f s a)
    refine hcomm b c (hbc.cons a) (hcb.trans ?_) t
    exact (List.sublist_cons_self a q).append_left p

end Machine

/-! ## Local updates

A state is often a family of values, one for each key. An update is *local*
to a set of keys when it changes no other key and looks at no other key.
Updates that are local to disjoint sets commute, which is what allows two
replicas to apply them in different orders. -/

section LocalUpdates

variable {κ : Type} {β : κ → Type}

/-- **An update local to a set of keys**: it changes no key outside the set,
and what it writes depends only on keys of the set. -/
structure LocalOn (K : Set κ) (f : (∀ k, β k) → ∀ k, β k) : Prop where
  frame : ∀ s k, k ∉ K → f s k = s k
  congr : ∀ s s', (∀ k ∈ K, s k = s' k) → ∀ k ∈ K, f s k = f s' k

namespace LocalOn

variable {K L : Set κ} {f g : (∀ k, β k) → ∀ k, β k}

/-- The update that does nothing is local to every set. -/
theorem id (K : Set κ) : LocalOn (β := β) K (fun s => s) where
  frame _ _ _ := rfl
  congr _ _ h := h

/-- On its own keys an update does not notice one that is local elsewhere. -/
theorem apply_of_mem (hf : LocalOn K f) (hg : LocalOn L g) (hKL : ∀ k ∈ K, k ∉ L)
    (s : ∀ k, β k) {k : κ} (hk : k ∈ K) : f (g s) k = f s k :=
  hf.congr (g s) s (fun j hj => hg.frame s j (hKL j hj)) k hk

/-- **Updates local to disjoint sets commute.** -/
theorem comm (hf : LocalOn K f) (hg : LocalOn L g) (hKL : ∀ k ∈ K, k ∉ L)
    (s : ∀ k, β k) : f (g s) = g (f s) := by
  funext k
  by_cases hK : k ∈ K
  · rw [hf.apply_of_mem hg hKL s hK, hg.frame (f s) k (hKL k hK)]
  · by_cases hL : k ∈ L
    · rw [hf.frame (g s) k hK, hg.apply_of_mem hf (fun j hj hjK => hKL j hjK hj) s hL]
    · rw [hf.frame (g s) k hK, hg.frame s k hL, hg.frame (f s) k hL, hf.frame s k hK]

end LocalOn

end LocalUpdates
