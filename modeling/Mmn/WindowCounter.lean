import Mathlib.Algebra.Order.Group.Defs
import Mathlib.Algebra.Order.Sub.Basic
import Mathlib.Data.List.Count

/-!
# Counters of fixed windows

A counter counts what happens in a window of time of a given width. The
window begins with an event, and the first event after it is over begins the
next one, with the count at one again. Between two events nothing changes: a
counter that is read long after its window is over still says what it said
then.

What the number means is `Counts`: of the events so far it is the number of
those since the window began, and none of them is as much as a width away
from its beginning. So a large count is a burst – that many events within
one width (`Counts.exists_burst`) – whenever it is read.
-/

/-- **A counter**: the number of events of the window, and the time the
window began. -/
structure WindowCounter (T : Type) where
  count : ℕ
  start : T

namespace WindowCounter

variable {T : Type} [AddCommGroup T] [LinearOrder T]

/-- A counter that has counted nothing. -/
def new (now : T) : WindowCounter T := { count := 0, start := now }

/-- **Count an event.** A window that is over is left behind first. -/
def hit (width : T) (c : WindowCounter T) (now : T) : WindowCounter T :=
  let c := if now - c.start ≥ width then new now else c
  { c with count := c.count + 1 }

theorem hit_of_over {width : T} {c : WindowCounter T} {now : T}
    (h : now - c.start ≥ width) :
    c.hit width now = { count := 1, start := now } := by
  unfold hit
  rw [if_pos h]
  rfl

theorem hit_of_within {width : T} {c : WindowCounter T} {now : T}
    (h : now - c.start < width) :
    c.hit width now = { c with count := c.count + 1 } := by
  unfold hit
  rw [if_neg (not_le.mpr h)]

/-- A counter that has counted an event is not at zero. -/
theorem count_hit_ne_zero (width : T) (c : WindowCounter T) (now : T) :
    (c.hit width now).count ≠ 0 :=
  Nat.succ_ne_zero _

/-- **What a counter says about the events so far.** -/
structure Counts (width : T) (times : List T) (c : WindowCounter T) : Prop where
  start_mem : c.start ∈ times
  count_eq : c.count = times.countP (fun t => c.start ≤ t)
  lt_end : ∀ t ∈ times, t < c.start + width

variable [IsOrderedAddMonoid T] {width : T} {c : WindowCounter T}
  {times : List T} {now : T}

theorem counts_new (hwidth : 0 < width) :
    Counts width [now] ((new now).hit width now) := by
  rw [hit_of_within (c := new now) (by simpa [new] using hwidth)]
  refine ⟨List.mem_singleton_self now, ?_, fun t ht => ?_⟩
  · simp [new]
  · rw [List.mem_singleton.mp ht]
    exact lt_add_of_pos_right now hwidth

/-- **An event keeps a counter right**, if it is not before the others. -/
theorem Counts.hit (hwidth : 0 < width) (h : Counts width times c)
    (hlast : ∀ t ∈ times, t ≤ now) :
    Counts width (times ++ [now]) (c.hit width now) := by
  by_cases hover : now - c.start ≥ width
  · -- the window is over: none of the earlier events is in the new one
    rw [hit_of_over hover]
    have hbefore : ∀ t ∈ times, t < now := fun t ht =>
      (h.lt_end t ht).trans_le (add_comm width c.start ▸ le_sub_iff_add_le.mp hover)
    refine ⟨List.mem_append_right _ (List.mem_singleton_self now), ?_, fun t ht => ?_⟩
    · have hnone : times.countP (fun t => now ≤ t) = 0 :=
        List.countP_eq_zero.mpr fun t ht => by simpa using hbefore t ht
      rw [List.countP_append, hnone]
      simp
    · show t < now + width
      obtain ht | ht := List.mem_append.mp ht
      · exact (hbefore t ht).trans (lt_add_of_pos_right now hwidth)
      · rw [List.mem_singleton.mp ht]
        exact lt_add_of_pos_right now hwidth
  · rw [hit_of_within (not_le.mp hover)]
    refine ⟨List.mem_append_left _ h.start_mem, ?_, fun t ht => ?_⟩
    · show c.count + 1 = (times ++ [now]).countP (fun t => c.start ≤ t)
      rw [List.countP_append, ← h.count_eq]
      simpa using hlast _ h.start_mem
    · show t < c.start + width
      obtain ht | ht := List.mem_append.mp ht
      · exact h.lt_end t ht
      · rw [List.mem_singleton.mp ht, add_comm]
        exact sub_lt_iff_lt_add.mp (not_le.mp hover)

omit [IsOrderedAddMonoid T] in
/-- **A count is a burst**: so many events within one width, from some time
on. -/
theorem Counts.exists_burst (h : Counts width times c) :
    ∃ start, c.count ≤ times.countP (fun t => start ≤ t ∧ t < start + width) := by
  refine ⟨c.start, h.count_eq ▸ List.countP_mono_left fun t ht hstart => ?_⟩
  rw [decide_eq_true_eq] at hstart ⊢
  exact ⟨hstart, h.lt_end t ht⟩

end WindowCounter
