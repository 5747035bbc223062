import Mathlib.Data.Finset.Empty
import Mathlib.Data.Finset.Lattice.Basic
import Mathlib.Data.List.Nodup
import Mathlib.Data.List.Range

/-!
# Queues with tickets

Whoever arrives at a queue draws the next number and waits; service takes
from the front, and those who wait can be called off, wherever they stand.
`TicketQueue` is such a queue with its history: how many numbers were drawn,
which were served, in the order of service, and which were called off.

That the queue is first in, first out is a field, `TicketQueue.orderly`: the
numbers served, followed by those that wait, are all the numbers drawn but
those called off, *in the order they were drawn*. Nothing is lost, served
twice or overtaken. Each operation has the equation to show, and whatever is
shown to follow a ticket queue has the equation for nothing;
`TicketQueue.map_orderly` is the form for a list of arrivals.
-/

/-- **A queue with its history.** -/
structure TicketQueue where
  issued : ℕ
  /-- The tickets that wait, first in line first. -/
  waiting : List ℕ
  served : List ℕ
  cancelled : Finset ℕ
  orderly : served ++ waiting
    = (List.range issued).filter (fun t => decide (t ∉ cancelled))
  drawn : ∀ t ∈ cancelled, t < issued

namespace TicketQueue

/-- The queue nobody has come to. -/
def empty : TicketQueue where
  issued := 0
  waiting := []
  served := []
  cancelled := ∅
  orderly := rfl
  drawn _ ht := absurd ht (Finset.notMem_empty _)

variable (q : TicketQueue)

theorem nodup : (q.served ++ q.waiting).Nodup := by
  rw [q.orderly]
  exact List.nodup_range.filter _

/-- A ticket that waits or was served was drawn. -/
theorem lt_issued {t : ℕ} (ht : t ∈ q.served ++ q.waiting) : t < q.issued := by
  rw [q.orderly] at ht
  exact List.mem_range.mp (List.mem_of_mem_filter ht)

theorem nodup_waiting : q.waiting.Nodup :=
  (List.nodup_append.mp q.nodup).2.1

/-! ## Arrivals -/

theorem orderly_issue :
    q.served ++ (q.waiting ++ [q.issued])
      = (List.range (q.issued + 1)).filter (fun t => decide (t ∉ q.cancelled)) := by
  have hnew : q.issued ∉ q.cancelled := fun h => Nat.lt_irrefl _ (q.drawn _ h)
  rw [← List.append_assoc, q.orderly, List.range_succ, List.filter_append,
    List.filter_singleton, decide_eq_true hnew]
  rfl

/-- **An arrival** draws the next ticket. -/
def issue : TicketQueue where
  issued := q.issued + 1
  waiting := q.waiting ++ [q.issued]
  served := q.served
  cancelled := q.cancelled
  orderly := q.orderly_issue
  drawn t ht := Nat.lt_succ_of_lt (q.drawn t ht)

/-! ## Service -/

theorem orderly_serve (n : ℕ) :
    q.served ++ q.waiting.take n ++ q.waiting.drop n
      = (List.range q.issued).filter (fun t => decide (t ∉ q.cancelled)) := by
  rw [List.append_assoc, List.take_append_drop]
  exact q.orderly

/-- **Service** of the first `n` that wait. -/
def serve (n : ℕ) : TicketQueue where
  issued := q.issued
  waiting := q.waiting.drop n
  served := q.served ++ q.waiting.take n
  cancelled := q.cancelled
  orderly := q.orderly_serve n
  drawn := q.drawn

/-! ## Calling off -/

/-- A ticket that is served cannot be called off any more. -/
theorem notMem_of_served {off : Finset ℕ} (hoff : ∀ t ∈ off, t ∈ q.waiting) {t : ℕ}
    (ht : t ∈ q.served) : t ∉ off :=
  fun hmem => (List.nodup_append.mp q.nodup).2.2 t ht t (hoff t hmem) rfl

theorem orderly_cancel {off : Finset ℕ} (hoff : ∀ t ∈ off, t ∈ q.waiting) :
    q.served ++ q.waiting.filter (fun t => decide (t ∉ off))
      = (List.range q.issued).filter (fun t => decide (t ∉ q.cancelled ∪ off)) := by
  have hserved : q.served.filter (fun t => decide (t ∉ off)) = q.served :=
    List.filter_eq_self.mpr fun t ht => decide_eq_true (q.notMem_of_served hoff ht)
  calc q.served ++ q.waiting.filter (fun t => decide (t ∉ off))
      = (q.served ++ q.waiting).filter (fun t => decide (t ∉ off)) := by
        rw [List.filter_append, hserved]
    _ = (List.range q.issued).filter (fun t => decide (t ∉ q.cancelled ∪ off)) := by
        rw [q.orderly, List.filter_filter]
        refine List.filter_congr fun t _ => ?_
        rw [← Bool.decide_and, decide_eq_decide, Finset.mem_union]
        tauto

theorem drawn_cancel {off : Finset ℕ} (hoff : ∀ t ∈ off, t ∈ q.waiting) :
    ∀ t ∈ q.cancelled ∪ off, t < q.issued := by
  intro t ht
  obtain ht | ht := Finset.mem_union.mp ht
  · exact q.drawn t ht
  · exact q.lt_issued (List.mem_append_right _ (hoff t ht))

/-- **Some that wait are called off.** -/
def cancel (off : Finset ℕ) (hoff : ∀ t ∈ off, t ∈ q.waiting) : TicketQueue where
  issued := q.issued
  waiting := q.waiting.filter (fun t => decide (t ∉ off))
  served := q.served
  cancelled := q.cancelled ∪ off
  orderly := q.orderly_cancel hoff
  drawn := q.drawn_cancel hoff

/-! ## Who holds the tickets -/

/-- The arrivals at the positions that were not called off. -/
def remaining {α : Type*} (arrivals : List α) (cancelled : Finset ℕ) : List α :=
  (arrivals.zipIdx.filter (fun e => decide (e.2 ∉ cancelled))).map Prod.fst

/-- **First in, first out, by name**: with a list of those who drew the
tickets, the ones served and the ones that wait are the arrivals that were
not called off. -/
theorem map_orderly {α : Type*} {arrivals : List α}
    (hlen : arrivals.length = q.issued) :
    q.served.map (fun t => arrivals[t]?) ++ q.waiting.map (fun t => arrivals[t]?)
      = (remaining arrivals q.cancelled).map some := by
  rw [← List.map_append, q.orderly, ← hlen, List.range_eq_range',
    ← List.zipIdx_map_snd 0 arrivals,
    List.filter_map, List.map_map, remaining, List.map_map]
  refine List.map_congr_left fun e he => ?_
  exact List.mem_zipIdx_iff_getElem?.mp (List.mem_of_mem_filter he)

end TicketQueue
