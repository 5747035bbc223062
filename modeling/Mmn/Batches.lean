import Mathlib.Data.List.Basic

/-!
# Batches of bounded size

A buffer takes elements one by one and closes a batch when it is full, or
whenever it is told to. Closing moves elements from the open batch to the
closed ones and changes nothing else: what is in the buffer, from the first
closed batch to the open one, is what was put into it, in that order
(`content_push`, `content_close`). No batch is empty and none is larger than
the bound (`Bounded`).
-/

/-- **A buffer**: the batches that are closed, and the one that is open. -/
structure Batches (α : Type) where
  /-- The closed batches, in order. -/
  closed : List (List α)
  pending : List α

namespace Batches

variable {α : Type} {size : ℕ} {b : Batches α}

/-- An empty buffer. -/
def empty : Batches α := { closed := [], pending := [] }

/-- Close the open batch, whatever it holds. -/
def send (b : Batches α) :
    Batches α := { closed := b.closed ++ [b.pending], pending := [] }

/-- Close the open batch if it holds anything. -/
def close (b : Batches α) : Batches α := if b.pending.length > 0 then b.send else b

/-- Put an element in, if there is one, and close the batch when it is full. -/
def push (size : ℕ) (b : Batches α) (x : Option α) : Batches α :=
  let b := { b with pending := b.pending ++ x.toList }
  if b.pending.length ≥ size then b.send else b

/-- What is in the buffer. -/
def content (b : Batches α) : List α := b.closed.flatten ++ b.pending

/-- **The sizes of batches**: closed ones hold an element at least, and no
batch more than the bound; the open one still has room. -/
structure Bounded (size : ℕ) (b : Batches α) : Prop where
  closed : ∀ batch ∈ b.closed, 1 ≤ batch.length ∧ batch.length ≤ size
  pending : b.pending.length < size

theorem bounded_empty (h : 0 < size) : (empty : Batches α).Bounded size :=
  ⟨fun _ hbatch => absurd hbatch List.not_mem_nil, h⟩

@[simp] theorem content_send (b : Batches α) : b.send.content = b.content := by
  simp [send, content]

/-- Closing a batch that holds something and is not too large. -/
theorem bounded_send (hclosed : ∀ batch ∈ b.closed, 1 ≤ batch.length ∧
      batch.length ≤ size)
    (hpos : 1 ≤ b.pending.length) (hle : b.pending.length ≤ size) :
    b.send.Bounded size := by
  refine ⟨fun batch hbatch => ?_, Nat.le_trans hpos hle⟩
  obtain hold | hnew := List.mem_append.mp hbatch
  · exact hclosed batch hold
  · rw [List.mem_singleton.mp hnew]
    exact ⟨hpos, hle⟩

theorem content_close (b : Batches α) : b.close.content = b.content := by
  unfold close
  split
  · exact b.content_send
  · rfl

theorem pending_close (b : Batches α) : b.close.pending = [] := by
  unfold close
  split
  · rfl
  · next hempty => exact List.length_eq_zero_iff.mp (Nat.eq_zero_of_not_pos hempty)

theorem Bounded.close (h : b.Bounded size) : b.close.Bounded size := by
  unfold Batches.close
  split
  · next hpos => exact bounded_send h.closed hpos (Nat.le_of_lt h.pending)
  · exact h

theorem content_push (size : ℕ) (b : Batches α) (x : Option α) :
    (b.push size x).content = b.content ++ x.toList := by
  have hput : ({ b with pending := b.pending ++ x.toList } : Batches α).content
      = b.content ++ x.toList := (List.append_assoc _ _ _).symm
  unfold push
  dsimp only
  split
  · rw [content_send, hput]
  · exact hput

theorem Bounded.push (h : b.Bounded size) (x : Option α) :
    (b.push size x).Bounded size := by
  have hone : x.toList.length ≤ 1 := by cases x <;> simp
  have hpending := h.pending
  unfold Batches.push
  dsimp only
  split
  · next hfull =>
    rw [List.length_append] at hfull
    refine bounded_send h.closed ?_ ?_
    · show 1 ≤ (b.pending ++ x.toList).length
      rw [List.length_append]
      omega
    · show (b.pending ++ x.toList).length ≤ size
      rw [List.length_append]
      omega
  · next hroom => exact ⟨h.closed, Nat.lt_of_not_le hroom⟩

end Batches
