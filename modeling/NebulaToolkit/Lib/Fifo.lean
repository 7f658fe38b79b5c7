import Mathlib.Data.List.Basic
/-!
# Bounded FIFO queues

What a queue of at most `cap` entries does, over any type of entries. A whole
block is pushed or refused; `pushSome` takes all of the block that fits a window
the implementation gives, which is empty only when the queue is full.
-/

namespace NebulaToolkit.Lib.Fifo

variable {α : Type}

inductive Op (α : Type) where
  | push (xs : List α)
  | pushSome (xs : List α)
  | pop (n : Nat)
  | drop (n : Nat)
  | peek (n : Nat)
  | clear

/-- The answer to an operation; `done xs` hands out (for `pushSome`, takes in) `xs`. -/
inductive Reply (α : Type) where
  | done (xs : List α)
  | refused

/-- What an operation may answer on the queue `q`, and the queue after it. Empty
pushes, pops and peeks are refused. -/
def Step (cap : Nat) (q : List α) (op : Op α) (r : Reply α) (q' : List α) : Prop :=
  match op with
  | .push xs =>
    if 0 < xs.length ∧ xs.length ≤ cap - q.length then r = .done [] ∧ q' = q ++ xs else r = .refused ∧ q' = q
  | .pushSome xs =>
    ∃ w ≤ cap - q.length, (q.length < cap → w ≠ 0) ∧ r = .done (xs.take w) ∧ q' = q ++ xs.take w
  | .pop n => if 0 < n ∧ n ≤ q.length then r = .done (q.take n) ∧ q' = q.drop n else r = .refused ∧ q' = q
  | .drop n => if n ≤ q.length then r = .done [] ∧ q' = q.drop n else r = .refused ∧ q' = q
  | .peek n => (if 0 < n ∧ n ≤ q.length then r = .done (q.take n) else r = .refused) ∧ q' = q
  | .clear => r = .done [] ∧ q' = []

/-- The queue never exceeds its capacity. -/
theorem Step.bounded {cap : Nat} {q q' : List α} {op : Op α} {r : Reply α} (h : Step cap q op r q')
    (hq : q.length ≤ cap) : q'.length ≤ cap := by
  cases op with simp only [Step] at h
  | pushSome xs => obtain ⟨w, hw, -, -, rfl⟩ := h; simp; omega
  | peek n => obtain ⟨-, rfl⟩ := h; exact hq
  | clear => obtain ⟨-, rfl⟩ := h; simp
  | push | pop | drop =>
    split at h <;> obtain ⟨-, rfl⟩ := h
    · simp; omega
    · exact hq

end NebulaToolkit.Lib.Fifo
