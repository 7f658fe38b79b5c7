import Mathlib.Data.Finset.Card
import Mathlib.Data.Fintype.Card
import NebulaToolkit.ThreadPool
/-!
# The order in which tasks finish

Tasks start in the order of their posts, but a worker that is slow lets the
others go ahead. How far: when a task is done, fewer tasks posted before it are
not than there are workers. With one worker tasks finish in the order of their
posts.
-/

namespace NebulaToolkit.ThreadPool

open Lib

variable {Task : Type} {n : Nat} {s s' : State Task n}

/-- Of the tasks posted before the `k`th those that are not among `done`. -/
def unfinished (k : Nat) (done : List Nat) : Finset Nat := (Finset.range k).filter (· ∉ done)

/-- When a task was done, few tasks posted before it were not. -/
def FewWaited (n : Nat) (ran : List Nat) : Prop :=
  ∀ pre k post, ran = pre ++ k :: post → (unfinished k pre).card < n

/-- The place in `taken` of what a worker executes. -/
def Worker.place : Worker Task → Nat
  | .executing k _ => k
  | _ => 0

/-- What was dequeued before `w`'s task and is not done is in the hands of the others. -/
theorem unfinished_others (hi : Inv s) {w : Fin n} {k : Nat} {t : Task} (hw : s.worker w = .executing k t) :
    unfinished k s.ran ⊆ (Finset.univ.erase w).image fun v => (s.worker v).place := by
  intro j hj
  obtain ⟨hlt, hran⟩ := Finset.mem_filter.1 hj
  have hk := (List.getElem?_eq_some_iff.1 (hi.executing w k t hw)).1
  have hjk := Finset.mem_range.1 hlt
  obtain ⟨v, u, hv⟩ := (hi.kept j (by omega)).resolve_left hran
  have hvw : v ≠ w := by
    rintro rfl
    rw [hw] at hv
    cases hv
    omega
  exact Finset.mem_image.2 ⟨v, Finset.mem_erase.2 ⟨hvw, Finset.mem_univ v⟩, by rw [hv]; rfl⟩

theorem run_few (hi : Inv s) {w : Fin n} {k : Nat} {t : Task} (hw : s.worker w = .executing k t) :
    (unfinished k s.ran).card < n := by
  have hothers := (Finset.card_le_card (unfinished_others hi hw)).trans Finset.card_image_le
  rw [Finset.card_erase_of_mem (Finset.mem_univ w), Finset.card_univ, Fintype.card_fin] at hothers
  have := w.pos
  omega

/-- One more task is done. -/
theorem FewWaited.snoc {ran : List Nat} {k : Nat} (h : FewWaited n ran) (hk : (unfinished k ran).card < n) :
    FewWaited n (ran ++ [k]) := by
  intro pre j post he
  rcases post.eq_nil_or_concat with rfl | ⟨post, last, rfl⟩
  · obtain ⟨rfl, hjk⟩ := List.append_inj' he rfl
    cases hjk
    exact hk
  · rw [List.concat_eq_append, ← List.cons_append, ← List.append_assoc] at he
    exact h pre j post (List.append_inj' he rfl).1

theorem step_few (hi : Inv s) (hf : FewWaited n s.ran) (h : Step s s') : FewWaited n s'.ran := by
  cases h with
  | postTask | batchLock | batchPush | batchUnlock | wake | exit | dequeue | destroy => exact hf
  | run w hw => exact hf.snoc (run_few hi hw)

theorem reachable_few (h : Reachable Start Step s) : FewWaited n s.ran := by
  refine h.inv (I := fun s => FewWaited n s.ran) (fun s hs pre k post he => ?_) fun s s' hr hf hs =>
    step_few (reachable_inv hr) hf hs
  rw [hs] at he
  cases pre <;> cases he

/-- Nothing overtakes if there is one worker. -/
theorem FewWaited.in_order {ran : List Nat} (h : FewWaited 1 ran) (hnodup : ran.Nodup) :
    ran = List.range ran.length := by
  induction ran using List.reverseRecOn with
  | nil => rfl
  | append_singleton ran k ih =>
    have hrest : FewWaited 1 ran := fun pre j post he => h pre j (post ++ [k]) (by rw [he]; simp)
    have hran := ih hrest (List.nodup_append.1 hnodup).1
    have hall : unfinished k ran = ∅ := Finset.card_eq_zero.1 (by have := h ran k [] rfl; omega)
    have hnew : k ∉ ran := fun hm => (List.nodup_append.1 hnodup).2.2 k hm k (List.mem_singleton_self k) rfl
    rw [hran, List.mem_range] at hnew
    have hle : k ≤ ran.length := by
      by_contra hlt
      have hmem : ran.length ∈ unfinished k ran := by
        refine Finset.mem_filter.2 ⟨Finset.mem_range.2 (by omega), ?_⟩
        rw [hran, List.mem_range]
        simp
      rw [hall] at hmem
      exact Finset.notMem_empty _ hmem
    rw [List.length_append, List.length_singleton, List.range_succ, ← hran, Nat.le_antisymm hle (by omega)]

/-- In every interleaving: when a task finished, fewer than `n` of those posted before it had
not; with one worker the tasks finish in the order of their posts. -/
theorem overtaken_by_few (s : State Task n) (h : Reachable Start Step s) :
    (∀ pre k post, s.ran = pre ++ k :: post → (unfinished k pre).card < n) ∧
    (n = 1 → s.ran = List.range s.ran.length) := by
  have hf := reachable_few h
  refine ⟨hf, fun hn => ?_⟩
  subst hn
  exact hf.in_order (reachable_inv h).ran_once

/-- The theorem where the second task is done first. -/
theorem overtaken_by_few_one :
    ∃ s : State Nat 2, Reachable Start Step s ∧ s.ran = [1] ∧ (unfinished 1 []).card < 2 := by
  have h₁ := (Reachable.start rfl : Reachable Start Step ({} : State Nat 2)).next (.postTask 7 rfl)
  have h₂ := h₁.next (.postTask 8 rfl)
  have h₃ := h₂.next (.wake 0 rfl rfl (.inr (by simp [State.push])))
  have h₄ := h₃.next (.dequeue 0 rfl rfl (by simp [State.push, State.setWorker]) rfl)
  have h₅ := h₄.next (.wake 1 rfl rfl (.inr (by simp)))
  have h₆ := h₅.next (.dequeue 1 rfl rfl (by simp [State.push, State.setWorker]) rfl)
  have h₇ := h₆.next (.run 1 rfl)
  exact ⟨_, h₇, rfl, (overtaken_by_few _ h₇).1 [] 1 [] rfl⟩

end NebulaToolkit.ThreadPool
