import Mathlib.Algebra.BigOperators.Group.Finset.Basic
import Mathlib.Algebra.Order.BigOperators.Group.Finset
import Mathlib.Data.Fintype.Card
import Mathlib.Data.List.Chain
import Mathlib.Logic.Relation
/-!
# Machines that come to rest

Where every step takes a measure down, runs are finite; where only good states
have no step, they end well. `Settles` puts both together.
-/

namespace NebulaToolkit.Lib

variable {σ : Type} {step : σ → σ → Prop}

/-- Every run from `s` ends, after at most `bound` steps, and where it cannot go on, `Q` holds. -/
structure Settles (step : σ → σ → Prop) (s : σ) (bound : Nat) (Q : σ → Prop) : Prop where
  bounded : ∀ run, (s :: run).IsChain step → run.length ≤ bound
  ends : ∀ s', Relation.ReflTransGen step s s' → (∀ s'', ¬ step s' s'') → Q s'

section
variable {I Q : σ → Prop} {μ : σ → Nat} {s : σ} (hstep : ∀ s s', I s → step s s' →
    I s' ∧ μ s' < μ s)
include hstep

theorem chain_length_le (hI : I s) {run : List σ} (h : (s :: run).IsChain step) : run.length ≤ μ s := by
  induction run generalizing s with
  | nil => exact Nat.zero_le _
  | cons s' run ih =>
    rw [List.isChain_cons_cons] at h
    obtain ⟨hI', hlt⟩ := hstep s s' hI h.1
    have := ih hI' h.2
    rw [List.length_cons]
    omega

/-- The rule: an invariant, a measure every step takes down, and what holds where there is no step. -/
theorem settles_of_measure (hI : I s) (hend : ∀ s, I s → (∀ s', ¬ step s s') → Q s) :
    Settles step s (μ s) Q := by
  refine ⟨fun run h => chain_length_le hstep hI h, fun s' hr hstuck => hend s' ?_ hstuck⟩
  clear hstuck
  induction hr with
  | refl => exact hI
  | tail _ hs ih => exact (hstep _ _ ih hs).1

end

/-- So it does get there. -/
theorem Settles.reaches {s : σ} {bound : Nat} {Q : σ → Prop} (h : Settles step s bound Q) :
    ∃ s', Relation.ReflTransGen step s s' ∧ Q s' := by
  by_contra hno
  -- Otherwise a run could be made as long as we like.
  have hlong (n : Nat) : ∃ s' run, (s :: run).IsChain step ∧ (s :: run).getLast (List.cons_ne_nil _ _) = s' ∧
      run.length = n ∧ Relation.ReflTransGen step s s' := by
    induction n with
    | zero => exact ⟨s, [], .singleton s, rfl, rfl, .refl⟩
    | succ n ih =>
      obtain ⟨s', run, hc, hlast, hlen, hr⟩ := ih
      have hmore : ∃ s'', step s' s'' := by
        by_contra hstuck
        exact hno ⟨s', hr, h.ends s' hr (not_exists.1 hstuck)⟩
      obtain ⟨s'', hs⟩ := hmore
      refine ⟨s'', run ++ [s''], ?_, ?_, by rw [List.length_append, hlen]; rfl, hr.tail hs⟩
      · rw [← List.cons_append, List.isChain_append]
        refine ⟨hc, .singleton _, fun x hx y hy => ?_⟩
        rw [List.getLast?_eq_some_getLast (List.cons_ne_nil _ _), Option.mem_some_iff] at hx
        rw [List.head?_cons, Option.mem_some_iff] at hy
        rw [← hx, ← hy, hlast]
        exact hs
      · simp
  obtain ⟨s', run, hc, -, hlen, -⟩ := hlong (bound + 1)
  have := h.bounded run hc
  omega

/-! ## Sums of which one term changes -/

section
variable {ι : Type} [Fintype ι] [DecidableEq ι]

theorem sum_change {M : Type} [AddCommMonoid M] {f g : ι → M} {i : ι} (h : ∀ j, j ≠ i → g j = f j) :
    ∑ j, g j + f i = ∑ j, f j + g i := by
  have hrest : ∑ j ∈ Finset.univ.erase i, g j = ∑ j ∈ Finset.univ.erase i, f j :=
    Finset.sum_congr rfl fun j hj => h j (Finset.ne_of_mem_erase hj)
  rw [← Finset.add_sum_erase Finset.univ f (Finset.mem_univ i),
    ← Finset.add_sum_erase Finset.univ g (Finset.mem_univ i), hrest, add_right_comm, add_comm (g i),
    add_right_comm]

omit [DecidableEq ι] in
theorem sum_le_add {f g : ι → Nat} {c : Nat} (h : ∀ j, g j ≤ f j + c) :
    ∑ j, g j ≤ ∑ j, f j + Fintype.card ι * c := by
  calc ∑ j, g j ≤ ∑ j, (f j + c) := Finset.sum_le_sum fun j _ => h j
    _ = ∑ j, f j + Fintype.card ι * c := by
      rw [Finset.sum_add_distrib, Finset.sum_const_nat fun _ _ => rfl, Finset.card_univ]

end

end NebulaToolkit.Lib
