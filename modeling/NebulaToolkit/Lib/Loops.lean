import Mathlib.Logic.Relation
import Mathlib.Tactic.ByContra
/-!
# Loops that make one call a pass

A loop makes a call in every pass, and what the call returns decides whether it
goes on. `Fed` says where it stands after some passes when the calls return what
a stream of results says; `finitelyMany_iff` is when it makes only finitely
many calls.
-/

namespace NebulaToolkit.Lib

variable {σ ι : Type}

/-- Where a loop that began at `s₀` stands after `n` passes: `goOn s r s'` says that it goes
on from `s` to `s'` when its call returns `r`. -/
inductive Fed (goOn : σ → ι → σ → Prop) (results : Nat → ι) (s₀ : σ) : Nat → σ → Prop
  | start : Fed goOn results s₀ 0 s₀
  | next {n : Nat} {s s' : σ} : Fed goOn results s₀ n s → goOn s (results n) s' →
      Fed goOn results s₀ (n + 1) s'

/-- The loop makes finitely many calls, one in each pass that begins in a state where it `calls`. -/
def FinitelyMany (calls : σ → Prop) (goOn : σ → ι → σ → Prop) (results : Nat → ι) (s₀ : σ) : Prop :=
  ∃ bound, ∀ n s, Fed goOn results s₀ n s → calls s → n < bound

variable {calls : σ → Prop} {goOn : σ → ι → σ → Prop} {results : Nat → ι} {s₀ s s' : σ} {n : Nat}

/-- Every pass on the way went on. -/
theorem Fed.passed (h : Fed goOn results s₀ n s) {m : Nat} (hm : m < n) :
    ∃ t t', Fed goOn results s₀ m t ∧ goOn t (results m) t' := by
  induction h with
  | start => exact absurd hm (Nat.not_lt_zero m)
  | @next n s s' hf hg ih =>
    rcases Nat.lt_succ_iff_lt_or_eq.1 hm with hm | rfl
    · exact ih hm
    · exact ⟨s, s', hf, hg⟩

theorem Fed.unique (hdet : ∀ s r s' s'', goOn s r s' → goOn s r s'' → s' = s'') (h : Fed goOn results s₀ n s)
    (h' : Fed goOn results s₀ n s') : s = s' := by
  induction h generalizing s' with
  | start =>
    cases h'
    rfl
  | next _ hg ih =>
    cases h' with
    | next hf' hg' =>
      obtain rfl := ih hf'
      exact hdet _ _ _ _ hg hg'

/-- From where the loop stands earlier, the pass goes on. -/
theorem Fed.goes_on (hdet : ∀ s r s' s'', goOn s r s' → goOn s r s'' → s' = s'')
    (h : Fed goOn results s₀ n s) {m : Nat} {t : σ} (ht : Fed goOn results s₀ m t) (hm : m < n) :
    ∃ t', goOn t (results m) t' := by
  obtain ⟨t₁, t', ht₁, hg⟩ := h.passed hm
  obtain rfl := ht.unique hdet ht₁
  exact ⟨t', hg⟩

/-- What holds at first and is kept by every pass holds wherever the loop stands. -/
theorem Fed.inv {I : σ → Prop} (h : Fed goOn results s₀ n s) (h₀ : I s₀)
    (hstep : ∀ n s s', I s → goOn s (results n) s' → I s') : I s := by
  induction h with
  | start => exact h₀
  | next _ hg ih => exact hstep _ _ _ ih hg

/-- Where each pass is matched by a step, the passes are matched by a run. -/
theorem Fed.simulate {τ : Type} {step : τ → τ → Prop} {sim : σ → τ → Prop}
    (h : Fed goOn results s₀ n s) (hstep : ∀ s r s' t, goOn s r s' → sim s t →
      ∃ t', step t t' ∧ sim s' t') {t₀ : τ} (h₀ : sim s₀ t₀) :
    ∃ t, Relation.ReflTransGen step t₀ t ∧ sim s t := by
  induction h with
  | start => exact ⟨t₀, .refl, h₀⟩
  | next _ hg ih =>
    obtain ⟨t, hsteps, ht⟩ := ih
    obtain ⟨t', hs, ht'⟩ := hstep _ _ _ t hg ht
    exact ⟨t', hsteps.tail hs, ht'⟩

/-- A result with which no pass goes on is the last one. -/
theorem finitelyMany_of_last (hlast : ∀ s s', ¬ goOn s (results n) s') :
    FinitelyMany calls goOn results s₀ := by
  refine ⟨n + 1, fun m s hf _ => ?_⟩
  by_contra hm
  obtain ⟨t, t', -, hg⟩ := hf.passed (Nat.lt_of_succ_le (Nat.not_lt.1 hm))
  exact hlast t t' hg

/-- A loop makes finitely many calls if and only if it comes to a pass where it makes none
or does not go on. -/
theorem finitelyMany_iff (hdet : ∀ s r s' s'', goOn s r s' → goOn s r s'' → s' = s'')
    (hcalls : ∀ s r s', goOn s r s' → calls s) :
    FinitelyMany calls goOn results s₀ ↔
    ∃ n s, Fed goOn results s₀ n s ∧ (calls s → ∀ s', ¬ goOn s (results n) s') := by
  constructor
  · rintro ⟨bound, hbound⟩
    by_contra hno
    push Not at hno
    have hfed (n : Nat) : ∃ s, Fed goOn results s₀ n s := by
      induction n with
      | zero => exact ⟨s₀, .start⟩
      | succ n ih =>
        obtain ⟨s, hs⟩ := ih
        obtain ⟨-, s', hg⟩ := hno n s hs
        exact ⟨s', hs.next hg⟩
    obtain ⟨s, hs⟩ := hfed bound
    exact Nat.lt_irrefl _ (hbound bound s hs (hno bound s hs).1)
  · rintro ⟨n, s, hs, hstop⟩
    refine ⟨n + 1, fun m t hf _ => ?_⟩
    by_contra hm
    obtain ⟨t, t', ht, hg⟩ := hf.passed (Nat.lt_of_succ_le (Nat.not_lt.1 hm))
    obtain rfl := ht.unique hdet hs
    exact hstop (hcalls _ _ _ hg) t' hg

/-- The same with results that are always the last. -/
theorem finitelyMany_iff_last (last : ι → Prop) (hdet : ∀ s r s' s'', goOn s r s' → goOn s r s'' → s' = s'')
    (hcalls : ∀ s r s', goOn s r s' → calls s) (hlast : ∀ s r s', last r → ¬ goOn s r s') :
    FinitelyMany calls goOn results s₀ ↔
      (∃ n, last (results n)) ∨
        ∃ n s, Fed goOn results s₀ n s ∧ ¬ last (results n) ∧
        (calls s → ∀ s', ¬ goOn s (results n) s') := by
  constructor
  · intro hfin
    obtain ⟨n, s, hf, hstop⟩ := (finitelyMany_iff hdet hcalls).1 hfin
    by_cases hl : last (results n)
    · exact .inl ⟨n, hl⟩
    · exact .inr ⟨n, s, hf, hl, hstop⟩
  · rintro (⟨n, hn⟩ | ⟨n, s, hf, -, hstop⟩)
    · exact finitelyMany_of_last fun s s' => hlast s _ s' hn
    · exact (finitelyMany_iff hdet hcalls).2 ⟨n, s, hf, hstop⟩

end NebulaToolkit.Lib
