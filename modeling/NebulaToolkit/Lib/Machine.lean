import Mathlib.Data.List.Chain
import Mathlib.Logic.Relation
/-!
# Machines and their runs

Two kinds of machine: a deterministic one that answers every input
(`runOut`), and a transition relation with its reachable states and its runs.
`Trace` is a run of a relational specification that says which outputs it
allows; `runOut_refines` is the simulation rule between the two.
-/

namespace NebulaToolkit.Lib

variable {σ τ ι ο : Type}

/-- The outputs and the last state of a machine fed a list of inputs. -/
def runOut (step : σ → ι → ο × σ) : σ → List ι → List ο × σ
  | s, [] => ([], s)
  | s, i :: is => ((step s i).1 :: (runOut step (step s i).2 is).1, (runOut step (step s i).2 is).2)

/-- Runs a specification allows: `spec t i o t'` says that from `t` the input
`i` may be answered by `o` and lead to `t'`. -/
inductive Trace (spec : τ → ι → ο → τ → Prop) : τ → List ι → List ο → τ → Prop
  | nil (t : τ) : Trace spec t [] [] t
  | cons {t t' t'' : τ} {i : ι} {o : ο} {is : List ι} {os : List ο} :
      spec t i o t' → Trace spec t' is os t'' → Trace spec t (i :: is) (o :: os) t''

/-- Where every input has one answer, a list of inputs has one run. -/
theorem Trace.unique {spec : τ → ι → ο → τ → Prop}
    (hdet : ∀ t i o o' t' t'', spec t i o t' → spec t i o' t'' → o = o' ∧ t' = t'') {t t' t'' : τ}
    {is : List ι} {os os' : List ο} (h : Trace spec t is os t') (h' : Trace spec t is os' t'') :
    os = os' ∧ t' = t'' := by
  induction h generalizing os' with
  | nil t => cases h'; exact ⟨rfl, rfl⟩
  | cons hs _ ih =>
    cases h' with
    | cons hs' ht' =>
      obtain ⟨rfl, rfl⟩ := hdet _ _ _ _ _ _ hs hs'
      obtain ⟨rfl, rfl⟩ := ih ht'
      exact ⟨rfl, rfl⟩

/-- A property that every allowed step keeps holds after every run. -/
theorem Trace.inv {spec : τ → ι → ο → τ → Prop} {I : τ → Prop}
    (hstep : ∀ t i o t', I t → spec t i o t' → I t') {t t' : τ} {is : List ι} {os : List ο}
    (h : Trace spec t is os t') (h₀ : I t) : I t' := by
  induction h with
  | nil t => exact h₀
  | cons hs _ ih => exact ih (hstep _ _ _ _ h₀ hs)

/-- One more input at the end of a run. -/
theorem Trace.snoc {spec : τ → ι → ο → τ → Prop} {t t' t'' : τ} {is : List ι} {os : List ο}
    {i : ι} {o : ο} (h : Trace spec t is os t') (hs : spec t' i o t'') :
    Trace spec t (is ++ [i]) (os ++ [o]) t'' := by
  induction h with
  | nil t => exact .cons hs (.nil _)
  | cons h _ ih => exact .cons h (ih hs)

/-- The runs of a specification that is a machine. -/
theorem Trace.eq_runOut {step : σ → ι → ο × σ} {s s' : σ} {is : List ι} {os : List ο}
    (h : Trace (fun s i o s' => (o, s') = step s i) s is os s') : (os, s') = runOut step s is := by
  induction h with
  | nil => rfl
  | cons hs _ ih =>
    rw [runOut, ← hs, ← ih]

/-- A machine that matches the specification step by step does so run by run. -/
theorem runOut_refines {step : σ → ι → ο × σ} {spec : τ → ι → ο → τ → Prop}
    {sim : σ → τ → Prop}
    (hstep : ∀ s t i, sim s t → ∃ t', spec t i (step s i).1 t' ∧ sim (step s i).2 t') (is : List ι) :
    ∀ s t, sim s t → ∃ t', Trace spec t is (runOut step s is).1 t' ∧ sim (runOut step s is).2 t' := by
  induction is with
  | nil => exact fun s t h => ⟨t, .nil t, h⟩
  | cons i is ih =>
    intro s t h
    obtain ⟨t₁, h₁, hs₁⟩ := hstep s t i h
    obtain ⟨t₂, h₂, hs₂⟩ := ih _ t₁ hs₁
    exact ⟨t₂, .cons h₁ h₂, hs₂⟩

/-- `s` is reached from an initial state by steps of `step`. -/
def Reachable (init : σ → Prop) (step : σ → σ → Prop) (s : σ) : Prop :=
  ∃ s₀, init s₀ ∧ Relation.ReflTransGen step s₀ s

section
variable {init : σ → Prop} {step : σ → σ → Prop}

theorem Reachable.start {s : σ} (h : init s) : Reachable init step s := ⟨s, h, .refl⟩

theorem Reachable.next {s s' : σ} (h : Reachable init step s) (hs : step s s') : Reachable init step s' := by
  obtain ⟨s₀, h₀, hr⟩ := h
  exact ⟨s₀, h₀, hr.tail hs⟩

/-- An invariant: it holds at first and every step from a reachable state where
it holds keeps it. -/
theorem Reachable.inv {I : σ → Prop} (h₀ : ∀ s, init s → I s)
    (hstep : ∀ s s', Reachable init step s → I s → step s s' → I s') {s : σ} (h : Reachable init step s) :
    I s := by
  obtain ⟨s₀, hi, hr⟩ := h
  induction hr with
  | refl => exact h₀ _ hi
  | tail hr' hs ih => exact hstep _ _ ⟨s₀, hi, hr'⟩ ih hs

/-- A run with every state on its way: `s₀` is initial, the states of `run` follow. -/
def IsRun (init : σ → Prop) (step : σ → σ → Prop) (s₀ : σ) (run : List σ) : Prop :=
  init s₀ ∧ (s₀ :: run).IsChain step

/-- What is reachable is the end of a run. -/
theorem Reachable.exists_run {s : σ} (h : Reachable init step s) :
    ∃ s₀ run, IsRun init step s₀ run ∧ (s₀ :: run).getLast (List.cons_ne_nil _ _) = s := by
  obtain ⟨s₀, h₀, hr⟩ := h
  obtain ⟨run, hchain, hlast⟩ := List.exists_isChain_cons_of_relationReflTransGen hr
  exact ⟨s₀, run, ⟨h₀, hchain⟩, hlast⟩

theorem IsRun.imp {step' : σ → σ → Prop} (himp : ∀ s s', step s s' → step' s s') {s₀ : σ} {run : List σ}
    (h : IsRun init step s₀ run) : IsRun init step' s₀ run := ⟨h.1, h.2.imp himp⟩

theorem IsRun.reachable {s₀ : σ} {run : List σ} (h : IsRun init step s₀ run) :
    ∀ s ∈ s₀ :: run, Reachable init step s := by
  have hstart : (s₀ :: run).IsChain step := h.2
  intro s hs
  rcases List.mem_cons.1 hs with rfl | hs
  · exact .start h.1
  · exact hstart.cons_induction (Reachable init step) run (fun _ _ hxy hx => hx.next hxy) (.start h.1) s hs

theorem IsRun.inv {I : σ → Prop} (h₀ : ∀ s, init s → I s) (hstep : ∀ s s', I s → step s s' → I s')
    {s₀ : σ} {run : List σ} (h : IsRun init step s₀ run) : ∀ s ∈ s₀ :: run, I s :=
  fun s hs => (h.reachable s hs).inv h₀ fun s s' _ => hstep s s'

/-- A step of a run starts where the invariant holds. -/
theorem IsRun.strengthen {I : σ → Prop} (h₀ : ∀ s, init s → I s)
    (hstep : ∀ s s', I s → step s s' → I s') {s₀ : σ} {run : List σ} (h : IsRun init step s₀ run) :
    IsRun init (fun s s' => I s ∧ step s s') s₀ run :=
  ⟨h.1, h.2.imp_of_mem_imp fun s _ hs _ hss' => ⟨h.inv h₀ hstep s hs, hss'⟩⟩

/-- Two things every step of a run does. -/
theorem IsRun.and {good : σ → σ → Prop} {s₀ : σ} {run : List σ} (h : IsRun init step s₀ run)
    (hc : (s₀ :: run).IsChain good) : IsRun init (fun s s' => step s s' ∧ good s s') s₀ run := by
  refine ⟨h.1, ?_⟩
  have hstep := h.2
  rw [List.isChain_iff_getElem] at hc hstep ⊢
  exact fun i hi => ⟨hstep i hi, hc i hi⟩

/-- When a property holds all along a run: `good` steps keep an invariant that
implies it, and no other step leads to a state that has it. -/
theorem IsRun.forall_iff {P I : σ → Prop} {good : σ → σ → Prop} (h₀ : ∀ s, init s → I s)
    (hstep : ∀ s s', I s → step s s' → good s s' → I s') (hI : ∀ s, I s → P s)
    (hgood : ∀ s s', step s s' → P s' → good s s') {s₀ : σ} {run : List σ} (h : IsRun init step s₀ run) :
    (∀ s ∈ s₀ :: run, P s) ↔ (s₀ :: run).IsChain good := by
  constructor
  · intro hP
    exact h.2.imp_of_mem_tail_imp fun s s' _ hs' hstep =>
      hgood s s' hstep (hP s' (List.mem_cons_of_mem _ hs'))
  · intro hc s hs
    exact hI s ((h.and hc).inv h₀ (fun s s' hs hss' => hstep s s' hs hss'.1 hss'.2) s hs)

/-- When a property holds at the end of a run that every step settles: it holds behind
the step if and only if it held before and the step is `good`. -/
theorem IsRun.last_iff {Q : σ → Prop} {good : σ → σ → Prop} (h₀ : ∀ s, init s → Q s)
    (hstep : ∀ s s', step s s' → (Q s' ↔ Q s ∧ good s s')) {s₀ : σ} {run : List σ}
    (h : IsRun init step s₀ run) :
    Q ((s₀ :: run).getLast (List.cons_ne_nil _ _)) ↔ (s₀ :: run).IsChain good := by
  have hiff : Q ((s₀ :: run).getLast (List.cons_ne_nil _ _)) ↔ Q s₀ ∧ (s₀ :: run).IsChain good := by
    have hc := h.2
    clear h h₀
    induction run generalizing s₀ with
    | nil => simp
    | cons s run ih =>
      rw [List.isChain_cons_cons] at hc ⊢
      have hrest : Q ((s :: run).getLast (List.cons_ne_nil _ _)) ↔ Q s ∧ (s :: run).IsChain good := ih hc.2
      rw [List.getLast_cons_cons, hrest, hstep _ _ hc.1, and_assoc]
  rw [hiff, and_iff_right (h₀ _ h.1)]

end

end NebulaToolkit.Lib
