import Mathlib.Logic.Function.Basic
import NebulaToolkit.Lib.Machine
/-!
# Calls under a mutex

An object that any number of threads call. A call takes the object's mutex, goes
through its body place by place, and releases the mutex where it returns; other
threads make their own steps in between. `linearizable` says what this comes to:
the calls one behind the other, in the order in which they released the mutex,
each at a moment between its beginning and its end.
-/

namespace NebulaToolkit.Lib.Mutex

/-- The bodies of an object's calls: where each begins, and what is done at a place.
`.inr` returns. -/
structure Body (σ κ π ο : Type) where
  enter : κ → π
  micro : π → σ → (π ⊕ ο) × σ

variable {ι σ κ π ο τ : Type} {b : Body σ κ π ο}

/-- From a place the body, left alone, returns `o` and leaves `s'`. -/
inductive Body.Finishes (b : Body σ κ π ο) : π → σ → ο → σ → Prop
  | ret {p : π} {s s' : σ} {o : ο} : b.micro p s = (.inr o, s') → Finishes b p s o s'
  | next {p p' : π} {s s' s'' : σ} {o : ο} : b.micro p s = (.inl p', s') → Finishes b p' s' o s'' →
      Finishes b p s o s''

theorem Body.finishes_ret {p : π} {s s₁ s' : σ} {o₁ o : ο} (h : b.micro p s = (.inr o₁, s₁)) :
    b.Finishes p s o s' ↔ (o, s') = (o₁, s₁) := by
  constructor
  · rintro (hr | ⟨hn, -⟩)
    · rw [h] at hr
      cases hr
      rfl
    · rw [h] at hn
      cases hn
  · rintro ⟨⟩
    exact .ret h

theorem Body.finishes_next {p p' : π} {s s₁ s' : σ} {o : ο} (h : b.micro p s = (.inl p', s₁)) :
    b.Finishes p s o s' ↔ b.Finishes p' s₁ o s' := by
  constructor
  · rintro (hr | ⟨hn, hf⟩)
    · rw [h] at hr
      cases hr
    · rw [h] at hn
      cases hn
      exact hf
  · exact .next h

/-- A body whose places come nearer to the return comes to it. -/
theorem Body.finishes_of_rank (rank : π → Nat)
    (hrank : ∀ p s p' s', b.micro p s = (.inl p', s') → rank p' < rank p) (p : π) (s : σ) :
    ∃ o s', b.Finishes p s o s' := by
  induction hn : rank p using Nat.strong_induction_on generalizing p s with
  | _ n ih =>
  cases hm : b.micro p s with
  | mk r s₁ =>
    cases r with
    | inl p' =>
      obtain ⟨o, s', hfin⟩ := ih _ (hn ▸ hrank p s p' s₁ hm) p' s₁ rfl
      exact ⟨o, s', .next hm hfin⟩
    | inr o => exact ⟨o, s₁, .ret hm⟩

/-- Where a thread stands. `since` is how many calls had released the mutex when its
call was made. -/
inductive Thread (κ π ο : Type) where
  | idle
  /-- Before the mutex. -/
  | blocked (call : κ) (since : Nat)
  | inside (call : κ) (since : Nat) (place : π)
  /-- Behind it, before the caller has the answer. -/
  | left (call : κ) (out : ο)

/-- A call that has released the mutex. -/
structure Entry (ι κ ο : Type) where
  thread : ι
  call : κ
  out : ο
  since : Nat

structure State (ι σ κ π ο : Type) where
  object : σ
  holder : Option ι := none
  thread : ι → Thread κ π ο := fun _ => .idle
  /-- History: the calls in the order in which they released the mutex. -/
  log : List (Entry ι κ ο) := []

/-- The calls of the log, and their answers. -/
def State.calls (s : State ι σ κ π ο) : List κ := s.log.map (·.call)

def State.outs (s : State ι σ κ π ο) : List ο := s.log.map (·.out)

variable [DecidableEq ι]

def State.setThread (s : State ι σ κ π ο) (i : ι) (p : Thread κ π ο) : State ι σ κ π ο :=
  { s with thread := Function.update s.thread i p }

inductive Step (b : Body σ κ π ο) : State ι σ κ π ο → State ι σ κ π ο → Prop
  | call {s : State ι σ κ π ο} (i : ι) (k : κ) : s.thread i = .idle →
      Step b s (s.setThread i (.blocked k s.log.length))
  | acquire {s : State ι σ κ π ο} {i : ι} {k : κ} {n : Nat} : s.thread i = .blocked k n → s.holder = none →
      Step b s { s.setThread i (.inside k n (b.enter k)) with holder := some i }
  | micro {s : State ι σ κ π ο} {i : ι} {k : κ} {n : Nat} {p p' : π} {object : σ} :
      s.thread i = .inside k n p → b.micro p s.object = (.inl p', object) →
      Step b s { s.setThread i (.inside k n p') with object := object }
  | release {s : State ι σ κ π ο} {i : ι} {k : κ} {n : Nat} {p : π} {o : ο} {object : σ} :
      s.thread i = .inside k n p → b.micro p s.object = (.inr o, object) →
      Step b s { s.setThread i (.left k o) with
        object := object, holder := none, log := s.log ++ [⟨i, k, o, n⟩] }
  | ret {s : State ι σ κ π ο} {i : ι} {k : κ} {o : ο} : s.thread i = .left k o →
      Step b s (s.setThread i .idle)

/-- The object is new and nobody calls it. -/
def Start (init : σ) (s : State ι σ κ π ο) : Prop := s = { object := init }

/-! ## The invariant -/

/-- What has happened so far amounts to the calls of the log one behind the other, and to
the beginning of one more when the mutex is held. -/
structure Serial (b : Body σ κ π ο) (spec : τ → κ → ο → τ → Prop) (sim : σ → τ → Prop)
    (t₀ : τ) (s : State ι σ κ π ο)
    (base : σ) (t : τ) : Prop where
  trace : Trace spec t₀ s.calls s.outs t
  sim_base : sim base t
  free : s.holder = none → s.object = base
  held : ∀ i, s.holder = some i → ∃ k n p, s.thread i = .inside k n p ∧
    ∀ o s', b.Finishes p s.object o s' → b.Finishes (b.enter k) base o s'

structure Inv (b : Body σ κ π ο) (spec : τ → κ → ο → τ → Prop) (sim : σ → τ → Prop)
    (t₀ : τ) (s : State ι σ κ π ο) :
    Prop where
  serial : ∃ base t, Serial b spec sim t₀ s base t
  sole : ∀ i k n p, s.thread i = .inside k n p → s.holder = some i
  made : ∀ i k n, (s.thread i = .blocked k n ∨ ∃ p, s.thread i = .inside k n p) → n ≤ s.log.length
  inOrder : ∀ (j : Nat) (e : Entry ι κ ο), s.log[j]? = some e → e.since ≤ j
  told : ∀ i k o, s.thread i = .left k o → ∃ e ∈ s.log, e.thread = i ∧ e.call = k ∧ e.out = o

omit [DecidableEq ι] in
theorem start_inv {spec : τ → κ → ο → τ → Prop} {sim : σ → τ → Prop} {init : σ} {t₀ : τ}
    (h₀ : sim init t₀) {s : State ι σ κ π ο} (h : Start init s) : Inv b spec sim t₀ s := by
  subst h
  refine ⟨⟨init, t₀, .nil t₀, h₀, fun _ => rfl, nofun⟩, nofun, fun i k n hi => ?_,
    fun j e he => ?_, nofun⟩
  · rcases hi with hi | ⟨p, hi⟩ <;> cases hi
  · cases he

section
variable {spec : τ → κ → ο → τ → Prop} {sim : σ → τ →
    Prop} {t₀ : τ} {s s' : State ι σ κ π ο}

/-- A thread that stands where `i` was not put is another one, and stands there still. -/
theorem of_setThread {i j : ι} {p x : Thread κ π ο} (hx : p ≠ x) (h : (s.setThread i p).thread j = x) :
    j ≠ i ∧ s.thread j = x := by
  simp only [State.setThread] at h
  by_cases hij : j = i
  · subst hij
    rw [Function.update_self] at h
    exact absurd h hx
  · rw [Function.update_of_ne hij] at h
    exact ⟨hij, h⟩

theorem setThread_self (i : ι) (p : Thread κ π ο) : (s.setThread i p).thread i = p := Function.update_self ..

theorem setThread_other {i j : ι} (p : Thread κ π ο) (h : j ≠ i) : (s.setThread i p).thread j = s.thread j :=
  Function.update_of_ne h ..

/-- A thread that is not inside its call moves: the object is as it was. -/
theorem Serial.outside {base : σ} {t : τ} (h : Serial b spec sim t₀ s base t) {i : ι}
    (hi : ∀ k n p, s.thread i ≠ .inside k n p)
    (p : Thread κ π ο) : Serial b spec sim t₀ (s.setThread i p) base t := by
  refine ⟨h.trace, h.sim_base, h.free, fun j hj => ?_⟩
  obtain ⟨k, n, q, hq, hrest⟩ := h.held j hj
  have hji : j ≠ i := by
    rintro rfl
    exact hi k n q hq
  exact ⟨k, n, q, by rw [setThread_other p hji, hq], hrest⟩

theorem Inv.outside (h : Inv b spec sim t₀ s) {i : ι} {p : Thread κ π ο}
    (hi : ∀ k n p, s.thread i ≠ .inside k n p) (hp : ∀ k n q, p ≠ .inside k n q)
    (hmade : ∀ k n, p = .blocked k n → n ≤ s.log.length) (hleft : ∀ k o, p ≠ .left k o) :
    Inv b spec sim t₀ (s.setThread i p) := by
  obtain ⟨base, t, hserial⟩ := h.serial
  refine ⟨⟨base, t, hserial.outside hi p⟩, fun j k n q hq => ?_, fun j k n hj => ?_, h.inOrder,
    fun j k o hj => ?_⟩
  · exact h.sole j k n q (of_setThread (hp k n q) hq).2
  · by_cases hji : j = i
    · subst hji
      rw [setThread_self] at hj
      rcases hj with hj | ⟨q, hj⟩
      · exact hmade k n hj
      · exact absurd hj (hp k n q)
    · rw [setThread_other p hji] at hj
      exact h.made j k n hj
  · exact h.told j k o (of_setThread (hleft k o) hj).2

theorem acquire_inv (h : Inv b spec sim t₀ s) {i : ι} {k : κ} {n : Nat} (hi : s.thread i = .blocked k n)
    (hfree : s.holder = none) :
    Inv b spec sim t₀ { s.setThread i (.inside k n (b.enter k)) with holder := some i } := by
  obtain ⟨base, t, hserial⟩ := h.serial
  refine ⟨⟨base, t, hserial.trace, hserial.sim_base, nofun, fun j hj => ?_⟩, fun j k' n' q hq => ?_,
    fun j k' n' hj => ?_, h.inOrder, fun j k' o hj => ?_⟩
  · obtain rfl := Option.some.inj hj
    refine ⟨k, n, b.enter k, setThread_self i _, fun o s' hfin => ?_⟩
    rw [← hserial.free hfree]
    exact hfin
  · by_cases hji : j = i
    · rw [hji]
    · rw [show State.thread _ j = s.thread j from setThread_other _ hji] at hq
      have := h.sole j k' n' q hq
      rw [hfree] at this
      cases this
  · by_cases hji : j = i
    · subst hji
      have hn : n' = n := by
        rw [show State.thread _ j = _ from setThread_self j _] at hj
        rcases hj with hj | ⟨q, hj⟩ <;> cases hj
        rfl
      rw [hn]
      exact h.made j k n (.inl hi)
    · rw [show State.thread _ j = s.thread j from setThread_other _ hji] at hj
      exact h.made j k' n' hj
  · exact h.told j k' o (of_setThread (by simp) hj).2

theorem micro_inv (h : Inv b spec sim t₀ s) {i : ι} {k : κ} {n : Nat} {p p' : π} {object : σ}
    (hi : s.thread i = .inside k n p) (hm : b.micro p s.object = (.inl p', object)) :
    Inv b spec sim t₀ { s.setThread i (.inside k n p') with object := object } := by
  obtain ⟨base, t, hserial⟩ := h.serial
  have hholder := h.sole i k n p hi
  refine ⟨⟨base, t, hserial.trace, hserial.sim_base, fun hfree => ?_, fun j hj => ?_⟩, fun j k' n' q hq => ?_,
    fun j k' n' hj => ?_, h.inOrder, fun j k' o hj => ?_⟩
  · exact absurd (hholder.symm.trans hfree) (by simp)
  · obtain rfl := Option.some.inj (hholder.symm.trans hj)
    obtain ⟨k₁, n₁, p₁, hp₁, hrest⟩ := hserial.held i hholder
    cases hi.symm.trans hp₁
    exact ⟨k, n, p', setThread_self i _, fun o s' hfin => hrest o s' (.next hm hfin)⟩
  · by_cases hji : j = i
    · rw [hji]
      exact hholder
    · rw [show State.thread _ j = s.thread j from setThread_other _ hji] at hq
      exact h.sole j k' n' q hq
  · by_cases hji : j = i
    · subst hji
      have hn : n' = n := by
        rw [show State.thread _ j = _ from setThread_self j _] at hj
        rcases hj with hj | ⟨q, hj⟩ <;> cases hj
        rfl
      rw [hn]
      exact h.made j k n (.inr ⟨p, hi⟩)
    · rw [show State.thread _ j = s.thread j from setThread_other _ hji] at hj
      exact h.made j k' n' hj
  · exact h.told j k' o (of_setThread (by simp) hj).2

theorem release_inv
    (hspec : ∀ s t k o s', sim s t → b.Finishes (b.enter k) s o s' → ∃ t', spec t k o t' ∧ sim s' t')
    (h : Inv b spec sim t₀ s) {i : ι} {k : κ} {n : Nat} {p : π} {o : ο} {object : σ}
    (hi : s.thread i = .inside k n p) (hm : b.micro p s.object = (.inr o, object)) :
    Inv b spec sim t₀ { s.setThread i (.left k o) with
      object := object, holder := none, log := s.log ++ [⟨i, k, o, n⟩] } := by
  obtain ⟨base, t, hserial⟩ := h.serial
  have hholder := h.sole i k n p hi
  obtain ⟨k₁, n₁, p₁, hp₁, hrest⟩ := hserial.held i hholder
  cases hi.symm.trans hp₁
  obtain ⟨t', hs', hsim'⟩ := hspec base t k o object hserial.sim_base (hrest o object (.ret hm))
  have hnotin (j : ι) (k' : κ) (n' : Nat) (q : π) (hji : j ≠ i) : s.thread j ≠ .inside k' n' q := by
    intro hq
    have := h.sole j k' n' q hq
    rw [hholder] at this
    exact hji (Option.some.inj this).symm
  refine ⟨⟨object, t', ?_, hsim', fun _ => rfl, nofun⟩, fun j k' n' q hq => ?_, fun j k' n' hj => ?_,
    fun j e he => ?_, fun j k' o' hj => ?_⟩
  · have hsnoc := hserial.trace.snoc hs'
    simpa only [State.calls, State.outs, List.map_append, List.map_cons, List.map_nil] using hsnoc
  · obtain ⟨hji, hold⟩ := of_setThread (by simp) hq
    exact absurd hold (hnotin j k' n' q hji)
  · have hle : n' ≤ s.log.length := by
      refine h.made j k' n' ?_
      rcases hj with hj | ⟨q, hj⟩
      · exact .inl (of_setThread (by simp) hj).2
      · exact .inr ⟨q, (of_setThread (by simp) hj).2⟩
    rw [List.length_append]
    omega
  · rcases Nat.lt_or_ge j s.log.length with hlt | hge
    · rw [List.getElem?_append_left hlt] at he
      exact h.inOrder j e he
    · rw [List.getElem?_append_right hge] at he
      obtain ⟨hlt, rfl⟩ := List.getElem?_eq_some_iff.1 he
      rw [List.length_singleton] at hlt
      simp only [List.getElem_singleton]
      exact Nat.le_trans (h.made i k n (.inr ⟨p, hi⟩)) hge
  · by_cases hji : j = i
    · subst hji
      have heq := (setThread_self (s := s) j (.left k o)).symm.trans hj
      cases heq
      exact ⟨_, List.mem_append_right _ (List.mem_singleton_self _), rfl, rfl, rfl⟩
    · rw [show State.thread _ j = s.thread j from setThread_other _ hji] at hj
      obtain ⟨e, he, htold⟩ := h.told j k' o' hj
      exact ⟨e, List.mem_append_left _ he, htold⟩

theorem step_inv
    (hspec : ∀ s t k o s', sim s t → b.Finishes (b.enter k) s o s' → ∃ t', spec t k o t' ∧ sim s' t')
    (h : Inv b spec sim t₀ s) (hs : Step b s s') : Inv b spec sim t₀ s' := by
  cases hs with
  | call i k hi =>
    refine h.outside (by simp [hi]) (by simp) (fun k' n' he => ?_) (by simp)
    cases he
    exact Nat.le_refl _
  | acquire hi hfree => exact acquire_inv h hi hfree
  | micro hi hm => exact micro_inv h hi hm
  | release hi hm => exact release_inv hspec h hi hm
  | ret hi => exact h.outside (by simp [hi]) (by simp) (by simp) (by simp)

end

/-- If every call, left alone, does what `spec` says, then in every interleaving the calls
answer what they answer one behind the other, in the order in which they released
the mutex; a call stands there behind all that were over when it was made; and
while nobody holds the mutex the object is where these calls lead. -/
theorem linearizable (spec : τ → κ → ο → τ → Prop) (sim : σ → τ → Prop) {init : σ} (t₀ : τ)
    (h₀ : sim init t₀)
    (hspec : ∀ s t k o s', sim s t → b.Finishes (b.enter k) s o s' → ∃ t', spec t k o t' ∧ sim s' t')
    {s : State ι σ κ π ο} (h : Reachable (Start init) (Step b) s) : Inv b spec sim t₀ s :=
  h.inv (fun _ hs => start_inv h₀ hs) fun _ _ _ hi hs => step_inv hspec hi hs

end NebulaToolkit.Lib.Mutex
