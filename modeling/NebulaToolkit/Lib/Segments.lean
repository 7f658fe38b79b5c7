import Mathlib.Data.List.Pairwise
import Mathlib.Data.Prod.Lex
/-!
# A log in segments

Items are appended to segments that have keys, and the segments are read in the
order of their keys. `concat_appendTo` says where an item then stands: behind
everything with a smaller key or its own, and before the rest.
-/

namespace NebulaToolkit.Lib

variable {κ β : Type} [LinearOrder κ]

/-- Appends `xs` to the segment `k`, which is made where there is none. -/
def appendTo (k : κ) (xs : List β) : List (κ × List β) → List (κ × List β)
  | [] => [(k, xs)]
  | (k', ys) :: rest =>
    if k < k' then (k, xs) :: (k', ys) :: rest
    else if k = k' then (k', ys ++ xs) :: rest
    else (k', ys) :: appendTo k xs rest

/-- The segments stand in the order of their keys. -/
def Ascending (segments : List (κ × List β)) : Prop := segments.Pairwise fun a b => a.1 < b.1

/-- All items, segment by segment. -/
def concat (segments : List (κ × List β)) : List β := segments.flatMap Prod.snd

/-- The segments up to `k`, and those behind. -/
def upTo (k : κ) (segments : List (κ × List β)) : List (κ × List β) := segments.filter fun a => a.1 ≤ k

def behind (k : κ) (segments : List (κ × List β)) : List (κ × List β) := segments.filter fun a => k < a.1

variable {k : κ} {xs : List β} {segments : List (κ × List β)}

theorem mem_appendTo {a : κ × List β} (h : a ∈ appendTo k xs segments) :
    a ∈ segments ∨ a.1 = k ∧ (a.2 = xs ∨ ∃ ys, (k, ys) ∈ segments ∧ a.2 = ys ++ xs) := by
  induction segments with
  | nil =>
    rw [List.mem_singleton.1 h]
    exact .inr ⟨rfl, .inl rfl⟩
  | cons b rest ih =>
    obtain ⟨k', ys⟩ := b
    unfold appendTo at h
    split at h
    · rcases List.mem_cons.1 h with rfl | h
      · exact .inr ⟨rfl, .inl rfl⟩
      · exact .inl h
    split at h
    · rename_i heq
      subst heq
      rcases List.mem_cons.1 h with rfl | h
      · exact .inr ⟨rfl, .inr ⟨ys, List.mem_cons_self, rfl⟩⟩
      · exact .inl (List.mem_cons_of_mem _ h)
    · rcases List.mem_cons.1 h with rfl | h
      · exact .inl List.mem_cons_self
      · rcases ih h with h | ⟨hk, h | ⟨zs, hz, h⟩⟩
        · exact .inl (List.mem_cons_of_mem _ h)
        · exact .inr ⟨hk, .inl h⟩
        · exact .inr ⟨hk, .inr ⟨zs, List.mem_cons_of_mem _ hz, h⟩⟩

/-- There is a segment `k` afterwards. -/
theorem appendTo_has (k : κ) (xs : List β) (segments : List (κ × List β)) :
    ∃ ys, (k, ys) ∈ appendTo k xs segments := by
  induction segments with
  | nil => exact ⟨xs, List.mem_singleton_self _⟩
  | cons b rest ih =>
    obtain ⟨k', ys⟩ := b
    unfold appendTo
    split
    · exact ⟨xs, List.mem_cons_self⟩
    split
    · rename_i heq
      exact ⟨ys ++ xs, heq ▸ List.mem_cons_self⟩
    · obtain ⟨zs, hz⟩ := ih
      exact ⟨zs, List.mem_cons_of_mem _ hz⟩

theorem Ascending.appendTo (h : Ascending segments) : Ascending (appendTo k xs segments) := by
  induction segments with
  | nil => exact List.pairwise_singleton _ _
  | cons b rest ih =>
    obtain ⟨k', ys⟩ := b
    obtain ⟨hfirst, hrest⟩ := List.pairwise_cons.1 h
    unfold Lib.appendTo
    split
    · rename_i hlt
      refine List.pairwise_cons.2 ⟨fun a ha => ?_, h⟩
      rcases List.mem_cons.1 ha with rfl | ha
      · exact hlt
      · exact lt_trans hlt (hfirst a ha)
    split
    · exact List.pairwise_cons.2 ⟨hfirst, hrest⟩
    · rename_i hlt hne
      refine List.pairwise_cons.2 ⟨fun a ha => ?_, ih hrest⟩
      rcases mem_appendTo ha with ha | ⟨hk, -⟩
      · exact hfirst a ha
      · exact hk ▸ lt_of_le_of_ne (not_lt.1 hlt) (Ne.symm hne)

theorem upTo_eq_nil (h : ∀ a ∈ segments, k < a.1) : upTo k segments = [] :=
  List.filter_eq_nil_iff.2 fun a ha => by simpa using h a ha

theorem behind_eq_self (h : ∀ a ∈ segments, k < a.1) : behind k segments = segments :=
  List.filter_eq_self.2 fun a ha => by simpa using h a ha

theorem behind_eq_nil (h : ∀ a ∈ segments, a.1 ≤ k) : behind k segments = [] :=
  List.filter_eq_nil_iff.2 fun a ha => by simpa using h a ha

theorem concat_split (h : Ascending segments) (k : κ) :
    concat segments = concat (upTo k segments) ++ concat (behind k segments) := by
  induction segments with
  | nil => rfl
  | cons b rest ih =>
    obtain ⟨hfirst, hrest⟩ := List.pairwise_cons.1 h
    by_cases hb : b.1 ≤ k
    · have hup : upTo k (b :: rest) = b :: upTo k rest := List.filter_cons_of_pos (by simpa using hb)
      have hbehind : behind k (b :: rest) = behind k rest := List.filter_cons_of_neg (by simpa using hb)
      rw [hup, hbehind, concat, List.flatMap_cons, concat, List.flatMap_cons, List.append_assoc]
      exact congrArg _ (ih hrest)
    · -- The segments are all behind `k`.
      have hall : ∀ a ∈ b :: rest, k < a.1 := by
        intro a ha
        rcases List.mem_cons.1 ha with rfl | ha
        · exact not_le.1 hb
        · exact lt_trans (not_le.1 hb) (hfirst a ha)
      rw [upTo_eq_nil hall, behind_eq_self hall]
      rfl

/-- What is appended to `k` stands behind the segments up to `k` and before the others. -/
theorem concat_appendTo (h : Ascending segments) (k : κ) (xs : List β) :
    concat (appendTo k xs segments) = concat (upTo k segments) ++ xs ++ concat (behind k segments) := by
  induction segments with
  | nil => simp [appendTo, concat, upTo, behind]
  | cons b rest ih =>
    obtain ⟨hfirst, hrest⟩ := List.pairwise_cons.1 h
    obtain ⟨k', ys⟩ := b
    unfold appendTo
    split
    · rename_i hlt
      have hall : ∀ a ∈ (k', ys) :: rest, k < a.1 := by
        intro a ha
        rcases List.mem_cons.1 ha with rfl | ha
        · exact hlt
        · exact lt_trans hlt (hfirst a ha)
      rw [upTo_eq_nil hall, behind_eq_self hall]
      rfl
    rename_i hge
    have hup : upTo k ((k', ys) :: rest) = (k', ys) :: upTo k rest :=
      List.filter_cons_of_pos (by simpa using hge)
    have hbehind : behind k ((k', ys) :: rest) = behind k rest := List.filter_cons_of_neg (by simpa using hge)
    rw [hup, hbehind]
    split
    · rename_i heq
      subst heq
      rw [upTo_eq_nil hfirst, behind_eq_self hfirst]
      simp [concat]
    · have hrest' := ih hrest
      simp only [concat, List.flatMap_cons, List.append_assoc] at hrest' ⊢
      rw [hrest']

/-- Appending to the last segment is appending to the whole. -/
theorem concat_appendTo_last (h : Ascending segments) (hk : ∀ a ∈ segments, a.1 ≤ k) (xs : List β) :
    concat (appendTo k xs segments) = concat segments ++ xs := by
  have hsplit := concat_split h k
  have hnil : concat ([] : List (κ × List β)) = [] := rfl
  rw [behind_eq_nil hk, hnil, List.append_nil] at hsplit
  rw [concat_appendTo h, behind_eq_nil hk, hnil, List.append_nil, ← hsplit]

end NebulaToolkit.Lib
