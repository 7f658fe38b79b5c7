import Mathlib.Data.List.DropRight
/-!
# Lines and padding

Text as a list of characters of any type: cutting it into lines, and stripping
characters off both ends.
-/

namespace NebulaToolkit.Lib

variable {α : Type}

/-! ## Stripping -/

/-- `xs` without the characters at its ends that satisfy `p`. -/
def strip (p : α → Bool) (xs : List α) : List α := (xs.dropWhile p).rdropWhile p

/-- Neither the first nor the last character satisfies `p`. -/
def Stripped (p : α → Bool) (xs : List α) : Prop := (∀ c ∈ xs.head?, ¬ p c) ∧ ∀ c ∈ xs.getLast?, ¬ p c

variable {p : α → Bool} {xs ys : List α} {c : α}

@[simp] theorem strip_nil : strip p [] = [] := by simp [strip]

theorem strip_append_left (h : ∀ c ∈ ys, p c) : strip p (ys ++ xs) = strip p xs := by
  unfold strip
  rw [List.dropWhile_append_of_pos h]

theorem rdropWhile_append_right (h : ∀ c ∈ ys, p c) : (xs ++ ys).rdropWhile p = xs.rdropWhile p := by
  unfold List.rdropWhile
  rw [List.reverse_append, List.dropWhile_append_of_pos fun c hc => h c (List.mem_reverse.1 hc)]

theorem strip_append_right (h : ∀ c ∈ ys, p c) : strip p (xs ++ ys) = strip p xs := by
  unfold strip
  rw [List.dropWhile_append]
  split
  · rename_i he
    rw [List.isEmpty_iff.1 he, List.rdropWhile_nil, List.rdropWhile_eq_nil_iff]
    exact fun c hc => h c ((List.dropWhile_suffix p).mem hc)
  · exact rdropWhile_append_right h

theorem strip_of_all (h : ∀ c ∈ xs, p c) : strip p xs = [] := by
  have hall : strip p (xs ++ []) = strip p [] := strip_append_left h
  rwa [List.append_nil, strip_nil] at hall

/-- Stripping on the right stops at a character that stays. -/
theorem rdropWhile_append_cons (hc : ¬ p c) : (xs ++ c :: ys).rdropWhile p = xs ++ c :: ys.rdropWhile p := by
  induction ys using List.reverseRecOn with
  | nil => rw [List.rdropWhile_nil]; exact List.rdropWhile_concat_neg p xs c hc
  | append_singleton ys d ih =>
    rw [← List.cons_append, ← List.append_assoc, List.rdropWhile_concat, List.rdropWhile_concat]
    split
    · exact ih
    · simp

theorem strip_cons (hc : ¬ p c) : strip p (c :: xs) = c :: xs.rdropWhile p := by
  unfold strip
  rw [List.dropWhile_cons_of_neg hc, ← List.nil_append (c :: xs), rdropWhile_append_cons hc, List.nil_append]

/-- What is stripped stops at both ends where a character stays. -/
theorem strip_append_cons (h : ∀ d ∈ xs.head?, ¬ p d) (hc : ¬ p c) :
    strip p (xs ++ c :: ys) = xs ++ c :: ys.rdropWhile p := by
  cases xs with
  | nil => exact strip_cons hc
  | cons d xs => rw [List.cons_append, strip_cons (h d rfl), rdropWhile_append_cons hc, List.cons_append]

theorem Stripped.strip_eq (h : Stripped p xs) : strip p xs = xs := by
  induction xs using List.reverseRecOn with
  | nil => exact strip_nil
  | append_singleton xs c ih =>
    have hc : ¬ p c := h.2 c List.getLast?_concat
    rw [strip_append_cons (fun d hd => h.1 d ?_) hc, List.rdropWhile_nil]
    cases xs with
    | nil => cases hd
    | cons d' xs => exact hd

theorem strip_rdropWhile : strip p (xs.rdropWhile p) = strip p xs := by
  conv_rhs => rw [← List.rdropWhile_append_rtakeWhile (p := p) (l := xs)]
  exact (strip_append_right fun c hc => List.mem_rtakeWhile_imp hc).symm

/-- Cutting at a character and stripping, when only characters before the cut are stripped. -/
theorem strip_takeWhile {q : α → Bool} (hq : ∀ c, p c → q c) :
    strip p ((strip p xs).takeWhile q) = strip p (xs.takeWhile q) := by
  have hleft : strip p ((xs.dropWhile p).takeWhile q) = strip p (xs.takeWhile q) := by
    conv_rhs => rw [← List.takeWhile_append_dropWhile (p := p) (l := xs)]
    rw [List.takeWhile_append_of_pos fun c hc => hq c (List.mem_takeWhile_imp hc),
      strip_append_left fun c hc => List.mem_takeWhile_imp hc]
  rw [← hleft]
  unfold strip
  generalize xs.dropWhile p = ys
  have hys : ys.rdropWhile p ++ ys.rtakeWhile p = ys := List.rdropWhile_append_rtakeWhile
  have hblank : ∀ c ∈ ys.rtakeWhile p, p c := fun c hc => List.mem_rtakeWhile_imp hc
  conv_rhs => rw [← hys]
  rw [List.takeWhile_append]
  split
  · rename_i hlen
    rw [(List.takeWhile_prefix q).eq_of_length hlen,
      List.takeWhile_eq_self_iff.2 fun c hc => hq c (hblank c hc)]
    exact (strip_append_right hblank).symm
  · rfl

/-! ## Lines -/

/-- What a line reader returns until the end of the text; the text may or may not end with a newline. -/
def lines [DecidableEq α] (nl : α) : List α → List (List α)
  | [] => []
  | c :: xs =>
    if c = nl then [] :: lines nl xs
    else
      match lines nl xs with
      | [] => [[c]]
      | l :: ls => (c :: l) :: ls

/-- The lines, each with a newline behind it. -/
def unlines (nl : α) (ls : List (List α)) : List α := ls.flatMap fun l => l ++ [nl]

section
variable [DecidableEq α] {nl : α}

theorem lines_line {l : List α} (h : nl ∉ l) : lines nl (l ++ nl :: xs) = l :: lines nl xs := by
  induction l with
  | nil => simp [lines]
  | cons c l ih =>
    obtain ⟨hc, hl⟩ : ¬ nl = c ∧ nl ∉ l := by simpa using h
    rw [List.cons_append, lines, if_neg (Ne.symm hc), ih hl]

theorem lines_unlines {ls : List (List α)} (h : ∀ l ∈ ls, nl ∉ l) : lines nl (unlines nl ls) = ls := by
  induction ls with
  | nil => rfl
  | cons l ls ih =>
    have hcons : unlines nl (l :: ls) = l ++ nl :: unlines nl ls := by simp [unlines]
    rw [hcons, lines_line (h l (by simp)), ih fun l' hl' => h l' (by simp [hl'])]

/-- A newline at the end is no line of its own, but behind another newline it is. -/
theorem lines_concat (nl : α) (xs : List α) :
    lines nl (xs ++ [nl]) = lines nl xs ∨ lines nl (xs ++ [nl]) = lines nl xs ++ [[]] := by
  induction xs with
  | nil => exact .inr (by simp [lines])
  | cons c xs ih =>
    rw [List.cons_append, lines, lines]
    split
    · exact ih.imp (congrArg _) (congrArg _)
    · rcases ih with ih | ih
      · exact .inl (by rw [ih])
      · rw [ih]
        cases lines nl xs with
        | nil => exact .inl rfl
        | cons l ls => exact .inr rfl

end

end NebulaToolkit.Lib
