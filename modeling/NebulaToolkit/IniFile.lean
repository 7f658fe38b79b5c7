import NebulaToolkit.IniReader
/-!
# Looking up what was written

An INI file as a list of sections, the texts that render it, and what a lookup
in such a text returns.
-/

namespace NebulaToolkit

open Lib

namespace IniReader

/-- Spaces and tabs only. -/
def Blank (s : List Char) : Prop := ∀ c ∈ s, isBlank c

/-- One line `key = value ; comment`. -/
structure Binding where
  key : List Char
  value : List Char
  comment : Option (List Char)
  key_ne : key ≠ []
  key_eq : '=' ∉ key
  key_nl : '\n' ∉ key
  key_head : key.head? ≠ some '['
  key_stripped : Stripped isBlank key
  value_comment : ';' ∉ value
  value_nl : '\n' ∉ value
  value_stripped : Stripped isBlank value
  comment_nl : ∀ c ∈ comment, '\n' ∉ c

structure Section where
  name : List Char
  bindings : List Binding
  name_nl : '\n' ∉ name

/-! ## Rendering -/

/-- A line between the others. -/
inductive Filler : List Char → Prop
  | blank {pad} : Blank pad → Filler pad
  | comment {pad text} : Blank pad → '\n' ∉ text → Filler (pad ++ ';' :: text)

/-- A line that opens the section. -/
inductive Header (name : List Char) : List Char → Prop
  | mk {p q} : Blank p → Blank q → Header name (p ++ ('[' :: name ++ [']']) ++ q)

/-- What may stand behind the value. -/
def Binding.tail (b : Binding) : List Char :=
  match b.comment with
  | none => []
  | some text => ';' :: text

/-- A line that renders the binding. -/
inductive Binding.Line (b : Binding) : List Char → Prop
  | mk {p q r s t} : Blank p → Blank q → Blank r → Blank s → Blank t →
    Line b (p ++ (b.key ++ q ++ '=' :: (r ++ b.value ++ s ++ b.tail ++ t)))

/-- The lines behind a header. -/
inductive Body : List Binding → List (List Char) → Prop
  | nil : Body [] []
  | filler {bs l ls} : Filler l → Body bs ls → Body bs (l :: ls)
  | binding {b bs l ls} : b.Line l → Body bs ls → Body (b :: bs) (l :: ls)

/-- The lines of a file. -/
inductive Lines : List Section → List (List Char) → Prop
  | nil : Lines [] []
  | filler {ss l ls} : Filler l → Lines ss ls → Lines ss (l :: ls)
  | sect {s ss l body ls} : Header s.name l → Body s.bindings body → Lines ss ls →
      Lines (s :: ss) (l :: body ++ ls)

/-- A text of the sections; the last newline may be missing. -/
def Renders (ss : List Section) (content : List Char) : Prop :=
  ∃ ls, Lines ss ls ∧ (content = unlines '\n' ls ∨ content ++ ['\n'] = unlines '\n' ls)

/-- The first binding of the key, over all sections of the name. -/
def firstBinding (ss : List Section) (sectionName key : List Char) : Option Binding :=
  ((ss.filter fun s => s.name = sectionName).flatMap Section.bindings).find? fun b => b.key = key

/-! ## No line holds a newline -/

theorem Blank.nl {s : List Char} (h : Blank s) : '\n' ∉ s := fun hm => absurd (h _ hm) (by decide)

theorem Filler.nl {l : List Char} (h : Filler l) : '\n' ∉ l := by
  cases h with
  | blank hp => exact hp.nl
  | comment hp ht => simp [hp.nl, ht]

theorem Header.nl {name l : List Char} (h : Header name l) (hn : '\n' ∉ name) : '\n' ∉ l := by
  cases h with
  | mk hp hq => simp [hp.nl, hq.nl, hn]

theorem Binding.tail_nl (b : Binding) : '\n' ∉ b.tail := by
  unfold Binding.tail
  cases hc : b.comment with
  | none => simp
  | some text => simpa using b.comment_nl text hc

theorem Binding.Line.nl {b : Binding} {l : List Char} (h : b.Line l) : '\n' ∉ l := by
  cases h with
  | mk hp hq hr hs ht => simp [hp.nl, hq.nl, hr.nl, hs.nl, ht.nl, b.key_nl, b.value_nl, b.tail_nl]

theorem Body.nl {bs : List Binding} {ls : List (List Char)} (h : Body bs ls) : ∀ l ∈ ls, '\n' ∉ l := by
  induction h with
  | nil => simp
  | filler hf _ ih => exact List.forall_mem_cons.2 ⟨hf.nl, ih⟩
  | binding hb _ ih => exact List.forall_mem_cons.2 ⟨hb.nl, ih⟩

theorem Lines.nl {ss : List Section} {ls : List (List Char)} (h : Lines ss ls) : ∀ l ∈ ls, '\n' ∉ l := by
  induction h with
  | nil => simp
  | filler hf _ ih => exact List.forall_mem_cons.2 ⟨hf.nl, ih⟩
  | sect hh hb _ ih =>
    rename_i s ss l body ls hls
    refine List.forall_mem_append.2 ⟨List.forall_mem_cons.2 ⟨hh.nl s.name_nl, hb.nl⟩, ih⟩

/-! ## What the reader makes of each line -/

theorem trim_pad {p s : List Char} (hp : Blank p) : trim (p ++ s) = trim s := by
  rw [trim_eq, trim_eq, strip_append_left hp]

theorem trim_append_pad {s q : List Char} (hq : Blank q) : trim (s ++ q) = trim s := by
  rw [trim_eq, trim_eq, strip_append_right hq]

theorem trim_stripped {s : List Char} (hs : Stripped isBlank s) : trim s = s := by
  rw [trim_eq, hs.strip_eq]

theorem trim_header {name l : List Char} (h : Header name l) : trim l = '[' :: name ++ [']'] := by
  cases h with
  | mk hp hq =>
    rw [trim_append_pad hq, trim_pad hp]
    refine trim_stripped ⟨fun c hc => ?_, fun c hc => ?_⟩
    · obtain rfl : '[' = c := by simpa using hc
      decide
    · rw [List.getLast?_concat] at hc
      obtain rfl : ']' = c := by simpa using hc
      decide

theorem isSectionHeader_header {name : List Char} : isSectionHeader ('[' :: name ++ [']']) = true := by
  unfold isSectionHeader
  rw [List.getLast?_concat]
  simp

theorem extractSectionName_header {name : List Char} : extractSectionName ('[' :: name ++ [']']) = name := by
  simp [extractSectionName, substr]

/-- A header switches to its section. -/
theorem scan_header {name l sectionName key : List Char} {inSection : Bool} {ls : List (List Char)}
    (h : Header name l) :
    scan sectionName key inSection (l :: ls) = scan sectionName key (name = sectionName) ls := by
  rw [scan, trim_header h, if_neg (by simp), if_pos isSectionHeader_header, extractSectionName_header]

theorem trim_comment {pad text : List Char} (hp : Blank pad) :
    trim (pad ++ ';' :: text) = ';' :: text.rdropWhile isBlank := by
  rw [trim_pad hp, trim_eq]
  exact strip_cons (by decide)

/-- A line between the others is passed over. -/
theorem scan_filler {l sectionName key : List Char} {inSection : Bool} {ls : List (List Char)} (h : Filler l)
    (hk : key ≠ []) (hs : key.head? ≠ some ';') :
    scan sectionName key inSection (l :: ls) = scan sectionName key inSection ls := by
  rw [scan]
  cases h with
  | blank hp => rw [if_pos (by rw [trim_eq, strip_of_all hp])]
  | @comment pad text hp _ =>
    rw [trim_comment hp, if_neg (by simp), if_neg (by simp [isSectionHeader]), if_neg]
    rintro ⟨-, h⟩
    rcases splitKeyValue_comment (text.rdropWhile isBlank) with he | he
    · exact hk (h.symm.trans he)
    · exact hs (by rw [← h]; exact he)

theorem Binding.head_key (b : Binding) : ∃ c k, b.key = c :: k ∧ ¬ isBlank c ∧ c ≠ '[' := by
  cases hk : b.key with
  | nil => exact absurd hk b.key_ne
  | cons c k =>
    refine ⟨c, k, rfl, b.key_stripped.1 c (by rw [hk]; rfl), fun hc => b.key_head ?_⟩
    rw [hk, hc]
    rfl

/-- Trimmed, a binding still starts with its key and has its `=`. -/
theorem Binding.trim_line (b : Binding) {p q rest : List Char} (hp : Blank p) :
    trim (p ++ (b.key ++ q ++ '=' :: rest)) = b.key ++ q ++ '=' :: rest.rdropWhile isBlank := by
  rw [trim_pad hp, trim_eq]
  refine strip_append_cons (fun d hd => ?_) (by decide)
  obtain ⟨c, k, hk, hc, -⟩ := b.head_key
  rw [hk] at hd
  obtain rfl : c = d := by simpa using hd
  exact hc

/-- The value, without its comment. -/
theorem Binding.trim_value (b : Binding) {r s t : List Char} (hr : Blank r) (hs : Blank s) (ht : Blank t) :
    trim (splitComment (r ++ b.value ++ s ++ b.tail ++ t)) = b.value := by
  have hsemi : ∀ {u : List Char}, Blank u → ∀ c ∈ u, c ≠ ';' := by
    rintro u hu c hc rfl
    exact absurd (hu _ hc) (by decide)
  have hfront : ∀ c ∈ r ++ b.value ++ s, c ≠ ';' := by
    intro c hc
    rcases List.mem_append.1 hc with hc | hc
    · rcases List.mem_append.1 hc with hc | hc
      · exact hsemi hr c hc
      · rintro rfl
        exact b.value_comment hc
    · exact hsemi hs c hc
  have hvalue : trim (r ++ b.value ++ s) = b.value := by
    rw [trim_append_pad hs, trim_pad hr, trim_stripped b.value_stripped]
  rw [splitComment_eq, List.append_assoc, List.takeWhile_append_of_pos fun c hc => by simpa using hfront c hc]
  unfold Binding.tail
  cases b.comment with
  | none =>
    rw [List.nil_append, List.takeWhile_eq_self_iff.2 fun c hc => by simpa using hsemi ht c hc,
      trim_append_pad ht, hvalue]
  | some text => rw [List.cons_append, List.takeWhile_cons_of_neg (by simp), List.append_nil, hvalue]

/-- A binding is the value when it is of the key and in the section, and passed over otherwise. -/
theorem scan_binding {b : Binding} {l sectionName key : List Char} {inSection : Bool}
    {ls : List (List Char)} (h : b.Line l) :
    ∃ raw, trim (splitComment raw) = b.value ∧
      scan sectionName key inSection (l :: ls) = if inSection ∧ b.key = key then raw
      else scan sectionName key inSection ls := by
  obtain ⟨hp, hq, hr, hs, ht⟩ := h
  rename_i p q r s t
  refine ⟨trim ((r ++ b.value ++ s ++ b.tail ++ t).rdropWhile isBlank), ?_, ?_⟩
  · have hright : ∀ xs : List Char, trim (xs.rdropWhile isBlank) = trim xs := by
      intro xs
      rw [trim_eq, trim_eq, strip_rdropWhile]
    rw [hright, trim_splitComment_trim, b.trim_value hr hs ht]
  · have hkey : '=' ∉ b.key ++ q := by
      rw [List.mem_append]
      rintro (hm | hm)
      · exact b.key_eq hm
      · exact absurd (hq _ hm) (by decide)
    have hhead : ∀ xs, isSectionHeader (b.key ++ xs) = false := by
      intro xs
      obtain ⟨c, k, hk, -, hc⟩ := b.head_key
      simp [isSectionHeader, hk, hc]
    rw [scan, b.trim_line hp, if_neg (by simp), if_neg (by rw [List.append_assoc, hhead]; decide),
      splitKeyValue_eq hkey, trim_append_pad hq, trim_stripped b.key_stripped]

/-! ## The whole file -/

theorem scan_nil_line {sectionName key : List Char} {inSection : Bool} (ls : List (List Char)) :
    scan sectionName key inSection (ls ++ [[]]) = scan sectionName key inSection ls := by
  induction ls generalizing inSection with
  | nil => rfl
  | cons l ls ih => rw [List.cons_append, scan, scan, ih, ih]

variable {sectionName key : List Char}

/-- The lines of another section are passed over. -/
theorem Body.scan_out {bs : List Binding} {body ls : List (List Char)} (h : Body bs body) (hk : key ≠ [])
    (hs : key.head? ≠ some ';') :
    scan sectionName key false (body ++ ls) = scan sectionName key false ls := by
  induction h with
  | nil => rfl
  | filler hf _ ih => exact (scan_filler hf hk hs).trans ih
  | binding hb _ ih =>
    obtain ⟨raw, -, hscan⟩ := scan_binding hb
    rw [List.cons_append, hscan, if_neg (by simp), ih]

/-- In the section the first binding of the key is the one. -/
theorem Body.scan_in {bs : List Binding} {body ls : List (List Char)} (h : Body bs body) (hk : key ≠ [])
    (hs : key.head? ≠ some ';') :
    trim (splitComment (scan sectionName key true (body ++ ls))) =
      ((bs.find? fun b => b.key = key).map Binding.value).getD
        (trim (splitComment (scan sectionName key true ls))) := by
  induction h with
  | nil => rfl
  | filler hf _ ih => rw [List.cons_append, scan_filler hf hk hs, ih]
  | @binding b bs l body hb _ ih =>
    obtain ⟨raw, hraw, hscan⟩ := scan_binding hb
    rw [List.cons_append, hscan]
    by_cases hkey : b.key = key
    · rw [if_pos ⟨rfl, hkey⟩, List.find?_cons_of_pos (by simpa using hkey), hraw]
      rfl
    · rw [if_neg fun h => hkey h.2, List.find?_cons_of_neg (by simpa using hkey), ih]

theorem Lines.scan_value {ss : List Section} {ls : List (List Char)} (h : Lines ss ls) (inSection : Bool)
    (hk : key ≠ []) (hs : key.head? ≠ some ';') :
    trim (splitComment (scan sectionName key inSection ls)) =
    ((firstBinding ss sectionName key).map Binding.value).getD [] := by
  induction h generalizing inSection with
  | nil => rfl
  | filler hf _ ih => rw [scan_filler hf hk hs, ih]
  | @sect s ss l body ls hh hb _ ih =>
    rw [List.cons_append, scan_header hh]
    unfold firstBinding at ih ⊢
    by_cases hname : s.name = sectionName
    · rw [decide_eq_true hname, hb.scan_in hk hs, List.filter_cons_of_pos (by simpa using hname),
        List.flatMap_cons, List.find?_append, ih]
      cases s.bindings.find? fun b => b.key = key <;> rfl
    · rw [decide_eq_false hname, hb.scan_out hk hs, List.filter_cons_of_neg (by simpa using hname), ih]

/-- A lookup in a rendered file finds the value of the first binding of the key, or nothing. -/
theorem getProcessedValue_renders {ss : List Section} {content : List Char} (h : Renders ss content)
    (hk : key ≠ []) (hs : key.head? ≠ some ';') :
    getProcessedValue (some content) sectionName key =
    ((firstBinding ss sectionName key).map Binding.value).getD [] := by
  obtain ⟨ls, hls, hc⟩ := h
  have hlines : lines '\n' content = ls ∨ lines '\n' content ++ [[]] = ls := by
    rcases hc with rfl | hc
    · exact .inl (lines_unlines hls.nl)
    · have hall := lines_unlines hls.nl
      rw [← hc] at hall
      rcases lines_concat '\n' content with hcut | hcut
      · exact .inl (hcut.symm.trans hall)
      · exact .inr (hcut.symm.trans hall)
  unfold getProcessedValue getRawValue
  rcases hlines with rfl | rfl
  · exact hls.scan_value false hk hs
  · rw [← hls.scan_value false hk hs, scan_nil_line]

/-- Lookup undoes rendering. -/
theorem lookup_undoes_rendering {ss : List Section} {content outValue : List Char}
    (h : Renders ss content) (hk : key ≠ []) (hs : key.head? ≠ some ';') :
    (∀ v, getValue (some content) sectionName key outValue = (true, v) ↔
      v ≠ [] ∧ ∃ b, firstBinding ss sectionName key = some b ∧ b.value = v) ∧
    ((¬ ∃ b, firstBinding ss sectionName key = some b ∧ b.value ≠ []) →
      getValue (some content) sectionName key outValue = (false, outValue)) := by
  have hvalue : getProcessedValue (some content) sectionName key = _ := getProcessedValue_renders h hk hs
  unfold getValue
  rw [hvalue]
  cases hb : firstBinding ss sectionName key with
  | none => simp
  | some b =>
    by_cases hv : b.value = []
    · simp [hv]
    · simp [hv]

/-- `k = v ; c` -/
def sample : Binding where
  key := ['k']
  value := ['v']
  comment := some [' ', 'c']
  key_ne := by decide
  key_eq := by decide
  key_nl := by decide
  key_head := by decide
  key_stripped := ⟨by simp [isBlank], by simp [isBlank]⟩
  value_comment := by decide
  value_nl := by decide
  value_stripped := ⟨by simp [isBlank], by simp [isBlank]⟩
  comment_nl := by simp

/-- `[s]` with the one binding. -/
def sampleSection : Section := ⟨['s'], [sample], by decide⟩

theorem sample_renders : Renders [sampleSection] "[s]\n\tk = v ; c".toList := by
  have hnil : Blank [] := fun c hc => by cases hc
  have hblank : Blank [' '] := by simp [Blank, isBlank]
  have htab : Blank ['\t'] := by simp [Blank, isBlank]
  refine ⟨_, .sect (.mk hnil hnil) (.binding (b := sample) (.mk htab hblank hblank hblank hnil) .nil)
    .nil, .inr ?_⟩
  decide

theorem lookup_undoes_rendering_sample :
    ('k' :: []) ≠ [] ∧ ['k'].head? ≠ some ';' ∧
      getValue (some "[s]\n\tk = v ; c".toList) ['s'] ['k'] [] = (true, ['v']) :=
  ⟨by decide, by decide, ((lookup_undoes_rendering sample_renders (by decide) (by decide)).1 ['v']).2
    ⟨by decide, sample, rfl, rfl⟩⟩

end IniReader

end NebulaToolkit
