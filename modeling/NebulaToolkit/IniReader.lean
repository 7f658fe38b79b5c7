import Mathlib.Algebra.Group.Nat.Defs
import NebulaToolkit.Lib.Text
/-!
# The INI reader

`IniReader`: every lookup reads the file line by line. A file that cannot be
opened is `none`.
-/

namespace NebulaToolkit

open Lib

namespace IniReader

/-- `s.substr(pos, n)` for `pos` in bounds. -/
def substr (s : List Char) (pos n : Nat) : List Char := (s.drop pos).take n

/-- One of the characters in `" \t"`. -/
def isBlank (c : Char) : Bool := c = ' ' ∨ c = '\t'

def findFirstNotOf (s : List Char) : Option Nat := s.findIdx? fun c => !isBlank c

def findLastNotOf (s : List Char) : Option Nat :=
  (s.reverse.findIdx? fun c => !isBlank c).map fun i => s.length - 1 - i

def trim (s : List Char) : List Char :=
  match findFirstNotOf s with
  | none => []
  | some start =>
    match findLastNotOf s with
    | none => []
    | some last => substr s start (last - start + 1)

def splitComment (s : List Char) : List Char :=
  match s.findIdx? (· = ';') with
  | none => s
  | some pos => substr s 0 pos

def splitKeyValue (line : List Char) : List Char × List Char :=
  match line.findIdx? (· = '=') with
  | none => ([], [])
  | some pos => (trim (substr line 0 pos), trim (line.drop (pos + 1)))

/-- The line is not empty. -/
def isSectionHeader (line : List Char) : Bool := line.head? = some '[' ∧ line.getLast? = some ']'

def extractSectionName (line : List Char) : List Char := substr line 1 (line.length - 2)

/-- The loop of `GetRawValue`, over the lines `std::getline` gives. -/
def scan (sectionName key : List Char) : Bool → List (List Char) → List Char
  | _, [] => []
  | inSection, line :: rest =>
    if trim line = [] then scan sectionName key inSection rest
    else if isSectionHeader (trim line) then
      scan sectionName key (extractSectionName (trim line) = sectionName) rest
    else if inSection ∧ (splitKeyValue (trim line)).1 = key then (splitKeyValue (trim line)).2
    else scan sectionName key inSection rest

def getRawValue (file : Option (List Char)) (sectionName key : List Char) : List Char :=
  match file with
  | none => []
  | some content => scan sectionName key false (lines '\n' content)

def getProcessedValue (file : Option (List Char)) (sectionName key : List Char) : List Char :=
  trim (splitComment (getRawValue file sectionName key))

/-- `GetValue` into a string: what it returns, and the string afterwards. -/
def getValue (file : Option (List Char)) (sectionName key outValue : List Char) : Bool × List Char :=
  let raw := getProcessedValue file sectionName key
  if raw = [] then (false, outValue) else (true, raw)

/-- `GetValue` into a `bool`. -/
def getBool (file : Option (List Char)) (sectionName key : List Char) (outValue : Bool) : Bool × Bool :=
  let raw := getProcessedValue file sectionName key
  if raw = [] then (false, outValue)
  else
    let raw := raw.map Char.toLower
    if raw = "true".toList ∨ raw = "1".toList then (true, true)
    else if raw = "false".toList ∨ raw = "0".toList then (true, false)
    else (false, outValue)

/-- `std::isspace` -/
def isSpace (c : Char) : Bool := c = ' ' ∨ 9 ≤ c.toNat ∧ c.toNat ≤ 13

def decimal (digits : List Char) : Nat := digits.foldl (fun n d => 10 * n + (d.toNat - '0'.toNat)) 0

/-- `std::stoul(s)`: white space, a sign, digits, and anything behind them. No digits
and a number of 64 bits or more are exceptions; a minus sign negates modulo `2 ^ 64`. -/
def stoul (s : List Char) : Option Nat :=
  let s := s.dropWhile isSpace
  let negative := s.head? = some '-'
  let s := if s.head? = some '-' ∨ s.head? = some '+' then s.tail else s
  let digits := s.takeWhile Char.isDigit
  if digits = [] ∨ 2 ^ 64 ≤ decimal digits then none
  else if negative then some ((2 ^ 64 - decimal digits) % 2 ^ 64)
  else some (decimal digits)

/-- `GetValue` into a `size_t`. -/
def getSize (file : Option (List Char)) (sectionName key : List Char) (outValue : Nat) : Bool × Nat :=
  let raw := getProcessedValue file sectionName key
  if raw = [] then (false, outValue)
  else
    match stoul raw with
    | some n => (true, n)
    | none => (false, outValue)

/-! ## The string functions -/

theorem rdropWhile_eq_take {α : Type} (p : α → Bool) (l : List α) :
    l.rdropWhile p = l.take (l.length - l.reverse.findIdx fun c => !p c) := by
  unfold List.rdropWhile
  rw [List.dropWhile_eq_drop_findIdx_not, List.drop_reverse, List.reverse_reverse]

/-- `Trim` strips the blanks off both ends. -/
theorem trim_eq (s : List Char) : trim s = strip isBlank s := by
  unfold trim findFirstNotOf
  cases hf : s.findIdx? fun c => !isBlank c with
  | none =>
    have hall : ∀ c ∈ s, isBlank c := by simpa using List.findIdx?_eq_none_iff.1 hf
    exact (strip_of_all hall).symm
  | some start =>
    obtain ⟨hlt, hfind⟩ := List.findIdx?_eq_some_iff_findIdx_eq.1 hf
    -- The last character that stays stands behind the first one or is it.
    have hmem : s[start] ∈ (s.drop start).reverse := by
      rw [List.mem_reverse, List.drop_eq_getElem_cons hlt]
      exact List.mem_cons_self
    have hstay : (!isBlank s[start]) = true := by
      obtain ⟨_, h, -⟩ := List.findIdx?_eq_some_iff_getElem.1 hf
      exact h
    have hk : (s.drop start).reverse.findIdx (fun c => !isBlank c) < (s.drop start).reverse.length :=
      List.findIdx_lt_length_of_exists ⟨_, hmem, hstay⟩
    have hrev : s.reverse = (s.drop start).reverse ++ (s.take start).reverse := by
      rw [← List.reverse_append, List.take_append_drop]
    have hlast :
        s.reverse.findIdx (fun c => !isBlank c) = (s.drop start).reverse.findIdx (fun c => !isBlank c) := by
      rw [hrev, List.findIdx_append, if_pos hk]
    have hsome : s.reverse.findIdx? (fun c => !isBlank c) =
        some ((s.drop start).reverse.findIdx fun c => !isBlank c) := by
      refine List.findIdx?_eq_some_iff_findIdx_eq.2 ⟨?_, hlast⟩
      rw [List.length_reverse, List.length_drop] at hk
      rw [List.length_reverse]; omega
    unfold findLastNotOf strip
    rw [hsome, List.dropWhile_eq_drop_findIdx_not, hfind, rdropWhile_eq_take]
    simp only [List.length_reverse, List.length_drop] at hk
    simp only [Option.map_some, substr, List.length_drop]
    congr 1
    omega

theorem splitComment_eq (s : List Char) : splitComment s = s.takeWhile (· ≠ ';') := by
  have hnot : (fun c : Char => !decide (c ≠ ';')) = fun c => decide (c = ';') := by
    funext c
    by_cases h : c = ';' <;> simp [h]
  unfold splitComment
  cases hf : s.findIdx? (· = ';') with
  | none =>
    have hall := List.findIdx?_eq_none_iff.1 hf
    exact (List.takeWhile_eq_self_iff.2 fun c hc => by simpa using hall c hc).symm
  | some pos =>
    obtain ⟨-, hfind⟩ := List.findIdx?_eq_some_iff_findIdx_eq.1 hf
    rw [List.takeWhile_eq_take_findIdx_not, hnot, hfind]
    rfl

/-- A key, the first `=` of the line and a value. -/
theorem splitKeyValue_eq {k v : List Char} (hk : '=' ∉ k) :
    splitKeyValue (k ++ '=' :: v) = (trim k, trim v) := by
  have hfind : (k ++ '=' :: v).findIdx? (· = '=') = some k.length := by
    rw [List.findIdx?_append,
      List.findIdx?_eq_none_iff.2 fun c hc => by simpa using fun h : c = '=' => hk (h ▸ hc)]
    simp [List.findIdx?_cons]
  have hdrop : (k ++ '=' :: v).drop (k.length + 1) = v := by
    rw [List.drop_append, List.drop_eq_nil_of_le (Nat.le_succ _)]
    simp
  unfold splitKeyValue substr
  rw [hfind]
  simp only [List.drop_zero, List.take_left, hdrop]

/-- What `GetValue` makes of a value: stripped of the comment, which may hide behind blanks. -/
theorem trim_splitComment_trim (s : List Char) : trim (splitComment (trim s)) = trim (splitComment s) := by
  rw [trim_eq, trim_eq, trim_eq, splitComment_eq, splitComment_eq]
  refine strip_takeWhile fun c hc => ?_
  simp only [isBlank, decide_eq_true_eq] at hc
  rcases hc with rfl | rfl <;> decide

/-- A line that starts with `;` has no key but one that starts with `;`. -/
theorem splitKeyValue_comment (s : List Char) :
    (splitKeyValue (';' :: s)).1 = [] ∨ (splitKeyValue (';' :: s)).1.head? = some ';' := by
  unfold splitKeyValue
  rw [List.findIdx?_cons, if_neg (by decide)]
  cases s.findIdx? (· = '=') with
  | none => exact .inl rfl
  | some pos =>
    refine .inr ?_
    have hc : ¬ isBlank ';' := by decide
    show (trim (substr (';' :: s) 0 (pos + 1))).head? = some ';'
    rw [trim_eq]
    exact congrArg List.head? (strip_cons hc)

end IniReader

end NebulaToolkit
