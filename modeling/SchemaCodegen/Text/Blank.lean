/-!
# Blanks, words and lines

Free text (descriptions, names, the cells of a table) is cut at **blanks**: the
white space of Unicode together with the four separators `U+001C` to `U+001F`.
The zero-width space is no blank.

* `words` — the maximal runs of characters that are not blank.
* `strip`, `stripRight` — a text without the blanks at its ends.
* `oneLine` — the words joined by single spaces.
* `lines` — a text cut at its line ends, which are dropped; a line end at the
  very end opens no further line.

Each is a short recursion on the characters, with a lemma on what it keeps.
-/

namespace SchemaCodegen.Text

/-- White space: what separates words and is stripped from the ends of a text. -/
def isBlank (c : Char) : Bool :=
  let n := c.toNat
  (9 ≤ n && n ≤ 13) || (0x1c ≤ n && n ≤ 0x20) || n == 0x85 || n == 0xa0 || n == 0x1680
    || (0x2000 ≤ n && n ≤ 0x200a) || n == 0x2028 || n == 0x2029 || n == 0x202f
    || n == 0x205f || n == 0x3000

/-- The characters that end a line. -/
def isLineEnd (c : Char) : Bool :=
  let n := c.toNat
  (10 ≤ n && n ≤ 13) || (0x1c ≤ n && n ≤ 0x1e) || n == 0x85 || n == 0x2028 || n == 0x2029

/-- Every line end is a blank. -/
theorem isBlank_of_isLineEnd {c : Char} (h : isLineEnd c = true) : isBlank c = true := by
  simp only [isLineEnd, isBlank, Bool.or_eq_true, Bool.and_eq_true, decide_eq_true_eq,
    beq_iff_eq] at h ⊢
  omega

/-- The runs of characters that fail `sep`, with `word` holding the current run
backwards. -/
def splitRuns (sep : Char → Bool) : (word : List Char) → List Char → List (List Char)
  | word, [] => if word.isEmpty then [] else [word.reverse]
  | word, c :: rest =>
    if sep c then
      if word.isEmpty then splitRuns sep [] rest
      else word.reverse :: splitRuns sep [] rest
    else splitRuns sep (c :: word) rest

/-- Runs are never empty. -/
theorem splitRuns_ne_nil {sep : Char → Bool} {cs word w : List Char}
    (h : w ∈ splitRuns sep word cs) : w ≠ [] := by
  induction cs generalizing word with
  | nil =>
    cases word with
    | nil => simp [splitRuns] at h
    | cons c rest => simp [splitRuns] at h; simp [h]
  | cons c rest ih =>
    simp only [splitRuns] at h
    split at h
    · split at h
      · exact ih h
      · rcases List.mem_cons.1 h with rfl | h
        · cases word <;> simp_all
        · exact ih h
    · exact ih h

/-- The characters of a run fail `sep`, as those of the run under way do. -/
theorem not_sep_of_mem_splitRuns {sep : Char → Bool} {cs word w : List Char}
    (hw : ∀ c ∈ word, sep c = false) (h : w ∈ splitRuns sep word cs) :
    ∀ c ∈ w, sep c = false := by
  induction cs generalizing word with
  | nil =>
    simp only [splitRuns] at h
    split at h
    · simp at h
    · simp only [List.mem_singleton] at h
      subst h
      simpa using hw
  | cons c rest ih =>
    simp only [splitRuns] at h
    split at h
    · split at h
      · exact ih (by simp) h
      · rcases List.mem_cons.1 h with rfl | h
        · simpa using hw
        · exact ih (by simp) h
    · next hc => exact ih (by simpa [hc] using hw) h

/-- The words of a text. -/
def words (s : String) : List String :=
  (splitRuns isBlank [] s.toList).map String.ofList

/-- A text on one line: its words, one space between two of them. -/
def oneLine (s : String) : String := " ".intercalate (words s)

/-- The characters without the blanks at the front. -/
def dropBlanks (cs : List Char) : List Char := cs.dropWhile isBlank

/-- The characters without the blanks at the end. -/
def dropBlanksRight (cs : List Char) : List Char := (dropBlanks cs.reverse).reverse

/-- A text without the blanks at its end. -/
def stripRight (s : String) : String := String.ofList (dropBlanksRight s.toList)

/-- A text without the blanks at both ends. -/
def strip (s : String) : String := String.ofList (dropBlanksRight (dropBlanks s.toList))

/-- A text of blanks only, the empty one included. -/
def isBlankText (s : String) : Bool := s.toList.all isBlank

/-- The lines of `cs`, with `line` holding the current one backwards.  A carriage
return and the line feed behind it are one line end. -/
def splitLines : (line : List Char) → List Char → List (List Char)
  | line, [] => if line.isEmpty then [] else [line.reverse]
  | line, '\r' :: '\n' :: rest => line.reverse :: splitLines [] rest
  | line, c :: rest =>
    if isLineEnd c then line.reverse :: splitLines [] rest else splitLines (c :: line) rest

/-- The lines of a text, without their ends. -/
def lines (s : String) : List String := (splitLines [] s.toList).map String.ofList

/-- No line holds a line end. -/
theorem not_isLineEnd_of_mem_splitLines {cs line l : List Char}
    (hl : ∀ c ∈ line, isLineEnd c = false) (h : l ∈ splitLines line cs) :
    ∀ c ∈ l, isLineEnd c = false := by
  fun_induction splitLines line cs with
  | case1 => simp at h
  | case2 line hne =>
    simp only [List.mem_singleton] at h
    subst h
    simpa using hl
  | case3 line rest ih =>
    rcases List.mem_cons.1 h with rfl | h
    · simpa using hl
    · exact ih (by simp) h
  | case4 line c rest hr hc ih =>
    rcases List.mem_cons.1 h with rfl | h
    · simpa using hl
    · exact ih (by simp) h
  | case5 line c rest hr hc ih => exact ih (by simpa [hc] using hl) h

/-- A text with every line end written as a line feed: a carriage return, alone
or with the line feed behind it, becomes one. -/
def unifyNewlines : List Char → List Char
  | [] => []
  | '\r' :: '\n' :: rest => '\n' :: unifyNewlines rest
  | '\r' :: rest => '\n' :: unifyNewlines rest
  | c :: rest => c :: unifyNewlines rest

end SchemaCodegen.Text
