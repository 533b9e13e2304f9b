import Mathlib.Data.List.Basic
import SchemaCodegen.Text.Blank

/-!
# Texts that are cut

What is cut out of a text stands in it: its words (`infix_of_mem_splitRuns`) and its lines.  A pair
of neighbours stays together in what is cut, as long as the cuts are made at other characters: in a
text without the blanks at its ends (`pair_infix_dropWhile`) and in its lines
(`pair_infix_splitLines`).

Words joined by a separator come apart again (`splitRuns_word_append`).
-/

namespace SchemaCodegen.Text

variable {a b c : Char} {cs xs ys w line : List Char} {sep : Char → Bool}

/-! ### Neighbours -/

theorem pair_infix_cons : [a, b] <:+: c :: cs ↔ (c = a ∧ cs.head? = some b) ∨ [a, b] <:+: cs := by
  rw [List.infix_cons_iff]
  refine or_congr ?_ Iff.rfl
  constructor
  · rintro ⟨rest, same⟩
    cases same
    exact ⟨rfl, rfl⟩
  · rintro ⟨rfl, opens⟩
    obtain ⟨rest, rfl⟩ := List.head?_eq_some_iff.1 opens
    exact ⟨rest, rfl⟩

/-- Neighbours do not reach across another character. -/
theorem pair_infix_append_cons (apart : c ≠ a ∧ c ≠ b) :
    [a, b] <:+: xs ++ c :: ys ↔ [a, b] <:+: xs ∨ [a, b] <:+: ys := by
  induction xs with
  | nil =>
      have nothing : ¬ [a, b] <:+: [] := by simp
      rw [List.nil_append, pair_infix_cons]
      simp [apart.1, nothing]
  | cons x xs ih =>
      have heads : (xs ++ c :: ys).head? = some b ↔ xs.head? = some b := by
        cases xs with
        | nil => simpa using apart.2
        | cons y xs => exact Iff.rfl
      rw [List.cons_append, pair_infix_cons, pair_infix_cons, ih, heads, or_assoc]

/-- Neighbours are not lost with what is dropped in front of them. -/
theorem pair_infix_dropWhile {drops : Char → Bool} (kept : drops a = false) :
    [a, b] <:+: cs.dropWhile drops ↔ [a, b] <:+: cs := by
  induction cs with
  | nil => exact Iff.rfl
  | cons c cs ih =>
      rw [List.dropWhile_cons]
      split
      · next dropped =>
          have other : c ≠ a := by
            rintro rfl
            cases kept.symm.trans dropped
          rw [ih, pair_infix_cons]
          simp [other]
      · exact Iff.rfl

/-- Neighbours that are not blank stay in a text without the blanks at its end. -/
theorem pair_infix_dropBlanksRight (kept : isBlank b = false) :
    [a, b] <:+: dropBlanksRight cs ↔ [a, b] <:+: cs := by
  have turned (l : List Char) : [a, b] <:+: l ↔ [b, a] <:+: l.reverse := by
    rw [← List.reverse_infix]
    rfl
  rw [dropBlanksRight, turned, List.reverse_reverse, dropBlanks, pair_infix_dropWhile kept, ← turned]

theorem pair_infix_strip {s : String} (first : isBlank a = false) (second : isBlank b = false) :
    [a, b] <:+: (strip s).toList ↔ [a, b] <:+: s.toList := by
  rw [strip, String.toList_ofList, pair_infix_dropBlanksRight second, dropBlanks,
    pair_infix_dropWhile first]

/-- Neighbours that do not end lines stand in one of the lines; the line under way is in `line`,
backwards. -/
theorem pair_infix_splitLines (first : isLineEnd a = false) (second : isLineEnd b = false) :
    (∃ l ∈ splitLines line cs, [a, b] <:+: l) ↔ [a, b] <:+: line.reverse ++ cs := by
  have apart {c : Char} (ends : isLineEnd c = true) : c ≠ a ∧ c ≠ b := by
    constructor
    · rintro rfl
      cases first.symm.trans ends
    · rintro rfl
      cases second.symm.trans ends
  fun_induction splitLines line cs with
  | case1 line empty => simp [List.isEmpty_iff.1 empty]
  | case2 line nonempty => simp
  | case3 line rest ih =>
      have return_end : isLineEnd '\r' = true := by decide
      have feed_end : isLineEnd '\n' = true := by decide
      have behind : [a, b] <:+: '\n' :: rest ↔ [a, b] <:+: rest := by
        rw [pair_infix_cons]
        simp [(apart feed_end).1]
      rw [pair_infix_append_cons (apart return_end), behind, List.exists_mem_cons_iff]
      exact or_congr Iff.rfl ih
  | case4 line c rest _ ends ih =>
      rw [pair_infix_append_cons (apart ends), List.exists_mem_cons_iff]
      exact or_congr Iff.rfl ih
  | case5 line c rest _ inside ih => simpa using ih

theorem pair_infix_lines {s : String} (first : isLineEnd a = false) (second : isLineEnd b = false) :
    (∃ l ∈ lines s, [a, b] <:+: l.toList) ↔ [a, b] <:+: s.toList := by
  have cut : (∃ l ∈ splitLines [] s.toList, [a, b] <:+: l) ↔ [a, b] <:+: [].reverse ++ s.toList :=
    pair_infix_splitLines first second
  rw [lines]
  simpa using cut

/-! ### Words -/

/-- The words of characters stand in them; the word under way is in `word`, backwards. -/
theorem infix_of_mem_splitRuns {word : List Char}
    (mem : w ∈ splitRuns sep word cs) : w <:+: word.reverse ++ cs := by
  induction cs generalizing word with
  | nil =>
      rw [splitRuns] at mem
      split at mem
      · cases mem
      · obtain rfl := List.mem_singleton.1 mem
        exact (List.prefix_append _ []).isInfix
  | cons c cs ih =>
      have behind : cs <:+: word.reverse ++ c :: cs :=
        ((List.suffix_cons c cs).trans (List.suffix_append _ _)).isInfix
      rw [splitRuns] at mem
      split at mem
      · split at mem
        · exact (ih mem).trans behind
        · obtain rfl | later := List.mem_cons.1 mem
          · exact (List.prefix_append _ _).isInfix
          · exact (ih later).trans behind
      · simpa using ih mem

/-- A word in front of a separator is the first word. -/
theorem splitRuns_word_append {word : List Char} {s : Char}
    (words : ∀ c ∈ w, sep c = false) (separates : sep s = true) (nonempty : word.reverse ++ w ≠ []) :
    splitRuns sep word (w ++ s :: cs) = (word.reverse ++ w) :: splitRuns sep [] cs := by
  induction w generalizing word with
  | nil =>
      rw [List.nil_append, splitRuns, if_pos separates, if_neg, List.append_nil]
      simpa using nonempty
  | cons c w ih =>
      obtain ⟨first, rest⟩ := List.forall_mem_cons.1 words
      rw [List.cons_append, splitRuns, if_neg (by simp [first]), ih rest (by simp)]
      simp

theorem splitRuns_word {word : List Char}
    (words : ∀ c ∈ w, sep c = false) (nonempty : word.reverse ++ w ≠ []) :
    splitRuns sep word w = [word.reverse ++ w] := by
  induction w generalizing word with
  | nil =>
      rw [splitRuns, if_neg, List.append_nil]
      simpa using nonempty
  | cons c w ih =>
      obtain ⟨first, rest⟩ := List.forall_mem_cons.1 words
      rw [splitRuns, if_neg (by simp [first]), ih rest (by simp)]
      simp

end SchemaCodegen.Text
