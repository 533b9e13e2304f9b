import SchemaCodegen.Proofs.Text.Cut
import SchemaCodegen.TypeScript.Declaration

/-!
# Where comments end

A description is written into a comment, in one of two ways.  On one line, before a property, each
end of a comment in it is escaped, so the comment ends where it should (`isComment_remark`).  Above
a declaration it is written line by line as it is, and nothing is escaped: the block is a comment
exactly when the description has no end of a comment in it (`isComment_block`).

Cutting a description into lines and taking blanks off them neither makes an end of a comment nor
takes one away, since its two characters are neither blanks nor line ends.
-/

namespace SchemaCodegen.TypeScript

variable {c : Char} {cs xs ys body : List Char} {text : String} {texts : List String}

/-! ### The end of a comment -/

/-- The end of a comment occurs in the characters. -/
def EndsComment (cs : List Char) : Prop := ['*', '/'] <:+: cs

instance (cs : List Char) : Decidable (EndsComment cs) :=
  inferInstanceAs (Decidable (['*', '/'] <:+: cs))

theorem endsComment_append_cons (apart : c ≠ '*' ∧ c ≠ '/') :
    EndsComment (xs ++ c :: ys) ↔ EndsComment xs ∨ EndsComment ys :=
  Text.pair_infix_append_cons apart

/-- Lines end a comment when one of them does. -/
theorem endsComment_intercalate :
    EndsComment ("\n".intercalate texts).toList ↔ ∃ text ∈ texts, EndsComment text.toList := by
  induction texts with
  | nil => simp [EndsComment]
  | cons text texts ih =>
      cases texts with
      | nil => simp
      | cons next texts =>
          rw [String.intercalate_cons_cons, String.append_assoc, String.toList_append,
            String.toList_append]
          show EndsComment (text.toList ++ '\n' :: ("\n".intercalate (next :: texts)).toList) ↔ _
          rw [endsComment_append_cons (by decide), ih]
          simp

theorem head?_escapeEnd (cs : List Char) : (commentText.escapeEnd cs).head? = cs.head? := by
  fun_cases commentText.escapeEnd cs <;> rfl

/-- An escaped text has no end of a comment in it. -/
theorem not_endsComment_escapeEnd (cs : List Char) : ¬ EndsComment (commentText.escapeEnd cs) := by
  unfold EndsComment
  fun_induction commentText.escapeEnd cs with
  | case1 rest ih => simp [Text.pair_infix_cons, ih]
  | case2 c rest other ih =>
      rw [Text.pair_infix_cons, head?_escapeEnd]
      rintro (⟨rfl, opens⟩ | later)
      · obtain ⟨rest, rfl⟩ := List.head?_eq_some_iff.1 opens
        exact other rest rfl rfl
      · exact ih later
  | case3 => decide

/-! ### Comments -/

/-- The text is one comment: it opens as a comment for documentation, and the end of a comment
stands at its end and nowhere before. -/
structure IsComment (block : String) : Prop where
  opens : "/**".toList <+: block.toList
  closes : "*/".toList <:+ block.toList
  once : ∀ before after, block.toList = before ++ '*' :: '/' :: after → after = []

/-- An end that is put behind characters is the only one exactly when they, and the star of the end,
have none. -/
theorem only_end_iff :
    (∀ before after, body ++ ['*', '/'] = before ++ '*' :: '/' :: after → after = [])
      ↔ ¬ EndsComment (body ++ ['*']) := by
  constructor
  · rintro once ⟨before, after, same⟩
    have ends := once before (after ++ ['/']) (by
      rw [show body ++ ['*', '/'] = (body ++ ['*']) ++ ['/'] by simp, ← same]
      simp)
    simp at ends
  · intro free before after same
    obtain rfl | ⟨after, last, rfl⟩ := List.eq_nil_or_concat after
    · rfl
    · exfalso
      have cut : body ++ ['*'] ++ ['/'] = before ++ '*' :: '/' :: after ++ [last] := by
        simpa using same
      obtain ⟨here, -⟩ := List.append_inj' cut rfl
      refine free ⟨before, after, ?_⟩
      rw [here, List.append_assoc]
      rfl

/-- The comment on a property: on one line. -/
def remark (said : String) : String := "/** " ++ commentText said ++ " */"

/-- The comment block above a declaration. -/
def block (said : String) : String := "\n".intercalate (Declaration.commentLines said)

/-- What opens and ends as a comment is one exactly when no end occurs before. -/
theorem isComment_iff (opens : "/**".toList <+: text.toList)
    (shape : text.toList = body ++ ['*', '/']) :
    IsComment text ↔ ¬ EndsComment (body ++ ['*']) := by
  rw [← only_end_iff, ← shape]
  exact ⟨IsComment.once, fun once => ⟨opens, shape ▸ List.suffix_append _ _, once⟩⟩

/-- The comment on a property ends where it should, whatever is said. -/
theorem isComment_remark (said : String) : IsComment (remark said) := by
  have shape : (remark said).toList
      = '/' :: '*' :: '*' :: ' ' :: ((commentText said).toList ++ [' ']) ++ ['*', '/'] := by
    simp [remark]
  have free : ¬ EndsComment (commentText said).toList := by
    rw [commentText, String.toList_ofList]
    exact not_endsComment_escapeEnd _
  refine (isComment_iff ?_ shape).2 ?_
  · rw [shape]
    exact ⟨_, rfl⟩
  · have cut : '/' :: '*' :: '*' :: ' ' :: ((commentText said).toList ++ [' ']) ++ ['*']
        = ['/', '*', '*'] ++ ' ' :: ((commentText said).toList ++ ' ' :: ['*']) := by simp
    have opening : ¬ EndsComment ['/', '*', '*'] := by decide
    have star : ¬ EndsComment ['*'] := by decide
    rw [cut, endsComment_append_cons (by decide), endsComment_append_cons (by decide)]
    simp [opening, free, star]

/-- A line of a block ends a comment when what it says does. -/
theorem endsComment_line (line : String) :
    EndsComment (Text.stripRight (" * " ++ line)).toList ↔ EndsComment line.toList := by
  have lead : (" * " ++ line).toList = [' ', '*'] ++ ' ' :: line.toList := by simp
  have nothing : ¬ EndsComment [' ', '*'] := by decide
  rw [Text.stripRight, String.toList_ofList, EndsComment, Text.pair_infix_dropBlanksRight (by decide),
    lead]
  refine (endsComment_append_cons (by decide)).trans ?_
  simp [nothing]

/-- The lines between the first and the last one of a block. -/
def innerLines (said : String) : List String :=
  (Text.lines (Text.strip said)).map fun line => Text.stripRight (" * " ++ line)

theorem endsComment_innerLines (said : String) :
    (∃ line ∈ innerLines said, EndsComment line.toList) ↔ EndsComment said.toList := by
  unfold innerLines
  simp only [List.mem_map, exists_exists_and_eq_and, endsComment_line]
  exact (Text.pair_infix_lines (by decide) (by decide)).trans
    (Text.pair_infix_strip (by decide) (by decide))

theorem toList_lines_concat {lines : List String} (some_lines : lines ≠ []) (last : String) :
    ("\n".intercalate (lines ++ [last])).toList
      = ("\n".intercalate lines).toList ++ '\n' :: last.toList := by
  rw [String.intercalate_append_of_ne_nil some_lines (List.cons_ne_nil _ _),
    String.intercalate_singleton, String.toList_append, String.toList_append, List.append_assoc]
  rfl

/-- **The block above a declaration** is a comment exactly when the description does not end one. -/
theorem isComment_block (said : String) : IsComment (block said) ↔ ¬ EndsComment said.toList := by
  have concat := toList_lines_concat (List.cons_ne_nil "/**" (innerLines said))
  have shape : (block said).toList
      = (("\n".intercalate ("/**" :: innerLines said)).toList ++ ['\n', ' ']) ++ ['*', '/'] := by
    rw [List.append_assoc]
    exact concat " */"
  have cut : (("\n".intercalate ("/**" :: innerLines said)).toList ++ ['\n', ' ']) ++ ['*']
      = ("\n".intercalate ("/**" :: innerLines said ++ [" *"])).toList := by
    rw [List.append_assoc]
    exact (concat " *").symm
  have opens : "/**".toList <+: (block said).toList := by
    rw [block, Declaration.commentLines, List.cons_append, String.intercalate_cons_of_ne_nil (by simp),
      String.append_assoc, String.toList_append]
    exact List.prefix_append _ _
  rw [isComment_iff opens shape, cut, endsComment_intercalate, ← endsComment_innerLines]
  refine not_congr ⟨?_, fun ⟨line, mem, ends⟩ => ⟨line, by simp [mem], ends⟩⟩
  rintro ⟨line, mem, ends⟩
  have first : ¬ EndsComment "/**".toList := by decide
  have last : ¬ EndsComment " *".toList := by decide
  obtain above | at_last := List.mem_append.1 mem
  · obtain rfl | inner := List.mem_cons.1 above
    · exact absurd ends first
    · exact ⟨line, inner, ends⟩
  · rw [List.mem_singleton.1 at_last] at ends
    exact absurd ends last

end SchemaCodegen.TypeScript
