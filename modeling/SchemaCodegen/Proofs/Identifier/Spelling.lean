import SchemaCodegen.Identifier

/-!
# Names with one identifier

Pascal case forgets where the words of a name are cut and what cuts them.  What is left is the
**spelling** of a name: its letters and digits, a letter that opens a word in upper case.  The
spelling is the identifier, except that an identifier opens with a letter: a spelling that
opens with a digit gets `Schema` in front, and an empty one becomes `AnonymousSchema`.

So two names have one identifier exactly when they are `Alike` (`typeName_eq_iff`): they have
one spelling, or one has the spelling that completes that of the other.
-/

namespace SchemaCodegen

variable {a b : String} {s t : List Char}

/-! ### Spellings -/

/-- The letters and digits of the characters, a letter that opens a word in upper case. -/
def spell : (opening : Bool) → List Char → List Char
  | _, [] => []
  | opening, c :: rest =>
    if isWordChar c then (if opening then toUpper c else c) :: spell false rest
    else spell true rest

/-- The spelling of a name. -/
def spelling (name : String) : List Char := spell true name.toList

/-- Joining the words, each with its first letter in upper case, spells the characters; the word
under way is in `word`, backwards. -/
theorem flatMap_capitalize_splitRuns (word cs : List Char) :
    (Text.splitRuns (fun c => !isWordChar c) word cs).flatMap capitalize
      = capitalize word.reverse ++ spell word.isEmpty cs := by
  induction cs generalizing word with
  | nil =>
      rw [Text.splitRuns, spell, List.append_nil]
      cases word with
      | nil => rfl
      | cons c word => simp
  | cons c rest ih =>
      rw [Text.splitRuns, spell]
      cases here : isWordChar c with
      | false =>
          cases word with
          | nil => exact ih []
          | cons d word =>
              show ((d :: word).reverse :: Text.splitRuns (fun c => !isWordChar c) [] rest).flatMap
                capitalize = _
              rw [List.flatMap_cons, ih]
              rfl
      | true =>
          rw [if_neg (by simp), if_pos rfl, ih (c :: word), List.reverse_cons]
          cases opened : word.reverse with
          | nil =>
              rw [List.reverse_eq_nil_iff] at opened
              subst opened
              rfl
          | cons d opening =>
              have under_way : word.isEmpty = false := by
                cases word with
                | nil => cases opened
                | cons _ _ => rfl
              rw [under_way]
              simp [capitalize]

theorem flatMap_capitalize_nameWords (cs : List Char) :
    (nameWords cs).flatMap capitalize = spell true cs := flatMap_capitalize_splitRuns [] cs

/-! ### Completions -/

/-- A spelling opens with a digit. -/
def opensWithDigit (s : List Char) : Bool := s.head?.any isNumeral

/-- The spelling `t` completes the spelling `s`, which can be no identifier. -/
def Completes (s t : List Char) : Prop :=
  (s = [] ∧ t = "AnonymousSchema".toList) ∨ (opensWithDigit s = true ∧ t = "Schema".toList ++ s)

instance : Decidable (Completes s t) := inferInstanceAs (Decidable (_ ∨ _))

/-- The identifier of a spelling. -/
def completed (s : List Char) : List Char :=
  if s = [] then "AnonymousSchema".toList
  else if opensWithDigit s then "Schema".toList ++ s else s

theorem pascalChars_eq (cs : List Char) : pascalChars cs = completed (spell true cs) := by
  rw [pascalChars, flatMap_capitalize_nameWords, completed]
  cases spell true cs with
  | nil => rw [if_pos rfl]
  | cons c rest =>
      rw [if_neg (List.cons_ne_nil c rest), opensWithDigit, List.head?_cons, Option.any_some]

/-- A spelling is completed to its identifier, or is the identifier itself. -/
theorem completes_or_eq (s : List Char) : Completes s (completed s) ∨ completed s = s := by
  unfold completed Completes
  by_cases empty : s = []
  · rw [if_pos empty]
    exact .inl (.inl ⟨empty, rfl⟩)
  · cases digit : opensWithDigit s with
    | true => exact .inl (.inr ⟨rfl, by rw [if_neg empty, if_pos rfl]⟩)
    | false => exact .inr (by rw [if_neg empty, if_neg Bool.false_ne_true])

theorem head?_anonymous : "AnonymousSchema".toList.head? = some 'A' := by decide

theorem head?_schema (s : List Char) : ("Schema".toList ++ s).head? = some 'S' := by
  have opens : "Schema".toList.head? = some 'S' := by decide
  rw [List.head?_append, opens, Option.some_or]

/-- What opens with a letter is its own identifier. -/
theorem completed_of_head? {c : Char} (opens : s.head? = some c) (letter : isNumeral c = false) :
    completed s = s := by
  have nonempty : s ≠ [] := by
    rintro rfl
    cases opens
  rw [completed, if_neg nonempty, opensWithDigit, opens, Option.any_some, letter]
  exact if_neg Bool.false_ne_true

/-- What completes a spelling is the identifier, also its own one. -/
theorem Completes.completed_eq (completes : Completes s t) : completed s = t ∧ completed t = t := by
  obtain ⟨rfl, rfl⟩ | ⟨digit, rfl⟩ := completes
  · exact ⟨if_pos rfl, completed_of_head? head?_anonymous (by decide)⟩
  · have nonempty : s ≠ [] := by
      rintro rfl
      cases digit
    refine ⟨?_, completed_of_head? (head?_schema s) (by decide)⟩
    rw [completed, if_neg nonempty, digit, if_pos rfl]

/-- Nothing completes two spellings. -/
theorem Completes.unique {u : List Char} (left : Completes s u) (right : Completes t u) :
    s = t := by
  have apart (s : List Char) : "AnonymousSchema".toList ≠ "Schema".toList ++ s := by
    intro same
    have heads := congrArg List.head? same
    rw [head?_anonymous, head?_schema] at heads
    revert heads
    decide
  obtain ⟨rfl, at_left⟩ | ⟨-, at_left⟩ := left <;>
    obtain ⟨rfl, at_right⟩ | ⟨-, at_right⟩ := right
  · rfl
  · exact absurd (at_left.symm.trans at_right) (apart t)
  · exact absurd (at_right.symm.trans at_left) (apart s)
  · exact List.append_cancel_left (at_left.symm.trans at_right)

/-- Two spellings have one identifier when they are the same or one completes the other. -/
theorem completed_eq_iff :
    completed s = completed t ↔ s = t ∨ Completes s t ∨ Completes t s := by
  constructor
  · intro same
    obtain left | left := completes_or_eq s <;> obtain right | right := completes_or_eq t
    · rw [same] at left
      exact .inl (left.unique right)
    · rw [same, right] at left
      exact .inr (.inl left)
    · rw [← same, left] at right
      exact .inr (.inr right)
    · exact .inl (left.symm.trans (same.trans right))
  · rintro (rfl | completes | completes)
    · rfl
    · exact completes.completed_eq.1.trans completes.completed_eq.2.symm
    · exact completes.completed_eq.2.trans completes.completed_eq.1.symm

/-! ### Names -/

/-- `Alike a b`: the names have one spelling, or one has the spelling that completes that of the
other. -/
def Alike (a b : String) : Prop :=
  spelling a = spelling b ∨ Completes (spelling a) (spelling b)
    ∨ Completes (spelling b) (spelling a)

instance : Decidable (Alike a b) :=
  inferInstanceAs (Decidable (spelling a = spelling b ∨ Completes (spelling a) (spelling b) ∨
    Completes (spelling b) (spelling a)))

/-- **Two names have one identifier** exactly when they are alike. -/
theorem typeName_eq_iff : typeName a = typeName b ↔ Alike a b := by
  rw [typeName, typeName, pascalCase, pascalCase, String.ofList_inj, pascalChars_eq,
    pascalChars_eq, completed_eq_iff]
  rfl

/-- The validators of two names have one identifier when the types have one. -/
theorem validatorName_eq_iff : validatorName a = validatorName b ↔ Alike a b := by
  rw [← typeName_eq_iff, validatorName, validatorName, typeName, typeName]
  exact ⟨fun same => by simpa using same, fun same => by rw [same]⟩

/-- Separators, their places and the case of first letters do not tell names apart. -/
example : Alike "user-id" "user_id" ∧ Alike "user id" "UserId" ∧ Alike "2fa" "schema-2fa"
    ∧ Alike "" "anonymous schema" ∧ ¬ Alike "userid" "user_id" := by
  decide

end SchemaCodegen
