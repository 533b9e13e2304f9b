import SchemaCodegen.Identifier

/-!
# What written names denote

A property name is written as an identifier, which denotes itself, or as a literal between single
quotes.  A literal is read up to the quote that ends it: a backslash and the character behind it
stand for one character, and no character that ends a line of code can stand in it.

Writing escapes the quote and the backslash, so a text is read back exactly when it holds no end of
a line (`names_read_back_iff`).  An end of a line makes a literal that cannot be read, and behind an
identifier it is written without quotes (`lineFeed_not_read_back`).
-/

namespace SchemaCodegen

variable {c : Char} {cs : List Char}

/-! ### Reading -/

/-- The characters that end a line of code. -/
def endsCodeLine (c : Char) : Bool :=
  c == '\n' || c == '\r' || c == '\u2028' || c == '\u2029'

/-- What a character behind a backslash stands for.  Escapes by number, and lines that go on behind
a backslash, are not read: no literal is written with them. -/
def escapeMeaning? (c : Char) : Option Char :=
  match c with
  | 'b' => some '\x08'
  | 't' => some '\t'
  | 'n' => some '\n'
  | 'v' => some '\x0b'
  | 'f' => some '\x0c'
  | 'r' => some '\r'
  | c => if c == 'x' || c == 'u' || isNumeral c || endsCodeLine c then none else some c

/-- What the characters of a literal denote, behind the quote that opens it.  The quote that ends it
must be the last character. -/
def readLiteral : List Char → Option (List Char)
  | [] => none
  | '\'' :: rest => if rest.isEmpty then some [] else none
  | ['\\'] => none
  | '\\' :: c :: rest => do pure ((← escapeMeaning? c) :: (← readLiteral rest))
  | c :: rest => if endsCodeLine c then none else (readLiteral rest).map (c :: ·)

/-- What a text denotes as a literal between single quotes. -/
def denotedLiteral? (text : String) : Option String :=
  match text.toList with
  | '\'' :: rest => (readLiteral rest).map String.ofList
  | _ => none

/-- What a text denotes as the name of a property. -/
def denotedProperty? (text : String) : Option String :=
  match text.toList with
  | [] => none
  | c :: rest =>
    if startsIdentifier c then (if rest.all inIdentifier then some text else none)
    else denotedLiteral? text

/-! ### Literals -/

/-- A character that is written as it is is read as it is, unless it ends a line. -/
theorem readLiteral_cons_of_plain (rest : List Char) (plain : c ≠ '\\' ∧ c ≠ '\'') :
    readLiteral (c :: rest)
      = if endsCodeLine c then none else (readLiteral rest).map (c :: ·) := by
  rw [readLiteral]
  · exact plain.2
  · rintro rfl
    exact absurd rfl plain.1
  · rintro d rest' rfl
    exact absurd rfl plain.1

/-- A written character is read back, unless it ends a line. -/
theorem readLiteral_literalChar (c : Char) (rest : List Char) :
    readLiteral (literalChar c ++ rest)
      = if endsCodeLine c then none else (readLiteral rest).map (c :: ·) := by
  by_cases backslash : c = '\\'
  · subst backslash
    show readLiteral ('\\' :: '\\' :: rest) = _
    rw [readLiteral]
    cases readLiteral rest <;> rfl
  · by_cases quote : c = '\''
    · subst quote
      show readLiteral ('\\' :: '\'' :: rest) = _
      rw [readLiteral]
      cases readLiteral rest <;> rfl
    · have plain : literalChar c = [c] := by simp [literalChar, backslash, quote]
      rw [plain, List.singleton_append, readLiteral_cons_of_plain rest ⟨backslash, quote⟩]

/-- What is written between quotes is read back exactly when it holds no end of a line. -/
theorem readLiteral_flatMap (cs : List Char) :
    readLiteral (cs.flatMap literalChar ++ ['\''])
      = if cs.any endsCodeLine then none else some cs := by
  induction cs with
  | nil => rfl
  | cons c cs ih =>
      rw [List.flatMap_cons, List.append_assoc, readLiteral_literalChar, ih, List.any_cons]
      cases endsCodeLine c <;> cases cs.any endsCodeLine <;> rfl

theorem denotedLiteral?_quoteLiteral (value : String) :
    denotedLiteral? (quoteLiteral value)
      = if value.toList.any endsCodeLine then none else some value := by
  rw [denotedLiteral?, quoteLiteral, String.toList_ofList, List.cons_append]
  show (readLiteral _).map String.ofList = _
  rw [readLiteral_flatMap]
  split
  · rfl
  · rw [Option.map_some, String.ofList_toList]

/-! ### Property names -/

/-- What stands without quotes is an identifier, possibly with a line feed behind it. -/
theorem exists_identifier_of_isPlainProperty (plain : isPlainProperty cs = true) :
    ∃ first rest, startsIdentifier first = true ∧ rest.all inIdentifier = true
      ∧ (cs = first :: rest ∨ cs = first :: (rest ++ ['\n'])) := by
  unfold isPlainProperty at plain
  dsimp only at plain
  split at plain
  · cases plain
  · next body first rest same =>
      obtain ⟨starts, inside⟩ := Bool.and_eq_true_iff.1 plain
      refine ⟨first, rest, starts, inside, ?_⟩
      split at same
      · next body reversed =>
          refine .inr ?_
          rw [← List.reverse_reverse cs, reversed, List.reverse_cons, same, List.cons_append]
      · exact .inl same

theorem endsCodeLine_eq_false (inside : inIdentifier c = true) : endsCodeLine c = false := by
  cases ends : endsCodeLine c with
  | false => rfl
  | true =>
      have outside : (['\n', '\r', '\u2028', '\u2029'].all fun d => !inIdentifier d) = true := by
        decide
      have mem : c ∈ ['\n', '\r', '\u2028', '\u2029'] := by
        simpa [endsCodeLine, or_assoc] using ends
      have at_c := List.all_eq_true.1 outside c mem
      rw [inside] at at_c
      cases at_c

theorem inIdentifier_of_mem {first : Char} {rest : List Char}
    (starts : startsIdentifier first = true) (inside : rest.all inIdentifier = true) :
    ∀ c ∈ first :: rest, inIdentifier c = true := by
  have opens : inIdentifier first = true := by rw [inIdentifier, starts, Bool.true_or]
  exact List.forall_mem_cons.2 ⟨opens, List.all_eq_true.1 inside⟩

theorem any_endsCodeLine_identifier {first : Char} {rest : List Char}
    (starts : startsIdentifier first = true) (inside : rest.all inIdentifier = true) :
    (first :: rest).any endsCodeLine = false := by
  rw [List.any_eq_false]
  intro c mem
  rw [endsCodeLine_eq_false (inIdentifier_of_mem starts inside c mem)]
  exact Bool.false_ne_true

theorem denotedProperty?_propertyName (name : String) :
    denotedProperty? (propertyName name)
      = if name.toList.any endsCodeLine then none else some name := by
  unfold propertyName
  split
  · next plain =>
      obtain ⟨first, rest, starts, inside, same | same⟩ := exists_identifier_of_isPlainProperty plain
      · rw [denotedProperty?, same, any_endsCodeLine_identifier starts inside]
        simp [starts, inside]
      · -- The line feed is no part of an identifier.
        have outside : inIdentifier '\n' = false := by decide
        have ends : endsCodeLine '\n' = true := by decide
        rw [denotedProperty?, same]
        simp [starts, outside, ends]
  · have quoted : startsIdentifier '\'' = false := by decide
    have denoted := denotedLiteral?_quoteLiteral name
    rw [← denoted, denotedProperty?, quoteLiteral, String.toList_ofList, List.cons_append]
    simp [quoted]

theorem ite_any_eq_some_iff {text : String} {ends : Char → Bool} :
    (if text.toList.any ends then none else some text) = some text
      ↔ ∀ c ∈ text.toList, ends c = false := by
  simp

/-- **Written names denote what they were written for**, and so do written literals, exactly when
the text holds no end of a line. -/
theorem names_read_back_iff (text : String) :
    (denotedProperty? (propertyName text) = some text
        ↔ ∀ c ∈ text.toList, endsCodeLine c = false)
      ∧ (denotedLiteral? (quoteLiteral text) = some text
        ↔ ∀ c ∈ text.toList, endsCodeLine c = false) := by
  rw [denotedProperty?_propertyName, denotedLiteral?_quoteLiteral]
  exact ⟨ite_any_eq_some_iff, ite_any_eq_some_iff⟩

/-- A line feed is left as it is, behind an identifier and between quotes. -/
theorem lineFeed_not_read_back :
    propertyName "id\n" = "id\n" ∧ denotedProperty? (propertyName "id\n") = none
      ∧ denotedLiteral? (quoteLiteral "a\nb") = none := by
  decide +kernel

end SchemaCodegen
