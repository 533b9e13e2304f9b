import Mathlib.Data.List.Basic
import SchemaCodegen.Proofs.Identifier.Denoted
import SchemaCodegen.Proofs.Identifier.Label
import SchemaCodegen.Proofs.Traced
import SchemaCodegen.Proofs.TypeScript.Reading
import SchemaCodegen.TypeScript.SchemaType

/-!
# Names and literals are neutral

The texts that types are made of: identifiers, property names, string literals and the
literals of enumerations.  Each is neutral to the reader, whatever characters the schema has
in it, for one of two reasons: its characters mean nothing to the reader, or they stand
between quotes, where each quote of their own is escaped.
-/

namespace SchemaCodegen.TypeScript

variable {c : Char} {cs : List Char} {quote : Char} {depth : Int}

/-! ### Inert characters -/

/-- Characters of a class without marks are inert. -/
theorem inert_of_class {P : Char → Bool} (free : marks.any P = false) (h : P c = true) :
    Inert c := by
  intro mem
  rw [List.any_eq_false] at free
  exact free c mem h

theorem inert_of_isWordChar (h : isWordChar c = true) : Inert c :=
  inert_of_class (by decide) h

theorem inert_of_inIdentifier (h : inIdentifier c = true) : Inert c :=
  inert_of_class (by decide) h

theorem inert_of_isDigit (h : c.isDigit = true) : Inert c :=
  inert_of_class (by decide) h

/-! ### Identifiers -/

/-- The identifier of a type is neutral. -/
theorem neutral_typeName (name : String) : Neutral (typeName name) := by
  have identifier := isTypeIdentifier_pascalChars name.toList
  exact (inertText_ofList fun c mem => inert_of_isWordChar (identifier.words c mem)).neutral

theorem neutral_indentation (depth : Nat) : Neutral (indentation depth) := by
  refine (inertText_ofList ?_).neutral
  intro c mem
  rw [List.eq_of_mem_replicate mem]
  decide

/-! ### Between quotes -/

/-- Characters that neither end a literal nor escape anything. -/
theorem read_literal_plain (plain : ∀ c ∈ cs, c ≠ quote ∧ c ≠ '\\') :
    read (.literal quote depth) cs = .literal quote depth := by
  induction cs with
  | nil => rfl
  | cons c cs ih =>
      obtain ⟨⟨no_quote, no_escape⟩, rest⟩ := List.forall_mem_cons.1 plain
      rw [read_cons]
      simp only [Position.next, beq_iff_eq, no_escape, no_quote, if_false]
      exact ih rest

/-- A text in which each character is written inside the literal stays in it. -/
theorem read_literal_flatMap {write : Char → List Char}
    (inside : ∀ c, read (.literal quote depth) (write c) = .literal quote depth) (cs : List Char) :
    read (.literal quote depth) (cs.flatMap write) = .literal quote depth := by
  induction cs with
  | nil => rfl
  | cons c cs ih => rw [List.flatMap_cons, read_append, inside, ih]

theorem read_literalChar (c : Char) :
    read (.literal '\'' depth) (literalChar c) = .literal '\'' depth := by
  unfold literalChar
  split
  · rfl
  · next plain =>
      rw [Bool.or_eq_true, not_or, beq_iff_eq, beq_iff_eq] at plain
      refine read_literal_plain ?_
      simpa using plain.symm

/-- A string literal is neutral. -/
theorem neutral_quoteLiteral (value : String) : Neutral (quoteLiteral value) := by
  unfold Neutral quoteLiteral
  rw [String.toList_ofList, List.cons_append, read_cons, read_append]
  show read (read (.literal '\'' 0) _) _ = _
  rw [read_literal_flatMap read_literalChar]
  rfl

/-- A property that stands without quotes has inert characters. -/
theorem inert_of_isPlainProperty (plain : isPlainProperty cs = true) : ∀ c ∈ cs, Inert c := by
  obtain ⟨first, rest, starts, inside, same⟩ := exists_identifier_of_isPlainProperty plain
  have identifier : ∀ c ∈ first :: rest, Inert c := fun c mem =>
    inert_of_inIdentifier (inIdentifier_of_mem starts inside c mem)
  obtain rfl | rfl := same
  · exact identifier
  · -- One line feed at the end is let through, and is inert itself.
    have feed : Inert '\n' := by decide
    intro c mem
    have cut : c ∈ (first :: rest) ++ ['\n'] := mem
    obtain in_identifier | last := List.mem_append.1 cut
    · exact identifier c in_identifier
    · rwa [List.mem_singleton.1 last]

/-- A property name is neutral, with or without quotes. -/
theorem neutral_propertyName (name : String) : Neutral (propertyName name) := by
  unfold propertyName
  split
  · next plain => exact InertText.neutral (inert_of_isPlainProperty plain)
  · exact neutral_quoteLiteral name

/-! ### Numbers -/

theorem inert_of_mem_digits {n : Nat} (mem : c ∈ Nat.toDigits 10 n) : Inert c :=
  inert_of_isDigit (Nat.isDigit_of_mem_toDigits (by decide) (by decide) mem)

theorem inertText_natRepr (n : Nat) : InertText n.repr := by
  intro c mem
  rw [Nat.toList_repr] at mem
  exact inert_of_mem_digits mem

theorem inertText_intRepr (n : Int) : InertText (toString n) := by
  rw [Int.toString_eq_repr, Int.repr_eq_if]
  split
  · exact inertText_natRepr _
  · exact InertText.append (by decide) (inertText_natRepr _)

theorem inert_of_mem_zeros {n : Nat} (mem : c ∈ List.replicate n '0') : Inert c := by
  rw [List.eq_of_mem_replicate mem]
  decide

/-- The layout of a decimal is made of digits, a point, a sign and the letter of the
exponent. -/
theorem inertText_layout (x : Binary64.Decimal) : InertText x.layout := by
  have digits : ∀ c ∈ Nat.toDigits 10 x.digits, Inert c := fun c => inert_of_mem_digits
  unfold Binary64.Decimal.layout
  dsimp only
  -- Four layouts: below one, a whole number, a fraction, and with an exponent.
  split
  · split
    · refine InertText.append (by decide) (inertText_ofList fun c mem => ?_)
      obtain zeros | digits := List.mem_append.1 mem
      · exact inert_of_mem_zeros zeros
      · exact inert_of_mem_digits digits
    · split
      · refine InertText.append (inertText_ofList fun c mem => ?_) (by decide)
        obtain digits | zeros := List.mem_append.1 mem
        · exact inert_of_mem_digits digits
        · exact inert_of_mem_zeros zeros
      · refine inertText_ofList fun c mem => ?_
        obtain whole | rest := List.mem_append.1 mem
        · exact inert_of_mem_digits (List.mem_of_mem_take whole)
        · obtain rfl | fraction := List.mem_cons.1 rest
          · decide
          · exact inert_of_mem_digits (List.mem_of_mem_drop fraction)
  · refine InertText.append (InertText.append (InertText.append ?_ (by decide)) ?_) ?_
    · split
      · decide
      · next digit same =>
          intro c mem
          rw [String.toList_singleton, List.mem_singleton] at mem
          rw [mem]
          exact digits digit (same ▸ List.mem_cons_self)
      · next digit rest _ same =>
          rw [same] at digits
          obtain ⟨first, later⟩ := List.forall_mem_cons.1 digits
          refine inertText_ofList (List.forall_mem_cons.2 ⟨first, List.forall_mem_cons.2 ⟨?_, later⟩⟩)
          decide
    · split
      · decide
      · decide
    · split
      · exact InertText.append (by decide) (inertText_natRepr _)
      · exact inertText_natRepr _

/-- A number is written with inert characters. -/
theorem inertText_floatText (x : Binary64) : InertText (Json.floatText x) := by
  have sign (negative : Bool) : InertText (if negative then "-" else "") := by
    cases negative <;> decide
  unfold Json.floatText Binary64.textWith
  split
  · decide
  · exact (sign _).append (by decide)
  · refine (sign _).append ?_
    unfold Binary64.magnitudeText
    split
    · decide
    · exact inertText_layout _

/-! ### JSON -/

theorem plain_of_mem_hexDigits {k n : Nat} (mem : c ∈ Text.hexDigits k n) :
    c ≠ '"' ∧ c ≠ '\\' := by
  induction k generalizing n with
  | zero => cases mem
  | succ k ih =>
      obtain earlier | last := List.mem_append.1 mem
      · exact ih earlier
      · rw [List.mem_singleton.1 last]
        exact ⟨Nat.digitChar_ne _ (by decide), Nat.digitChar_ne _ (by decide)⟩

theorem read_escapeUnit (n : Nat) :
    read (.literal '"' depth) (Json.escapeUnit n) = .literal '"' depth := by
  unfold Json.escapeUnit
  rw [read_cons, read_cons]
  exact read_literal_plain fun c => plain_of_mem_hexDigits

theorem read_escapeCode (c : Char) :
    read (.literal '"' depth) (Json.escapeCode c) = .literal '"' depth := by
  unfold Json.escapeCode
  dsimp only
  split
  · exact read_escapeUnit _
  · rw [read_append, read_escapeUnit, read_escapeUnit]

/-- A character of a JSON string stays in it. -/
theorem read_stringChar (ascii : Bool) (c : Char) :
    read (.literal '"' depth) (Json.stringChar ascii c) = .literal '"' depth := by
  unfold Json.stringChar
  split
  · rfl
  · next no_quote =>
      split
      · rfl
      · next no_escape =>
          have plain : ∀ d ∈ [c], d ≠ '"' ∧ d ≠ '\\' := by
            simpa using And.intro no_quote no_escape
          -- Short escapes are computed; the others are an escaped code, or the character itself.
          repeat' split
          all_goals first
            | rfl
            | exact read_escapeCode c
            | exact read_literal_plain plain

/-- A JSON string is neutral. -/
theorem neutral_stringText (ascii : Bool) (s : String) : Neutral (Json.stringText ascii s) := by
  unfold Neutral Json.stringText
  rw [String.toList_ofList, List.cons_append, read_cons, read_append]
  show read (read (.literal '"' 0) _) _ = _
  rw [read_literal_flatMap (read_stringChar ascii)]
  rfl

theorem neutral_scalarText {s : Scalar} {text : String}
    (h : Json.scalarText .oneLine s = .ok text) : Neutral text := by
  cases s with
  | null =>
      cases h
      decide
  | bool b =>
      cases h
      cases b <;> decide
  | int n =>
      cases h
      exact (inertText_intRepr n).neutral
  | float x =>
      cases h
      exact (inertText_floatText x).neutral
  | string s =>
      cases h
      exact neutral_stringText _ s
  | _ => cases h

theorem neutral_keyText {s : Scalar} {text : String}
    (h : Json.keyText .oneLine s = .ok text) : Neutral text := by
  cases s with
  | null =>
      cases h
      decide
  | bool b =>
      cases h
      cases b <;> decide
  | int n =>
      cases h
      exact neutral_stringText _ _
  | float x =>
      cases h
      exact neutral_stringText _ _
  | string s =>
      cases h
      exact neutral_stringText _ s
  | _ => cases h

/-- Neutral parts stay neutral between brackets. -/
theorem neutral_bracketed {opening closing : String} {parts : List String} (level : Nat)
    (opens : read (.code 0) opening.toList = .code 1)
    (closes : read (.code 1) closing.toList = .code 0) (each : ∀ part ∈ parts, Neutral part) :
    Neutral (Json.bracketed .oneLine level opening closing parts) := by
  have comma : Neutral ", " := by decide
  unfold Json.bracketed
  split
  · have nothing : Neutral "" := rfl
    simpa using nothing.between opens closes
  · have inside := (comma.intercalate each).between opens closes
    simpa [Json.lineBreak, Json.Style.oneLine] using inside

mutual

/-- **JSON is neutral**: brackets are balanced, and whatever is in a string stays in it. -/
theorem neutral_valueText : (level : Nat) → (v : Value) → {text : String} →
    Json.valueText .oneLine level v = .ok text → Neutral text
  | _, .scalar s, text, h => neutral_scalarText h
  | _, .set _, text, h => nomatch h
  | level, .pair a b, text, h => by
      obtain ⟨first, ha, h⟩ := bind_eq_ok.1 h
      obtain ⟨second, hb, h⟩ := bind_eq_ok.1 h
      cases h
      exact neutral_bracketed level rfl rfl (List.forall_mem_cons.2
        ⟨neutral_valueText _ a ha, List.forall_mem_singleton.2 (neutral_valueText _ b hb)⟩)
  | level, .list xs, text, h => by
      obtain ⟨parts, inner, h⟩ := bind_eq_ok.1 h
      cases h
      exact neutral_bracketed level rfl rfl (neutral_itemTexts (level + 1) xs inner)
  | level, .object es, text, h => by
      obtain ⟨parts, inner, h⟩ := bind_eq_ok.1 h
      cases h
      exact neutral_bracketed level rfl rfl (neutral_entryTexts (level + 1) es inner)
  | _, .aliasTo _, text, h => nomatch h

theorem neutral_itemTexts : (level : Nat) → (xs : List Value) → {texts : List String} →
    Json.itemTexts .oneLine level xs = .ok texts → ∀ text ∈ texts, Neutral text
  | _, [], texts, h => by
      cases h
      exact nofun
  | level, v :: rest, texts, h => by
      obtain ⟨text, first, h⟩ := bind_eq_ok.1 h
      obtain ⟨others, later, h⟩ := bind_eq_ok.1 h
      cases h
      exact List.forall_mem_cons.2
        ⟨neutral_valueText level v first, neutral_itemTexts level rest later⟩

theorem neutral_entryTexts : (level : Nat) → (es : List (Scalar × Value)) →
    {texts : List String} → Json.entryTexts .oneLine level es = .ok texts →
    ∀ text ∈ texts, Neutral text
  | _, [], texts, h => by
      cases h
      exact nofun
  | level, (k, v) :: rest, texts, h => by
      obtain ⟨key, named, h⟩ := bind_eq_ok.1 h
      obtain ⟨text, first, h⟩ := bind_eq_ok.1 h
      obtain ⟨others, later, h⟩ := bind_eq_ok.1 h
      cases h
      have colon : Neutral ": " := by decide
      exact List.forall_mem_cons.2
        ⟨((neutral_keyText named).append colon).append (neutral_valueText level v first),
          neutral_entryTexts level rest later⟩

end

/-- The literal of a value is neutral. -/
theorem neutral_literalText {g : Anchors} {v : Value} {text : String}
    (h : literalText g v = .ok text) : Neutral text := by
  unfold literalText at h
  split at h
  · cases h
    exact neutral_quoteLiteral _
  · cases written : Json.write .oneLine g v with
    | error refusal =>
        rw [written] at h
        cases h
    | ok found =>
        rw [written] at h
        cases h
        exact neutral_valueText 0 _ written

end SchemaCodegen.TypeScript
