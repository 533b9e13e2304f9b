import SchemaCodegen.Identifier

/-!
# Type expressions

The types of generated code are expressions of their own, `TypeExpr`, and are written as
text last.  Three rules of the text depend on the text written so far:

* `parenthesize` — an item of an array, or a member of an intersection, stands in
  parentheses when an operator occurs at its top level, that is, outside brackets and
  string literals;
* `withNull` — `| null` is added unless the text admits `null` already;
* an object type is indented by its depth, the lines of its properties one step deeper.
-/

namespace SchemaCodegen.TypeScript

/-! ### Rules of the text -/

/-- Where a reader is in a text: in code below some brackets, in a literal, or behind a
backslash in a literal. -/
inductive Position where
  | code (depth : Int)
  | literal (quote : Char) (depth : Int)
  | escaped (quote : Char) (depth : Int)
deriving DecidableEq, Repr

/-- The position behind a character. -/
def Position.next (c : Char) : Position → Position
  | .code depth =>
    if c == '\'' || c == '"' then .literal c depth
    else if "(\x7b[<".toList.contains c then .code (depth + 1)
    else if ")\x7d]>".toList.contains c then .code (depth - 1)
    else .code depth
  | .literal quote depth =>
    if c == '\\' then .escaped quote depth
    else if c == quote then .code depth
    else .literal quote depth
  | .escaped quote depth => .literal quote depth

/-- One of the operators occurs in code outside all brackets. -/
def hasTopLevel (operators : List Char) : Position → List Char → Bool
  | _, [] => false
  | p, c :: rest => (p == .code 0 && operators.contains c) || hasTopLevel operators (p.next c) rest

/-- A text, in parentheses when one of the operators occurs at its top level. -/
def parenthesize (operators : List Char) (text : String) : String :=
  if hasTopLevel operators (.code 0) text.toList then "(" ++ text ++ ")" else text

/-- A type that also admits `null`. -/
def withNull (text : String) : String :=
  if text == "null" || text.endsWith "| null" then text else text ++ " | null"

/-- Indentation of a depth. -/
def indentation (depth : Nat) : String := String.ofList (List.replicate (2 * depth) ' ')

/-- A text in the middle of a comment: on one line, and without an end of a comment. -/
def commentText (s : String) : String :=
  String.ofList (escapeEnd (Text.oneLine s).toList)
where
  /-- A backslash into each end of a comment. -/
  escapeEnd : List Char → List Char
    | '*' :: '/' :: rest => '*' :: '\\' :: '/' :: escapeEnd rest
    | c :: rest => c :: escapeEnd rest
    | [] => []

/-! ### Expressions -/

mutual

/-- A type of generated code.  A `literals` type lists the texts of its literals. -/
inductive TypeExpr where
  | any
  | openRecord
  | builtin (text : String)
  | named (schema : String)
  | array (item : TypeExpr)
  | record (values : TypeExpr)
  | structure (fields : List Field) (index : Option TypeExpr)
  | literals (texts : List String)
  | intersection (members : List TypeExpr)
  | union (members : List TypeExpr)
  | nullable (inner : TypeExpr)

/-- A property of an object type. -/
inductive Field where
  | mk (comment : Option String) (readOnly : Bool) (name : String) (isOptional : Bool)
      (type : TypeExpr)

end

instance : Inhabited TypeExpr := ⟨.any⟩

/-- The type of anything. -/
def anyText : String := "any"

/-- The type of an object with any properties. -/
def openRecordText : String := "Record<string, any>"

/-- Texts joined by an operator; anything, when there are none. -/
def joined (operator : String) (texts : List String) : String :=
  if texts.isEmpty then anyText else operator.intercalate texts

mutual

/-- The text of a type at a depth of indentation. -/
def TypeExpr.text (depth : Nat) : TypeExpr → String
  | .any => anyText
  | .openRecord => openRecordText
  | .builtin text => text
  | .named schema => typeName schema
  | .array item => parenthesize ['|', '&'] (item.text depth) ++ "[]"
  | .record values => "Record<string, " ++ values.text depth ++ ">"
  | .structure fields index =>
    "\n".intercalate
      ("\x7b" :: fieldTexts (depth + 1) fields
        ++ (match index with
          | some type => [indentation (depth + 1) ++ "[key: string]: " ++ type.text (depth + 1) ++ ";"]
          | none => [])
        ++ [indentation depth ++ "\x7d"])
  | .literals texts => joined " | " texts
  | .intersection members => joined " & " (memberTexts ['|'] depth members)
  | .union members => joined " | " (memberTexts [] depth members)
  | .nullable inner => withNull (inner.text depth)

/-- The texts of members, in parentheses where one of the operators asks for them. -/
def memberTexts (operators : List Char) (depth : Nat) : List TypeExpr → List String
  | [] => []
  | e :: rest => parenthesize operators (e.text depth) :: memberTexts operators depth rest

/-- The lines of properties. -/
def fieldTexts (depth : Nat) : List Field → List String
  | [] => []
  | .mk comment readOnly name isOptional type :: rest =>
    (match comment with
      | some text => [indentation depth ++ "/** " ++ commentText text ++ " */"]
      | none => [])
    ++ (indentation depth ++ (if readOnly then "readonly " else "") ++ propertyName name
        ++ (if isOptional then "?" else "") ++ ": " ++ type.text depth ++ ";")
    :: fieldTexts depth rest

end

/-- Without operators nothing is put in parentheses. -/
theorem parenthesize_nil (text : String) : parenthesize [] text = text := by
  have : ∀ (cs : List Char) (p : Position), hasTopLevel [] p cs = false := by
    intro cs
    induction cs with
    | nil => intro p; rfl
    | cons c rest ih => intro p; simp [hasTopLevel, ih]
  simp [parenthesize, this]

end SchemaCodegen.TypeScript
