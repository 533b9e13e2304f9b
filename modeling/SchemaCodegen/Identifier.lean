import SchemaCodegen.Text.Blank

/-!
# Identifiers and literals of generated code

Schema names are free text (`API_Response`, `user-profile.v2`, `200Response`); generated
code needs identifiers.  A name is cut into **words**, the runs of ASCII letters and
digits, and

* `pascalCase` joins the words, each with its first letter in upper case and the rest as
  it is, so that acronyms keep their letters; a name that starts with a digit gets
  `Schema` in front, and one without any word is `AnonymousSchema`;
* `typeName` and `validatorName` are the identifiers of a schema's type and validator;
* `label` joins the words by spaces for people to read, after cutting at each step from a
  lower-case letter or digit to an upper-case letter.

Property names that are no identifiers, and all string literals, are written between
single quotes (`quoteLiteral`), where the quote and the backslash are escaped.
-/

namespace SchemaCodegen

/-- An upper-case ASCII letter. -/
def isUpper (c : Char) : Bool := 'A' ≤ c && c ≤ 'Z'

/-- A lower-case ASCII letter. -/
def isLower (c : Char) : Bool := 'a' ≤ c && c ≤ 'z'

/-- An ASCII digit. -/
def isNumeral (c : Char) : Bool := '0' ≤ c && c ≤ '9'

/-- A character of a word: an ASCII letter or digit. -/
def isWordChar (c : Char) : Bool := isUpper c || isLower c || isNumeral c

/-- An ASCII letter in upper case; any other character as it is. -/
def toUpper (c : Char) : Char := if isLower c then Char.ofNat (c.toNat - 32) else c

/-- The words of a name. -/
def nameWords (cs : List Char) : List (List Char) :=
  Text.splitRuns (fun c => !isWordChar c) [] cs

/-- A word with its first letter in upper case. -/
def capitalize : List Char → List Char
  | [] => []
  | c :: rest => toUpper c :: rest

/-- The characters of a name in Pascal case. -/
def pascalChars (cs : List Char) : List Char :=
  match (nameWords cs).flatMap capitalize with
  | [] => "AnonymousSchema".toList
  | c :: rest => if isNumeral c then "Schema".toList ++ c :: rest else c :: rest

/-- A name in Pascal case. -/
def pascalCase (name : String) : String := String.ofList (pascalChars name.toList)

/-- The identifier of the type of a schema. -/
def typeName (name : String) : String := pascalCase name

/-- The identifier of the validator of a schema. -/
def validatorName (name : String) : String := pascalCase name ++ "Schema"

/-- A space at each step from a lower-case letter or digit to an upper-case letter. -/
def cutCamel : List Char → List Char
  | c :: d :: rest =>
    if (isLower c || isNumeral c) && isUpper d then c :: ' ' :: cutCamel (d :: rest)
    else c :: cutCamel (d :: rest)
  | cs => cs

/-- A name as a label for people. -/
def label (name : String) : String :=
  " ".intercalate ((nameWords (cutCamel name.toList)).map fun w => String.ofList (capitalize w))

/-! ### Literals and property names -/

/-- One character of a literal: the quote and the backslash behind a backslash. -/
def literalChar (c : Char) : List Char := if c == '\\' || c == '\'' then ['\\', c] else [c]

/-- A string literal between single quotes. -/
def quoteLiteral (value : String) : String :=
  String.ofList ('\'' :: value.toList.flatMap literalChar ++ ['\''])

/-- A character that can start an identifier. -/
def startsIdentifier (c : Char) : Bool := isUpper c || isLower c || c == '_' || c == '$'

/-- A character that can stand inside an identifier. -/
def inIdentifier (c : Char) : Bool := startsIdentifier c || isNumeral c

/-- The characters are an identifier, possibly with one line feed behind it, which a
property may carry unquoted. -/
def isPlainProperty (cs : List Char) : Bool :=
  let body := match cs.reverse with
    | '\n' :: rest => rest.reverse
    | _ => cs
  match body with
  | [] => false
  | c :: rest => startsIdentifier c && rest.all inIdentifier

/-- A property name: as it is when it is an identifier, otherwise as a literal. -/
def propertyName (name : String) : String :=
  if isPlainProperty name.toList then name else quoteLiteral name

/-- A word keeps its acronyms, and a leading digit is covered. -/
example : pascalCase "API_Response" = "APIResponse" ∧ pascalCase "user-profile.v2" = "UserProfileV2"
    ∧ pascalCase "200Response" = "Schema200Response" ∧ pascalCase "--" = "AnonymousSchema" := by
  decide +kernel

/-- Labels are cut at capital letters. -/
example : label "firstName" = "First Name" ∧ label "user_id2Name" = "User Id2 Name" := by
  decide +kernel

end SchemaCodegen
