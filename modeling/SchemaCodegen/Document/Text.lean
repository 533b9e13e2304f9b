import SchemaCodegen.Yaml.Data

/-!
# Reading a document

A document is one JSON or YAML text whose value is an object.  A text of unknown form is
tried as JSON first, which is the stricter form, and then as YAML; when neither can read it,
both say why.

An integer with too many digits, or a text that its own tag refuses, is no fault of the form
and ends the reading at once.
-/

namespace SchemaCodegen

/-- The form that a text is said to have. -/
inductive TextForm where
  | unknown
  | json
  | yaml
deriving DecidableEq, Repr

/-- The form that a word names; other words say nothing. -/
def TextForm.ofWord (word : String) : TextForm :=
  if word == "json" then .json else if word == "yaml" then .yaml else .unknown

/-- A document: an object with its anchors. -/
structure Document where
  anchors : Anchors
  value : Value

/-- The word for the kind of a document that is no object. -/
def Value.kindWord : Value → String
  | .null => "empty document"
  | .bool _ => "bool"
  | .int _ => "int"
  | .float _ => "float"
  | .string _ => "str"
  | .scalar (.date _) => "date"
  | .scalar (.timestamp _) => "datetime"
  | .scalar (.bytes _) => "bytes"
  | .set _ => "set"
  | .pair _ _ => "tuple"
  | .list _ => "list"
  | .object _ => "dict"
  | .aliasTo _ => "dict"

/-- A document must be an object. -/
def Document.ofValue (g : Anchors) (v : Value) : Except Failure Document :=
  if g.isObject v then .ok ⟨g, v⟩
  else .error (.document (.notObject (g.look v).kindWord))

/-- A document as YAML, behind a fault of the text as JSON if it was tried. -/
def readYaml (text : String) (json : Option Json.Fault) : Except Failure Document :=
  match Yaml.read text with
  | .ok (g, v) => Document.ofValue g v
  | .error (.failure f) => .error f
  | .error (.problem p) => .error (.document (.unreadable text json p.text))

/-- The document that a text holds. -/
def readDocument (text : String) (form : TextForm) : Except Failure Document :=
  if Text.isBlankText text then .error (.document .empty)
  else if form = .yaml then readYaml text none
  else match Json.read text with
    | .ok v => Document.ofValue {} v
    | .error fault =>
      if fault.problem = .tooManyDigits then .error .unreadable
      else if form = .json then .error (.document (.badJson text fault))
      else readYaml text (some fault)

end SchemaCodegen
