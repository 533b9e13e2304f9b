import SchemaCodegen.Options.Basic
import SchemaCodegen.Schema.Classify
import SchemaCodegen.Text.Search

/-!
# Input kinds

Which kind of input a property gets in a form.  The first rule that applies decides:

1. an extension of the schema that names a kind;
2. a format that asks for one: files, dates and times, email and web addresses, passwords;
3. a name with `password` in it;
4. a list of values: a few as radio buttons, more in a selection;
5. a truth value;
6. a long text, or a name that suggests one;
7. a colour, by format or name;
8. a number, with both bounds as a range;
9. a line of text.

Names are compared in lower case.  The words looked for consist of letters that no
character beyond ASCII has as its lower case, so the ASCII letters decide.
-/

namespace SchemaCodegen

/-- The kinds of input that the rules give. -/
inductive InputKind where
  | text | textarea | number | range | checkbox | radio | select | date | datetime | time
  | email | url | password | file | color
deriving DecidableEq, Repr

/-- The name of a kind. -/
def InputKind.name : InputKind → String
  | .text => "text"
  | .textarea => "textarea"
  | .number => "number"
  | .range => "range"
  | .checkbox => "checkbox"
  | .radio => "radio"
  | .select => "select"
  | .date => "date"
  | .datetime => "datetime"
  | .time => "time"
  | .email => "email"
  | .url => "url"
  | .password => "password"
  | .file => "file"
  | .color => "color"

/-- The kind that a format asks for. -/
def kindOfFormat? : String → Option InputKind
  | "binary" => some .file
  | "byte" => some .file
  | "date" => some .date
  | "date-time" => some .datetime
  | "time" => some .time
  | "email" => some .email
  | "uri" => some .url
  | "url" => some .url
  | "password" => some .password
  | _ => none

/-- The words in a name that suggest a text of several lines. -/
def multilineWords : List String := ["description", "note", "comment", "content", "body"]

/-- The kind that a list of values asks for. -/
def kindOfValues? (options : FormOptions) (values : List Value) : Option InputKind :=
  if values.isEmpty then none
  else if (values.length : Int) ≤ options.radioMaxOptions then some .radio
  else some .select

/-- The greatest length of a text is above the threshold. -/
def isLong (options : FormOptions) (es : Entries) : Bool :=
  match (Entries.get? es "maxLength").bind Value.count? with
  | some n => options.multilineThreshold < n
  | none => false

/-- A keyword is there and not `null`. -/
def isGiven (es : Entries) (key : String) : Bool :=
  match Entries.get? es key with
  | some v => !v.isNull
  | none => false

/-- The kind by the rules, for a property with the given facts and a name in lower case. -/
def kindByRules (g : Anchors) (options : FormOptions) (facts : Facts) (name : String) :
    InputKind :=
  let es := facts.keywords
  let numeric := facts.type == some "number" || facts.type == some "integer"
  let rules : List (Option InputKind) :=
    [facts.format.bind kindOfFormat?,
     if Text.contains name "password" then some .password else none,
     (g.listAt? es "enum").bind (kindOfValues? options),
     if facts.type == some "boolean" then some .checkbox else none,
     if (facts.type == some "string" && isLong options es)
         || multilineWords.any (Text.contains name) then some .textarea else none,
     if facts.format == some "color" || Text.contains name "color" then some .color else none,
     if numeric then
       some (if isGiven es "minimum" && isGiven es "maximum" then .range else .number)
     else none]
  (rules.findSome? id).getD .text

/-- The kind of input for an object schema of a property. -/
def inputKindOf (g : Anchors) (options : FormOptions) (schema : Value) (es : Entries)
    (name : Scalar) : Traced String :=
  match (Entries.string? es options.uiExtension).filter fun s => !s.isEmpty with
  | some kind => pure kind
  | none => do
    let node ← Node.ofSchema g schema
    match name with
    | .string s =>
      pure (kindByRules g options { node.facts with keywords := es } (asciiLower s)).name
    | _ => Traced.fail .notObject

/-- The kind of input for a property; any other data than an object is a line of text. -/
def inputKind (g : Anchors) (options : FormOptions) (schema : Value) (name : Scalar) :
    Traced String :=
  match g.entries? schema with
  | some es => inputKindOf g options schema es name
  | none => pure InputKind.text.name

end SchemaCodegen
