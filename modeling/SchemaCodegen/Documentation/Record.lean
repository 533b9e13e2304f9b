import SchemaCodegen.Options.Checked
import SchemaCodegen.Schema.Classify

/-!
# Documentation of a schema

The keywords of a schema that document it, in one record, with the constraints that belong
to its type.
-/

namespace SchemaCodegen

/-- What documents a schema. -/
structure Documentation where
  description : String := ""
  title : String := ""
  example_ : Value := .null
  examples : List Value := []
  deprecated : Bool := false
  readOnly : Bool := false
  writeOnly : Bool := false
  format : Option String := none
  default_ : Value := .null
  constraints : Entries := []

/-- The constraints that belong to a type. -/
def constraintKeywords : String → List String
  | "string" => ["minLength", "maxLength", "pattern", "enum"]
  | "number" => ["minimum", "maximum", "exclusiveMinimum", "exclusiveMaximum", "multipleOf"]
  | "integer" => ["minimum", "maximum", "exclusiveMinimum", "exclusiveMaximum", "multipleOf"]
  | "array" => ["minItems", "maxItems", "uniqueItems"]
  | "object" => ["minProperties", "maxProperties"]
  | _ => []

/-- The constraints of a schema that are given. -/
def givenConstraints (es : Entries) (type : String) : Entries :=
  (constraintKeywords type).filterMap fun key =>
    ((Entries.get? es key).filter fun v => !v.isNull).map fun v => (.string key, v)

/-- A text under a key; what counts as nothing is an empty text. -/
def textOrEmpty (g : Anchors) (es : Entries) (key : String) : Checked String :=
  match g.something? es key with
  | some v => (readText v).under (.key key)
  | none => .valid ""

/-- What documents a schema; nothing does where it is no object. -/
def documentationOf (g : Anchors) (schema : Value) : Traced Documentation :=
  match g.entries? schema with
  | none => pure {}
  | some es => do
    let node ← Node.ofSchema g schema
    let withTexts (description title : String) : Documentation :=
      { description := description
        title := title
        example_ := (Entries.get? es "example").getD .null
        examples := (g.listAt? es "examples").getD []
        deprecated := Entries.isSet es "deprecated"
        readOnly := Entries.isSet es "readOnly"
        writeOnly := Entries.isSet es "writeOnly"
        format := node.facts.format
        default_ := (Entries.get? es "default").getD .null
        constraints := givenConstraints es (node.facts.type.getD "") }
    Traced.ofExcept (withTexts <$> textOrEmpty g es "description"
      <*> textOrEmpty g es "title").toExcept

end SchemaCodegen
