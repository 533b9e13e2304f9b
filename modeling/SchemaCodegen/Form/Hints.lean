import SchemaCodegen.Data.Shown
import SchemaCodegen.Form.InputKind
import SchemaCodegen.Identifier

/-!
# Presentation hints

How a property is presented in a form.  The extensions `x-ui-label`, `x-ui-placeholder`,
`x-ui-help`, `x-ui-order` and `x-ui-hidden` win over what title, description, example and
name suggest.  All extensions of this kind are handed on as they are.
-/

namespace SchemaCodegen

/-- How a property is presented. -/
structure Hints where
  inputKind : String
  label : String
  placeholder : Option String
  helpText : Option String
  order : Option Int
  hidden : Bool
  readOnly : Bool
  writeOnly : Bool
  deprecated : Bool
  extensions : Entries

/-- What the extensions are named by at the front. -/
def extensionLead : String := "x-ui-"

/-- The presentation extensions of a schema.  A key that is no text cannot be told. -/
def extensionsOf (es : Entries) : Except Failure Entries := do
  let kept ← es.mapM fun e =>
    match e.1 with
    | .string s => .ok (s.startsWith extensionLead, e)
    | .bytes _ => .error .wrongKind
    | _ => .error .notObject
  pure ((kept.filter (·.1)).map (·.2))

/-- The label that a name suggests. -/
def suggestedLabel (name : Scalar) : Except Failure Value :=
  match name with
  | .string s => .ok (.string (label s))
  | _ => .error .wrongKind

/-- The label of a property, which may be data that is no text. -/
def labelOf (g : Anchors) (es : Entries) (name : Scalar) : Except Failure Value :=
  match g.something? es "x-ui-label" with
  | some v => .ok v
  | none =>
    match (Entries.string? es "title").filter fun s => !s.isEmpty with
    | some title => .ok (.string title)
    | none => suggestedLabel name

/-- The placeholder that an example suggests: a text or a number. -/
def exampleText? (es : Entries) : Option String :=
  match Entries.get? es "example" with
  | some (.string s) => some s
  | some (.int n) => some (toString n)
  | some (.float x) => some x.text
  | _ => none

/-- The text under an extension, or the one that is suggested otherwise. -/
def extensionText (g : Anchors) (es : Entries) (key field : String) (suggested : Option String) :
    Checked (Option String) :=
  match g.something? es key with
  | some v => ((readText v).under (.key field)).map some
  | none => .valid suggested

/-- The place of a property among others. -/
def orderOf? (es : Entries) : Option Int :=
  match Entries.get? es "x-ui-order" with
  | some (.int n) => some n
  | _ => none

/-- The hints for a property. -/
def hintsOf (g : Anchors) (options : FormOptions) (schema : Value) (name : Scalar) :
    Traced Hints := do
  let es := (g.entries? schema).getD []
  let label ← Traced.ofExcept (labelOf g es name)
  let schema := if g.isObject schema then schema else .object []
  let kind ← inputKindOf g options schema es name
  let extensions ← Traced.ofExcept (extensionsOf es)
  let withTexts (label : String) (placeholder help : Option String) : Hints :=
    { inputKind := kind
      label := label
      placeholder := placeholder
      helpText := help
      order := orderOf? es
      hidden := Entries.isSet es "x-ui-hidden"
      readOnly := Entries.isSet es "readOnly"
      writeOnly := Entries.isSet es "writeOnly"
      deprecated := Entries.isSet es "deprecated"
      extensions := extensions }
  Traced.ofExcept (withTexts <$> (readText label).under (.key "label")
    <*> extensionText g es "x-ui-placeholder" "placeholder" (exampleText? es)
    <*> extensionText g es "x-ui-help" "help_text" (Entries.string? es "description")).toExcept

end SchemaCodegen
