import SchemaCodegen.Compose.AllOf
import SchemaCodegen.Form.Hints

/-!
# Form fields

The fields of a form for an object schema: one for each property that is neither hidden
nor, unless asked for, read-only.  A property with an order stands where its order puts it;
those without one keep document order, behind all orders below the number of properties.
-/

namespace SchemaCodegen

/-- A field of a form. -/
structure FormField where
  name : String
  label : String
  inputKind : String
  required : Bool
  nullable : Bool
  type : Option String
  format : Option String
  description : Option String
  placeholder : Option String
  default_ : Value
  options : List Value
  constraints : Entries

/-- The keywords that constrain an input, each with the name of the constraint. -/
def inputConstraints : List (String × String) :=
  [("minimum", "min"), ("maximum", "max"), ("multipleOf", "step"), ("minLength", "minLength"),
   ("maxLength", "maxLength"), ("pattern", "pattern"), ("minItems", "minItems"),
   ("maxItems", "maxItems")]

/-- The constraints of a schema, by their names. -/
def constraintsOf (es : Entries) : Entries :=
  inputConstraints.filterMap fun c => (Entries.get? es c.1).map fun v => (.string c.2, v)

/-- A schema with references followed, where there is a dictionary to follow them in. -/
def followed (g : Anchors) (dictionary : Option Entries) (schema : Value) :
    Traced (Option Value) :=
  match dictionary with
  | some es => followReference g schema (.object es)
  | none => pure (if g.isObject schema then some schema else none)

/-- The field of a property, with the key to sort it by; none, where it is left out. -/
def fieldOf? (g : Anchors) (dictionary : Option Entries) (options : FormOptions)
    (required : List String) (count : Nat) (p : (Scalar × Value) × Nat) :
    Traced (Option (Int × FormField)) := do
  let ((name, given), index) := p
  let schema := (← followed g dictionary given).getD (.object [])
  let es := (g.entries? schema).getD []
  if Entries.isSet es "readOnly" && !options.includeReadOnly then pure none
  else
    let hints ← hintsOf g options schema name
    if hints.hidden then pure none
    else
      let node ← Node.ofSchema g schema
      match name with
      | .string text =>
        let position := hints.order.getD (count + index)
        pure (some (position,
          { name := text
            label := hints.label
            inputKind := hints.inputKind
            required := required.contains text
            nullable := node.facts.nullable
            type := node.facts.type
            format := node.facts.format
            description := hints.helpText
            placeholder := hints.placeholder
            default_ := (Entries.get? es "default").getD .null
            options := (g.listAt? es "enum").getD []
            constraints := constraintsOf es }))
      | _ => Traced.fail (.record [⟨[.key "name"], .notString⟩])

/-- The fields of the properties of an object schema. -/
def fieldsOfProperties (g : Anchors) (dictionary : Option Entries) (options : FormOptions)
    (required : List String) (properties : Entries) : Traced (List FormField) := do
  let found ← properties.zipIdx.mapM (fieldOf? g dictionary options required properties.length)
  pure (((found.filterMap id).mergeSort fun a b => a.1 ≤ b.1).map (·.2))

/-- The fields of a form for a schema. -/
def formFields (g : Anchors) (schema : Value) (dictionary : Option Entries)
    (options : FormOptions) : Traced (List FormField) := do
  match ← followed g dictionary schema with
  | none =>
    match reference? g schema with
    | some ref =>
      Traced.note (.noFormFor ref)
      pure []
    | none => pure []
  | some resolved =>
    let es ← mergeAllOf g resolved dictionary
    match g.objectAt? es "properties" with
    | some properties =>
      fieldsOfProperties g dictionary options (requiredNames g es) properties
    | none => pure []

end SchemaCodegen
