import SchemaCodegen.Json.Writer
import SchemaCodegen.Options.Basic
import SchemaCodegen.Reference.Occurrences
import SchemaCodegen.TypeScript.Expression

/-!
# The type of a schema

`TypeExpr.ofNode` gives the type of a schema by its shape.  A reference becomes the
identifier of its target and is never replaced by the target; one whose target is not in
the dictionary becomes `any` with a notice, or a failure when references are strict.  What
admits `null` gets it once, at the end.
-/

namespace SchemaCodegen.TypeScript

/-- What the type of a schema depends on besides the schema.  Without a dictionary every
canonical reference is trusted. -/
structure Context where
  anchors : Anchors
  dictionary : Option Entries
  options : TypeOptions
  strict : Bool

/-! ### Literals and primitives -/

/-- Why data has no text as a literal, as a failure. -/
def refusalFailure : Json.Refusal → Failure
  | .noText => .wrongKind
  | .containsItself => .unreadable

/-- Data as a literal of generated code. -/
def literalText (g : Anchors) (v : Value) : Except Failure String :=
  match v with
  | .string s => .ok (quoteLiteral s)
  | v => (Json.write .oneLine g v).mapError refusalFailure

/-- The values that an enumeration is given by: the items of a list, the characters of a
text, the keys of an object. -/
def enumerationValues (g : Anchors) (v : Value) : Except Failure (List Value) :=
  match g.look v with
  | .list xs => .ok xs
  | .object es => .ok ((Entries.keys es).map Value.scalar)
  | .set xs => .ok (xs.map Value.scalar)
  | .pair a b => .ok [a, b]
  | .string s => .ok (s.toList.map fun c => .string (String.singleton c))
  | .scalar (.bytes octets) => .ok (octets.map fun b => .int b.toNat)
  | .null | .bool false | .int 0 => .ok []
  | .float x => if x.compareInt? 0 == some .eq then .ok [] else .error .wrongKind
  | _ => .error .wrongKind

/-- The union of the literals of an enumeration. -/
def enumeration (g : Anchors) (values : List Value) : Except Failure TypeExpr :=
  (values.mapM (literalText g)).map .literals

/-- The formats that are plain strings. -/
def stringFormats : List String :=
  ["date", "date-time", "time", "uuid", "email", "uri", "url", "hostname", "ipv4", "ipv6",
   "password"]

/-- The formats of binary data. -/
def binaryFormats : List String := ["binary", "byte"]

/-- The type that a format gives, if it is known for the type. -/
def formatType? (options : TypeOptions) (type : Option String) (format : String) :
    Option TypeExpr :=
  let among (types : List String) := match type with
    | some t => types.contains t
    | none => true
  if among ["string"] && stringFormats.contains format then some (.builtin "string")
  else if among ["string"] && binaryFormats.contains format then
    some (.builtin options.binaryType)
  else if among ["integer", "number"] && format == "int64" then
    some (.builtin options.int64Type)
  else none

/-- The type of a type without a format. -/
def bareType : String → TypeExpr
  | "string" => .builtin "string"
  | "number" => .builtin "number"
  | "integer" => .builtin "number"
  | "boolean" => .builtin "boolean"
  | "null" => .builtin "null"
  | "array" => .builtin "any[]"
  | "object" => .openRecord
  | _ => .any

/-- The type of a primitive. -/
def primitiveType (options : TypeOptions) (type format : Option String) : TypeExpr :=
  let byFormat := format.bind fun f => if f.isEmpty then none else formatType? options type f
  byFormat.getD ((type.map bareType).getD .any)

/-! ### Schemas -/

/-- The name that a reference gives in a dictionary. -/
def knownName? (dictionary : Option Entries) (ref : String) : Option String :=
  (schemaName? ref).filter fun name => (dictionary.map (Entries.has · name)).getD true

/-- The type of a reference. -/
def Context.reference (c : Context) (ref : String) : Traced TypeExpr :=
  match knownName? c.dictionary ref with
  | some name => pure (.named name)
  | none =>
    if c.strict then Traced.fail (.reference ref)
    else do
      Traced.note (.typeFallsBack ref)
      pure .any

/-- A type that admits `null` where the facts say so. -/
def admitNull (facts : Facts) (e : TypeExpr) : TypeExpr :=
  if facts.nullable then .nullable e else e

/-- The description of a schema, if it says anything. -/
def spokenDescription? (node : Node) : Option String :=
  node.description?.filter fun s => !Text.isBlankText s

mutual

/-- The type of a schema. -/
def TypeExpr.ofNode (c : Context) : Node → Traced TypeExpr
  | .absent => pure .any
  | .unknown f => pure (admitNull f .any)
  | .empty f => pure (admitNull f .openRecord)
  | .reference f ref => do pure (admitNull f (← c.reference ref))
  | .array f none => pure (admitNull f (.array .any))
  | .array f (some items) => do pure (admitNull f (.array (← TypeExpr.ofNode c items)))
  | .object f [] _ (.schema node) => do
    let values ← TypeExpr.ofNode c node
    pure (admitNull f (if node.kind == .empty then .openRecord else .record values))
  | .object f [] _ _ => pure (admitNull f .openRecord)
  | .object f (p :: ps) required additional => do
    let fields ← fieldsOf c f required (p :: ps)
    let index ← indexOf c additional
    pure (admitNull f (.structure fields index))
  | .enumeration f values => do
    pure (admitNull f (← Traced.ofExcept (enumeration c.anchors values)))
  | .composition f .allOf members => do
    pure (admitNull f (.intersection (← typesOf c members)))
  | .composition f _ members => do pure (admitNull f (.union (← typesOf c members)))
  | .primitive f => pure (admitNull f (primitiveType c.options f.type f.format))

/-- The types of schemas. -/
def typesOf (c : Context) : List Node → Traced (List TypeExpr)
  | [] => pure []
  | node :: rest => do
    let e ← TypeExpr.ofNode c node
    let es ← typesOf c rest
    pure (e :: es)

/-- The properties of an object type, which all admit `null` if the object does. -/
def fieldsOf (c : Context) (facts : Facts) (required : List String) :
    List (String × Node) → Traced (List Field)
  | [] => pure []
  | (name, node) :: rest => do
    let e ← TypeExpr.ofNode c node
    let fields ← fieldsOf c facts required rest
    pure (.mk (spokenDescription? node) (node.isSet "readOnly") name (!required.contains name)
      (admitNull facts e) :: fields)

/-- The type of further properties, if they are open. -/
def indexOf (c : Context) : Additional → Traced (Option TypeExpr)
  | .unstated => pure none
  | .flag allowed => pure (if allowed then some .any else none)
  | .schema node => do
    let e ← TypeExpr.ofNode c node
    pure (some (if node.kind == .empty then .any else e))

end

/-- The type expression of a schema. -/
def typeOf (c : Context) (schema : Value) : Traced TypeExpr := do
  TypeExpr.ofNode c (← Node.ofSchema c.anchors schema)

/-- The type expression of a schema, as text. -/
def typeText (c : Context) (schema : Value) : Traced String := do
  pure ((← typeOf c schema).text 0)

end SchemaCodegen.TypeScript
