import SchemaCodegen.Text.Search
import SchemaCodegen.TypeScript.SchemaType

/-!
# Payloads

A response or a request body carries a schema by media type, or directly.  Among media
types JSON itself is preferred, then any kind of JSON, then the first one with a schema.
-/

namespace SchemaCodegen.TypeScript

/-- The media types that carry a schema, each with it. -/
def carriedSchemas (g : Anchors) (content : Entries) : List (Scalar × Value) :=
  content.filterMap fun e => do
    let schema ← Entries.get? (← g.entries? e.2) "schema"
    pure (e.1, schema)

/-- The schema of the first media type that is a kind of JSON.  A media type that is no
text before it is a failure. -/
def jsonSchema? : List (Scalar × Value) → Except Failure (Option Value)
  | [] => .ok none
  | (.string name, schema) :: rest =>
    if Text.contains name "json" then .ok (some schema) else jsonSchema? rest
  | _ :: _ => .error .wrongKind

/-- The schema that a response or a request body carries. -/
def mediaSchema (g : Anchors) (container : Value) : Except Failure (Option Value) :=
  match g.entries? container with
  | none => .ok none
  | some es =>
    match g.objectAt? es "content" with
    | none => .ok (Entries.get? es "schema")
    | some content =>
      let carried := carriedSchemas g content
      match carried.find? fun e => e.1 = .string "application/json" with
      | some e => .ok (some e.2)
      | none => do
        match ← jsonSchema? carried with
        | some schema => .ok (some schema)
        | none => .ok (carried.head?.map (·.2))

/-- The type of nothing. -/
def nothingText : String := "void"

/-- The type of what a container carries, or a given text when it carries nothing. -/
def carriedType (c : Context) (container : Value) (otherwise : String) : Traced String := do
  match (← Traced.ofExcept (mediaSchema c.anchors container)).filter (!·.isNull) with
  | some schema => typeText c schema
  | none => pure otherwise

/-- The type of the payload of a response. -/
def responseType (c : Context) (response : Value) : Traced String :=
  carriedType c response nothingText

/-- The type of a request body; anything, when a body is there without a schema. -/
def requestBodyType (c : Context) (body : Value) : Traced String :=
  if body.isNull then pure nothingText else carriedType c body anyText

end SchemaCodegen.TypeScript
