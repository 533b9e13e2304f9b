import SchemaCodegen.Compose.AllOf

/-!
# Flattening

The properties of an object schema, and of the objects inside it, are flattened into
leaves with dotted paths: object properties are descended into, an array of objects
contributes a `[]` segment, and everything else is a leaf, a reference that comes back or
does not resolve among it.

A schema may go on for ever: a property whose `allOf` refers to the schema it stands in is
collapsed anew each time.  The descent therefore has a limit, and beyond it the answer is
the failure `tooDeep`.
-/

namespace SchemaCodegen

/-- A leaf of a flattened schema. -/
structure FlatField where
  path : String
  segments : List String
  required : Bool
  schema : Entries

/-- Segments as a path: `user.profile.bio`, `items[].name`. -/
def joinPath (segments : List String) : String :=
  segments.foldl (fun path segment =>
    if segment == "[]" then path ++ "[]"
    else if path.isEmpty then segment
    else path ++ "." ++ segment) ""

/-- A schema with references followed and `allOf` collapsed, and the references seen on the
way.  Nothing, where a reference was seen before or leads nowhere. -/
def expandSchema (g : Anchors) (dictionary : Option Entries) (seen : List String)
    (schema : Value) : Traced (Option Entries × List String) := do
  let collapsed (v : Value) : Traced (Option Entries) :=
    match g.entries? v with
    | none => pure none
    | some es =>
      if (g.listAt? es "allOf").isSome then some <$> mergeAllOf g v dictionary
      else pure (some es)
  match reference? g schema, dictionary with
  | none, _ => do pure (← collapsed schema, seen)
  | some ref, some _ =>
    if ref ∈ seen then pure (none, seen)
    else do
      match ← followInto g dictionary schema with
      | some target => pure (← collapsed target, ref :: seen)
      | none => pure (none, ref :: seen)
  | some _, none => pure (none, seen)

/-- The type of a schema is the given one. -/
def hasType (es : Entries) (type : String) : Bool := Entries.string? es "type" == some type

/-- The leaf at the end of a path, if the path is not empty. -/
def leafAt (segments : List String) (required : Bool) (schema : Entries) : List FlatField :=
  if segments.isEmpty then [] else [⟨joinPath segments, segments, required, schema⟩]

/-- The leaves of a schema, descending no deeper than a limit. -/
def flattenWithin (g : Anchors) (dictionary : Option Entries) :
    (limit : Nat) → (segments : List String) → (required : Bool) → (seen : List String) →
    (schema : Value) → Traced (List FlatField)
  | 0, _, _, _, _ => Traced.fail .tooDeep
  | limit + 1, segments, required, seen, schema => do
    let (expanded, seen) ← expandSchema g dictionary seen schema
    match expanded.bind fun es => (g.objectAt? es "properties").map fun ps => (es, ps) with
    | some (es, properties) =>
      let names := requiredNames g es
      let parts ← properties.mapM fun p =>
        flattenWithin g dictionary limit (segments ++ [p.1.shown])
          (names.any (Scalar.string · == p.1)) seen p.2
      pure parts.flatten
    | none =>
      let leaf := leafAt segments required (expanded.getD ((g.entries? schema).getD []))
      match expanded.filter (hasType · "array") with
      | none => pure leaf
      | some es =>
        let items := (Entries.get? es "items").getD .null
        let (inner, _) ← expandSchema g dictionary seen items
        if (inner.bind (g.objectAt? · "properties")).isSome then
          flattenWithin g dictionary limit (segments ++ ["[]"]) required seen items
        else pure leaf

/-- How deep a schema is descended into. -/
def descentLimit : Nat := 900

/-- The leaves of a schema, their paths under an optional first segment. -/
def flattenSchema (g : Anchors) (schema : Value) (dictionary : Option Entries) (start : String) :
    Traced (List FlatField) :=
  flattenWithin g dictionary descentLimit (if start.isEmpty then [] else [start]) false []
    schema

end SchemaCodegen
