import SchemaCodegen.Data.Anchors
import SchemaCodegen.Schema.Node
import SchemaCodegen.Failure

/-!
# Dropping documentation

A schema is simplified by leaving out the keywords that only document it, in the schema
itself and wherever a schema stands inside it.  A *property* of such a name is kept.
-/

namespace SchemaCodegen

/-- The keywords that only document a schema. -/
def documentingKeywords : List String := ["example", "examples", "xml", "externalDocs"]

/-- The keywords under which a single schema stands. -/
def nestingKeywords : List String := ["items", "additionalProperties", "not"]

/-- The keywords under which a list of schemas stands. -/
def joiningKeywords : List String := Combinator.all.map Combinator.keyword

mutual

/-- An unshared schema without the keywords that only document. -/
def simplified : Value → Except Failure Value
  | .object es => do pure (.object (← simplifiedEntries es))
  | .aliasTo _ => .error .tooDeep
  | v => .ok v

/-- The keywords of a schema that do not only document. -/
def simplifiedEntries : List (Scalar × Value) → Except Failure Entries
  | [] => pure []
  | (k, v) :: rest =>
    match k with
    | .string key =>
      if documentingKeywords.contains key then simplifiedEntries rest
      else do
        let v ← simplifiedUnder key v
        let rest ← simplifiedEntries rest
        pure ((k, v) :: rest)
    | k => do pure ((k, v) :: (← simplifiedEntries rest))

/-- What stands under a keyword, simplified where it is a schema or holds some. -/
def simplifiedUnder (key : String) : Value → Except Failure Value
  | .object es =>
    if key = "properties" then do pure (.object (← simplifiedFields es))
    else if nestingKeywords.contains key then do pure (.object (← simplifiedEntries es))
    else .ok (.object es)
  | .list xs =>
    if joiningKeywords.contains key then do pure (.list (← simplifiedMembers xs))
    else .ok (.list xs)
  | .aliasTo n =>
    if key = "properties" ∨ nestingKeywords.contains key ∨ joiningKeywords.contains key then
      .error .tooDeep
    else .ok (.aliasTo n)
  | v => .ok v

/-- The properties of a schema, simplified. -/
def simplifiedFields : List (Scalar × Value) → Except Failure Entries
  | [] => pure []
  | (k, v) :: rest => do
    let v ← simplified v
    let rest ← simplifiedFields rest
    pure ((k, v) :: rest)

/-- The members of a composition, simplified. -/
def simplifiedMembers : List Value → Except Failure (List Value)
  | [] => pure []
  | v :: rest => do
    let v ← simplified v
    let rest ← simplifiedMembers rest
    pure (v :: rest)

end

/-- A schema without the keywords that only document. -/
def simplifySchema (g : Anchors) (schema : Value) : Except Failure Value :=
  simplified (g.unshare schema)

end SchemaCodegen
