import SchemaCodegen.Reference.Place
import SchemaCodegen.Schema.Classify

/-!
# Resolving references

A reference is resolved in a document, which may be a whole document or only its
dictionary of named schemas.  A pointer is walked; where that fails, a canonical reference
is looked up by its name, provided that the document has no root of that kind itself.

A reference that does not resolve is not an error: the answer is none, with a notice, so
that one broken schema does not end the work on the others.

* `locate` — what a reference refers to, at its place; `null` counts as nothing.
* `resolve` — the same without the place.
-/

namespace SchemaCodegen

/-- The reference that a schema is: the text under `$ref`. -/
def reference? (g : Anchors) (schema : Value) : Option String :=
  (g.entries? schema).bind fun es => Entries.string? es "$ref"

/-- The schema is a reference. -/
def isReference (g : Anchors) (schema : Value) : Bool := (reference? g schema).isSome

/-- What a canonical reference finds by name in a document that has no root of that
kind. -/
def lookupName? (g : Anchors) (ref : String) (document : Located) : Option Located := do
  let es ← g.entries? document.value
  SchemaRoot.all.findSome? fun root =>
    if (root.after? ref).isSome && !Entries.has es root.key then
      (schemaName? ref).bind (document.under? 0 es)
    else none

/-- A value that is there and not `null`. -/
def Located.present (l : Located) : Option Located := if l.value.isNull then none else some l

/-- What a reference refers to, with its place. -/
def locate (g : Anchors) (ref : String) (document : Located) : Traced (Option Located) :=
  match Reference.parse ref with
  | .whole => pure document.present
  | .malformed => do
    Traced.note (.malformedReference ref)
    pure none
  | .external => do
    Traced.note (.externalReference ref)
    pure none
  | .pointer segments => do
    match ← Traced.ofExcept (document.follow? g segments) with
    | some found => pure found.present
    | none =>
      match lookupName? g ref document with
      | some found => pure found.present
      | none =>
        Traced.note (.unresolvable ref)
        pure none

/-- What a reference refers to. -/
def resolve (g : Anchors) (ref : String) (document : Value) : Traced (Option Value) := do
  pure ((← locate g ref ⟨.document, [], document⟩).map Located.value)

end SchemaCodegen
