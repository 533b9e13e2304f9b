import SchemaCodegen.Reference.Inline

/-!
# Type labels

A schema's type has a short label for people: the name of what a reference refers to, the
label of the items of an array followed by `[]`, the values of an enumeration, the number
of members of a composition, and otherwise the name of the type.

A label follows the items of arrays; an array that is met inside its own items has no
finite label, which is the failure `tooDeep`.
-/

namespace SchemaCodegen

/-- What is behind the last slash of a text. -/
def lastSegment (ref : String) : String :=
  String.ofList ((Text.partsAt '/' ref.toList).getLastD [])

/-- What a reference is called: its schema's name, or its last segment. -/
def referenceLabel (ref : String) : String := (schemaName? ref).getD (lastSegment ref)

/-- The label of a marker for a repeat. -/
def markerLabel (ref : String) : String := "circular(" ++ (schemaName? ref).getD ref ++ ")"

/-- The label of a node that is no array with items. -/
def Node.ownLabel (g : Anchors) (node : Node) : String :=
  let typed := match node.facts.type with
    | some t => if t.isEmpty then "unknown" else t
    | none => "unknown"
  match node with
  | .reference _ ref => referenceLabel ref
  | .array _ _ => "array"
  | .enumeration _ values => "enum(" ++ ", ".intercalate (values.map (Value.shown g)) ++ ")"
  | .composition _ c members => s!"{c.keyword}({members.length} types)"
  | .empty _ => "any"
  | _ => typed

/-- The items of a node that is an array with items. -/
def Node.items? : Node → Option Node
  | .array _ items => items
  | _ => none

/-- The label of a schema; `active` anchors are entered on the way to it. -/
def labelBelow (g : Anchors) (active : List Nat) (schema : Value) : Traced String :=
  match markedReference? g schema with
  | some ref => pure (markerLabel ref)
  | none => do
    let node ← Node.ofSchema g schema
    if node.items?.isNone then pure (node.ownLabel g)
    else
      match _h : g.entries? schema with
      | none => pure (node.ownLabel g)
      | some es =>
        match _hi : Entries.get? es "items" with
        | none => pure (node.ownLabel g)
        | some items =>
          match _in : g.enter? active schema with
          | none => Traced.fail .tooDeep
          | some inner =>
            if g.isObject items then do pure ((← labelBelow g inner items) ++ "[]")
            else pure "any[]"
termination_by (g.unseen active, schema.weight)
decreasing_by
  refine Anchors.lex_of_enter? _in fun hv => ?_
  exact Nat.lt_of_le_of_lt (Entries.weight_le_of_get? _hi)
    (Anchors.entryWeights_lt_of_entries? _h hv)

/-- The label of a schema's type. -/
def typeLabel (g : Anchors) (schema : Value) : Traced String := labelBelow g [] schema

end SchemaCodegen
