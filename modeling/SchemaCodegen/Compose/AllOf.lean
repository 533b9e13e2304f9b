import SchemaCodegen.Compose.Merge
import SchemaCodegen.Reference.Occurrences

/-!
# Collapsing `allOf`

A schema with `allOf` is collapsed into one schema: its members, references followed and
nested ones collapsed first, are merged in order, and the schema's own keywords are merged
in last, where they win over those of the members.  A result with properties has a type.

A reference that is taken already on the way to a member, and one that does not resolve,
is left out with a notice.
-/

namespace SchemaCodegen

/-- A schema's own keywords merged into its members'. -/
def joinOwn (g : Anchors) (members own : Entries) : Entries :=
  let rest := Entries.erase own "allOf"
  let plain := rest.filter fun e => e.1 != .string "properties" && e.1 != .string "required"
  let result := Entries.putAll (mergeSchemas g members rest) plain
  if Entries.has result "properties" && !Entries.has result "type" then
    Entries.put result (.string "type") (.string "object")
  else result

/-- The schema at the end of a chain of references into a dictionary, if there is one. -/
def followInto (g : Anchors) (dictionary : Option Entries) (schema : Value) :
    Traced (Option Value) :=
  match dictionary with
  | some es => followReference g schema (.object es)
  | none => pure none

/-- A schema with `allOf` collapsed.  On the way to it, `fresh` references are not taken
yet, and `active` anchors are entered since the last one was. -/
def collapse (g : Anchors) (dictionary : Option Entries) (fresh : List String)
    (active : List Nat) (schema : Value) : Traced Entries :=
  match _h : g.entries? schema with
  | none => Traced.fail .notObject
  | some es =>
    match _hm : g.listAt? es "allOf" with
    | none => pure es
    | some members =>
      match _in : g.enter? active schema with
      | none => Traced.fail .tooDeep
      | some inner => do
        let parts ← members.attach.mapM fun m =>
          match reference? g m.1 with
          | some ref =>
            if _new : ref ∈ fresh then do
              match ← followInto g dictionary m.1 with
              | some target => some <$> collapse g dictionary (taking ref fresh) [] target
              | none =>
                Traced.note (.unresolvedMember ref)
                pure none
            else do
              Traced.note (.circularMember ref)
              pure none
          | none =>
            if g.isObject m.1 then some <$> collapse g dictionary fresh inner m.1
            else pure none
        pure (joinOwn g ((parts.filterMap id).foldl (mergeSchemas g) []) es)
termination_by (fresh.length, g.unseen active, schema.weight)
decreasing_by
  · exact Prod.Lex.left _ _ (length_taking_lt _new)
  · apply Prod.Lex.right
    refine Anchors.lex_of_enter? _in fun hv => ?_
    exact Nat.lt_of_le_of_lt (Anchors.weight_le_of_listAt? _hm m.2)
      (Anchors.entryWeights_lt_of_entries? _h hv)

/-- A schema with `allOf` collapsed. -/
def mergeAllOf (g : Anchors) (schema : Value) (dictionary : Option Entries) : Traced Entries :=
  collapse g dictionary
    (g.references schema ++ (dictionary.map fun es => g.references (.object es)).getD [])
    [] schema

end SchemaCodegen
