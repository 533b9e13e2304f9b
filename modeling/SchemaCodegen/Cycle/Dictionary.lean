import SchemaCodegen.Cycle.Component

/-!
# Cycles in a dictionary

The schemas of a dictionary are the vertices of a graph, with an edge from each schema to
those that it refers to.

* `circularNames` — the schemas that take part in a cycle: those that lie on one, and those
  on the way to one when the search in document order closes it.
* `emissionOrder` — the schemas in an order in which each one follows those that it refers
  to, as far as there is one; otherwise document order decides.
-/

namespace SchemaCodegen

/-- The names that a schema of a dictionary refers to, from a table. -/
def edgesFrom (table : List (Scalar × List Scalar)) (name : Scalar) : List Scalar :=
  match table.find? (·.1 = name) with
  | some entry => entry.2
  | none => []

/-- The names that each schema of a dictionary refers to, in order of first occurrence. -/
def dependencyTable (g : Anchors) (dictionary : Entries) : List (Scalar × List Scalar) :=
  dictionary.map fun e => (e.1, (dependencies g e.2 dictionary).map Scalar.string)

/-- The names that take part in a cycle, in document order. -/
def circularVertices (g : Anchors) (dictionary : Entries) : List Scalar :=
  let names := Entries.keys dictionary
  let marked := markedVertices (search (edgesFrom (dependencyTable g dictionary)) names names [])
  names.filter (· ∈ marked)

/-- The strings among keys, if all are strings. -/
def allStrings? (keys : List Scalar) : Option (List String) :=
  keys.mapM fun
    | .string s => some s
    | _ => none

/-- Texts in the order of their characters. -/
def sortedTexts (xs : List String) : List String := xs.mergeSort fun a b => !(b < a)

/-- The names that take part in a cycle, in alphabetical order, with a notice when there
are any.  A name that is no string cannot be put in order. -/
def circularNames (g : Anchors) (dictionary : Entries) : Traced (List String) := do
  match allStrings? (circularVertices g dictionary) with
  | none => Traced.fail .wrongKind
  | some names =>
    let sorted := sortedTexts names
    if !sorted.isEmpty then Traced.note (.circularSchemas sorted)
    pure sorted

/-- The names of a dictionary, each after those that its schema refers to.  Among the
references of a schema, document order decides. -/
def emissionOrder (g : Anchors) (dictionary : Entries) : List Scalar :=
  let table := dependencyTable g dictionary
  let names := Entries.keys dictionary
  let edges name := names.filter (· ∈ edgesFrom table name)
  leftOrder (search edges names names [])

end SchemaCodegen
