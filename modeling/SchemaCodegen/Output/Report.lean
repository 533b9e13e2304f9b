import SchemaCodegen.Compose.Flatten
import SchemaCodegen.Cycle.Path
import SchemaCodegen.Output.Manager
import SchemaCodegen.Statistics.Measure

/-!
# Reports

The results of the engine as tables: counts over a dictionary, its dependency graph, and
the cycles found in a schema.  In the JSON format each is shown as data with all its parts.
-/

namespace SchemaCodegen

/-! ### Results as data -/

/-- Counts as data. -/
def Summary.value (s : Summary) : Value :=
  .record [("total_schemas", .int s.schemas),
    ("kinds", .record (s.kinds.map fun k => (k.1, .int k.2))),
    ("total_properties", .int s.properties), ("max_depth", .int s.depth),
    ("circular_schemas", .strings s.circular), ("unresolved_references", .int s.unresolved)]

/-- A schema of a dependency graph as data. -/
def DependencyNode.value (n : DependencyNode) : Value :=
  .record [("name", .string n.name), ("dependencies", .strings n.dependencies),
    ("dependents", .strings n.dependents), ("complexity", .int n.complexity),
    ("circular", .bool n.circular)]

/-- A cycle as data. -/
def PathCycle.value (c : PathCycle) : Value :=
  .record [("ref", .string c.ref), ("path", .strings c.path)]

/-- A cycle from data: its reference must be given, its path may be. -/
def PathCycle.ofValue (g : Anchors) : Value → Checked PathCycle :=
  readRecord g fun es =>
    PathCycle.mk <$> reference es <*> field es "path" [] readPath
where
  /-- The reference. -/
  reference (es : Entries) : Checked String :=
    match Entries.get? es "ref" with
    | some v => (readText v).under (.key "ref")
    | none => (Checked.fault .missing).under (.key "ref")
  /-- The path. -/
  readPath (v : Value) : Checked (List String) :=
    match g.items? v with
    | some xs => xs.zipIdx.foldr (fun x rest =>
        List.cons <$> (readText x.1).under (.index x.2) <*> rest) (.valid [])
    | none => .fault .notList

namespace Output.Manager

/-- Texts in one cell, or a dash without any. -/
def cell (texts : List String) : String :=
  let text := ", ".intercalate texts
  if text.isEmpty then "-" else text

/-- A table, or the data it is made from. -/
def report (m : Manager) (whole : Value) (headers : List String) (rows : List (List String)) :
    Except Failure Streams :=
  if m.format = .json then m.json {} whole else m.table headers rows

/-- The rows of the kinds of schemas, in alphabetical order. -/
def kindRows (kinds : List (String × Nat)) : List (List String) :=
  (kinds.mergeSort fun a b => !(b.1 < a.1)).map fun k => ["Kind: " ++ k.1, toString k.2]

/-- Counts over a dictionary. -/
def statistics (m : Manager) (s : Summary) : Except Failure Streams :=
  m.report s.value ["Metric", "Value"]
    ([["Schemas", toString s.schemas], ["Properties", toString s.properties],
      ["Max depth", toString s.depth], ["Circular", cell s.circular],
      ["Unresolved references", toString s.unresolved]] ++ kindRows s.kinds)

/-- A dependency graph, one row for each schema. -/
def dependencies (m : Manager) (graph : List DependencyNode) : Except Failure Streams :=
  m.report (.record (graph.map fun n => (n.name, n.value)))
    ["Schema", "Depends on", "Used by", "Complexity", "Circular"]
    (graph.map fun n =>
      [n.name, cell n.dependencies, cell n.dependents, toString n.complexity,
        if n.circular then "yes" else "no"])

/-- The words for a path, which is empty at the root. -/
def pathCell (path : List String) : String :=
  let text := joinPath path
  if text.isEmpty then "(root)" else text

/-- Cycles, or a message when there are none. -/
def cycles (m : Manager) (found : List PathCycle) : Except Failure Streams :=
  if found.isEmpty then m.info "No circular references found"
  else m.report (.list (found.map PathCycle.value)) ["Reference", "Path"]
    (found.map fun c => [c.ref, pathCell c.path])

end Output.Manager

end SchemaCodegen
