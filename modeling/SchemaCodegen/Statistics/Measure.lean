import SchemaCodegen.Cycle.Dictionary

/-!
# Measures

How complex schemas are, and how those of a dictionary hang together.

* `complexity` — one, and one for each property, each reference and each level of nesting,
  and two for each composition.
* `dependencyGraph` — each schema of a dictionary with those it refers to and those that
  refer to it.
* `summarize` — counts over a dictionary.
-/

namespace SchemaCodegen

/-- The complexity of a schema that is recognised as a node. -/
def complexityOf (g : Anchors) (schema : Value) (node : Node) : Nat :=
  1 + node.propertyCount + (g.references schema).length + 2 * node.compositionCount + node.depth

/-- The complexity of a schema. -/
def complexity (g : Anchors) (schema : Value) : Traced Nat := do
  pure (complexityOf g schema (← Node.ofSchema g schema))

/-! ### Dependencies -/

/-- A schema in the dependency graph. -/
structure DependencyNode where
  name : String
  dependencies : List String
  dependents : List String
  complexity : Nat
  circular : Bool
deriving DecidableEq, Repr

/-- A schema of a dictionary with those it refers to. -/
def dependencyNode (g : Anchors) (dictionary : Entries) (circular : List String)
    (e : Scalar × Value) : Traced DependencyNode := do
  let size ← complexity g e.2
  match e.1 with
  | .string name =>
    pure ⟨name, dependencies g e.2 dictionary, [], size, circular.contains name⟩
  | _ => Traced.fail (.record [⟨[.key "name"], .notString⟩])

/-- The edges of nodes, each with the names at its two ends, in the order of the nodes. -/
def forwardEdges (nodes : List DependencyNode) : List (String × String) :=
  nodes.flatMap fun node => node.dependencies.map fun target => (node.name, target)

/-- The nodes with an edge noted at the one that it leads to. -/
def noteDependent (nodes : List DependencyNode) (edge : String × String) : List DependencyNode :=
  nodes.map fun node =>
    if node.name = edge.2 then { node with dependents := node.dependents ++ [edge.1] } else node

/-- Nodes with those that refer to them: the edges noted one after the other. -/
def withDependents (nodes : List DependencyNode) : List DependencyNode :=
  (forwardEdges nodes).foldl noteDependent nodes

/-- The dependency graph of a dictionary, in document order. -/
def dependencyGraph (g : Anchors) (dictionary : Entries) : Traced (List DependencyNode) := do
  let circular ← circularNames g dictionary
  withDependents <$> dictionary.mapM (dependencyNode g dictionary circular)

/-! ### Counts -/

/-- Counts over a dictionary. -/
structure Summary where
  schemas : Nat
  kinds : List (String × Nat)
  properties : Nat
  depth : Nat
  circular : List String
  unresolved : Nat
deriving DecidableEq, Repr

/-- How often each text occurs, in order of first occurrence. -/
def tally (texts : List String) : List (String × Nat) :=
  (keepFirst texts).map fun t => (t, texts.count t)

/-- The counts over a dictionary, whose references are resolved in a document. -/
def summarize (g : Anchors) (dictionary : Entries) (document : Value) : Traced Summary := do
  let nodes ← dictionary.mapM fun e => Node.ofSchema g e.2
  let unresolved ← unresolvedReferences g dictionary document
  if !unresolved.isEmpty then Traced.note (.unresolvedCount unresolved.length)
  let circular ← circularNames g dictionary
  pure
    { schemas := dictionary.length
      kinds := tally (nodes.map fun n => n.kind.name)
      properties := (nodes.map Node.propertyCount).foldr (· + ·) 0
      depth := (nodes.map Node.depth).foldl max 0
      circular := circular
      unresolved := unresolved.length }

end SchemaCodegen
