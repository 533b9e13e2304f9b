import SchemaCodegen.Data.Anchors

/-!
# Graphs of data

Data that refers to itself is read as a graph first: shapes with numbers, whose parts are
numbers of other shapes.  `DataGraph.present` gives it as a `Value` with its `Anchors`.

A container is **stored** if more than one place refers to it, or if it can be reached from
such a one.  The parts of stored containers are then scalars and stored containers, as
`Anchors` asks for, and what is not stored is a tree.
-/

namespace SchemaCodegen

/-- Data whose parts are given by number. -/
inductive Shape where
  | scalar (s : Scalar)
  | set (members : List Scalar)
  | list (items : List Nat)
  | pairs (items : List (Nat × Nat))
  | object (entries : List (Scalar × Nat))
deriving DecidableEq, Repr, Inhabited

/-- The numbers of the parts. -/
def Shape.parts : Shape → List Nat
  | .scalar _ => []
  | .set _ => []
  | .list items => items
  | .pairs items => items.flatMap fun p => [p.1, p.2]
  | .object entries => entries.map (·.2)

/-- The shape has parts of its own. -/
def Shape.isContainer : Shape → Bool
  | .list _ | .pairs _ | .object _ => true
  | _ => false

/-- Shapes with the number of the one that holds the others. -/
structure DataGraph where
  shapes : Array Shape
  root : Nat

namespace DataGraph

/-- The shape with a number. -/
def shape (g : DataGraph) (n : Nat) : Shape := (g.shapes[n]?).getD (.scalar .null)

/-- How many places refer to each shape; the root has one reference from outside. -/
def references (g : DataGraph) : Array Nat :=
  let counts := (Array.replicate g.shapes.size 0).modify g.root (· + 1)
  g.shapes.foldl (fun counts s => s.parts.foldl (fun counts n => counts.modify n (· + 1)) counts)
    counts

/-- The marks of the containers that can be reached from a list of shapes, added to those
of `marked`. -/
def reach (g : DataGraph) : (budget : Nat) → (pending : List Nat) → (marked : Array Bool) →
    Array Bool
  | 0, _, marked => marked
  | _, [], marked => marked
  | budget + 1, n :: rest, marked =>
    if (marked[n]?).getD true || !(g.shape n).isContainer then reach g budget rest marked
    else reach g budget ((g.shape n).parts ++ rest) (marked.setIfInBounds n true)

/-- The marks of the stored containers. -/
def stored (g : DataGraph) : Array Bool :=
  let counts := g.references
  let shared := (List.range g.shapes.size).filter fun n => 1 < (counts[n]?).getD 0
  let budget := g.shapes.foldl (fun total s => total + s.parts.length) shared.length
  g.reach (budget + 1) shared (Array.replicate g.shapes.size false)

/-- The anchors of the stored containers. -/
def anchorTable (marked : Array Bool) : Array (Option Nat) :=
  (marked.foldl (fun (table, next) isStored =>
    if isStored then (table.push (some next), next + 1) else (table.push none, next))
    ((#[] : Array (Option Nat)), 0)).1

/-- The anchor of a stored container. -/
def anchorOf? (table : Array (Option Nat)) (n : Nat) : Option Nat := (table[n]?).join

/-- A part of a stored container. -/
def part (g : DataGraph) (table : Array (Option Nat)) (n : Nat) : Part :=
  match anchorOf? table n, g.shape n with
  | some anchor, _ => .anchor anchor
  | none, .scalar s => .scalar s
  | none, .set xs => .set xs
  | none, _ => .scalar .null

/-- A stored container, and the pairs it holds, whose anchors start at `next`. -/
def container (g : DataGraph) (table : Array (Option Nat)) (next : Nat) :
    Shape → Container × List Container
  | .list items => (.list (items.map (g.part table)), [])
  | .object entries => (.object (entries.map fun e => (e.1, g.part table e.2)), [])
  | .pairs items =>
    (.list ((List.range items.length).map fun i => .anchor (next + i)),
      items.map fun p => .pair (g.part table p.1) (g.part table p.2))
  | _ => (.list [], [])

/-- The store: the stored containers in order, and behind them the pairs they hold. -/
def anchors (g : DataGraph) (marked : Array Bool) (table : Array (Option Nat)) : Anchors :=
  let numbers := (List.range g.shapes.size).filter fun n => (marked[n]?).getD false
  let (main, pairs) := numbers.foldl (fun (main, pairs) n =>
    let (c, more) := g.container table (numbers.length + pairs.size) (g.shape n)
    (main.push c, pairs ++ more.toArray)) ((#[] : Array Container), (#[] : Array Container))
  ⟨main.toList ++ pairs.toList⟩

/-- A shape as data.  What is not stored is no deeper than there are shapes, which is the
budget. -/
def value (g : DataGraph) (table : Array (Option Nat)) : (budget : Nat) → (n : Nat) → Value
  | 0, _ => .null
  | budget + 1, n =>
    match anchorOf? table n with
    | some anchor => .aliasTo anchor
    | none =>
      match g.shape n with
      | .scalar s => .scalar s
      | .set xs => .set xs
      | .list items => .list (items.map (value g table budget))
      | .pairs items =>
        .list (items.map fun p => .pair (value g table budget p.1) (value g table budget p.2))
      | .object entries => .object (entries.map fun e => (e.1, value g table budget e.2))

/-- The data of a graph: the value of its root, and what is stored. -/
def present (g : DataGraph) : Anchors × Value :=
  let marked := g.stored
  let table := anchorTable marked
  (g.anchors marked table, g.value table (g.shapes.size + 1) g.root)

end DataGraph

end SchemaCodegen
