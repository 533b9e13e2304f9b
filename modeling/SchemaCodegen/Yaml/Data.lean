import SchemaCodegen.Data.Graph
import SchemaCodegen.Yaml.Node
import SchemaCodegen.Yaml.Scalar

/-!
# The data of YAML text

`read` gives the data of a text: its nodes (`SchemaCodegen.Yaml.Graph`), each under its tag.
A mapping under the key `<<` is **merged** into the mapping it stands in: its entries come
first, and entries with the same key replace their values.  A sequence of mappings under
that key is merged from the last one to the first, so that earlier ones win.

Containers are filled in the order in which they are met, breadth first, since of several
faults in a text the first one met in that order is reported.  Keys are data without parts.
-/

namespace SchemaCodegen.Yaml

namespace Graph

/-! ### Merged entries -/

/-- The nodes of a mapping, if it is one. -/
def entries? (g : Graph) (n : Nat) : Option (List (Nat × Nat)) :=
  match (g.node n).content with
  | .mapping es => some es
  | _ => none

mutual

/-- The entries of a mapping with those that are merged into it in front.  A mapping that
is merged into itself adds nothing. -/
def mergedEntries (g : Graph) : (budget : Nat) → (n : Nat) → Outcome (List (Nat × Nat))
  | 0, _ => .ok []
  | budget + 1, n => do
    match g.entries? n with
    | none => refuse .wrongContent
    | some es =>
      let isMerge (e : Nat × Nat) : Bool := (g.node e.1).tag == .merge
      let merged ← (es.filter isMerge).mapM fun e => entriesToMerge g budget e.2
      pure (merged.flatten ++ es.filter fun e => !isMerge e)

/-- The entries that a mapping, or a sequence of mappings, merges. -/
def entriesToMerge (g : Graph) : (budget : Nat) → (n : Nat) → Outcome (List (Nat × Nat))
  | 0, _ => .ok []
  | budget + 1, n =>
    match (g.node n).content with
    | .mapping _ => mergedEntries g budget n
    | .sequence items => do pure (← items.mapM (mergedEntries g budget)).reverse.flatten
    | .text _ => refuse .wrongContent

end

/-- The entries of a mapping with those that are merged into it.  Merging is no deeper than
there are nodes, twice over. -/
def entriesOf (g : Graph) (n : Nat) : Outcome (List (Nat × Nat)) :=
  g.mergedEntries (2 * g.nodes.size + 2) n

/-! ### Texts -/

/-- The text of a node: its own, or in a mapping that of the value under the key `=`. -/
def textOf (g : Graph) : (budget : Nat) → (n : Nat) → Outcome String
  | 0, _ => .error (.failure .tooDeep)
  | budget + 1, n =>
    match (g.node n).content with
    | .text s => .ok s
    | .sequence _ => refuse .wrongContent
    | .mapping es =>
      match es.find? fun e => (g.node e.1).tag == .default with
      | some e => textOf g budget e.2
      | none => refuse .wrongContent

/-- A time can only be read from a text of its own. -/
def checkTimestamp (g : Graph) (n : Nat) : Outcome Unit :=
  match (g.node n).tag, (g.node n).content with
  | .timestamp, .mapping _ => .error (.failure .wrongKind)
  | _, _ => .ok ()

/-- Data without parts, under a tag. -/
def scalarUnder (g : Graph) (tag : Tag) (n : Nat) : Outcome Scalar :=
  match tag with
  | .other _ | .merge | .default => refuse .unknownTag
  | _ => do
    let text ← g.textOf (g.nodes.size + 1) n
    g.checkTimestamp n
    scalarValue tag text

end Graph

/-! ### Shapes -/

/-- A tag of data with parts. -/
def Tag.isContainer : Tag → Bool
  | .sequence | .mapping | .set | .pairs | .orderedPairs => true
  | _ => false

/-- The shapes so far by the numbers of their nodes, and the containers that are met but
not yet filled, in order. -/
structure Building where
  shapes : Array (Option Shape)
  waiting : Array Nat := #[]

/-- A building computation. -/
abbrev Build (α : Type) := StateT Building Outcome α

namespace Build

/-- A shape is put down. -/
def put (n : Nat) (s : Shape) : Build Unit :=
  modify fun b => { b with shapes := b.shapes.setIfInBounds n (some s) }

/-- The shape of a node is met: data without parts is read, a container waits to be
filled. -/
def meet (g : Graph) (n : Nat) : Build Unit := do
  let b ← get
  match (b.shapes[n]?).join with
  | some _ => pure ()
  | none =>
    let tag := (g.node n).tag
    if tag.isContainer then
      set ({ shapes := b.shapes.setIfInBounds n (some (.list [])),
             waiting := b.waiting.push n } : Building)
    else
      let s ← (g.scalarUnder tag n : Outcome Scalar)
      put n (.scalar s)

/-- A key of a mapping; a key `=` is a text. -/
def meetKey (g : Graph) (n : Nat) : Build Scalar := do
  if (g.node n).tag == .default then
    let s ← (g.scalarUnder .string n : Outcome Scalar)
    pure s
  else
    meet g n
    match ((← get).shapes[n]?).join with
    | some (.scalar s) => pure s
    | _ => throw (.problem .badKey)

/-- The entries of a mapping, each key with the number of its value. -/
def meetEntries (g : Graph) (n : Nat) : Build (List (Scalar × Nat)) := do
  let es ← (g.entriesOf n : Outcome (List (Nat × Nat)))
  es.mapM fun e => do
    let key ← meetKey g e.1
    meet g e.2
    pure (key, e.2)

/-- The entry of a mapping that has only one. -/
def meetPair (g : Graph) (n : Nat) : Build (Nat × Nat) := do
  match g.entries? n with
  | some [(key, value)] =>
    meet g key
    meet g value
    pure (key, value)
  | _ => throw (.problem .wrongContent)

/-- The items of a sequence. -/
def itemsOf (g : Graph) (n : Nat) : Build (List Nat) :=
  match (g.node n).content with
  | .sequence items => pure items
  | _ => throw (.problem .wrongContent)

/-- An entry put among others: in place of one with the same key, or at the end. -/
def putEntry : List (Scalar × Nat) → Scalar × Nat → List (Scalar × Nat)
  | [], e => [e]
  | d :: rest, e =>
    if Entries.sameKey d.1 e.1 then (d.1, e.2) :: rest else d :: putEntry rest e

/-- The order of the members of a set: numbers by value, anything else by its text. -/
def memberBefore (a b : Scalar) : Bool :=
  match (Value.scalar a).numeric?, (Value.scalar b).numeric? with
  | some x, some y => !y.isLess x
  | _, _ => !(b.shown < a.shown)

/-- A container is filled. -/
def fill (g : Graph) (n : Nat) : Build Unit := do
  match (g.node n).tag with
  | .mapping => put n (.object ((← meetEntries g n).foldl putEntry []))
  | .set =>
    let members := ((← meetEntries g n).foldl putEntry []).map (·.1)
    put n (.set (members.mergeSort memberBefore))
  | .pairs | .orderedPairs => put n (.pairs (← (← itemsOf g n).mapM (meetPair g)))
  | _ =>
    let items ← itemsOf g n
    items.forM (meet g)
    put n (.list items)

/-- The waiting containers are filled, from the `i`-th on; each node waits at most once. -/
def fillAll (g : Graph) : (budget : Nat) → (i : Nat) → Build Unit
  | 0, _ => pure ()
  | budget + 1, i => do
    match (← get).waiting[i]? with
    | some n => fill g n; fillAll g budget (i + 1)
    | none => pure ()

end Build

/-- The data that the nodes of a text stand for. -/
def Graph.data (g : Graph) : Outcome DataGraph := do
  let all : Build Unit := do
    Build.meet g g.root
    Build.fillAll g (g.nodes.size + 1) 0
  let (_, b) ← all.run { shapes := Array.replicate g.nodes.size none }
  pure ⟨b.shapes.map fun s => s.getD (.scalar .null), g.root⟩

/-- The data of a text, `null` if there is none in it. -/
def read (text : String) : Outcome (Anchors × Value) := do
  match ← Graph.ofText text with
  | some g => pure (← g.data).present
  | none => pure ({}, .null)

end SchemaCodegen.Yaml
