import SchemaCodegen.Yaml.Layout
import SchemaCodegen.Yaml.Tag

/-!
# Nodes of YAML text

The tokens of a text give its **nodes**: texts, sequences and mappings, each with a tag.
The nodes refer to one another by number, so that a node with an anchor can be used in
several places, and also inside itself (`Graph`).

A node may be left out behind the mark of a key, a value or an entry; it is then an empty
plain text.  A tag is given by a handle that a directive declares, or implied: by the form
of a plain text, and otherwise by the kind of the node.

The readers take a budget above four times the number of tokens; of three calls in a row
one takes a token, so the budget is never what ends a reading.
-/

namespace SchemaCodegen.Yaml

/-- What a node consists of. -/
inductive Content where
  | text (s : String)
  | sequence (items : List Nat)
  | mapping (entries : List (Nat × Nat))
deriving DecidableEq, Repr, Inhabited

/-- A node: its tag and what it consists of. -/
structure Node where
  tag : Tag
  content : Content
deriving DecidableEq, Repr, Inhabited

/-- The nodes of a text and the number of the one that holds the others. -/
structure Graph where
  nodes : Array Node
  root : Nat

namespace Graph

/-- The node with a number. -/
def node (g : Graph) (n : Nat) : Node := (g.nodes[n]?).getD ⟨.null, .text ""⟩

end Graph

/-! ### Reading tokens -/

/-- The tokens left, the fault behind them, and what was read before them. -/
structure Source where
  tokens : List Token
  fault? : Option Fault
  nodes : Array Node := #[]
  anchors : List (String × Nat) := []
  handles : List (String × String) := []

/-- A reading of tokens. -/
abbrev Reading (α : Type) := StateT Source Outcome α

namespace Reading

/-- A problem ends the reading. -/
def refuse {α : Type} (p : Problem) : Reading α := fun _ => .error (.problem p)

/-- The next token. -/
def peek : Reading Token := fun s =>
  match s.tokens with
  | t :: _ => .ok (t, s)
  | [] => .error (s.fault?.getD (.problem .unexpectedToken))

/-- The next token is taken. -/
def take : Reading Unit := modify fun s => { s with tokens := s.tokens.tail }

/-- The next token is taken, if it is the given one. -/
def takeIf (t : Token) : Reading Bool := do
  if (← peek) = t then take; pure true else pure false

/-- The next token has to be the given one. -/
def expect (t : Token) : Reading Unit := do
  if ← takeIf t then pure () else refuse .unexpectedToken

/-- The next token is one of several. -/
def isNext (ts : List Token) : Reading Bool := do pure (ts.contains (← peek))

/-- A new node. -/
def add (node : Node) : Reading Nat := do
  let s ← get
  set { s with nodes := s.nodes.push node }
  pure s.nodes.size

/-- A node gets its content. -/
def fill (n : Nat) (content : Content) : Reading Unit :=
  modify fun s => { s with nodes := s.nodes.modify n fun node => { node with content := content } }

/-- A node that is left out. -/
def addEmpty : Reading Nat := add ⟨.null, .text ""⟩

/-! ### Properties of nodes -/

/-- The anchor and the tag of a node, as far as they are given. -/
structure Properties where
  anchor : Option String := none
  tag : Option (Option String × String) := none

/-- The properties in front of a node, in either order. -/
def properties : Reading Properties := do
  match ← peek with
  | .anchor name =>
    take
    match ← peek with
    | .tag handle suffix => take; pure ⟨some name, some (handle, suffix)⟩
    | _ => pure ⟨some name, none⟩
  | .tag handle suffix =>
    take
    match ← peek with
    | .anchor name => take; pure ⟨some name, some (handle, suffix)⟩
    | _ => pure ⟨none, some (handle, suffix)⟩
  | _ => pure {}

/-- The name of a tag; a handle stands for what it was declared for. -/
def tagName (p : Properties) : Reading (Option String) := do
  match p.tag with
  | none => pure none
  | some (none, suffix) => pure (some suffix)
  | some (some handle, suffix) =>
    match (← get).handles.lookup handle with
    | some base => pure (some (base ++ suffix))
    | none => refuse .unknownHandle

/-- The tag of a node with a name, or the implied one. -/
def tagOf (name : Option String) (implied : Tag) : Tag :=
  match name with
  | none => implied
  | some "!" => implied
  | some name => .ofName name

/-- The tag that a text implies: by its form if it is plain or marked as untagged. -/
def textTag (name : Option String) (plain : Bool) (text : String) : Tag :=
  tagOf name (if plain || name == some "!" then .ofPlain text else .string)

/-- A new node with an anchor, if one is given. -/
def addAnchored (anchor : Option String) (node : Node) : Reading Nat := do
  match anchor with
  | none => add node
  | some name =>
    if ((← get).anchors.lookup name).isSome then refuse .repeatedAnchor
    else
      let n ← add node
      modify fun s => { s with anchors := (name, n) :: s.anchors }
      pure n

/-- The node that an alias stands for. -/
def aliased (name : String) : Reading Nat := do
  match (← get).anchors.lookup name with
  | some n => pure n
  | none => refuse .unknownAnchor

/-! ### Nodes -/

/-- Where a node stands: in flow style, in block style, or where a block sequence needs no
indentation of its own. -/
inductive Place where
  | flow
  | block
  | entry
deriving DecidableEq, Repr

mutual

/-- A node. -/
def readNode (place : Place) : (budget : Nat) → Reading Nat
  | 0 => refuse .unexpectedToken
  | budget + 1 => do
    match ← peek with
    | .aliasName name => take; aliased name
    | _ =>
      let p ← properties
      let name ← tagName p
      match ← peek with
      | .scalar plain text =>
        take
        addAnchored p.anchor ⟨textTag name plain text, .text text⟩
      | t =>
        let container (content : Content) (implied : Tag) (read : Reading Content) :
            Reading Nat := do
          let n ← addAnchored p.anchor ⟨tagOf name implied, content⟩
          fill n (← read)
          pure n
        if t = .blockEntry && place = .entry then
          container (.sequence []) .sequence (readIndentless budget [])
        else if t = .flowSequence then
          take
          container (.sequence []) .sequence (readFlowItems budget [])
        else if t = .flowMapping then
          take
          container (.mapping []) .mapping (readFlowEntries budget [])
        else if t = .blockSequence && place ≠ .flow then
          take
          container (.sequence []) .sequence (readItems budget [])
        else if t = .blockMapping && place ≠ .flow then
          take
          container (.mapping []) .mapping (readEntries budget [])
        else if p.anchor.isSome || p.tag.isSome then
          addAnchored p.anchor ⟨textTag name (p.tag.isNone) "", .text ""⟩
        else refuse .unexpectedToken

/-- A node, or an empty one if one of the given tokens follows. -/
def readOptional (place : Place) (ends : List Token) : (budget : Nat) → Reading Nat
  | 0 => refuse .unexpectedToken
  | budget + 1 => do
    if ← isNext ends then addEmpty else readNode place budget

/-- The items of a block sequence, with those before them backwards. -/
def readItems : (budget : Nat) → (done : List Nat) → Reading Content
  | 0, _ => refuse .unexpectedToken
  | budget + 1, done => do
    if ← takeIf .blockEntry then
      let item ← readOptional .block [.blockEntry, .blockEnd] budget
      readItems budget (item :: done)
    else
      expect .blockEnd
      pure (.sequence done.reverse)

/-- The items of a sequence without indentation of its own. -/
def readIndentless : (budget : Nat) → (done : List Nat) → Reading Content
  | 0, _ => refuse .unexpectedToken
  | budget + 1, done => do
    if ← takeIf .blockEntry then
      let item ← readOptional .block [.blockEntry, .key, .value, .blockEnd] budget
      readIndentless budget (item :: done)
    else pure (.sequence done.reverse)

/-- The entries of a block mapping. -/
def readEntries : (budget : Nat) → (done : List (Nat × Nat)) → Reading Content
  | 0, _ => refuse .unexpectedToken
  | budget + 1, done => do
    let ends : List Token := [.key, .value, .blockEnd]
    if ← takeIf .key then
      let key ← readOptional .entry ends budget
      let value ← readEntryValue ends budget
      readEntries budget ((key, value) :: done)
    else
      expect .blockEnd
      pure (.mapping done.reverse)

/-- The value behind a key of a block mapping, empty without its mark. -/
def readEntryValue (ends : List Token) : (budget : Nat) → Reading Nat
  | 0 => refuse .unexpectedToken
  | budget + 1 => do
    if ← takeIf .value then readOptional .entry ends budget else addEmpty

/-- The value behind a key in flow style, empty without its mark. -/
def readFlowValue (ends : List Token) : (budget : Nat) → Reading Nat
  | 0 => refuse .unexpectedToken
  | budget + 1 => do
    if ← takeIf .value then readOptional .flow ends budget else addEmpty

/-- The items of a flow sequence; a key makes a mapping with one entry. -/
def readFlowItems : (budget : Nat) → (done : List Nat) → Reading Content
  | 0, _ => refuse .unexpectedToken
  | budget + 1, done => do
    if ← takeIf .flowSequenceEnd then pure (.sequence done.reverse)
    else
      unless done.isEmpty do expect .flowEntry
      if ← takeIf .key then
        let n ← add ⟨.mapping, .mapping []⟩
        let key ← readOptional .flow [.value, .flowEntry, .flowSequenceEnd] budget
        let value ← readFlowValue [.flowEntry, .flowSequenceEnd] budget
        fill n (.mapping [(key, value)])
        readFlowItems budget (n :: done)
      else if ← takeIf .flowSequenceEnd then pure (.sequence done.reverse)
      else
        let item ← readNode .flow budget
        readFlowItems budget (item :: done)

/-- The entries of a flow mapping. -/
def readFlowEntries : (budget : Nat) → (done : List (Nat × Nat)) → Reading Content
  | 0, _ => refuse .unexpectedToken
  | budget + 1, done => do
    if ← takeIf .flowMappingEnd then pure (.mapping done.reverse)
    else
      unless done.isEmpty do expect .flowEntry
      if ← takeIf .key then
        let key ← readOptional .flow [.value, .flowEntry, .flowMappingEnd] budget
        let value ← readFlowValue [.flowEntry, .flowMappingEnd] budget
        readFlowEntries budget ((key, value) :: done)
      else if ← takeIf .flowMappingEnd then pure (.mapping done.reverse)
      else
        let key ← readNode .flow budget
        let value ← addEmpty
        readFlowEntries budget ((key, value) :: done)

end

/-! ### Documents -/

/-- The handles that need no declaration. -/
def usualHandles : List (String × String) := [("!", "!"), ("!!", Tag.family)]

/-- The directives of a document: at most one version, which has to be a version one, and
handles, each declared once. -/
def directives : (budget : Nat) → (versioned : Bool) → (handles : List (String × String)) →
    Reading (List (String × String))
  | 0, _, handles => pure handles
  | budget + 1, versioned, handles => do
    match ← peek with
    | .version major =>
      if versioned || major ≠ 1 then refuse .badDirective
      else take; directives budget true handles
    | .handle name base =>
      if (handles.lookup name).isSome then refuse .badDirective
      else take; directives budget versioned ((name, base) :: handles)
    | .directive => take; directives budget versioned handles
    | _ => pure handles

/-- The ends of documents are taken. -/
def skipEnds : (budget : Nat) → Reading Unit
  | 0 => pure ()
  | budget + 1 => do
    if ← takeIf .documentEnd then skipEnds budget else pure ()

/-- What stands in a document that is marked by a separator. -/
def marked (budget : Nat) : Reading Nat := do
  let handles ← directives budget false []
  expect .documentStart
  modify fun s => { s with handles := handles ++ usualHandles }
  match ← peek with
  | .version _ | .handle _ _ | .directive | .documentStart | .documentEnd | .textEnd => addEmpty
  | _ => readNode .block budget

/-- The node of the only document of a text; an empty text has none. -/
def document (budget : Nat) : Reading (Option Nat) := do
  let root ← match ← peek with
    | .version _ | .handle _ _ | .directive | .documentStart => some <$> marked budget
    | .textEnd => pure none
    | _ =>
      modify fun s => { s with handles := usualHandles }
      some <$> readNode .block budget
  skipEnds budget
  if ← takeIf .textEnd then pure root else refuse .severalDocuments

end Reading

/-- The nodes of a text, if it has any. -/
def Graph.ofText (text : String) : Outcome (Option Graph) := do
  let source := tokens text
  let budget := 4 * source.tokens.length + 4
  let (root, s) ← (Reading.document budget).run ⟨source.tokens, source.fault?, #[], [], []⟩
  pure (root.map fun n => ⟨s.nodes, n⟩)

end SchemaCodegen.Yaml
