import SchemaCodegen.Yaml.Token

/-!
# The layout of YAML text

`tokens` cuts a text into its tokens.  In block style the structure is given by the
columns in which things stand: a deeper column opens a sequence or a mapping, and a less
deep one closes those that it leaves.  A mapping key is not marked in front; what a `:`
turns out to follow was one.

### Design decisions

**Pending keys.**  Whatever may turn out to be a key is remembered with the number of its
first token, one for each level of brackets (`PendingKey`).  A `:` on the same line inserts
the key's mark there.  A pending key lapses at the end of its line, or after 1024
characters; one that stands where a block mapping continues may not lapse.

**Faults come late.**  A text that cannot be read to its end still has the tokens in front
of the fault.  Those from the oldest pending key on are held back, since its mark could
have come first (`Layout.settled`).

The reading ends because each step but the last one takes a character.
-/

namespace SchemaCodegen.Yaml

/-- Something that may turn out to be a key: the number and place of its first token, and
whether it must be a key. -/
structure PendingKey where
  token : Nat
  required : Bool
  index : Nat
  line : Nat
  column : Nat
deriving DecidableEq, Repr

/-- What is known of the text in front of a cursor: its tokens, the levels of brackets, the
column of the innermost block and those around it, whether a key may start here, and the
pending keys by level. -/
structure Layout where
  cursor : Cursor
  tokens : Array Token := #[]
  level : Nat := 0
  indent : Int := -1
  around : List Int := []
  keyAllowed : Bool := true
  pending : List (Nat × PendingKey) := []
  finished : Bool := false

namespace Layout

/-- The layout with one more token. -/
def push (l : Layout) (t : Token) : Layout := { l with tokens := l.tokens.push t }

/-- The layout with one more token that was read up to a cursor. -/
def read (l : Layout) (t : Token) (c : Cursor) : Layout := { l.push t with cursor := c }

/-- In flow style, that is, inside brackets. -/
def inFlow (l : Layout) : Bool := l.level != 0

/-- The layout with keys allowed or not from here on. -/
def allowKey (l : Layout) (allowed : Bool) : Layout := { l with keyAllowed := allowed }

/-! ### Pending keys -/

/-- The pending key has to be completed on its line, and that is left. -/
def hasLapsed (c : Cursor) (k : PendingKey) : Bool := k.line != c.line || k.index + 1024 < c.index

/-- The layout without the keys that have lapsed. -/
def lapse (l : Layout) : Outcome Layout :=
  if l.pending.any fun k => hasLapsed l.cursor k.2 && k.2.required then refuse .keyWithoutValue
  else .ok { l with pending := l.pending.filter fun k => !hasLapsed l.cursor k.2 }

/-- The pending key of this level. -/
def pendingHere? (l : Layout) : Option PendingKey := l.pending.lookup l.level

/-- The layout without a pending key on this level. -/
def withoutPending (l : Layout) : Layout :=
  { l with pending := l.pending.filter (·.1 != l.level) }

/-- The pending key of this level is given up. -/
def dropPending (l : Layout) : Outcome Layout :=
  match l.pendingHere? with
  | some k => if k.required then refuse .keyWithoutValue else .ok l.withoutPending
  | none => .ok l

/-- What starts here may be a key. -/
def savePending (l : Layout) : Outcome Layout :=
  if l.keyAllowed then do
    let required := !l.inFlow && l.indent == l.cursor.column
    let l ← l.dropPending
    let c := l.cursor
    let k : PendingKey := ⟨l.tokens.size, required, c.index, c.line, c.column⟩
    pure { l with pending := (l.level, k) :: l.pending }
  else .ok l

/-- The number of tokens in front of every pending key. -/
def settled (l : Layout) : Nat :=
  l.pending.foldl (fun n k => min n k.2.token) l.tokens.size

/-! ### Columns -/

/-- A deeper column opens a block. -/
def openBlock (l : Layout) (column : Nat) : Option Layout :=
  if l.indent < column then some { l with around := l.indent :: l.around, indent := column }
  else none

/-- The layout with a token for a block that opens here, if one does. -/
def openHere (l : Layout) (t : Token) : Layout :=
  match l.openBlock l.cursor.column with
  | some l => l.push t
  | none => l

/-- The blocks that are closed by a column. -/
def closeBlocks (column : Int) : (around : List Int) → Layout → Layout
  | [], l => l
  | outer :: rest, l =>
    if column < l.indent then
      closeBlocks column rest { l.push .blockEnd with indent := outer, around := rest }
    else l

/-- The blocks that are closed by a column in block style. -/
def close (l : Layout) (column : Int) : Layout :=
  if l.inFlow then l else closeBlocks column l.around l

/-! ### Steps -/

/-- The layout at the next token: behind spaces, comments and breaks. -/
def skipSpace : (budget : Nat) → Layout → Layout
  | 0, l => l
  | budget + 1, l =>
    let c := l.cursor
    let c := if c.index == 0 && c.peek == '\ufeff' then c.advance else c
    let c := c.skipComment
    match c.takeBreak with
    | ([], c) => { l with cursor := c }
    | (_, c) => skipSpace budget { l with cursor := c, keyAllowed := l.keyAllowed || !l.inFlow }

/-- A document separator, a directive or the end: everything is closed. -/
def closeAll (l : Layout) : Outcome Layout := do
  let l ← (l.close (-1)).dropPending
  pure (l.allowKey false)

/-- The end of the text. -/
def stepEnd (l : Layout) : Outcome Layout := do
  let l ← l.closeAll
  pure { l.push .textEnd with pending := [], finished := true }

/-- A directive. -/
def stepDirective (l : Layout) : Outcome Layout := do
  let l ← l.closeAll
  let (t, c) ← readDirective (l.cursor.skip 1)
  pure (l.read t c)

/-- A document separator. -/
def stepSeparator (l : Layout) (t : Token) : Outcome Layout := do
  let l ← l.closeAll
  pure (l.read t (l.cursor.skip 3))

/-- A bracket that opens. -/
def stepOpen (l : Layout) (t : Token) : Outcome Layout := do
  let l ← l.savePending
  pure ({ l.read t (l.cursor.skip 1) with level := l.level + 1 }.allowKey true)

/-- A bracket that closes. -/
def stepClose (l : Layout) (t : Token) : Outcome Layout := do
  let l ← l.dropPending
  pure ({ l.read t (l.cursor.skip 1) with level := l.level - 1 }.allowKey false)

/-- A comma. -/
def stepComma (l : Layout) : Outcome Layout := do
  let l ← l.dropPending
  pure ((l.read .flowEntry (l.cursor.skip 1)).allowKey true)

/-- The mark of an entry of a block sequence. -/
def stepEntry (l : Layout) : Outcome Layout := do
  if !l.inFlow && !l.keyAllowed then refuse .misplacedEntry
  else
    let l := if l.inFlow then l else l.openHere .blockSequence
    let l ← l.dropPending
    pure ((l.read .blockEntry (l.cursor.skip 1)).allowKey true)

/-- The mark of a key. -/
def stepKey (l : Layout) : Outcome Layout := do
  if !l.inFlow && !l.keyAllowed then refuse .misplacedKey
  else
    let l := if l.inFlow then l else l.openHere .blockMapping
    let l ← l.dropPending
    pure ((l.read .key (l.cursor.skip 1)).allowKey !l.inFlow)

/-- The layout with the marks of a pending key in front of it. -/
def markKey (l : Layout) (k : PendingKey) : Layout :=
  let l := { l.withoutPending with tokens := l.tokens.insertIdxIfInBounds k.token .key }
  if l.inFlow then l
  else match l.openBlock k.column with
    | some l => { l with tokens := l.tokens.insertIdxIfInBounds k.token .blockMapping }
    | none => l

/-- The mark of a value. -/
def stepValue (l : Layout) : Outcome Layout := do
  match l.pendingHere? with
  | some k =>
    let l := l.markKey k
    pure ((l.read .value (l.cursor.skip 1)).allowKey false)
  | none =>
    if !l.inFlow && !l.keyAllowed then refuse .misplacedValue
    else
      let l := if l.inFlow then l else l.openHere .blockMapping
      pure ((l.read .value (l.cursor.skip 1)).allowKey !l.inFlow)

/-- Something that may be a key, read by `reader` from a cursor on. -/
def stepWord (l : Layout) (reader : Cursor → Outcome (Token × Cursor)) : Outcome Layout := do
  let l ← l.savePending
  let (t, c) ← reader l.cursor
  pure ((l.read t c).allowKey false)

/-- A text in block style. -/
def stepBlock (l : Layout) (folded : Bool) : Outcome Layout := do
  let l ← l.dropPending
  let (text, c) ← readBlock folded l.indent (l.cursor.skip 1)
  pure ((l.read (.scalar false (String.ofList text)) c).allowKey true)

/-- A plain text. -/
def stepPlain (l : Layout) : Outcome Layout := do
  let l ← l.savePending
  let c := l.cursor
  let (text, crossed, c) := readPlain l.inFlow (l.indent + 1) c.rest.length [] [] false c
  pure ((l.read (.scalar true (String.ofList text)) c).allowKey crossed)

/-- A text between quotes. -/
def quotedToken (c : Cursor) : Outcome (Token × Cursor) := do
  let (text, c) ← readQuoted c.peek c.rest.length [] (c.skip 1)
  pure (.scalar false (String.ofList text), c)

/-- The characters that start no plain text, unless something follows some of them. -/
def marks : List Char := "-?:,[]\x7b\x7d#&*!|>'\"%@\x60".toList

/-- A plain text starts here. -/
def startsPlain (l : Layout) : Bool :=
  let ch := l.cursor.peek
  let next := l.cursor.peekAt 1
  (!endsPlain ch && !marks.contains ch)
    || (!endsPlain next && (ch == '-' || (!l.inFlow && (ch == '?' || ch == ':'))))

/-- One token more, at the cursor. -/
def stepHere (l : Layout) : Outcome Layout :=
  let c := l.cursor
  let word := endsPlain (c.peekAt 1)
  match c.peek with
  | '\x00' => l.stepEnd
  | '[' => l.stepOpen .flowSequence
  | '\x7b' => l.stepOpen .flowMapping
  | ']' => l.stepClose .flowSequenceEnd
  | '\x7d' => l.stepClose .flowMappingEnd
  | ',' => l.stepComma
  | '*' => l.stepWord fun c => do
    let (name, c) ← readName (c.skip 1)
    pure (.aliasName name, c)
  | '&' => l.stepWord fun c => do
    let (name, c) ← readName (c.skip 1)
    pure (.anchor name, c)
  | '!' => l.stepWord readTag
  | '\'' => l.stepWord quotedToken
  | '"' => l.stepWord quotedToken
  | ch =>
    if ch == '%' && c.column == 0 then l.stepDirective
    else if c.column == 0 && c.atSeparator '-' then l.stepSeparator .documentStart
    else if c.column == 0 && c.atSeparator '.' then l.stepSeparator .documentEnd
    else if ch == '-' && word then l.stepEntry
    else if ch == '?' && (l.inFlow || word) then l.stepKey
    else if ch == ':' && (l.inFlow || word) then l.stepValue
    else if ch == '|' && !l.inFlow then l.stepBlock false
    else if ch == '>' && !l.inFlow then l.stepBlock true
    else if l.startsPlain then l.stepPlain
    else refuse .noToken

/-- One token more. -/
def step (l : Layout) : Outcome Layout := do
  let l ← (l.skipSpace (l.cursor.rest.length + 1)).lapse
  (l.close l.cursor.column).stepHere

end Layout

/-- The tokens of a text, and the fault behind them if it cannot be read to its end. -/
structure Tokens where
  tokens : List Token
  fault? : Option Fault

/-- The tokens from a layout on. -/
def Layout.run : (budget : Nat) → Layout → Tokens
  | 0, l => ⟨l.tokens.toList, none⟩
  | budget + 1, l =>
    if l.finished then ⟨l.tokens.toList, none⟩
    else match l.lapse with
      | .error f => ⟨l.tokens.toList.take l.settled, some f⟩
      | .ok l =>
        match l.step with
        | .error f => ⟨l.tokens.toList.take l.settled, some f⟩
        | .ok l => run budget l

/-- The tokens of a text. -/
def tokens (text : String) : Tokens :=
  let cs := text.toList
  if cs.all isPrintable then Layout.run (cs.length + 2) { cursor := ⟨cs, 0, 0, 0⟩ }
  else ⟨[], some (.problem .unprintable)⟩

end SchemaCodegen.Yaml
