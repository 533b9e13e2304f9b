import SchemaCodegen.Failure

/-!
# Reading positions in YAML text

A `Cursor` is what is left of a text, with the line and column it starts at, which decide
the structure of a YAML document.  The end of the text is read as NUL, which is no
character of a YAML text.

Line breaks are the line feed, the carriage return, the two together, the next-line
character and the two Unicode separators; the first four are read as a line feed.
-/

namespace SchemaCodegen.Yaml

/-- Why a text is no single YAML document that can be read. -/
inductive Problem where
  | unprintable
  | noToken
  | keyWithoutValue
  | misplacedEntry
  | misplacedKey
  | misplacedValue
  | badDirective
  | badAnchor
  | badTag
  | badBlockHeader
  | badEscape
  | unclosedText
  | separatorInText
  | unexpectedToken
  | unknownHandle
  | unknownAnchor
  | repeatedAnchor
  | severalDocuments
  | unknownTag
  | wrongContent
  | badKey
  | badBinary
deriving DecidableEq, Repr

/-- A problem in words. -/
def Problem.text : Problem → String
  | .unprintable => "a character is not allowed"
  | .noToken => "a character cannot start a token"
  | .keyWithoutValue => "a key has no ':' behind it"
  | .misplacedEntry => "a sequence entry is not allowed here"
  | .misplacedKey => "a mapping key is not allowed here"
  | .misplacedValue => "a mapping value is not allowed here"
  | .badDirective => "a directive is not well formed"
  | .badAnchor => "an anchor or alias is not well formed"
  | .badTag => "a tag is not well formed"
  | .badBlockHeader => "the header of a block text is not well formed"
  | .badEscape => "an escape is not well formed"
  | .unclosedText => "a quoted text is not closed"
  | .separatorInText => "a document separator stands in a quoted text"
  | .unexpectedToken => "a token does not fit here"
  | .unknownHandle => "a tag handle is not declared"
  | .unknownAnchor => "an alias has no anchor"
  | .repeatedAnchor => "an anchor occurs twice"
  | .severalDocuments => "there is more than one document"
  | .unknownTag => "a tag is not known"
  | .wrongContent => "the content does not fit its tag"
  | .badKey => "a container is used as a key"
  | .badBinary => "a binary text is not well formed"

/-- What ends the reading of a YAML text: a problem of the text as YAML, or a value that its
data cannot have. -/
inductive Fault where
  | problem (p : Problem)
  | failure (f : Failure)
deriving DecidableEq, Repr

/-- The result of reading a part of a text. -/
abbrev Outcome (α : Type) := Except Fault α

/-- A problem as the result. -/
def refuse {α : Type} (p : Problem) : Outcome α := .error (.problem p)

/-! ### Characters -/

/-- A character that a YAML text may contain. -/
def isPrintable (c : Char) : Bool :=
  let n := c.toNat
  n == 0x09 || n == 0x0a || n == 0x0d || (0x20 ≤ n && n ≤ 0x7e) || n == 0x85
    || (0xa0 ≤ n && n ≤ 0xd7ff) || (0xe000 ≤ n && n ≤ 0xfffd) || 0x10000 ≤ n

/-- The character that marks the end. -/
def endMark : Char := '\x00'

/-- A line break, or a part of one. -/
def isBreak (c : Char) : Bool :=
  c == '\n' || c == '\r' || c == '\x85' || c == '\u2028' || c == '\u2029'

/-- A character at which a line ends. -/
def endsLine (c : Char) : Bool := c == endMark || isBreak c

/-- A character at which a word ends that spaces separate. -/
def endsWord (c : Char) : Bool := c == ' ' || endsLine c

/-- A character at which a word ends that spaces and tabs separate. -/
def endsPlain (c : Char) : Bool := c == '\t' || endsWord c

/-- A bracket or comma of flow style. -/
def isFlowMark (c : Char) : Bool := ",[]\x7b\x7d".toList.contains c

/-- An ASCII digit. -/
def isDigit (c : Char) : Bool := '0' ≤ c && c ≤ '9'

/-- A character of a name: ASCII letters, digits, `-` and `_`. -/
def isNameChar (c : Char) : Bool := c.isAlphanum || c == '-' || c == '_'

/-! ### Cursors -/

/-- What is left of a text, and where it starts. -/
structure Cursor where
  rest : List Char
  index : Nat := 0
  line : Nat := 0
  column : Nat := 0

namespace Cursor

/-- The character at a distance. -/
def peekAt (c : Cursor) (n : Nat) : Char := c.rest.getD n endMark

/-- The next character. -/
def peek (c : Cursor) : Char := c.peekAt 0

/-- The cursor behind the next character.  A byte order mark has no width. -/
def advance (c : Cursor) : Cursor :=
  match c.rest with
  | [] => c
  | ch :: rest =>
    if isBreak ch && !(ch == '\r' && rest.head? == some '\n') then
      ⟨rest, c.index + 1, c.line + 1, 0⟩
    else ⟨rest, c.index + 1, c.line, if ch == '\ufeff' then c.column else c.column + 1⟩

/-- The cursor behind a number of characters. -/
def skip (c : Cursor) : Nat → Cursor
  | 0 => c
  | n + 1 => c.advance.skip n

/-- The characters at the front that have a property, and the cursor behind them. -/
def takeWhile (c : Cursor) (p : Char → Bool) : List Char × Cursor :=
  let taken := c.rest.takeWhile p
  (taken, c.skip taken.length)

/-- The cursor behind the characters at the front that have a property. -/
def skipWhile (c : Cursor) (p : Char → Bool) : Cursor := (c.takeWhile p).2

/-- The cursor behind spaces and a comment. -/
def skipComment (c : Cursor) : Cursor :=
  let c := c.skipWhile (· == ' ')
  if c.peek == '#' then c.skipWhile (!endsLine ·) else c

/-- The line break at the front as it is read, if there is one, and the cursor behind
it. -/
def takeBreak (c : Cursor) : List Char × Cursor :=
  if c.peek == '\r' && c.peekAt 1 == '\n' then (['\n'], c.skip 2)
  else if c.peek == '\u2028' || c.peek == '\u2029' then ([c.peek], c.skip 1)
  else if isBreak c.peek then (['\n'], c.skip 1)
  else ([], c)

/-- A document separator stands here: three of a character and then the end of a word. -/
def atSeparator (c : Cursor) (mark : Char) : Bool :=
  c.peek == mark && c.peekAt 1 == mark && c.peekAt 2 == mark && endsPlain (c.peekAt 3)

/-- Either document separator stands here. -/
def atAnySeparator (c : Cursor) : Bool := c.atSeparator '-' || c.atSeparator '.'

end Cursor

end SchemaCodegen.Yaml
