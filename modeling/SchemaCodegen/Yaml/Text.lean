import SchemaCodegen.Text.Surrogate
import SchemaCodegen.Yaml.Cursor

/-!
# Texts in YAML

The three ways in which a YAML text writes a string: plain, between quotes, and as an
indented block.  In all of them line breaks are **folded**: one between two words is read
as a space, and of several the first is left out.  A block text may keep its breaks.

Each reader has a budget, the number of characters left, so that it ends.
-/

namespace SchemaCodegen.Yaml

/-- A break and the ones behind it as they are folded. -/
def foldedBreak (first more : List Char) : List Char :=
  if first != ['\n'] then first ++ more
  else if more.isEmpty then [' ']
  else more

/-! ### Plain texts -/

/-- The characters at the front that belong to a plain text on one line. -/
def plainRun (flow : Bool) : List Char → List Char
  | [] => []
  | c :: rest =>
    let next := rest.headD endMark
    if endsPlain c || (c == ':' && (endsPlain next || (flow && isFlowMark next)))
        || (flow && (c == '?' || isFlowMark c)) then []
    else c :: plainRun flow rest

/-- The spaces and breaks behind a line of a plain text: what they are read as, whether
there was a break, and the cursor behind them.  Nothing at a document separator. -/
structure Spacing where
  read : Option (List Char)
  crossed : Bool
  cursor : Cursor

/-- The breaks behind the first one, and the spaces between them. -/
def moreBreaks : (budget : Nat) → (done : List Char) → Cursor → Option (List Char) × Cursor
  | 0, done, c => (some done, c)
  | budget + 1, done, c =>
    let c := c.skipWhile (· == ' ')
    match c.takeBreak with
    | ([], c) => (some done, c)
    | (found, c) =>
      if c.atAnySeparator then (none, c) else moreBreaks budget (done ++ found) c

/-- The spacing at a cursor. -/
def plainSpacing (c : Cursor) : Spacing :=
  let (spaces, c) := c.takeWhile (· == ' ')
  match c.takeBreak with
  | ([], c) => ⟨some spaces, false, c⟩
  | (first, c) =>
    if c.atAnySeparator then ⟨none, true, c⟩
    else
      match moreBreaks c.rest.length [] c with
      | (none, c) => ⟨none, true, c⟩
      | (some more, c) => ⟨some (foldedBreak first more), true, c⟩

/-- A plain text: its characters, whether a line ended behind it, and the cursor. -/
def readPlain (flow : Bool) (indent : Int) :
    (budget : Nat) → (done spaces : List Char) → (crossed : Bool) → Cursor →
    List Char × Bool × Cursor
  | 0, done, _, crossed, c => (done, crossed, c)
  | budget + 1, done, spaces, crossed, c =>
    let run := if c.peek == '#' then [] else plainRun flow c.rest
    if run.isEmpty then (done, crossed, c)
    else
      let done := done ++ spaces ++ run
      let spacing := plainSpacing (c.skip run.length)
      let c := spacing.cursor
      match spacing.read with
      | some (s :: more) =>
        if c.peek == '#' || (!flow && (c.column : Int) < indent) then (done, spacing.crossed, c)
        else readPlain flow indent budget done (s :: more) spacing.crossed c
      | _ => (done, spacing.crossed, c)

/-! ### Quoted texts -/

/-- The character that an escape of one letter stands for. -/
def escapedChar? : Char → Option Char
  | '0' => some '\x00'
  | 'a' => some '\x07'
  | 'b' => some '\x08'
  | 't' => some '\t'
  | '\t' => some '\t'
  | 'n' => some '\n'
  | 'v' => some '\x0b'
  | 'f' => some '\x0c'
  | 'r' => some '\r'
  | 'e' => some '\x1b'
  | ' ' => some ' '
  | '"' => some '"'
  | '\\' => some '\\'
  | '/' => some '/'
  | 'N' => some '\x85'
  | '_' => some '\u00a0'
  | 'L' => some '\u2028'
  | 'P' => some '\u2029'
  | _ => none

/-- The number of digits behind an escape by code. -/
def escapeLength? : Char → Option Nat
  | 'x' => some 2
  | 'u' => some 4
  | 'U' => some 8
  | _ => none

/-- The number written by hexadecimal digits. -/
def hexNumber? (cs : List Char) : Option Nat :=
  cs.foldl (fun n c => do pure (16 * (← n) + (← Text.hexValue? c))) (some 0)

/-- The character with a code; a surrogate keeps its stand-in.  A code that is no character
is a failure, and one beyond 31 bits another. -/
def charOfCode (n : Nat) : Outcome Char :=
  if 0x7fffffff < n then .error (.failure .overflow)
  else if 0x10ffff < n then .error (.failure .unreadable)
  else if 0xd800 ≤ n && n ≤ 0xdfff then .ok (Text.ofHalf n)
  else .ok (Char.ofNat n)

/-- The breaks in a quoted text, and the blanks at the start of each line. -/
def quotedBreaks : (budget : Nat) → (done : List Char) → Cursor → Outcome (List Char × Cursor)
  | 0, done, c => .ok (done, c)
  | budget + 1, done, c =>
    if c.atAnySeparator then refuse .separatorInText
    else
      let c := c.skipWhile fun ch => ch == ' ' || ch == '\t'
      match c.takeBreak with
      | ([], c) => .ok (done, c)
      | (found, c) => quotedBreaks budget (done ++ found) c

/-- The blanks and breaks in a quoted text. -/
def quotedSpacing (c : Cursor) : Outcome (List Char × Cursor) := do
  let (blanks, c) := c.takeWhile fun ch => ch == ' ' || ch == '\t'
  if c.peek == endMark then refuse .unclosedText
  else
    match c.takeBreak with
    | ([], c) => pure (blanks, c)
    | (first, c) =>
      let (more, c) ← quotedBreaks c.rest.length [] c
      pure (foldedBreak first more, c)

/-- What a backslash and the characters behind it are read as; the cursor is behind the
backslash. -/
def readEscape (c : Cursor) : Outcome (List Char × Cursor) :=
  match escapedChar? c.peek, escapeLength? c.peek with
  | some ch, _ => .ok ([ch], c.skip 1)
  | none, some n =>
    let digits := c.rest.tail.take n
    if digits.length < n then refuse .badEscape
    else match hexNumber? digits with
      | some code => do pure ([← charOfCode code], c.skip (n + 1))
      | none => refuse .badEscape
  | none, none =>
    match c.takeBreak with
    | ([], _) => refuse .badEscape
    | (_, c) => quotedBreaks c.rest.length [] c

/-- The characters up to the closing quote, which is `quote`; the cursor behind it. -/
def readQuoted (quote : Char) :
    (budget : Nat) → (done : List Char) → Cursor → Outcome (List Char × Cursor)
  | 0, _, _ => refuse .unclosedText
  | budget + 1, done, c =>
    let ch := c.peek
    if ch == quote then
      if quote == '\'' && c.peekAt 1 == '\'' then readQuoted quote budget ('\'' :: done) (c.skip 2)
      else .ok (done.reverse, c.skip 1)
    else if ch == '\\' && quote == '"' then do
      let (found, c) ← readEscape (c.skip 1)
      readQuoted quote budget (found.reverse ++ done) c
    else if endsPlain ch then do
      let (found, c) ← quotedSpacing c
      readQuoted quote budget (found.reverse ++ done) c
    else readQuoted quote budget (ch :: done) (c.skip 1)

/-! ### Block texts -/

/-- What becomes of the breaks at the end of a block text. -/
inductive Chomping where
  | clip
  | strip
  | keep
deriving DecidableEq, Repr

/-- The mark of a kind of chomping. -/
def chomping? : Char → Option Chomping
  | '+' => some .keep
  | '-' => some .strip
  | _ => none

/-- The indentation that a digit gives. -/
def indicator? (c : Char) : Outcome (Option Nat) :=
  if c == '0' then refuse .badBlockHeader
  else if isDigit c then .ok (some (c.toNat - 48))
  else .ok none

/-- The header of a block text: chomping, and indentation if it is given. -/
def readHeader (c : Cursor) : Outcome (Chomping × Option Nat × Cursor) := do
  let (chomping, digit, c) ← match chomping? c.peek with
    | some chomping => do
      let c := c.skip 1
      let digit ← indicator? c.peek
      pure (chomping, digit, if digit.isSome then c.skip 1 else c)
    | none => do
      match ← indicator? c.peek with
      | none => pure (Chomping.clip, none, c)
      | some digit =>
        let c := c.skip 1
        match chomping? c.peek with
        | some chomping => pure (chomping, some digit, c.skip 1)
        | none => pure (Chomping.clip, some digit, c)
  if !endsWord c.peek then refuse .badBlockHeader
  else
    let c := c.skipComment
    if endsLine c.peek then pure (chomping, digit, c.takeBreak.2) else refuse .badBlockHeader

/-- The breaks in front of a block text, and the greatest indentation among them. -/
def leadingBreaks : (budget : Nat) → (done : List Char) → (deepest : Nat) → Cursor →
    List Char × Nat × Cursor
  | 0, done, deepest, c => (done, deepest, c)
  | budget + 1, done, deepest, c =>
    if c.peek == ' ' then
      let c := c.skip 1
      leadingBreaks budget done (max deepest c.column) c
    else match c.takeBreak with
      | ([], c) => (done, deepest, c)
      | (found, c) => leadingBreaks budget (done ++ found) deepest c

/-- The cursor behind the spaces of an indentation, at most. -/
def skipIndent (indent : Nat) (c : Cursor) : Cursor :=
  c.skip ((c.rest.take (indent - c.column)).takeWhile (· == ' ')).length

/-- The breaks between lines of a block text. -/
def blockBreaks (indent : Nat) : (budget : Nat) → (done : List Char) → Cursor →
    List Char × Cursor
  | 0, done, c => (done, c)
  | budget + 1, done, c =>
    match (skipIndent indent c).takeBreak with
    | ([], c) => (done, c)
    | (found, c) => blockBreaks indent budget (done ++ found) c

/-- A line of a block text is a continuation: it starts with a blank. -/
def startsBlank (c : Cursor) : Bool := c.peek == ' ' || c.peek == '\t'

/-- The lines of a block text from the cursor on, behind `breaks`: the text, the last line
break, and the breaks behind it. -/
def readLines (folded : Bool) (indent : Nat) :
    (budget : Nat) → (done lastBreak breaks : List Char) → Cursor →
    List Char × List Char × List Char × Cursor
  | 0, done, lastBreak, breaks, c => (done, lastBreak, breaks, c)
  | budget + 1, done, lastBreak, breaks, c =>
    if c.column != indent || c.peek == endMark then (done, lastBreak, breaks, c)
    else
      let startedBlank := startsBlank c
      let (line, c) := c.takeWhile (!endsLine ·)
      let done := done ++ breaks ++ line
      let (lineBreak, c) := c.takeBreak
      let (breaks, c) := blockBreaks indent c.rest.length [] c
      if c.column != indent || c.peek == endMark then (done, lineBreak, breaks, c)
      else
        let joint :=
          if folded && lineBreak == ['\n'] && !startedBlank && !startsBlank c then
            if breaks.isEmpty then [' '] else []
          else lineBreak
        readLines folded indent budget (done ++ joint) lineBreak breaks c

/-- A block text; the cursor is behind its mark, and `parent` is the indentation around
it. -/
def readBlock (folded : Bool) (parent : Int) (c : Cursor) : Outcome (List Char × Cursor) := do
  let (chomping, given, c) ← readHeader c
  let least := (max (parent + 1) 1).toNat
  let (indent, breaks, c) := match given with
    | none =>
      let (breaks, deepest, c) := leadingBreaks c.rest.length [] 0 c
      (max least deepest, breaks, c)
    | some n =>
      let indent := least + n - 1
      let (breaks, c) := blockBreaks indent c.rest.length [] c
      (indent, breaks, c)
  let (text, lastBreak, trailing, c) := readLines folded indent c.rest.length [] [] breaks c
  pure (text ++ (if chomping == .strip then [] else lastBreak)
    ++ (if chomping == .keep then trailing else []), c)

end SchemaCodegen.Yaml
