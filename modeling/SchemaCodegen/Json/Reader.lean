import SchemaCodegen.Data.Value
import SchemaCodegen.Text.Digit
import SchemaCodegen.Text.Surrogate

/-!
# Reading JSON text

`Json.read` turns JSON text into data.  It is strict, with three words more than the
standard has: `NaN`, `Infinity` and `-Infinity` are numbers.  A number with a fraction or
an exponent is a `float`, any other one an integer of any size.  Of two entries with one
key the later wins, in the place of the first.

A text that is refused is refused at one position, with one of the causes of `Problem`;
`Fault.message` says both, counting lines and columns from one and characters from zero.

Every reader takes the text still to be read with its position (`Cursor`) and leaves a
cursor further on.  Nested values recurse on a budget that starts above twice the length of
the text; since every two calls take a character, the budget is never what ends a reading.
-/

namespace SchemaCodegen.Json

/-- Why a text is refused. -/
inductive Problem where
  | byteOrderMark
  | noValue
  | noKey
  | noColon
  | noComma
  | extraData
  | openString
  | controlCharacter
  | badEscape
  | badCodeEscape
  | tooManyDigits
deriving DecidableEq, Repr

/-- A cause and the position, in characters, where it was found. -/
structure Fault where
  problem : Problem
  position : Nat
deriving DecidableEq, Repr

/-- The words for a cause. -/
def Problem.text : Problem → String
  | .byteOrderMark => "Unexpected UTF-8 BOM (decode using utf-8-sig)"
  | .noValue => "Expecting value"
  | .noKey => "Expecting property name enclosed in double quotes"
  | .noColon => "Expecting ':' delimiter"
  | .noComma => "Expecting ',' delimiter"
  | .extraData => "Extra data"
  | .openString => "Unterminated string starting at"
  | .controlCharacter => "Invalid control character at"
  | .badEscape => "Invalid \\escape"
  | .badCodeEscape => "Invalid \\uXXXX escape"
  | .tooManyDigits => "Too many digits"

/-- The line and the column of a position, both from one. -/
def lineColumn (cs : List Char) (position : Nat) : Nat × Nat :=
  (cs.take position).foldl (fun at' c => if c == '\n' then (at'.1 + 1, 1) else (at'.1, at'.2 + 1))
    (1, 1)

/-- A fault in words. -/
def Fault.message (f : Fault) (text : String) : String :=
  let (line, column) := lineColumn text.toList f.position
  s!"{f.problem.text}: line {line} column {column} (char {f.position})"

/-- The text still to be read and its position. -/
structure Cursor where
  rest : List Char
  position : Nat
deriving Repr

namespace Cursor

/-- The cursor behind `n` characters. -/
def skip (c : Cursor) (n : Nat) : Cursor := ⟨c.rest.drop n, c.position + n⟩

/-- The four characters between tokens. -/
def isSpace (c : Char) : Bool := c == ' ' || c == '\t' || c == '\n' || c == '\r'

/-- The cursor behind the spaces at its front. -/
def skipSpaces (c : Cursor) : Cursor :=
  c.skip (c.rest.takeWhile isSpace).length

/-- A refusal at the cursor. -/
def refuse {α : Type} (c : Cursor) (p : Problem) : Except Fault (α × Cursor) := .error ⟨p, c.position⟩

end Cursor

/-! ### Strings -/

/-- The number written by four hexadecimal digits at the front. -/
def fourHex? : List Char → Option Nat
  | a :: b :: c :: d :: _ => do
    let a ← Text.hexValue? a
    let b ← Text.hexValue? b
    let c ← Text.hexValue? c
    let d ← Text.hexValue? d
    pure (((a * 16 + b) * 16 + c) * 16 + d)
  | _ => none

/-- The letters behind a backslash and what they stand for. -/
def letterEscape? : Char → Option Char
  | '"' => some '"'
  | '\\' => some '\\'
  | '/' => some '/'
  | 'b' => some '\x08'
  | 'f' => some '\x0c'
  | 'n' => some '\n'
  | 'r' => some '\r'
  | 't' => some '\t'
  | _ => none

/-- An escape by code behind `\u`: its character and its length.  A high half takes the low
half of an escape right behind it; a half alone stands for itself.  Neither escape may be
the last thing in the text, which has to close the string. -/
def codeEscape? (cs : List Char) : Option (Char × Nat) := do
  if cs.length ≤ 4 then none
  let n ← fourHex? cs
  if 0xd800 ≤ n && n ≤ 0xdbff then
    match cs.drop 4 with
    | '\\' :: 'u' :: more =>
      if more.length ≤ 4 then pure (Text.ofHalf n, 4)
      else
        let m ← fourHex? more
        if 0xdc00 ≤ m && m ≤ 0xdfff then pure (Text.joinHalves n m, 10)
        else pure (Text.ofHalf n, 4)
    | _ => pure (Text.ofHalf n, 4)
  else if 0xdc00 ≤ n && n ≤ 0xdfff then pure (Text.ofHalf n, 4)
  else pure (Char.ofNat n, 4)

/-- Where a bad escape by code is reported: at the escape whose digits are wrong. -/
def codeEscapeFault (cs : List Char) (position : Nat) : Fault :=
  ⟨.badCodeEscape, if (fourHex? cs).isSome && 4 < cs.length then position + 6 else position⟩

/-- The rest of a string that opened at `start`, with the characters so far backwards. -/
def readString (start : Nat) : (budget : Nat) → (done : List Char) → Cursor → Except Fault (String × Cursor)
  | 0, _, _ => .error ⟨.openString, start⟩
  | budget + 1, done, c =>
    match c.rest with
    | [] => .error ⟨.openString, start⟩
    | '"' :: _ => .ok (String.ofList done.reverse, c.skip 1)
    | '\\' :: [] => .error ⟨.openString, start⟩
    | '\\' :: 'u' :: more =>
      match codeEscape? more with
      | some (ch, n) => readString start budget (ch :: done) (c.skip (2 + n))
      | none => .error (codeEscapeFault more (c.position + 1))
    | '\\' :: letter :: _ =>
      match letterEscape? letter with
      | some ch => readString start budget (ch :: done) (c.skip 2)
      | none => c.refuse .badEscape
    | ch :: _ =>
      if ch.toNat < 0x20 then c.refuse .controlCharacter
      else readString start budget (ch :: done) (c.skip 1)

/-! ### Numbers -/

/-- An ASCII digit. -/
def isDigit (c : Char) : Bool := '0' ≤ c && c ≤ '9'

/-- The number written by ASCII digits. -/
def digitsValue (cs : List Char) : Nat := cs.foldl (fun n c => 10 * n + (c.toNat - 48)) 0

/-- The parts of a number: whether it is negative, its whole digits, the digits behind
the point and the exponent, and how many characters they take. -/
structure NumberText where
  negative : Bool
  whole : List Char
  fraction : List Char
  exponent : Option Int
  length : Nat

/-- The number at the front, if there is one: no needless zero in front, digits behind a
point and behind an exponent mark, otherwise the number ends before the mark. -/
def numberText? (cs : List Char) : Option NumberText :=
  let (negative, body) := match cs with
    | '-' :: rest => (true, rest)
    | _ => (false, cs)
  let digits := body.takeWhile isDigit
  let whole := match digits with
    | '0' :: _ => ['0']
    | _ => digits
  if whole.isEmpty then none
  else
    let rest := body.drop whole.length
    let fraction := match rest with
      | '.' :: more => more.takeWhile isDigit
      | _ => []
    let rest := if fraction.isEmpty then rest else rest.drop (fraction.length + 1)
    let (exponent, markLength) := match rest with
      | mark :: more =>
        if mark == 'e' || mark == 'E' then
          let (sign, power) := match more with
            | '-' :: ds => (some true, ds.takeWhile isDigit)
            | '+' :: ds => (some false, ds.takeWhile isDigit)
            | ds => (none, ds.takeWhile isDigit)
          if power.isEmpty then (none, 0)
          else
            let value : Int := digitsValue power
            (some (if sign == some true then -value else value),
              1 + (if sign.isSome then 1 else 0) + power.length)
        else (none, 0)
      | [] => (none, 0)
    let fractionLength := if fraction.isEmpty then 0 else fraction.length + 1
    some ⟨negative, whole, fraction, exponent,
      (if negative then 1 else 0) + whole.length + fractionLength + markLength⟩

/-- The number as data. -/
def NumberText.value (n : NumberText) : Value :=
  if n.fraction.isEmpty && n.exponent.isNone then
    .int (Binary64.signed n.negative (digitsValue n.whole))
  else
    .float (Binary64.ofDecimal n.negative (digitsValue (n.whole ++ n.fraction))
      (n.exponent.getD 0 - n.fraction.length))

/-- An integer has more digits than are read. -/
def NumberText.tooLong (n : NumberText) : Bool :=
  n.fraction.isEmpty && n.exponent.isNone && Text.longestInteger < n.whole.length

/-! ### Values -/

/-- The words that are values. -/
def words : List (List Char × Value) :=
  [("null".toList, .null), ("true".toList, .bool true), ("false".toList, .bool false),
   ("NaN".toList, .float Binary64.nan), ("Infinity".toList, .float (Binary64.infinity false)),
   ("-Infinity".toList, .float (Binary64.infinity true))]

/-- A word or a number at the cursor. -/
def readAtom (c : Cursor) : Except Fault (Value × Cursor) :=
  match words.find? fun w => w.1.isPrefixOf c.rest with
  | some (w, v) => .ok (v, c.skip w.length)
  | none =>
    match numberText? c.rest with
    | some n => if n.tooLong then c.refuse .tooManyDigits else .ok (n.value, c.skip n.length)
    | none => c.refuse .noValue

mutual

/-- The value at the cursor. -/
def readValue : (budget : Nat) → Cursor → Except Fault (Value × Cursor)
  | 0, c => c.refuse .noValue
  | budget + 1, c =>
    match c.rest with
    | '"' :: _ => (readString c.position c.rest.length [] (c.skip 1)).map fun r =>
        (.string r.1, r.2)
    | '\x7b' :: _ =>
      let inner := (c.skip 1).skipSpaces
      match inner.rest with
      | '\x7d' :: _ => .ok (.object [], inner.skip 1)
      | _ => readEntries budget [] inner
    | '[' :: _ =>
      let inner := (c.skip 1).skipSpaces
      match inner.rest with
      | ']' :: _ => .ok (.list [], inner.skip 1)
      | _ => readItems budget [] inner
    | _ => readAtom c

/-- The items from the cursor to the end of the list, with those before it backwards. -/
def readItems : (budget : Nat) → (done : List Value) → Cursor → Except Fault (Value × Cursor)
  | 0, _, c => c.refuse .noValue
  | budget + 1, done, c => do
    let (v, after) ← readValue budget c
    let after := after.skipSpaces
    match after.rest with
    | ']' :: _ => pure (.list (v :: done).reverse, after.skip 1)
    | ',' :: _ => readItems budget (v :: done) (after.skip 1).skipSpaces
    | _ => after.refuse .noComma

/-- The entries from the cursor to the end of the object, added to those before it. -/
def readEntries : (budget : Nat) → (done : Entries) → Cursor → Except Fault (Value × Cursor)
  | 0, _, c => c.refuse .noKey
  | budget + 1, done, c => do
    match c.rest with
    | '"' :: _ => pure ()
    | _ => throw ⟨.noKey, c.position⟩
    let (key, after) ← readString c.position c.rest.length [] (c.skip 1)
    let after := after.skipSpaces
    match after.rest with
    | ':' :: _ => pure ()
    | _ => throw ⟨.noColon, after.position⟩
    let (v, after) ← readValue budget (after.skip 1).skipSpaces
    let after := after.skipSpaces
    let done := Entries.put done (.string key) v
    match after.rest with
    | '\x7d' :: _ => pure (.object done, after.skip 1)
    | ',' :: _ => readEntries budget done (after.skip 1).skipSpaces
    | _ => after.refuse .noComma

end

/-- The data of a whole text. -/
def read (text : String) : Except Fault Value :=
  let cs := text.toList
  match cs with
  | '\ufeff' :: _ => .error ⟨.byteOrderMark, 0⟩
  | _ => do
    let (v, after) ← readValue (2 * cs.length + 2) (Cursor.skipSpaces ⟨cs, 0⟩)
    let after := after.skipSpaces
    if after.rest.isEmpty then pure v else throw ⟨.extraData, after.position⟩

end SchemaCodegen.Json
