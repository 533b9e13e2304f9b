import SchemaCodegen.Data.Anchors
import SchemaCodegen.Text.Quoted
import SchemaCodegen.Text.Surrogate

/-!
# Writing JSON text

Data is written as JSON in one of two layouts: on one line, with `, ` and `: ` between its
parts, or with one entry or item a line under a given indentation.  An empty container is
written without a break in both.  A `Style` also says whether characters beyond ASCII are
escaped.

Dates, byte strings and sets have no JSON text, and neither has a container that contains
itself; `Refusal` tells the two apart.  Keys that are numbers, truth values or null are
written as strings.
-/

namespace SchemaCodegen.Json

/-- How JSON is laid out. -/
structure Style where
  ascii : Bool
  indent : Option Nat
deriving DecidableEq, Repr

/-- One line, ASCII only. -/
def Style.oneLine : Style := ⟨true, none⟩

/-- Two spaces of indentation, ASCII only. -/
def Style.saved : Style := ⟨true, some 2⟩

/-- Two spaces of indentation, characters as they are. -/
def Style.shown : Style := ⟨false, some 2⟩

/-- Why data has no JSON text. -/
inductive Refusal where
  | noText
  | containsItself
deriving DecidableEq, Repr

/-- A code unit escaped by its number. -/
def escapeUnit (n : Nat) : List Char := '\\' :: 'u' :: Text.hexDigits 4 n

/-- A character escaped by its UTF-16 code units. -/
def escapeCode (c : Char) : List Char :=
  let n := Text.codeOf c
  if n < 0x10000 then escapeUnit n
  else escapeUnit (0xd800 + (n - 0x10000) / 0x400) ++ escapeUnit (0xdc00 + (n - 0x10000) % 0x400)

/-- One character of a string. -/
def stringChar (ascii : Bool) (c : Char) : List Char :=
  if c == '"' then ['\\', '"']
  else if c == '\\' then ['\\', '\\']
  else if c == '\n' then ['\\', 'n']
  else if c == '\r' then ['\\', 'r']
  else if c == '\t' then ['\\', 't']
  else if c == '\x08' then ['\\', 'b']
  else if c == '\x0c' then ['\\', 'f']
  else if c.toNat < 0x20 || (ascii && 0x7f ≤ c.toNat) then escapeCode c
  else [c]

/-- A string between double quotes. -/
def stringText (ascii : Bool) (s : String) : String :=
  String.ofList ('"' :: s.toList.flatMap (stringChar ascii) ++ ['"'])

/-- A number with a fraction. -/
def floatText (x : Binary64) : String := Binary64.textWith "Infinity" "NaN" x

/-- Data without parts. -/
def scalarText (style : Style) : Scalar → Except Refusal String
  | .null => .ok "null"
  | .bool b => .ok (if b then "true" else "false")
  | .int n => .ok (toString n)
  | .float x => .ok (floatText x)
  | .string s => .ok (stringText style.ascii s)
  | _ => .error .noText

/-- A key, always between quotes. -/
def keyText (style : Style) : Scalar → Except Refusal String
  | .string s => .ok (stringText style.ascii s)
  | .null => .ok "\"null\""
  | .bool b => .ok (if b then "\"true\"" else "\"false\"")
  | .int n => .ok (stringText style.ascii (toString n))
  | .float x => .ok (stringText style.ascii (floatText x))
  | _ => .error .noText

/-- A line break with the indentation of a depth, or nothing on one line. -/
def lineBreak (style : Style) (depth : Nat) : String :=
  match style.indent with
  | none => ""
  | some n => String.ofList ('\n' :: List.replicate (n * depth) ' ')

/-- Parts between brackets. -/
def bracketed (style : Style) (depth : Nat) (opening closing : String) (parts : List String) :
    String :=
  if parts.isEmpty then opening ++ closing
  else
    let separator := match style.indent with
      | none => ", "
      | some _ => "," ++ lineBreak style (depth + 1)
    opening ++ lineBreak style (depth + 1) ++ separator.intercalate parts
      ++ lineBreak style depth ++ closing

mutual

/-- The text of unshared data at a depth. -/
def valueText (style : Style) (depth : Nat) : Value → Except Refusal String
  | .scalar s => scalarText style s
  | .set _ => .error .noText
  | .pair a b => do
    let a ← valueText style (depth + 1) a
    let b ← valueText style (depth + 1) b
    pure (bracketed style depth "[" "]" [a, b])
  | .list xs => do
    let parts ← itemTexts style (depth + 1) xs
    pure (bracketed style depth "[" "]" parts)
  | .object es => do
    let parts ← entryTexts style (depth + 1) es
    pure (bracketed style depth "\x7b" "\x7d" parts)
  | .aliasTo _ => .error .containsItself

/-- The texts of the items of a list. -/
def itemTexts (style : Style) (depth : Nat) : List Value → Except Refusal (List String)
  | [] => pure []
  | v :: rest => do
    let text ← valueText style depth v
    let texts ← itemTexts style depth rest
    pure (text :: texts)

/-- The texts of the entries of an object. -/
def entryTexts (style : Style) (depth : Nat) :
    List (Scalar × Value) → Except Refusal (List String)
  | [] => pure []
  | (k, v) :: rest => do
    let key ← keyText style k
    let text ← valueText style depth v
    let texts ← entryTexts style depth rest
    pure ((key ++ ": " ++ text) :: texts)

end

/-- The JSON text of data. -/
def write (style : Style) (g : Anchors) (v : Value) : Except Refusal String :=
  valueText style 0 (g.unshare v)

end SchemaCodegen.Json
