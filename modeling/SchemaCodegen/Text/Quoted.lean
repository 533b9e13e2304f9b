import SchemaCodegen.Text.Printable
import SchemaCodegen.Text.Surrogate

/-!
# Quoted text

The text of a value shows a string between quotes: single ones, or double ones
when the string holds a single quote and no double one.  The quote itself and the
backslash are escaped, the common controls have letters (`\n`, `\r`, `\t`), and any
other character that is not printable is given by its code point, in two, four or
eight hexadecimal digits.
-/

namespace SchemaCodegen.Text

/-- The last `k` hexadecimal digits of `n`, lower case, most significant first. -/
def hexDigits : (k n : Nat) → List Char
  | 0, _ => []
  | k + 1, n => hexDigits k (n / 16) ++ [Nat.digitChar (n % 16)]

@[simp] theorem hexDigits_length (k n : Nat) : (hexDigits k n).length = k := by
  induction k generalizing n with
  | zero => rfl
  | succ k ih => simp [hexDigits, ih]

/-- A character that is not printable, by its code point. -/
def escapeByCode (c : Char) : List Char :=
  let n := codeOf c
  if n < 0x100 then '\\' :: 'x' :: hexDigits 2 n
  else if n < 0x10000 then '\\' :: 'u' :: hexDigits 4 n
  else '\\' :: 'U' :: hexDigits 8 n

/-- One character of a quoted text. -/
def quotedChar (quote c : Char) : List Char :=
  if c == quote || c == '\\' then ['\\', c]
  else if c == '\n' then ['\\', 'n']
  else if c == '\r' then ['\\', 'r']
  else if c == '\t' then ['\\', 't']
  else if isPrintable c then [c]
  else escapeByCode c

/-- The quote for a text: double only when it holds a single one and no double
one. -/
def quoteFor (cs : List Char) : Char :=
  if cs.contains '\'' && !cs.contains '"' then '"' else '\''

/-- A text between quotes. -/
def quoted (s : String) : String :=
  let cs := s.toList
  let q := quoteFor cs
  String.ofList (q :: cs.flatMap (quotedChar q) ++ [q])

end SchemaCodegen.Text
