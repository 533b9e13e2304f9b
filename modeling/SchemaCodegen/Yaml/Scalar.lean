import SchemaCodegen.Options.Checked
import SchemaCodegen.Number.Numeric
import SchemaCodegen.Yaml.Tag

/-!
# The values of texts

What a text in YAML says under a tag.  Under a tag that its form implies a text nearly
always has a value; a tag that stands in the document may be wrong for its text, which is a
failure by cause: no digits, an unknown word, an unreadable number or time.

Integers are written in the bases two, eight, ten, sixteen and sixty, numbers with a
fraction in the bases ten and sixty, and underscores in both do not count.
-/

namespace SchemaCodegen.Yaml

/-! ### Numbers -/

/-- The value of a digit in bases up to sixteen. -/
def digitValue? (c : Char) : Option Nat :=
  match Text.decimalValue? c with
  | some d => some d
  | none => Text.hexValue? c

/-- The number written by digits of a base; at least one. -/
def radixDigits? (base : Nat) (cs : List Char) : Option Nat :=
  if cs.isEmpty then none
  else cs.foldl (fun n c => do
    let n ← n
    let d ← digitValue? c
    if d < base then some (base * n + d) else none) (some 0)

/-- The digits without the sign of their base. -/
def withoutBaseSign (base : Nat) : List Char → List Char
  | '0' :: mark :: rest =>
    let signs := if base = 2 then "bB" else if base = 8 then "oO" else if base = 16 then "xX" else ""
    if signs.toList.contains mark then rest else '0' :: mark :: rest
  | cs => cs

/-- An integer in a base: blanks around it, an optional sign, and digits. -/
def radixInteger (base : Nat) (cs : List Char) : Except Failure Int :=
  let trimmed := Text.dropBlanksRight (Text.dropBlanks cs)
  let (negative, body) := match trimmed with
    | '-' :: rest => (true, rest)
    | '+' :: rest => (false, rest)
    | _ => (false, trimmed)
  let ds := withoutBaseSign base body
  if base = 10 && Text.longestInteger < ds.length then .error .unreadable
  else match radixDigits? base ds with
    | some n => .ok (Binary64.signed negative n)
    | none => .error .unreadable

/-- A number with a fraction, in base ten: digits, a point and digits, one of them at
least, and an exponent; or a word. -/
def decimalNumber (cs : List Char) : Except Failure Binary64 :=
  let trimmed := Text.dropBlanksRight (Text.dropBlanks cs)
  let (negative, body) := match trimmed with
    | '-' :: rest => (true, rest)
    | '+' :: rest => (false, rest)
    | _ => (false, trimmed)
  let word := asciiLower (String.ofList body)
  if word == "inf" || word == "infinity" then .ok (Binary64.infinity negative)
  else if word == "nan" then .ok Binary64.nan
  else
    let isDecimal (c : Char) : Bool := (Text.decimalValue? c).isSome
    let whole := body.takeWhile isDecimal
    let rest := body.dropWhile isDecimal
    let (fraction, rest) := match rest with
      | '.' :: more => (more.takeWhile isDecimal, more.dropWhile isDecimal)
      | _ => ([], rest)
    let power : Option Int := match rest with
      | [] => some 0
      | mark :: more =>
        if mark == 'e' || mark == 'E' then
          match more with
          | '-' :: ds => (radixDigits? 10 ds).map fun n => -(n : Int)
          | '+' :: ds => (radixDigits? 10 ds).map Int.ofNat
          | ds => (radixDigits? 10 ds).map Int.ofNat
        else none
    match radixDigits? 10 (whole ++ fraction), power with
    | some digits, some power =>
      .ok (Binary64.ofDecimal negative digits (power - fraction.length))
    | _, _ => .error .unreadable

/-- A text without underscores. -/
def withoutUnderscores (text : String) : List Char := text.toList.filter (· != '_')

/-- The sign of a number and what is behind it; a number has at least one character. -/
def splitSign : List Char → Except Failure (Bool × List Char)
  | [] => .error .nothingThere
  | '-' :: rest => .ok (true, rest)
  | '+' :: rest => .ok (false, rest)
  | cs => .ok (false, cs)

/-- An integer in base sixty, the parts from the greatest on. -/
def sexagesimalInteger (parts : List (List Char)) : Except Failure Int := do
  let digits ← parts.mapM (radixInteger 10)
  pure (digits.foldl (fun n d => 60 * n + d) 0)

/-- A number in base sixty: the parts are added from the last one on. -/
def sexagesimalNumber (parts : List (List Char)) : Except Failure Numeric := do
  let digits ← parts.mapM decimalNumber
  let (sum, _) ← digits.reverse.foldlM (fun (sum, base) d => do
    let term ← (Numeric.float d).mul (.int base)
    pure (← sum.add term, base * 60)) ((Numeric.float (Binary64.zero false), (1 : Int)))
  pure sum

/-- An integer with its sign. -/
def integerValue (text : String) : Except Failure Int := do
  let (negative, body) ← splitSign (withoutUnderscores text)
  let n ← magnitude body
  pure (if negative then -n else n)
where
  /-- The integer without its sign. -/
  magnitude (body : List Char) : Except Failure Int :=
    match body with
    | ['0'] => .ok 0
    | '0' :: 'b' :: ds => radixInteger 2 ds
    | '0' :: 'x' :: ds => radixInteger 16 ds
    | '0' :: _ => radixInteger 8 body
    | [] => .error .nothingThere
    | _ =>
      if body.contains ':' then sexagesimalInteger (Text.partsAt ':' body)
      else radixInteger 10 body

/-- A number with a fraction and its sign. -/
def floatValue (text : String) : Except Failure Binary64 := do
  let (negative, body) ← splitSign ((withoutUnderscores text).map Char.toLower)
  let x ← magnitude body
  pure (if negative && !x.isNaN then x.neg else x)
where
  /-- The number without its sign. -/
  magnitude (body : List Char) : Except Failure Binary64 :=
    if body == ".inf".toList then .ok (Binary64.infinity false)
    else if body == ".nan".toList then .ok Binary64.nan
    else if body.contains ':' then do (← sexagesimalNumber (Text.partsAt ':' body)).toBinary64
    else decimalNumber body

/-! ### Octets -/

/-- The value of a character in base sixty-four. -/
def base64Value? (c : Char) : Option Nat :=
  if 'A' ≤ c && c ≤ 'Z' then some (c.toNat - 65)
  else if 'a' ≤ c && c ≤ 'z' then some (c.toNat - 71)
  else if isDigit c then some (c.toNat + 4)
  else if c == '+' then some 62
  else if c == '/' then some 63
  else none

/-- What of a text in base sixty-four is read so far: the octets backwards, the place in
the group of four, the bits left over, and the pads. -/
structure Base64State where
  octets : List UInt8 := []
  place : Nat := 0
  left : Nat := 0
  pads : Nat := 0

/-- One digit more. -/
def Base64State.digit (s : Base64State) (d : Nat) : Base64State :=
  match s.place with
  | 0 => { s with place := 1, left := d, pads := 0 }
  | 1 => ⟨UInt8.ofNat (s.left * 4 + d / 16) :: s.octets, 2, d % 16, 0⟩
  | 2 => ⟨UInt8.ofNat (s.left * 16 + d / 4) :: s.octets, 3, d % 4, 0⟩
  | _ => ⟨UInt8.ofNat (s.left * 64 + d) :: s.octets, 0, 0, 0⟩

/-- The octets that a text in base sixty-four gives, up to its padding; other characters do
not count. -/
def base64Octets? : Base64State → List Char → Option (List UInt8)
  | s, [] => if s.place = 0 then some s.octets.reverse else none
  | s, c :: rest =>
    if c = '=' then
      if 2 ≤ s.place then
        if 4 ≤ s.place + s.pads + 1 then some s.octets.reverse
        else base64Octets? { s with pads := s.pads + 1 } rest
      else base64Octets? s rest
    else match base64Value? c with
      | some d => base64Octets? (s.digit d) rest
      | none => base64Octets? s rest

/-- A byte string, of ASCII characters. -/
def binaryValue (text : String) : Outcome (List UInt8) :=
  if text.toList.all fun c => c.toNat < 128 then
    match base64Octets? {} text.toList with
    | some octets => .ok octets
    | none => refuse .badBinary
  else refuse .badBinary

/-! ### All texts -/

/-- A truth value, in any case. -/
def boolValue (text : String) : Except Failure Bool :=
  let word := asciiLower text
  if word == "yes" || word == "true" || word == "on" then .ok true
  else if word == "no" || word == "false" || word == "off" then .ok false
  else .error .unknownWord

/-- A day or a time. -/
def timestampValue (text : String) : Except Failure Scalar :=
  let cs := text.toList
  let cs := if cs.getLast? == some '\n' then cs.dropLast else cs
  match timestampText? cs with
  | some t => t.scalar
  | none => .error .notObject

/-- A result that may be a failure. -/
def orFailure {α : Type} : Except Failure α → Outcome α
  | .ok a => .ok a
  | .error f => .error (.failure f)

/-- What a text says under a tag. -/
def scalarValue (tag : Tag) (text : String) : Outcome Scalar :=
  match tag with
  | .null => .ok .null
  | .bool => orFailure ((boolValue text).map .bool)
  | .int => orFailure ((integerValue text).map .int)
  | .float => orFailure ((floatValue text).map .float)
  | .binary => (binaryValue text).map .bytes
  | .timestamp => orFailure (timestampValue text)
  | .string => .ok (.string text)
  | .other _ => refuse .unknownTag
  | .merge => refuse .unknownTag
  | .default => refuse .unknownTag
  | _ => refuse .wrongContent

end SchemaCodegen.Yaml
