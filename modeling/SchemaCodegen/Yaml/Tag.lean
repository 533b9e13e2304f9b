import SchemaCodegen.Text.Search
import SchemaCodegen.Yaml.Timestamp

/-!
# Tags

A tag says how a node is to be read.  One that stands in the text has a name of the form
`tag:yaml.org,2002:int`; a plain text without a tag has the tag that its form implies
(`Tag.ofPlain`): most plain texts are strings, some are truth values, numbers, days, times
or null.
-/

namespace SchemaCodegen.Yaml

/-- How a node is to be read. -/
inductive Tag where
  | null
  | bool
  | int
  | float
  | binary
  | timestamp
  | string
  | sequence
  | mapping
  | set
  | pairs
  | orderedPairs
  | merge
  | default
  | other (name : String)
deriving DecidableEq, Repr, Inhabited

namespace Tag

/-- What the names of the known tags start with. -/
def family : String := "tag:yaml.org,2002:"

/-- The known tags by the last part of their names. -/
def known : List (String × Tag) :=
  [("null", .null), ("bool", .bool), ("int", .int), ("float", .float), ("binary", .binary),
   ("timestamp", .timestamp), ("str", .string), ("seq", .sequence), ("map", .mapping),
   ("set", .set), ("pairs", .pairs), ("omap", .orderedPairs), ("merge", .merge),
   ("value", .default)]

/-- The tag with a name. -/
def ofName (name : String) : Tag :=
  ((known.find? fun k => family ++ k.1 == name).map (·.2)).getD (.other name)

/-! ### Forms of plain texts -/

/-- A digit, or an underscore between digits. -/
def isGrouped (c : Char) : Bool := isDigit c || c == '_'

/-- A text behind an optional sign. -/
def unsigned : List Char → List Char
  | '+' :: cs => cs
  | '-' :: cs => cs
  | cs => cs

/-- A part of a number in base sixty, behind the first one. -/
def isSixtieth : List Char → Bool
  | [d] => isDigit d
  | [d, e] => '0' ≤ d && d ≤ '5' && isDigit e
  | _ => false

/-- Parts of a number in base sixty, the first of which starts with a digit that passes. -/
def isSexagesimal (first : Char → Bool) (cs : List Char) : Bool :=
  match Text.partsAt ':' cs with
  | (d :: ds) :: part :: parts => first d && ds.all isGrouped && (part :: parts).all isSixtieth
  | _ => false

/-- Digits with underscores. -/
def isNumeral : List Char → Bool
  | d :: ds => isDigit d && ds.all isGrouped
  | [] => false

/-- A digit other than zero. -/
def isLeadingDigit (c : Char) : Bool := isDigit c && c != '0'

/-- The form of an integer. -/
def isIntegerText (cs : List Char) : Bool :=
  let body := unsigned cs
  (match body with
    | '0' :: 'b' :: ds => !ds.isEmpty && ds.all fun c => c == '0' || c == '1' || c == '_'
    | '0' :: 'x' :: ds => !ds.isEmpty && ds.all fun c =>
      isGrouped c || ('a' ≤ c && c ≤ 'f') || ('A' ≤ c && c ≤ 'F')
    | '0' :: ds => ds.all fun c => ('0' ≤ c && c ≤ '7') || c == '_'
    | d :: ds => isLeadingDigit d && ds.all isGrouped
    | [] => false)
  || isSexagesimal isLeadingDigit body

/-- An exponent, or nothing. -/
def isExponent : List Char → Bool
  | [] => true
  | e :: sign :: ds =>
    (e == 'e' || e == 'E') && (sign == '+' || sign == '-') && !ds.isEmpty && ds.all isDigit
  | _ => false

/-- The form of a number with a fraction. -/
def isFloatText (cs : List Char) : Bool :=
  let body := unsigned cs
  let whole := body.takeWhile (· != '.')
  match body.dropWhile (· != '.') with
  | _ :: fraction =>
    let behindDigits := fraction.dropWhile isGrouped
    if whole.isEmpty then
      (body.length == cs.length && isNumeral (fraction.takeWhile isGrouped)
          && isExponent behindDigits)
        || fraction == "inf".toList || fraction == "Inf".toList || fraction == "INF".toList
        || (body.length == cs.length && (fraction == "nan".toList
          || fraction == "NaN".toList || fraction == "NAN".toList))
    else
      (isNumeral whole && isExponent behindDigits)
        || (isSexagesimal isDigit whole && behindDigits.isEmpty)
  | [] => false

/-- The form of a day or of a time; a day alone has two digits for its month and day. -/
def isTimestampText (cs : List Char) : Bool :=
  match timestampText? cs with
  | some t => t.clock.isSome || (t.month.length == 2 && t.day.length == 2)
  | none => false

/-- The words for truth values. -/
def boolWords : List String :=
  ["yes", "Yes", "YES", "no", "No", "NO", "true", "True", "TRUE", "false", "False", "FALSE",
   "on", "On", "ON", "off", "Off", "OFF"]

/-- The words for null. -/
def nullWords : List String := ["", "~", "null", "Null", "NULL"]

/-- A text without a line feed at its end; a line feed alone stays. -/
def withoutFinalBreak (cs : List Char) : List Char :=
  if cs.getLast? == some '\n' && 1 < cs.length then cs.dropLast else cs

/-- The tag that the form of a plain text implies.  A line feed at its end does not
count. -/
def ofPlain (text : String) : Tag :=
  let cs := withoutFinalBreak text.toList
  let word := String.ofList cs
  if word ∈ boolWords then .bool
  else if word ∈ nullWords then .null
  else if isFloatText cs then .float
  else if isIntegerText cs then .int
  else if isTimestampText cs then .timestamp
  else if word == "<<" then .merge
  else if word == "=" then .default
  else if word == "!" || word == "&" || word == "*" then .other (family ++ "yaml")
  else .string

example :
    ["12", "0o17", "1.5", "1e3", "3.0.0", "190:20:30", "2024-01-31", "2024-1-31", "~", "y",
      "-.inf"].map ofPlain
    = [.int, .string, .float, .string, .string, .int, .timestamp, .string, .null, .string,
      .float] := by
  decide +kernel

end Tag

end SchemaCodegen.Yaml
