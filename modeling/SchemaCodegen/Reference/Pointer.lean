import SchemaCodegen.Text.Digit
import SchemaCodegen.Text.Search
import SchemaCodegen.Failure

/-!
# References and pointers

A reference is a text.  `#` refers to the whole document, and `#/…` is a **pointer**: its
segments, between slashes, lead from the document to a value one key or list index at a
time.  Inside a segment `~1` stands for a slash and `~0` for a tilde.  Any other text after
`#` is malformed, and a text without `#` refers to another document.

A **canonical** reference names a schema: it is a pointer into one of the two roots under
which documents keep their schemas (`SchemaRoot`).

* `Reference.parse` — what kind of reference a text is, with the segments of a pointer.
* `schemaName?` — the name in a canonical reference.
* `segmentIndex?` — the list index that a segment gives.
* `encodeSegment`, `decodeSegment` — a key as a segment, and back (`decode_encode`).
-/

namespace SchemaCodegen

/-! ### Segments -/

/-- A key as the characters of a segment. -/
def encodeSegment : List Char → List Char
  | [] => []
  | c :: rest =>
    if c = '~' then '~' :: '0' :: encodeSegment rest
    else if c = '/' then '~' :: '1' :: encodeSegment rest
    else c :: encodeSegment rest

/-- The key that the characters of a segment stand for.  A tilde before any other
character stands for itself. -/
def decodeSegment : List Char → List Char
  | '~' :: '1' :: rest => '/' :: decodeSegment rest
  | '~' :: '0' :: rest => '~' :: decodeSegment rest
  | c :: rest => c :: decodeSegment rest
  | [] => []

/-- Decoding undoes encoding. -/
theorem decode_encode (cs : List Char) : decodeSegment (encodeSegment cs) = cs := by
  induction cs with
  | nil => rfl
  | cons c rest ih =>
    unfold encodeSegment
    split
    · next h => simp [decodeSegment, ih, h]
    · split
      · next h => simp [decodeSegment, ih, h]
      · next h _ => simp [decodeSegment, ih, h]

/-- An encoded key has no slash. -/
theorem slash_not_mem_encodeSegment (cs : List Char) : '/' ∉ encodeSegment cs := by
  induction cs with
  | nil => simp [encodeSegment]
  | cons c rest ih =>
    unfold encodeSegment
    split
    · simp [ih]
    · split
      · simp [ih]
      · next h => simp [ih, Ne.symm h]

/-- The list index that a segment gives, if it consists of digits.  Digits without a
place value, or too many of them, give no number, which is a failure. -/
def segmentIndex? (segment : String) : Except Failure (Option Nat) :=
  let cs := segment.toList
  if cs.isEmpty || !cs.all Text.isDigit then .ok none
  else if Text.longestInteger < cs.length then .error .unreadable
  else match Text.readDigits? 0 cs with
    | some n => .ok (some n)
    | none => .error .unreadable

/-! ### References -/

/-- What a reference refers to. -/
inductive Reference where
  | whole
  | pointer (segments : List String)
  | malformed
  | external
deriving DecidableEq, Repr

/-- The segments of a pointer, from the text behind `#/`. -/
def pointerSegments (cs : List Char) : List String :=
  (Text.partsAt '/' cs).map fun part => String.ofList (decodeSegment part)

/-- What a text refers to. -/
def Reference.parse (ref : String) : Reference :=
  match ref.toList with
  | ['#'] => .whole
  | '#' :: '/' :: rest => .pointer (pointerSegments rest)
  | '#' :: _ => .malformed
  | _ => .external

/-! ### Schema names -/

/-- The two roots under which documents keep their schemas. -/
inductive SchemaRoot where
  | components
  | definitions
deriving DecidableEq, Repr

namespace SchemaRoot

/-- The key that a root stands under. -/
def key : SchemaRoot → String
  | .components => "components"
  | .definitions => "definitions"

/-- The text of a reference to a schema before its name. -/
def lead : SchemaRoot → String
  | .components => "#/components/schemas/"
  | .definitions => "#/definitions/"

/-- Both roots. -/
def all : List SchemaRoot := [.components, .definitions]

/-- The text behind the lead of a root, if a reference starts with that. -/
def after? (root : SchemaRoot) (ref : String) : Option (List Char) :=
  if root.lead.toList.isPrefixOf ref.toList then some (ref.toList.drop root.lead.length) else none

end SchemaRoot

/-- The name that a canonical reference gives a schema: what is behind the root, if that
is one segment and not empty. -/
def schemaName? (ref : String) : Option String :=
  SchemaRoot.all.findSome? fun root =>
    match root.after? ref with
    | some name =>
      if name.isEmpty || name.contains '/' then none
      else some (String.ofList (decodeSegment name))
    | none => none

/-- The canonical reference to a schema. -/
def SchemaRoot.reference (root : SchemaRoot) (name : String) : String :=
  root.lead ++ String.ofList (encodeSegment name.toList)

example : schemaName? "#/components/schemas/User" = some "User" := by decide +kernel
example : schemaName? "#/definitions/a~1b" = some "a/b" := by decide +kernel
example : schemaName? "#/components/responses/User" = none := by decide +kernel

end SchemaCodegen
