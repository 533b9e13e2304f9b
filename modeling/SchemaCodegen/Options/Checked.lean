import SchemaCodegen.Data.Shown
import SchemaCodegen.Failure
import SchemaCodegen.Text.Digit

/-!
# Checked records

An options record is read from the entries of an object, field by field.  A `Checked`
result is the value, or the faults of *all* fields that are wrong, in the order of the
fields: reading goes on after a fault (`faults_seq`).

Values are accepted leniently where their meaning is plain:

* a truth value may be given as a number `0` or `1` or as one of a few words;
* an integer may be given as a truth value, as a number without a fraction, or as a text;
* a text may be given as the octets of its UTF-8 form.

The keys of a mapping must be texts themselves, as those of JSON data are.
-/

namespace SchemaCodegen

/-- A value, or what is wrong with the data it was to be read from. -/
inductive Checked (α : Type) where
  | valid (a : α)
  | faulty (faults : List RecordFault)
deriving Repr

namespace Checked

variable {α β : Type}

/-- The faults; a valid result has none. -/
def faults : Checked α → List RecordFault
  | .valid _ => []
  | .faulty fs => fs

/-- A result made from a valid one. -/
def map (f : α → β) : Checked α → Checked β
  | .valid a => .valid (f a)
  | .faulty fs => .faulty fs

/-- Two results together: the faults of both. -/
def seq (f : Checked (α → β)) (x : Checked α) : Checked β :=
  match f, x with
  | .valid f, .valid a => .valid (f a)
  | f, x => .faulty (f.faults ++ x.faults)

instance : Applicative Checked where
  pure := .valid
  map := map
  seq f x := f.seq (x ())

/-- A sequence has the faults of both parts, in order. -/
theorem faults_seq (f : Checked (α → β)) (x : Checked α) :
    (f.seq x).faults = f.faults ++ x.faults := by
  cases f <;> cases x <;> rfl

/-- The result, seen from outside the field it belongs to. -/
def under (step : FieldStep) : Checked α → Checked α
  | .valid a => .valid a
  | .faulty fs => .faulty (fs.map (RecordFault.under step))

/-- A single fault at the value itself. -/
def fault (problem : FieldProblem) : Checked α := .faulty [⟨[], problem⟩]

/-- The result as the outcome of an operation. -/
def toExcept : Checked α → Except Failure α
  | .valid a => .ok a
  | .faulty fs => .error (.record fs)

theorem map_eq_valid {f : α → β} {x : Checked α} {b : β} :
    f <$> x = .valid b ↔ ∃ a, x = .valid a ∧ f a = b := by
  change x.map f = .valid b ↔ _
  cases x <;> simp [Checked.map]

/-- Fields that are read together are valid when each one is. -/
theorem seq_eq_valid {f : Checked (α → β)} {x : Checked α} {b : β} :
    f <*> x = .valid b ↔ ∃ h a, f = .valid h ∧ x = .valid a ∧ h a = b := by
  change f.seq x = .valid b ↔ _
  cases f <;> cases x <;> simp [Checked.seq]

theorem under_eq_valid {step : FieldStep} {x : Checked α} {a : α} :
    x.under step = .valid a ↔ x = .valid a := by
  cases x <;> simp [Checked.under]

theorem toExcept_eq_ok {x : Checked α} {a : α} : x.toExcept = .ok a ↔ x = .valid a := by
  cases x <;> simp [toExcept]

end Checked

/-! ### Kinds of fields -/

/-- A text, or what octets are the UTF-8 form of. -/
def readText : Value → Checked String
  | .string s => .valid s
  | .scalar (.bytes octets) =>
    match String.fromUTF8? octets.toByteArray with
    | some s => .valid s
    | none => .fault .notUnicode
  | _ => .fault .notString

/-- The words for `true`. -/
def trueWords : List String := ["1", "t", "true", "y", "yes", "on"]

/-- The words for `false`. -/
def falseWords : List String := ["0", "f", "false", "n", "no", "off"]

/-- A text with its ASCII letters in lower case. -/
def asciiLower (s : String) : String := String.ofList (s.toList.map Char.toLower)

/-- The least and the greatest integer of 64 bits. -/
def leastInt64 : Int := -9223372036854775808

@[inherit_doc leastInt64] def greatestInt64 : Int := 9223372036854775807

/-- The integer that a number without a fraction is, if 64 bits hold it. -/
def wholeNumber? (x : Binary64) : Option Int := do
  let n ← x.floor?
  if x.ceil? = some n ∧ leastInt64 < n ∧ n < greatestInt64 then some n else none

/-- A truth value given as an integer. -/
def flagOfInteger (n : Int) : Checked Bool :=
  if n = 0 then .valid false
  else if n = 1 then .valid true
  else if leastInt64 ≤ n ∧ n ≤ greatestInt64 then .fault .unreadableBool
  else .fault .notBool

/-- A truth value. -/
def readFlag : Value → Checked Bool
  | .bool b => .valid b
  | .int n => flagOfInteger n
  | .float x =>
    match wholeNumber? x with
    | some n => flagOfInteger n
    | none => .fault .notBool
  | .string s =>
    let word := asciiLower s
    if word ∈ trueWords then .valid true
    else if word ∈ falseWords then .valid false
    else .fault .unreadableBool
  | _ => .fault .notBool

/-- A blank at the ends of a number text; the separators of information are none. -/
def isNumberBlank (c : Char) : Bool :=
  Text.isBlank c && !(0x1c ≤ c.toNat && c.toNat ≤ 0x1f)

/-- Digits with single underscores between them, ASCII only. -/
def groupedNumeral? (cs : List Char) : Option Nat :=
  if cs.all fun c => c.isDigit || c == '_' then Text.readGroupedDigits? 0 cs else none

/-- An integer as a text: blanks around it, an optional sign, digits, and possibly a point
with zeros behind it. -/
def integerText? (s : String) : Option Int :=
  let trimmed := ((s.toList.dropWhile isNumberBlank).reverse.dropWhile isNumberBlank).reverse
  let (whole, rest) := trimmed.span (· != '.')
  if rest.all fun c => c == '.' || c == '0' then
    if (rest.filter (· == '.')).length ≤ 1 then
      match whole with
      | '-' :: ds => (groupedNumeral? ds).map fun n => -(n : Int)
      | '+' :: ds => (groupedNumeral? ds).map Int.ofNat
      | ds => (groupedNumeral? ds).map Int.ofNat
    else none
  else none

/-- An integer. -/
def readInteger : Value → Checked Int
  | .int n => .valid n
  | .bool b => .valid (if b then 1 else 0)
  | .float x =>
    if !x.isFinite then .fault .infinite
    else match wholeNumber? x with
      | some n => .valid n
      | none => .fault .fractionalInteger
  | .string s =>
    match integerText? s with
    | some n => .valid n
    | none => .fault .unreadableInteger
  | _ => .fault .notInteger

/-- An integer that is at least a given one. -/
def readAtLeast (least : Int) (v : Value) : Checked Int :=
  match readInteger v with
  | .valid n => if n < least then .fault .belowLeast else .valid n
  | .faulty fs => .faulty fs

/-- An integer, or nothing when the value is `null`. -/
def readOptionalInteger (v : Value) : Checked (Option Int) :=
  if v.isNull then .valid none else (readInteger v).map some

/-- A text in a mapping, under its key. -/
def readTextEntry (e : Scalar × Value) : Checked (String × String) :=
  match e.1 with
  | .string s => ((readText e.2).under (.key s)).map fun t => (s, t)
  | key => (Checked.fault .notString).under (.key key.shown)

/-- Texts by keys. -/
def readTextMap (g : Anchors) (v : Value) : Checked (List (String × String)) :=
  match g.entries? v with
  | some es => es.foldr (fun e rest => List.cons <$> readTextEntry e <*> rest) (.valid [])
  | none => .fault .notMapping

/-! ### Fields of a record -/

/-- A field of a record, with its value when it is not given. -/
def field {α : Type} (es : Entries) (name : String) (absent : α) (read : Value → Checked α) :
    Checked α :=
  match Entries.get? es name with
  | some v => (read v).under (.key name)
  | none => .valid absent

/-- A record from the entries of an object. -/
def readRecord {α : Type} (g : Anchors) (read : Entries → Checked α) (v : Value) : Checked α :=
  match g.entries? v with
  | some es => read es
  | none => .fault .notRecord

end SchemaCodegen
