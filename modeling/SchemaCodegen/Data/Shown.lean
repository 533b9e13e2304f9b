import SchemaCodegen.Data.Anchors
import SchemaCodegen.Text.Quoted

/-!
# The shown text of data

Where data of any kind is shown in a label, a table or a message, it has one text: a
string is shown as it is, and everything else by its **written form**, in which strings
are quoted (`SchemaCodegen.Text.Quoted`), lists stand in brackets, objects in braces with
their keys, and the constants are `None`, `True` and `False`.  A container inside itself
is shown as `[...]` or `{...}`.
-/

namespace SchemaCodegen

/-- A number with leading zeros up to a width. -/
def padZeros (width n : Nat) : String :=
  let ds := toString n
  String.ofList (List.replicate (width - ds.length) '0') ++ ds

/-- A day: year, month and day. -/
def Date.text (d : Date) : String :=
  padZeros 4 d.year ++ "-" ++ padZeros 2 d.month ++ "-" ++ padZeros 2 d.day

/-- A distance from universal time: sign, hours and minutes. -/
def offsetText (minutes : Int) : String :=
  (if minutes < 0 then "-" else "+") ++ padZeros 2 (minutes.natAbs / 60) ++ ":"
    ++ padZeros 2 (minutes.natAbs % 60)

/-- A time on a day, with the given text between the two. -/
def Timestamp.text (separator : String) (t : Timestamp) : String :=
  t.day.text ++ separator ++ padZeros 2 t.hour ++ ":" ++ padZeros 2 t.minute ++ ":"
    ++ padZeros 2 t.second
    ++ (if t.microsecond == 0 then "" else "." ++ padZeros 6 t.microsecond)
    ++ (match t.offset with
      | some minutes => offsetText minutes
      | none => "")

/-- The written form of a day. -/
def Date.written (d : Date) : String :=
  s!"datetime.date({d.year}, {d.month}, {d.day})"

/-- The written form of a distance from universal time. -/
def offsetWritten (minutes : Int) : String :=
  if minutes == 0 then "datetime.timezone.utc"
  else
    let seconds := minutes * 60
    if seconds < 0 then
      let within := seconds + 86400
      s!"datetime.timezone(datetime.timedelta(days=-1, seconds={within}))"
    else s!"datetime.timezone(datetime.timedelta(seconds={seconds}))"

/-- The written form of a time on a day; seconds and microseconds are left out from the
end while they are zero. -/
def Timestamp.written (t : Timestamp) : String :=
  let d := t.day
  let fine :=
    if t.microsecond != 0 then s!", {t.second}, {t.microsecond}"
    else if t.second != 0 then s!", {t.second}"
    else ""
  let zone := match t.offset with
    | some minutes => ", tzinfo=" ++ offsetWritten minutes
    | none => ""
  s!"datetime.datetime({d.year}, {d.month}, {d.day}, {t.hour}, {t.minute}{fine}{zone})"

/-- One octet of a byte string. -/
def octetWritten (quote : Char) (b : UInt8) : List Char :=
  let c := Char.ofNat b.toNat
  if c == quote || c == '\\' then ['\\', c]
  else if c == '\n' then ['\\', 'n']
  else if c == '\r' then ['\\', 'r']
  else if c == '\t' then ['\\', 't']
  else if 0x20 ≤ b && b < 0x7f then [c]
  else '\\' :: 'x' :: Text.hexDigits 2 b.toNat

/-- The written form of a byte string. -/
def octetsWritten (octets : List UInt8) : String :=
  let q := Text.quoteFor (octets.map fun b => Char.ofNat b.toNat)
  String.ofList ('b' :: q :: octets.flatMap (octetWritten q) ++ [q])

/-- The text of a truth value. -/
def boolShown (b : Bool) : String := if b then "True" else "False"

/-- The written form of data without parts. -/
def Scalar.written : Scalar → String
  | .null => "None"
  | .bool b => boolShown b
  | .int n => toString n
  | .float x => x.text
  | .string s => Text.quoted s
  | .date d => d.written
  | .timestamp t => t.written
  | .bytes octets => octetsWritten octets

/-- The shown text of data without parts. -/
def Scalar.shown : Scalar → String
  | .string s => s
  | .date d => d.text
  | .timestamp t => t.text " "
  | s => s.written

mutual

/-- The written form of unshared data. -/
def Value.written (g : Anchors) : Value → String
  | .scalar s => s.written
  | .set [] => "set()"
  | .set xs => "\x7b" ++ ", ".intercalate (xs.map Scalar.written) ++ "\x7d"
  | .pair a b => "(" ++ a.written g ++ ", " ++ b.written g ++ ")"
  | .list xs => "[" ++ ", ".intercalate (Value.allWritten g xs) ++ "]"
  | .object es => "\x7b" ++ ", ".intercalate (Value.entriesWritten g es) ++ "\x7d"
  | .aliasTo n =>
    match g.container? n with
    | some (.object _) => "\x7b...\x7d"
    | _ => "[...]"

/-- The written forms of the items of a list. -/
def Value.allWritten (g : Anchors) : List Value → List String
  | [] => []
  | v :: rest => v.written g :: allWritten g rest

/-- The written forms of the entries of an object. -/
def Value.entriesWritten (g : Anchors) : List (Scalar × Value) → List String
  | [] => []
  | (k, v) :: rest => (k.written ++ ": " ++ v.written g) :: entriesWritten g rest

end

/-- The shown text of data. -/
def Value.shown (g : Anchors) (v : Value) : String :=
  match g.unshare v with
  | .scalar s => s.shown
  | w => w.written g

@[simp] theorem Value.shown_string (g : Anchors) (s : String) : (Value.string s).shown g = s := by
  simp [Value.shown, Anchors.unshare, Anchors.expand, Scalar.shown]

end SchemaCodegen
