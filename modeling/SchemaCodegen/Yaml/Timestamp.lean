import SchemaCodegen.Yaml.Cursor

/-!
# Days and times in YAML

A day is written `2024-01-31`, and a time on it `2024-01-31T08:30:00.5+02:00`, where blanks
may stand for the `T`, the fraction and the distance from universal time may be absent, and
months, days and hours may have one digit.  `timestampText?` is that form, and
`TimestampText.scalar` what it says, if there is such a day and time.
-/

namespace SchemaCodegen.Yaml

/-- The number that ASCII digits write. -/
def digitsNumber (ds : List Char) : Nat := ds.foldl (fun n d => 10 * n + (d.toNat - 48)) 0

/-- At least `least` and at most `most` digits at the front. -/
def takeDigits? (least most : Nat) (cs : List Char) : Option (List Char × List Char) :=
  let ds := (cs.take most).takeWhile isDigit
  if ds.length < least then none else some (ds, cs.drop ds.length)

/-- The rest of a text behind a character. -/
def behind? (c : Char) : List Char → Option (List Char)
  | d :: rest => if d = c then some rest else none
  | [] => none

/-- The digits of a time and of its distance from universal time. -/
structure ClockText where
  hour : List Char
  minute : List Char
  second : List Char
  fraction : List Char
  offset : Option Int

/-- The digits of a day, and of the time on it. -/
structure TimestampText where
  year : List Char
  month : List Char
  day : List Char
  clock : Option ClockText

/-- A distance from universal time, in minutes, up to the end of a text. -/
def offsetText? (cs : List Char) : Option (Option Int) :=
  match cs with
  | [] => some none
  | _ =>
    match cs.dropWhile fun c => c == ' ' || c == '\t' with
    | ['Z'] => some (some 0)
    | sign :: rest => do
      let negative ← if sign == '-' then some true else if sign == '+' then some false else none
      let (hours, rest) ← takeDigits? 1 2 rest
      let minutes ← match rest with
        | [] => some []
        | ':' :: ms => if ms.length = 2 && ms.all isDigit then some ms else none
        | _ => none
      let n : Int := digitsNumber hours * 60 + digitsNumber minutes
      pure (some (if negative then -n else n))
    | [] => none

/-- A time up to the end of a text. -/
def clockText? (cs : List Char) : Option ClockText := do
  let (hour, rest) ← takeDigits? 1 2 cs
  let (minute, rest) ← takeDigits? 2 2 (← behind? ':' rest)
  let (second, rest) ← takeDigits? 2 2 (← behind? ':' rest)
  let (fraction, rest) := match rest with
    | '.' :: more => (more.takeWhile isDigit, more.dropWhile isDigit)
    | _ => ([], rest)
  pure ⟨hour, minute, second, fraction, ← offsetText? rest⟩

/-- A day, or a day and a time. -/
def timestampText? (cs : List Char) : Option TimestampText := do
  let (year, rest) ← takeDigits? 4 4 cs
  let (month, rest) ← takeDigits? 1 2 (← behind? '-' rest)
  let (day, rest) ← takeDigits? 1 2 (← behind? '-' rest)
  match rest with
  | [] => pure ⟨year, month, day, none⟩
  | c :: more =>
    if c == 'T' || c == 't' then pure ⟨year, month, day, some (← clockText? more)⟩
    else if c == ' ' || c == '\t' then
      let more := more.dropWhile fun c => c == ' ' || c == '\t'
      pure ⟨year, month, day, some (← clockText? more)⟩
    else none

/-- The days of a month. -/
def daysOfMonth (year month : Nat) : Nat :=
  if month = 2 then
    if year % 4 = 0 ∧ (year % 100 ≠ 0 ∨ year % 400 = 0) then 29 else 28
  else if month = 4 ∨ month = 6 ∨ month = 9 ∨ month = 11 then 30
  else 31

/-- The day is one of the calendar. -/
def isDay (d : Date) : Bool :=
  1 ≤ d.year && 1 ≤ d.month && d.month ≤ 12 && 1 ≤ d.day && d.day ≤ daysOfMonth d.year d.month

/-- Millionths of a second from the digits behind the point, as far as they reach. -/
def microseconds (fraction : List Char) : Nat :=
  digitsNumber ((fraction ++ List.replicate 6 '0').take 6)

/-- The time is one of the day, and its distance from universal time less than one. -/
def isTime (t : Timestamp) : Bool :=
  isDay t.day && t.hour < 24 && t.minute < 60 && t.second < 60
    && (match t.offset with
      | some minutes => minutes.natAbs < 1440
      | none => true)

/-- The day or the time that a text writes, if there is such a one. -/
def TimestampText.scalar (t : TimestampText) : Except Failure Scalar :=
  let day : Date := ⟨digitsNumber t.year, digitsNumber t.month, digitsNumber t.day⟩
  match t.clock with
  | none => if isDay day then .ok (.date day) else .error .unreadable
  | some clock =>
    let time : Timestamp := ⟨day, digitsNumber clock.hour, digitsNumber clock.minute,
      digitsNumber clock.second, microseconds clock.fraction, clock.offset⟩
    if isTime time then .ok (.timestamp time) else .error .unreadable

/-- A leap day, a time with all its parts, and a day that there is not. -/
example :
    ["2024-02-29", "2024-1-2 3:04:05.25 -01:30", "2023-02-29"].map
      (fun s => (timestampText? s.toList).bind (·.scalar.toOption))
    = [some (.date ⟨2024, 2, 29⟩),
      some (.timestamp ⟨⟨2024, 1, 2⟩, 3, 4, 5, 250000, some (-90)⟩), none] := by
  decide +kernel

end SchemaCodegen.Yaml
