import SchemaCodegen.Compose.AllOf
import SchemaCodegen.Mock.Twister
import SchemaCodegen.Options.Basic

/-!
# Sample data

Data that a schema describes.  Without a seed it is canonical: the first of several values,
the lower bounds, a fixed sample for each format.  With a seed a random source draws the
values within the constraints, the same ones for the same seed.

A reference that comes back on the way, one that does not resolve, and everything nested
deeper than the options allow is `null`.

Collapsing `allOf` and choosing the first of several schemas leads to a schema at the same
depth, and may do so for ever; the descent therefore has a limit, beyond which the answer
is the failure `tooDeep`.
-/

namespace SchemaCodegen.Mock

/-- What sample data depends on besides the schema. -/
structure Context where
  anchors : Anchors
  dictionary : Option Entries
  options : MockOptions

/-- A computation with a random source, if there is a seed. -/
abbrev Sampling := StateT (Option Twister) Traced

namespace Sampling

/-- A failure. -/
def fail {α : Type} (f : Failure) : Sampling α := fun _ => Traced.fail f

/-- A result that may be a failure. -/
def ofExcept {α : Type} (r : Except Failure α) : Sampling α := fun s => do
  pure (← Traced.ofExcept r, s)

/-- A computation that draws nothing. -/
def lift {α : Type} (t : Traced α) : Sampling α := fun s => do pure (← t, s)

/-- A draw with a seed, and a canonical value without. -/
def drawOr {α : Type} (canonical : α) (draw : Draw α) : Sampling α := fun s =>
  match s with
  | none => pure (canonical, none)
  | some t => let (a, t) := draw.run t; pure (a, some t)

/-- There is a seed. -/
def isSeeded : Sampling Bool := fun s => pure (s.isSome, s)

end Sampling

/-! ### Texts -/

/-- The samples of formats. -/
def formatSample? : String → Option String
  | "email" => some "user@example.com"
  | "uri" => some "https://example.com"
  | "url" => some "https://example.com"
  | "hostname" => some "example.com"
  | "uuid" => some "550e8400-e29b-41d4-a716-446655440000"
  | "date" => some "2024-01-01"
  | "date-time" => some "2024-01-01T00:00:00Z"
  | "time" => some "00:00:00"
  | "ipv4" => some "192.168.1.1"
  | "ipv6" => some "2001:0db8:85a3:0000:0000:8a2e:0370:7334"
  | "password" => some "********"
  | "byte" => some "U3dhZ2dlciByb2Nrcw=="
  | "binary" => some ""
  | "color" => some "#000000"
  | _ => none

/-- A count under a keyword. -/
def countAt? (es : Entries) (key : String) : Option Int :=
  (Entries.get? es key).bind Value.count?

/-- The first characters of a text; a count below zero leaves off as many at the end. -/
def firstChars (count : Int) (cs : List Char) : List Char :=
  if 0 ≤ count then cs.take count.toNat else cs.take (cs.length - count.natAbs)

/-- The greatest length that a text can be padded by. -/
def greatestPadding : Int := 9223372036854775807

/-- The canonical text between two lengths. -/
def canonicalText (low : Int) (high : Option Int) : String :=
  let text := "string".toList
  let padded := text ++ List.replicate (low - text.length).toNat 'x'
  String.ofList (match high with
    | some high => firstChars high padded
    | none => padded)

/-- A lower-case letter. -/
def letter : Draw Char := do pure (Char.ofNat (97 + (← Draw.below 26)))

/-- The lengths to draw from: the least and the greatest one. -/
def lengthRange (low : Int) (high : Option Int) : Int × Int :=
  let upper := high.getD (max low 1 + 10)
  (max low (min 1 upper), max upper low)

/-- A text between two lengths, drawn. -/
def drawnText (low : Int) (high : Option Int) : Draw String := do
  let (least, greatest) := lengthRange low high
  let length ← Draw.between least greatest
  pure (String.ofList (← (List.replicate length.toNat ()).mapM fun _ => letter))

/-- A sample of a string. -/
def sampleText (es : Entries) : Sampling Value :=
  match (Entries.string? es "format").bind formatSample? with
  | some sample => pure (.string sample)
  | none => do
    let low := (countAt? es "minLength").getD 0
    let high := countAt? es "maxLength"
    if !(← Sampling.isSeeded) && low - "string".length > greatestPadding then
      Sampling.fail .overflow
    else
      pure (.string (← Sampling.drawOr (canonicalText low high) (drawnText low high)))

/-! ### Numbers -/

/-- A number under a keyword. -/
def numberAt? (es : Entries) (key : String) : Option Numeric :=
  (Entries.get? es key).bind Value.numeric?

/-- An inclusive bound: the given one, moved by a step where a flag beside it or a keyword
of its own makes it exclusive. -/
def boundOf (move : Numeric → Numeric → Except Failure Numeric) (step : Numeric) (es : Entries)
    (bound exclusiveBound : String) : Except Failure (Option Numeric) :=
  match numberAt? es bound, numberAt? es exclusiveBound with
  | some b, exclusive =>
    if Entries.isSet es exclusiveBound then some <$> move b step
    else match exclusive with
      | some e => some <$> move e step
      | none => .ok (some b)
  | none, some e => some <$> move e step
  | none, none => .ok none

/-- The step between the values of a number, if it is above zero. -/
def stepOf? (es : Entries) : Option Numeric := (numberAt? es "multipleOf").filter (·.isPositive)

/-- The canonical number between two bounds. -/
def canonicalNumber (low high : Option Numeric) : Numeric :=
  match low, high with
  | some low, _ => low
  | none, some high => if high.isLess (.int 0) then high else .int 0
  | none, none => .int 0

/-- The range to draw from: bounds that are not given lie near zero, or a hundred apart. -/
def drawingRange (low high : Option Numeric) : Except Failure (Numeric × Numeric) := do
  let lo := low.getD ((high.map (Numeric.least (.int 0))).getD (.int 0))
  let hi ← match high with
    | some high => .ok high
    | none => lo.add (.int 100)
  pure (lo, hi)

/-- The integers to draw from. -/
def integerRange (lo hi : Numeric) : Except Failure (Int × Int) := do
  let first ← lo.ceil
  let last ← hi.floor
  pure (first, max first last)

/-- A number between two others, at a fraction of the way. -/
def betweenAt (lo hi : Numeric) (fraction : Binary64) : Except Failure Numeric := do
  lo.add (← (← hi.sub lo).mul (.float fraction))

/-- A number rounded to two places. -/
def toCents : Numeric → Numeric
  | .float x => .float (x.roundPlaces 2)
  | n => n

/-- The least multiple of a step that is not below a number, or the one before it where
that exceeds the upper bound. -/
def snapped (step : Option Numeric) (high : Option Numeric) (n : Numeric) :
    Except Failure Numeric :=
  match step with
  | none => .ok n
  | some step => do
    let count ← (Numeric.float (← n.div step)).ceil
    let n ← (Numeric.int count).mul step
    match high with
    | some high => if high.isLess n then n.sub step else .ok n
    | none => .ok n

/-- A number to start from: drawn from a range, or canonical. -/
def startingNumber (integer : Bool) (low high : Option Numeric) : Sampling Numeric := do
  if ← Sampling.isSeeded then
    let (lo, hi) ← Sampling.ofExcept (drawingRange low high)
    if integer then
      let (first, last) ← Sampling.ofExcept (integerRange lo hi)
      pure (.int (← Sampling.drawOr first (Draw.between first last)))
    else
      let fraction ← Sampling.drawOr (Binary64.zero false) Draw.fraction
      toCents <$> Sampling.ofExcept (betweenAt lo hi fraction)
  else pure (canonicalNumber low high)

/-- A sample of a number. -/
def sampleNumber (es : Entries) (integer : Bool) : Sampling Value := do
  let step := stepOf? es
  let unit := step.getD (.int 1)
  let low ← Sampling.ofExcept (boundOf Numeric.add unit es "minimum" "exclusiveMinimum")
  let high ← Sampling.ofExcept (boundOf Numeric.sub unit es "maximum" "exclusiveMaximum")
  let start ← startingNumber integer low high
  let n ← Sampling.ofExcept (snapped step high start)
  if integer then pure (.int (← Sampling.ofExcept n.truncate)) else pure n.value

/-! ### Containers and schemas -/

/-- The number of items of an array. -/
def sampleLength (es : Entries) : Sampling Nat := do
  let low := (countAt? es "minItems").getD 1
  let high := countAt? es "maxItems"
  let upper := high.getD (low + 3)
  let canonical := match high with
    | some high => min low high
    | none => low
  let count ← Sampling.drawOr canonical (Draw.between (min low upper) (max low upper))
  pure count.toNat

/-- The first of several values, or one of them drawn. -/
def chosen (first : Value) (values : List Value) : Sampling Value :=
  Sampling.drawOr first (do pure (values.getD (← Draw.below values.length) first))

/-- The value that a schema gives as an example. -/
def exampleOf? (g : Anchors) (es : Entries) : Option Value :=
  match Entries.get? es "example" with
  | some v => some v
  | none => (g.listAt? es "examples").bind List.head?

/-- The first schema of the first choice between schemas. -/
def firstChoice? (g : Anchors) (es : Entries) : Option Value :=
  [Combinator.oneOf, Combinator.anyOf].findSome? fun c =>
    (g.listAt? es c.keyword).bind List.head?

/-- The sample of a primitive schema. -/
def samplePrimitive (es : Entries) (facts : Facts) : Sampling Value :=
  match facts.type with
  | some "string" => sampleText es
  | some "integer" => sampleNumber es true
  | some "number" => sampleNumber es false
  | some "boolean" => do
    pure (.bool (← Sampling.drawOr true (do
      pure ((← Draw.fraction).compare? (Binary64.ofRatio false 1 2) == some .lt))))
  | some _ => pure .null
  | none =>
    if (facts.format.bind formatSample?).isSome then sampleText es else pure .null

/-- Sample data for a schema at a depth; `refs` are the references taken on the way. -/
def sampleWithin (c : Context) :
    (limit : Nat) → (refs : List String) → (depth : Nat) → (schema : Value) → Sampling Value
  | 0, _, _, _ => Sampling.fail .tooDeep
  | limit + 1, refs, depth, schema =>
    let g := c.anchors
    match g.entries? schema with
    | none => pure .null
    | some es =>
      if c.options.maxDepth ≤ (depth : Int) then do
        Sampling.lift (Traced.note (.mockDepth depth))
        pure .null
      else
        match Entries.string? es "$ref" with
        | some ref =>
          if ref ∈ refs then pure .null
          else do
            match ← Sampling.lift (followInto g c.dictionary schema) with
            | some target => sampleWithin c limit (ref :: refs) depth target
            | none =>
              Sampling.lift (Traced.note (.noMockFor ref))
              pure .null
        | none =>
          match (if c.options.useExamples then exampleOf? g es else none),
              (g.listAt? es "enum").getD [] with
          | some v, _ => pure v
          | none, first :: more => chosen first (first :: more)
          | none, [] =>
            if (g.listAt? es "allOf").isSome then do
              let merged ← Sampling.lift (mergeAllOf g schema c.dictionary)
              sampleWithin c limit refs depth (.object merged)
            else
              match firstChoice? g es with
              | some first => sampleWithin c limit refs depth first
              | none => do
                let node ← Sampling.lift (Node.ofSchema g schema)
                match node.kind with
                | .array =>
                  let items := (Entries.get? es "items").getD .null
                  let count ← sampleLength es
                  pure (.list (← (List.replicate count items).mapM fun items =>
                    sampleWithin c limit refs (depth + 1) items))
                | .object | .empty =>
                  match g.objectAt? es "properties" with
                  | some properties =>
                    let required := requiredNames g es
                    let wanted := properties.filter fun p =>
                      c.options.includeOptional || required.any (Scalar.string · == p.1)
                    pure (.object (← wanted.mapM fun p => do
                      pure (p.1, ← sampleWithin c limit refs (depth + 1) p.2)))
                  | none =>
                    match (Entries.get? es "additionalProperties").filter fun v =>
                        g.isObject v && !g.isNothing v with
                    | some additional =>
                      let v ← sampleWithin c limit refs (depth + 1) additional
                      pure (.record [("key", v)])
                    | none => pure (.object [])
                | _ => samplePrimitive es node.facts

/-- How many schemas may lead to one another. -/
def descentLimit : Nat := 900

/-- Sample data for a schema. -/
def sample (c : Context) (schema : Value) : Traced Value := do
  let source := c.options.seed.map Twister.ofSeed
  pure (← (sampleWithin c descentLimit [] 0 schema).run source).1

end SchemaCodegen.Mock
