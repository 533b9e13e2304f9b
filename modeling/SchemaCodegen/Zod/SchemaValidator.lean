import SchemaCodegen.TypeScript.SchemaType
import SchemaCodegen.Zod.Expression

/-!
# The validator of a schema

`Validator.ofNode` gives the validator of a schema by its shape, with its constraints as
conditions:

* a string: a known format alone, otherwise the least and the greatest length and the
  pattern;
* a number: the lower bound, the upper bound and the step, where a bound is exclusive by a
  flag beside it or by a keyword of its own;
* an array: the least and the greatest number of items, and that they are unique;
* an object: which properties are optional, and what is allowed besides them;
* `oneOf` and `anyOf`: a union, or a discriminated one when a discriminator names the
  property that tells the members apart.

A reference becomes the identifier of its target and is never replaced by the target.
-/

namespace SchemaCodegen.Zod

/-- What the validator of a schema depends on besides the schema. -/
structure Context where
  anchors : Anchors
  dictionary : Option Entries
  options : ValidationOptions
  strictReferences : Bool

/-! ### Strings -/

/-- The condition of a known format of strings. -/
def formatCondition? : String → Option (String × String)
  | "email" => some ("email", "")
  | "uri" => some ("url", "")
  | "url" => some ("url", "")
  | "uuid" => some ("uuid", "")
  | "date-time" => some ("datetime", "")
  | "date" => some ("date", "")
  | "time" => some ("time", "")
  | "ipv4" => some ("ip", "\x7b version: \"v4\" \x7d")
  | "ipv6" => some ("ip", "\x7b version: \"v6\" \x7d")
  | "byte" => some ("base64", "")
  | _ => none

/-- The source of the custom check for a format. -/
def customCheck? (options : ValidationOptions) (format : String) : Option String :=
  (options.customValidators.find? (·.1 == format)).map (·.2)

/-- The text of a count; a truth value is one too. -/
def countText? : Value → Option String
  | .int n => some (toString n)
  | .bool b => some (boolShown b)
  | _ => none

/-- A condition by a count under a keyword. -/
def countCondition (node : Node) (key method : String) : List (String × String) :=
  (((node.get? key).bind countText?).map fun text => (method, text)).toList

/-- The conditions on the length and the pattern of a string. -/
def textConditions (node : Node) : List (String × String) :=
  countCondition node "minLength" "min" ++ countCondition node "maxLength" "max"
    ++ (((node.get? "pattern").bind Value.string?).map fun pattern =>
        ("regex", "new RegExp(" ++ quoteLiteral pattern ++ ")")).toList

/-- The validator of a string; `lead` is what stands before the name of a base
validator. -/
def stringValidator (c : Context) (node : Node) (lead : String) : Validator :=
  let plain : Validator := .base (lead ++ "string()")
  match node.facts.format with
  | some "binary" => .base "z.instanceof(Blob)"
  | some format =>
    match formatCondition? format with
    | some (method, argument) => .call plain method argument
    | none =>
      match (if format.isEmpty then none else customCheck? c.options format) with
      | some source => .call plain "refine" source
      | none => plain.calls (textConditions node)
  | none => plain.calls (textConditions node)

/-! ### Numbers -/

/-- The value is a number; truth values are none. -/
def isNumber : Value → Bool
  | .int _ => true
  | .float _ => true
  | _ => false

/-- The whole part of a number. -/
def wholePart : Value → Except Failure Int
  | .int n => .ok n
  | .float x =>
    match x.truncate? with
    | some n => .ok n
    | none => .error (if x.isNaN then .unreadable else .overflow)
  | _ => .error .wrongKind

/-- A number as a literal; as a big integer it is cut to its whole part. -/
def numberLiteral (bigint : Bool) (v : Value) : Except Failure String :=
  if bigint then (wholePart v).map fun n => toString n ++ "n"
  else match v with
    | .int n => .ok (toString n)
    | .float x => .ok (Json.floatText x)
    | _ => .error .wrongKind

/-- A number under a keyword. -/
def numberAt? (node : Node) (key : String) : Option Value := (node.get? key).filter isNumber

/-- The condition of one bound: inclusive, exclusive by a flag beside it, or exclusive by a
keyword of its own. -/
def boundCondition (node : Node) (bigint : Bool) (bound exclusiveBound inclusive exclusive : String) :
    Except Failure (List (String × String)) :=
  match numberAt? node bound, numberAt? node exclusiveBound with
  | some v, _ => do
    pure [(if node.isSet exclusiveBound then exclusive else inclusive, ← numberLiteral bigint v)]
  | none, some v => do pure [(exclusive, ← numberLiteral bigint v)]
  | none, none => pure []

/-- The condition that a number is a multiple of a step. -/
def stepCondition (node : Node) (bigint : Bool) : Except Failure (List (String × String)) :=
  match numberAt? node "multipleOf" with
  | some v => do pure [("multipleOf", ← numberLiteral bigint v)]
  | none => pure []

/-- The validator of a number. -/
def numberValidator (c : Context) (node : Node) (lead : String) (integer : Bool) :
    Except Failure Validator := do
  let bigint := node.facts.format == some "int64" && c.options.int64AsBigint
  let plain : Validator := .base
    (if bigint then "z.coerce.bigint()"
      else if integer then lead ++ "number().int()"
      else lead ++ "number()")
  let lower ← boundCondition node bigint "minimum" "exclusiveMinimum" "min" "gt"
  let upper ← boundCondition node bigint "maximum" "exclusiveMaximum" "max" "lt"
  let step ← stepCondition node bigint
  pure (plain.calls (lower ++ upper ++ step))

/-! ### Other shapes -/

/-- The type that a primitive is validated as: its own, or the one its format asks for. -/
def validatedType? (c : Context) (facts : Facts) : Option String :=
  match facts.type, facts.format with
  | some type, _ => some type
  | none, none => none
  | none, some format =>
    if (formatCondition? format).isSome || format == "binary"
        || (customCheck? c.options format).isSome then some "string"
    else if format == "int64" then some "integer"
    else none

/-- The validator of a primitive. -/
def primitiveValidator (c : Context) (node : Node) : Except Failure Validator :=
  let lead := if c.options.coerce then "z.coerce." else "z."
  match validatedType? c node.facts with
  | some "string" => .ok (stringValidator c node lead)
  | some "number" => numberValidator c node lead false
  | some "integer" => numberValidator c node lead true
  | some "boolean" => .ok (.base (lead ++ "boolean()"))
  | some "null" => .ok (.base "z.null()")
  | _ => .ok .unknown

/-- The conditions on the number and the difference of items. -/
def itemConditions (node : Node) : List (String × String) :=
  countCondition node "minItems" "min" ++ countCondition node "maxItems" "max"
    ++ (if node.isSet "uniqueItems" then
        [("refine", "(items) => new Set(items).size === items.length, "
          ++ "\x7b message: \"Array must contain unique items\" \x7d")]
      else [])

/-- The validator of an enumeration. -/
def enumeration (g : Anchors) (values : List Value) : Except Failure Validator :=
  if values.isEmpty then .ok .unknown
  else match values.mapM Value.string? with
    | some texts => .ok (.strings texts)
    | none => do pure (.literals (← values.mapM (TypeScript.literalText g)))

/-- The name that a reference gives, or nothing, with a notice. -/
def Context.name? (c : Context) (ref : String) : Traced (Option String) :=
  match TypeScript.knownName? c.dictionary ref with
  | some name => pure (some name)
  | none =>
    if c.strictReferences then Traced.fail (.reference ref)
    else do
      Traced.note (.validatorFallsBack ref)
      pure none

/-- A reference in the mapping of a discriminator; a bare word names a schema. -/
def mappedReference (ref : String) : String :=
  if ref.toList.contains '/' || ref.startsWith "#" then ref
  else SchemaRoot.components.lead ++ ref

/-- The members of a union by the mapping of its discriminator, each with the value of the
property that tells it apart.  Nothing, when a mapped schema cannot be named. -/
def taggedMembers (c : Context) (property : String) :
    Entries → Traced (Option (List Validator))
  | [] => pure (some [])
  | (key, .string ref) :: rest => do
    match ← c.name? (mappedReference ref) with
    | none => pure none
    | some name =>
      let literal ← Traced.ofExcept (TypeScript.literalText c.anchors (.scalar key))
      pure ((← taggedMembers c property rest).map (.tagged name property literal :: ·))
  | _ :: _ => pure none

/-- The property that tells the members of a union apart, and the mapping of its values. -/
def discriminator? (g : Anchors) (node : Node) : Option (String × Entries) := do
  let es ← g.objectAt? node.facts.keywords "discriminator"
  let property ← Entries.string? es "propertyName"
  if property.isEmpty then none
  else some (property, (g.objectAt? es "mapping").getD [])

/-! ### Schemas -/

/-- A validator that admits `null` where the facts say so. -/
def admitNull (facts : Facts) (v : Validator) : Validator :=
  if facts.nullable then .nullable v else v

/-- A validator with the description of its schema. -/
def described (c : Context) (node : Node) (v : Validator) : Validator :=
  match (if c.options.includeDescriptions then node.description? else none) with
  | some text => if text.isEmpty then v else .call v "describe" (Json.stringText true text)
  | none => v

/-- A finished validator: described, and then admitting `null`. -/
def finished (c : Context) (node : Node) (v : Validator) : Validator :=
  admitNull node.facts (described c node v)

mutual

/-- The validator of a schema. -/
def Validator.ofNode (c : Context) : Node → Traced Validator
  | .absent => pure .unknown
  | .reference f ref => do
    match ← c.name? ref with
    | some name => pure (admitNull f (.named name))
    | none => pure (admitNull f .unknown)
  | .unknown f => pure (finished c (.unknown f) .unknown)
  | .empty f => pure (finished c (.empty f) .openRecord)
  | .array f none =>
    pure (finished c (.array f none)
      (Validator.calls (.array .unknown) (itemConditions (.array f none))))
  | .array f (some items) => do
    let item ← Validator.ofNode c items
    let whole : Node := .array f (some items)
    pure (finished c whole (Validator.calls (.array item) (itemConditions whole)))
  | .object f [] required (.schema node) => do
    let values ← Validator.ofNode c node
    pure (finished c (.object f [] required .unstated)
      (if node.kind == .empty then .openRecord else .record values))
  | .object f [] required _ => pure (finished c (.object f [] required .unstated) .openRecord)
  | .object f (p :: ps) required additional => do
    let fields ← fieldsOf c required (p :: ps)
    let v ← closedBy c (.object fields) additional
    pure (finished c (.object f [] required .unstated) v)
  | .enumeration f values => do
    pure (finished c (.enumeration f values)
      (← Traced.ofExcept (enumeration c.anchors values)))
  | .composition f .allOf members => do
    pure (finished c (.composition f .allOf []) (.intersection (← validatorsOf c members)))
  | .composition f k members => do
    let whole : Node := .composition f k []
    match discriminator? c.anchors whole with
    | none => pure (finished c whole (.union (← validatorsOf c members)))
    | some (property, []) =>
      let vs ← validatorsOf c members
      pure (finished c whole (if vs.isEmpty then .union vs else .discriminated property vs))
    | some (property, mapping) =>
      match ← taggedMembers c property mapping with
      | some vs => pure (finished c whole (.discriminated property vs))
      | none => pure (finished c whole (.union (← validatorsOf c members)))
  | .primitive f => do
    pure (finished c (.primitive f)
      (← Traced.ofExcept (primitiveValidator c (.primitive f))))

/-- The validators of schemas. -/
def validatorsOf (c : Context) : List Node → Traced (List Validator)
  | [] => pure []
  | node :: rest => do
    let v ← Validator.ofNode c node
    let vs ← validatorsOf c rest
    pure (v :: vs)

/-- The properties of an object. -/
def fieldsOf (c : Context) (required : List String) :
    List (String × Node) → Traced (List Field)
  | [] => pure []
  | (name, node) :: rest => do
    let v ← Validator.ofNode c node
    let fields ← fieldsOf c required rest
    pure (.mk name (!required.contains name) v :: fields)

/-- An object with what is allowed besides its properties. -/
def closedBy (c : Context) (v : Validator) : Additional → Traced Validator
  | .unstated => pure v
  | .flag true => pure (.call v "passthrough" "")
  | .flag false => pure (if c.options.strict then .call v "strict" "" else v)
  | .schema node => do
    let others ← Validator.ofNode c node
    pure (if node.kind == .empty then v else .catchall v others)

end

/-- The validator expression of a schema. -/
def validatorOf (c : Context) (schema : Value) : Traced Validator := do
  Validator.ofNode c (← Node.ofSchema c.anchors schema)

/-- The validator expression of a schema, as text. -/
def validatorText (c : Context) (schema : Value) : Traced String := do
  pure ((← validatorOf c schema).text 0)

end SchemaCodegen.Zod
