import SchemaCodegen.Data.Shown
import SchemaCodegen.Schema.Node
import SchemaCodegen.Traced

/-!
# Recognising the shape of a schema

`Node.classify` turns the data of a schema, with everything nested in it, into a `Node`.
The shape follows from the keywords alone (`formOf`), the first match winning:

1. no keyword that bears on the shape — an empty schema;
2. `$ref` — a reference;
3. type `array`, or no type and `items` — an array;
4. `properties`, type `object`, or no type and `additionalProperties` — an object; beside
   `allOf` its properties join the members, and an object without properties that only
   carries a composition keyword is that composition;
5. `enum` — an enumeration;
6. `allOf`, `oneOf`, `anyOf` — a composition;
7. a primitive type, or no type and a `format` — a primitive;
8. anything else is unknown.

A type that is a list gives its first entry other than `"null"`, and admits `null` when
`"null"` is among the entries.

### Why it ends

References are leaves, so the walk stays inside the data.  It enters a stored container
only when that is not active yet, that is, not on the way from the root; a container that
is met inside itself is cut as an unknown node.  So either there are fewer anchors left to
enter, or the data gets lighter.
-/

namespace SchemaCodegen

/-- The types of primitives. -/
def primitiveTypes : List String := ["string", "number", "integer", "boolean", "null"]

/-- The keywords that bear on the shape. -/
def shapeKeywords : List String :=
  ["$ref", "type", "format", "properties", "additionalProperties", "items", "enum", "allOf",
   "oneOf", "anyOf"]

/-- The entries of `required`: its strings, each once, in order; nothing when it is no
list. -/
def requiredNames (g : Anchors) (es : Entries) : List String :=
  match g.listAt? es "required" with
  | some xs => (xs.filterMap Value.string?).foldl
      (fun names n => if n ∈ names then names else names ++ [n]) []
  | none => []

/-- The type a schema states, and whether the statement admits `null`. -/
def statedType (g : Anchors) (es : Entries) : Option String × Bool :=
  match Entries.get? es "type" with
  | none => (none, false)
  | some v =>
    match g.items? v with
    | some xs =>
      match xs.find? fun t => t.string? != some "null" with
      | some t => (some (t.shown g), xs.any fun t => t.string? == some "null")
      | none => (if xs.isEmpty then none else some "null", false)
    | none => if v.isNull then (none, false) else (some (v.shown g), false)

/-- A keyword is given as `true`. -/
def Entries.isSet (es : Entries) (key : String) : Bool :=
  ((Entries.get? es key).map Value.isTrue).getD false

/-- The string under a key. -/
def Entries.string? (es : Entries) (key : String) : Option String :=
  (Entries.get? es key).bind Value.string?

/-- The facts of a schema. -/
def factsOf (g : Anchors) (es : Entries) : Facts :=
  let (type, admitsNull) := statedType g es
  { keywords := es
    type := type
    format := Entries.string? es "format"
    nullable := admitsNull || Entries.isSet es "nullable" || Entries.isSet es "x-nullable" }

/-- The shape that the keywords of a schema give it.  An `intersection` is an object whose
properties stand beside `allOf`. -/
inductive Form where
  | empty
  | reference (ref : String)
  | array
  | object
  | intersection
  | enumeration (values : List Value)
  | composition (combinator : Combinator)
  | primitive
  | unknown

/-- The first composition keyword that has a list. -/
def compositionOf? (g : Anchors) (es : Entries) : Option Combinator :=
  Combinator.all.find? fun c => (g.listAt? es c.keyword).isSome

/-- The shape of a schema by its keywords. -/
def formOf (g : Anchors) (es : Entries) : Form :=
  let facts := factsOf g es
  bif shapeKeywords.any (Entries.has es) then
    match Entries.string? es "$ref" with
    | some ref => .reference ref
    | none =>
      bif facts.type == some "array" || (facts.type.isNone && Entries.has es "items") then .array
      else
        let hasProperties := (g.objectAt? es "properties").isSome
        let joined := compositionOf? g es
        let isObject := hasProperties || facts.type == some "object"
          || (facts.type.isNone && Entries.has es "additionalProperties")
        bif isObject && (hasProperties || joined.isNone) then
          bif hasProperties && (g.listAt? es "allOf").isSome then .intersection else .object
        else
          match g.listAt? es "enum", joined with
          | some values, _ => .enumeration values
          | none, some c => .composition c
          | none, none =>
            let known := match facts.type with
              | some t => primitiveTypes.contains t
              | none => facts.format.isSome
            bif known then .primitive else .unknown
  else .empty

mutual

/-- The node of a schema below the active anchors. -/
def Node.classify (g : Anchors) (active : List Nat) (schema : Value) : Traced Node :=
  match schema with
  | .object es => Node.ofEntries g active es
  | .null => pure .absent
  | .aliasTo n =>
    match _h : g.container? n with
    | none => pure .absent
    | some (.object es) =>
      let entries := es.map fun e => (e.1, e.2.value)
      if _new : n ∈ active then do
        Traced.note .containsItself
        pure (.unknown { keywords := entries })
      else Node.ofEntries g (n :: active) entries
    | some _ => pure (.unknown {})
  | _ => pure (.unknown {})
termination_by (g.unseen active, schema.weight, 3)
decreasing_by
  · apply Prod.Lex.right
    apply Prod.Lex.right' <;> simp [Value.weight]
  · exact Prod.Lex.left _ _ (Anchors.unseen_cons_lt (Anchors.lt_size_of_container? _h) _new)

/-- The node of a schema with the given keywords. -/
def Node.ofEntries (g : Anchors) (active : List Nat) (es : Entries) : Traced Node :=
  let facts := factsOf g es
  match formOf g es with
  | .empty => pure (.empty facts)
  | .reference ref => pure (.reference facts ref)
  | .array => do pure (.array facts (← Node.itemsOf g active es))
  | .object => Node.ofFields g active es facts
  | .intersection => do
    let own ← Node.ofFields g active es { facts with nullable := false }
    pure (.composition facts .allOf ((← Node.membersOf g active es "allOf") ++ [own]))
  | .enumeration values => pure (.enumeration facts values)
  | .composition c => do
    pure (.composition facts c (← Node.membersOf g active es c.keyword))
  | .primitive => pure (.primitive facts)
  | .unknown => pure (.unknown facts)
termination_by (g.unseen active, Value.entryWeights es + 1, 2)
decreasing_by
  all_goals
    apply Prod.Lex.right
    apply Prod.Lex.right
    omega

/-- The object node of a schema with the given keywords and facts. -/
def Node.ofFields (g : Anchors) (active : List Nat) (es : Entries) (facts : Facts) :
    Traced Node := do
  let properties ← Node.propertiesOf g active es
  let additional ← Node.additionalOf g active es
  pure (.object { facts with type := some "object" } properties (requiredNames g es) additional)
termination_by (g.unseen active, Value.entryWeights es + 1, 1)
decreasing_by
  all_goals
    apply Prod.Lex.right
    apply Prod.Lex.right
    omega

/-- The node of the items of an array, if the schema says what they are. -/
def Node.itemsOf (g : Anchors) (active : List Nat) (es : Entries) : Traced (Option Node) :=
  match Entries.weighed? es "items" with
  | some v => if v.1.isNull then pure none else do pure (some (← Node.classify g active v.1))
  | none => pure none
termination_by (g.unseen active, Value.entryWeights es + 1, 0)
decreasing_by
  apply Prod.Lex.right
  apply Prod.Lex.left
  exact Nat.lt_succ_of_le v.2

/-- The nodes of the schemas that a keyword joins. -/
def Node.membersOf (g : Anchors) (active : List Nat) (es : Entries) (key : String) :
    Traced (List Node) :=
  match _h : g.listAt? es key with
  | some vs => vs.attach.mapM fun v => Node.classify g active v.1
  | none => pure []
termination_by (g.unseen active, Value.entryWeights es + 1, 0)
decreasing_by
  apply Prod.Lex.right
  apply Prod.Lex.left
  exact Nat.lt_succ_of_le (Anchors.weight_le_of_listAt? _h v.2)

/-- The properties of an object, each with its node. -/
def Node.propertiesOf (g : Anchors) (active : List Nat) (es : Entries) :
    Traced (List (String × Node)) :=
  match _h : g.objectAt? es "properties" with
  | some ps => ps.attach.mapM fun p => do
      pure (p.1.1.shown, ← Node.classify g active p.1.2)
  | none => pure []
termination_by (g.unseen active, Value.entryWeights es + 1, 0)
decreasing_by
  apply Prod.Lex.right
  apply Prod.Lex.left
  exact Nat.lt_succ_of_le (Anchors.weight_le_of_objectAt? _h p.2)

/-- What an object allows besides its properties. -/
def Node.additionalOf (g : Anchors) (active : List Nat) (es : Entries) : Traced Additional :=
  match Entries.weighed? es "additionalProperties" with
  | some v =>
    match v.1.bool? with
    | some b => pure (.flag b)
    | none =>
      if g.isObject v.1 then do pure (.schema (← Node.classify g active v.1)) else pure .unstated
  | none => pure .unstated
termination_by (g.unseen active, Value.entryWeights es + 1, 0)
decreasing_by
  apply Prod.Lex.right
  apply Prod.Lex.left
  exact Nat.lt_succ_of_le v.2

end

/-- The node of a schema and everything nested in it. -/
def Node.ofSchema (g : Anchors) (schema : Value) : Traced Node := Node.classify g [] schema

end SchemaCodegen
