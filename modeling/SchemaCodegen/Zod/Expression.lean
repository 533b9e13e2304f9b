import SchemaCodegen.Identifier

/-!
# Validator expressions

The validators of generated code are expressions of their own, `Validator`: a few base
validators, containers of validators, and calls that add a condition or a property to a
validator.  Their text is written last; `nullable` is added unless the text ends with it
already.
-/

namespace SchemaCodegen.Zod

mutual

/-- A validator of generated code. -/
inductive Validator where
  | unknown
  | openRecord
  | base (text : String)
  | named (schema : String)
  | array (item : Validator)
  | record (values : Validator)
  | object (fields : List Field)
  | strings (values : List String)
  | literals (texts : List String)
  | union (members : List Validator)
  | intersection (members : List Validator)
  | discriminated (field : String) (members : List Validator)
  | tagged (schema field literal : String)
  | call (inner : Validator) (method argument : String)
  | catchall (inner others : Validator)
  | nullable (inner : Validator)

/-- A property of an object validator. -/
inductive Field where
  | mk (name : String) (isOptional : Bool) (validator : Validator)

end

instance : Inhabited Validator := ⟨.unknown⟩

/-- A validator with conditions added in order. -/
def Validator.calls (inner : Validator) (conditions : List (String × String)) : Validator :=
  conditions.foldl (fun v c => .call v c.1 c.2) inner

/-! ### Texts -/

/-- The validator of anything. -/
def unknownText : String := "z.unknown()"

/-- The validator of an object with any properties. -/
def openRecordText : String := "z.record(z.string(), z.any())"

/-- The call that admits `null`. -/
def nullableCall : String := ".nullable()"

/-- A text that also admits `null`. -/
def withNullable (text : String) : String :=
  if text.endsWith nullableCall then text else text ++ nullableCall

/-- Indentation of a depth. -/
def indentation (depth : Nat) : String := String.ofList (List.replicate (2 * depth) ' ')

/-- Parts of a call, separated by commas. -/
def listed (texts : List String) : String := ", ".intercalate texts

/-- The union of validators: the only one alone, and of none anything. -/
def unionText : List String → String
  | [] => unknownText
  | [text] => text
  | texts => "z.union([" ++ listed texts ++ "])"

/-- The intersection of validators, from the first one on. -/
def intersectionText : List String → String
  | [] => unknownText
  | text :: rest => rest.foldl (fun e m => "z.intersection(" ++ e ++ ", " ++ m ++ ")") text

/-- A literal validator. -/
def literalCall (literal : String) : String := "z.literal(" ++ literal ++ ")"

mutual

/-- The text of a validator at a depth of indentation. -/
def Validator.text (depth : Nat) : Validator → String
  | .unknown => unknownText
  | .openRecord => openRecordText
  | .base text => text
  | .named schema => validatorName schema
  | .array item => "z.array(" ++ item.text depth ++ ")"
  | .record values => "z.record(z.string(), " ++ values.text depth ++ ")"
  | .object fields =>
    "\n".intercalate ("z.object(\x7b" :: fieldTexts (depth + 1) fields
      ++ [indentation depth ++ "\x7d)"])
  | .strings values => "z.enum([" ++ listed (values.map quoteLiteral) ++ "])"
  | .literals texts => unionText (texts.map literalCall)
  | .union members => unionText (memberTexts depth members)
  | .intersection members => intersectionText (memberTexts depth members)
  | .discriminated field members =>
    "z.discriminatedUnion(" ++ quoteLiteral field ++ ", [\n"
      ++ String.join ((memberTexts (depth + 1) members).map fun text =>
          indentation (depth + 1) ++ text ++ ",\n")
      ++ indentation depth ++ "])"
  | .tagged schema field literal =>
    validatorName schema ++ ".extend(\x7b " ++ propertyName field ++ ": " ++ literalCall literal
      ++ " \x7d)"
  | .call inner method argument => inner.text depth ++ "." ++ method ++ "(" ++ argument ++ ")"
  | .catchall inner others =>
    inner.text depth ++ ".catchall(" ++ others.text depth ++ ")"
  | .nullable inner => withNullable (inner.text depth)

/-- The texts of members. -/
def memberTexts (depth : Nat) : List Validator → List String
  | [] => []
  | v :: rest => v.text depth :: memberTexts depth rest

/-- The lines of properties. -/
def fieldTexts (depth : Nat) : List Field → List String
  | [] => []
  | .mk name isOptional v :: rest =>
    (indentation depth ++ propertyName name ++ ": " ++ v.text depth
      ++ (if isOptional then ".optional()" else "") ++ ",") :: fieldTexts depth rest

end

theorem text_call (inner : Validator) (method argument : String) (depth : Nat) :
    (Validator.call inner method argument).text depth
      = inner.text depth ++ "." ++ method ++ "(" ++ argument ++ ")" := rfl

theorem text_nullable (inner : Validator) (depth : Nat) :
    (Validator.nullable inner).text depth = withNullable (inner.text depth) := rfl

end SchemaCodegen.Zod
