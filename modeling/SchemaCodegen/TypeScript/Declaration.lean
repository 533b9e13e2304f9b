import SchemaCodegen.TypeScript.SchemaType

/-!
# Type declarations

Each named schema becomes one exported declaration: an interface if it is an object with
properties that does not admit `null`, and a type alias otherwise.  A description becomes a
comment block above.
-/

namespace SchemaCodegen.TypeScript

/-- A declaration of generated code. -/
structure Declaration where
  name : String
  comment : Option String
  type : TypeExpr

namespace Declaration

/-- The lines of a comment block. -/
def commentLines (description : String) : List String :=
  "/**" :: (Text.lines (Text.strip description)).map (fun line => Text.stripRight (" * " ++ line))
    ++ [" */"]

/-- The declaration itself. -/
def body (d : Declaration) : String :=
  match d.type with
  | .structure fields index =>
    "export interface " ++ typeName d.name ++ " " ++ (TypeExpr.structure fields index).text 0
  | e => "export type " ++ typeName d.name ++ " = " ++ e.text 0 ++ ";"

/-- The declaration with its comment. -/
def text (d : Declaration) : String :=
  match d.comment with
  | some description => "\n".intercalate (commentLines description ++ [d.body])
  | none => d.body

end Declaration

/-- The name that a key gives a schema.  A key that counts as empty gives an empty one, and
any other key that is no text gives none. -/
def nameOfKey : Scalar → Except Failure String
  | .string s => .ok s
  | .null | .bool false | .int 0 | .bytes [] => .ok ""
  | .float x => if x.compareInt? 0 == some .eq then .ok "" else .error .wrongKind
  | _ => .error .wrongKind

/-- The declaration of a named schema. -/
def declarationOf (c : Context) (key : Scalar) (schema : Value) : Traced Declaration := do
  let node ← Node.ofSchema c.anchors schema
  let name ← Traced.ofExcept (nameOfKey key)
  pure ⟨name, spokenDescription? node, ← TypeExpr.ofNode c node⟩

/-- The declarations of a dictionary, in document order. -/
def declarationsOf (c : Context) (dictionary : Entries) : Traced (List Declaration) :=
  dictionary.mapM fun e => declarationOf c e.1 e.2

/-- The text of declarations. -/
def moduleText (declarations : List Declaration) : String :=
  "\n\n".intercalate (declarations.map Declaration.text)

end SchemaCodegen.TypeScript
