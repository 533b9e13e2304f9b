import SchemaCodegen.Cycle.Dictionary
import SchemaCodegen.TypeScript.Declaration
import SchemaCodegen.Zod.SchemaValidator

/-!
# Validator modules

The module of a dictionary imports the library and declares a validator and its inferred
type for each schema, each after those it uses.  The validators of schemas that take part
in a cycle are declared lazily, so that they can use each other.
-/

namespace SchemaCodegen.Zod

/-- The declaration of a validator. -/
structure Declaration where
  name : String
  isLazy : Bool
  validator : Validator

/-- The lines of a declaration: the validator and the type it infers. -/
def Declaration.lines (d : Declaration) : List String :=
  let identifier := validatorName d.name
  let text := d.validator.text 0
  [if d.isLazy then
      "export const " ++ identifier ++ ": z.ZodTypeAny = z.lazy(() => " ++ text ++ ");"
    else "export const " ++ identifier ++ " = " ++ text ++ ";",
   "export type " ++ typeName d.name ++ " = z.infer<typeof " ++ identifier ++ ">;",
   ""]

/-- The declaration of a schema of a dictionary. -/
def declarationOf (c : Context) (dictionary : Entries) (circular : List String) (key : Scalar) :
    Traced Declaration := do
  let schema := ((dictionary.find? (·.1 = key)).map (·.2)).getD .null
  let v ← validatorOf c schema
  let name ← Traced.ofExcept (TypeScript.nameOfKey key)
  pure ⟨name, circular.any (Scalar.string · == key), v⟩

/-- The declarations of a dictionary, each after those it uses as far as possible. -/
def declarationsOf (c : Context) (dictionary : Entries) : Traced (List Declaration) := do
  let circular ← circularNames c.anchors dictionary
  (emissionOrder c.anchors dictionary).mapM (declarationOf c dictionary circular)

/-- The text of a module. -/
def moduleText (importPath : String) (declarations : List Declaration) : String :=
  Text.stripRight ("\n".intercalate
    (("import \x7b z \x7d from " ++ quoteLiteral importPath ++ ";") :: ""
      :: declarations.flatMap Declaration.lines)) ++ "\n"

end SchemaCodegen.Zod
