import SchemaCodegen.Compose.AllOf
import SchemaCodegen.Documentation.Label

/-!
# Markdown

A schema is documented as a section: its name, its description, and a table with one row
for each property.  `allOf` is collapsed first, so that inherited properties are listed.

A cell of the table is a single line in which each bar stands behind a backslash, so that
it cannot end the cell.
-/

namespace SchemaCodegen.Markdown

/-- A bar behind a backslash. -/
def escapeBars (cs : List Char) : List Char :=
  cs.flatMap fun c => if c == '|' then ['\\', '|'] else [c]

/-- A text as a cell. -/
def cell (text : String) : String := String.ofList (escapeBars (Text.oneLine text).toList)

/-- A row of cells. -/
def row (cells : List String) : String := "| " ++ " | ".intercalate cells ++ " |"

/-- The heading of the property table. -/
def tableHead : List String :=
  ["### Properties", "", "| Property | Type | Required | Description |",
   "|----------|------|----------|-------------|"]

/-- The row of a property. -/
def propertyRow (g : Anchors) (required : List String) (p : Scalar × Value) : Traced String := do
  let description := match g.entries? p.2 with
    | some es => ((Entries.get? es "description").map (Value.shown g)).getD ""
    | none => ""
  let type ← typeLabel g p.2
  pure (row [cell p.1.shown, cell type,
    if required.any (Scalar.string · == p.1) then "Yes" else "No", cell description])

/-- The keywords that a section is written from. -/
def sectionKeywords (g : Anchors) (schema : Value) (dictionary : Option Entries) :
    Traced Entries :=
  match g.entries? schema with
  | none => pure []
  | some es =>
    if (g.listAt? es "allOf").isSome then mergeAllOf g schema dictionary else pure es

/-- The lines of a description above the table. -/
def descriptionLines (es : Entries) : List String :=
  match (Entries.string? es "description").filter fun s => !Text.isBlankText s with
  | some text => [Text.strip text, ""]
  | none => []

/-- The section of a schema. -/
def sectionText (g : Anchors) (name : Scalar) (schema : Value) (dictionary : Option Entries) :
    Traced String := do
  let es ← sectionKeywords g schema dictionary
  let rows ← match g.objectAt? es "properties" with
    | some properties => properties.mapM (propertyRow g (requiredNames g es))
    | none => pure []
  pure ("\n".intercalate
    (["## " ++ name.shown, ""] ++ descriptionLines es ++ tableHead ++ rows))

end SchemaCodegen.Markdown
