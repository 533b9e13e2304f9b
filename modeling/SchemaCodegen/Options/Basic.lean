import SchemaCodegen.Options.Checked

/-!
# Options

Each part of the engine has a record of options.  A record is read from an object, where
unknown keys are ignored and missing ones keep their defaults.
-/

namespace SchemaCodegen

/-- Types that stand for formats without a type of their own. -/
structure TypeOptions where
  int64Type : String := "bigint"
  binaryType : String := "Blob"
deriving DecidableEq, Repr

/-- How validators are written.  A custom validator is the source of a check for a format
that has none. -/
structure ValidationOptions where
  strict : Bool := false
  coerce : Bool := false
  includeDescriptions : Bool := true
  int64AsBigint : Bool := true
  customValidators : List (String × String) := []
  importPath : String := "zod"
deriving DecidableEq, Repr

/-- Where the kinds of form fields change. -/
structure FormOptions where
  uiExtension : String := "x-ui-component"
  multilineThreshold : Int := 255
  radioMaxOptions : Int := 3
  includeReadOnly : Bool := false
deriving DecidableEq, Repr

/-- How sample data is made; without a seed it is the same each time. -/
structure MockOptions where
  seed : Option Int := none
  useExamples : Bool := true
  maxDepth : Int := 5
  includeOptional : Bool := true
deriving DecidableEq, Repr

/-- The type options of an object. -/
def TypeOptions.ofEntries (es : Entries) : Checked TypeOptions :=
  let absent : TypeOptions := {}
  TypeOptions.mk <$> field es "int64_type" absent.int64Type readText
    <*> field es "binary_type" absent.binaryType readText

/-- The validation options of an object. -/
def ValidationOptions.ofEntries (g : Anchors) (es : Entries) : Checked ValidationOptions :=
  let absent : ValidationOptions := {}
  ValidationOptions.mk <$> field es "strict" absent.strict readFlag
    <*> field es "coerce" absent.coerce readFlag
    <*> field es "include_descriptions" absent.includeDescriptions readFlag
    <*> field es "int64_as_bigint" absent.int64AsBigint readFlag
    <*> field es "custom_validators" absent.customValidators (readTextMap g)
    <*> field es "import_path" absent.importPath readText

/-- The form options of an object. -/
def FormOptions.ofEntries (es : Entries) : Checked FormOptions :=
  let absent : FormOptions := {}
  FormOptions.mk <$> field es "ui_extension" absent.uiExtension readText
    <*> field es "multiline_threshold" absent.multilineThreshold readInteger
    <*> field es "radio_max_options" absent.radioMaxOptions readInteger
    <*> field es "include_read_only" absent.includeReadOnly readFlag

/-- The mock options of an object. -/
def MockOptions.ofEntries (es : Entries) : Checked MockOptions :=
  let absent : MockOptions := {}
  MockOptions.mk <$> field es "seed" absent.seed readOptionalInteger
    <*> field es "use_examples" absent.useExamples readFlag
    <*> field es "max_depth" absent.maxDepth (readAtLeast 1)
    <*> field es "include_optional" absent.includeOptional readFlag

/-- A record that an operation is given: the defaults when it is not given or `null`. -/
def readOptions {α : Type} (g : Anchors) (absent : α) (read : Entries → Checked α)
    (given : Option Value) : Except Failure α :=
  match given with
  | some v => if v.isNull then .ok absent else (readRecord g read v).toExcept
  | none => .ok absent

end SchemaCodegen
