import SchemaCodegen.Config.Layers
import SchemaCodegen.Options.Checked

/-!
# Settings from the environment

Some settings can be given by variables of the environment.  The table `settings` says
which, where in the configuration each one belongs, and how its text is read; its order is
the order of the entries and of the first fault reported.  A variable with an empty text is
not given.
-/

namespace SchemaCodegen

/-- The names that a program gives to its files and variables: its own name, and what its
variables start with. -/
structure Application where
  name : String
  variableLead : String
deriving DecidableEq, Repr

/-- The variables of an environment. -/
abbrev Environment := List (String × String)

/-- How the text of a variable is read: the value, or the reason why there is none. -/
abbrev VariableReader := String → Except String Value

/-- A truth value, with blanks around it. -/
def readFlagVariable : VariableReader := fun text =>
  let word := asciiLower (Text.strip text)
  if word ∈ ["1", "true", "yes", "on"] then .ok (.bool true)
  else if word ∈ ["0", "false", "no", "off"] then .ok (.bool false)
  else .error ("expected a boolean, got " ++ Text.quoted text)

/-- An integer of any size, up to the longest one that is read. -/
def readIntegerVariable : VariableReader := fun text =>
  let digits := (text.toList.filter Text.isDigit).length
  match Text.readInteger? text with
  | some n =>
    if digits ≤ Text.longestInteger then .ok (.int n)
    else .error (s!"Exceeds the limit ({Text.longestInteger} digits) for integer string "
      ++ s!"conversion: value has {digits} digits; use sys.set_int_max_str_digits() "
      ++ "to increase the limit")
  | none => .error ("invalid literal for int() with base 10: " ++ Text.quoted text)

/-- A text as it is. -/
def readTextVariable : VariableReader := fun text => .ok (.string text)

/-- A setting that a variable gives: the last part of the variable's name, the path of keys
in the configuration, and how it is read. -/
structure Setting where
  name : String
  path : List String
  read : VariableReader

/-- The settings that variables give. -/
def settings : List Setting :=
  [⟨"STRICT_REFERENCES", ["strict_references"], readFlagVariable⟩,
   ⟨"INT64_TYPE", ["types", "int64_type"], readTextVariable⟩,
   ⟨"BINARY_TYPE", ["types", "binary_type"], readTextVariable⟩,
   ⟨"VALIDATION_STRICT", ["validation", "strict"], readFlagVariable⟩,
   ⟨"VALIDATION_COERCE", ["validation", "coerce"], readFlagVariable⟩,
   ⟨"VALIDATION_IMPORT_PATH", ["validation", "import_path"], readTextVariable⟩,
   ⟨"UI_EXTENSION", ["forms", "ui_extension"], readTextVariable⟩,
   ⟨"MULTILINE_THRESHOLD", ["forms", "multiline_threshold"], readIntegerVariable⟩,
   ⟨"MOCK_SEED", ["mock", "seed"], readIntegerVariable⟩,
   ⟨"MOCK_MAX_DEPTH", ["mock", "max_depth"], readIntegerVariable⟩]

/-- What a setting adds to the entries of those before it. -/
def Setting.addTo (app : Application) (env : Environment) (es : Entries) (s : Setting) :
    Except Failure Entries :=
  let name := app.variableLead ++ s.name
  match (env.lookup name).filter (!·.isEmpty) with
  | none => .ok es
  | some text =>
    match s.read text with
    | .ok v => .ok (mergeLayer es (nestedAt s.path v))
    | .error reason => .error (.config (.variable name reason))

/-- The settings that an environment gives, as a layer. -/
def environmentLayer (app : Application) (env : Environment) : Except Failure Entries :=
  settings.foldlM (Setting.addTo app env) []

/-- Without variables there are no settings. -/
theorem environmentLayer_nil (app : Application) : environmentLayer app [] = .ok [] := by
  simp [environmentLayer, settings, Setting.addTo, List.foldlM]
  rfl

end SchemaCodegen
