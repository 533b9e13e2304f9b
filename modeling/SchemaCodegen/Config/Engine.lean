import SchemaCodegen.Options.Basic

/-!
# The configuration of the engine

All options together, and whether a reference that does not resolve is an error.  Settings
that are not the engine's own are kept as they are, so that a program around it can have
its settings in the same file; inside a record of options they are dropped.

`ofEntries` reads a configuration from entries, and `entries` writes it: the settings in
their own order, and then the others.
-/

namespace SchemaCodegen

/-- The configuration of the engine. -/
structure EngineConfig where
  strictReferences : Bool := false
  types : TypeOptions := {}
  validation : ValidationOptions := {}
  forms : FormOptions := {}
  mock : MockOptions := {}
  more : Entries := []

namespace EngineConfig

/-- The keys of the engine's own settings. -/
def ownKeys : List String := ["strict_references", "types", "validation", "forms", "mock"]

/-- The entries that are not the engine's own. -/
def othersOf (es : Entries) : Entries :=
  es.filter fun e => !ownKeys.any fun key => e.1 == .string key

/-- The configuration that entries give. -/
def ofEntries (g : Anchors) (es : Entries) : Checked EngineConfig :=
  let absent : EngineConfig := {}
  (fun strict types validation forms mock =>
      ⟨strict, types, validation, forms, mock, othersOf es⟩)
    <$> field es "strict_references" absent.strictReferences readFlag
    <*> field es "types" absent.types (readRecord g TypeOptions.ofEntries)
    <*> field es "validation" absent.validation (readRecord g (ValidationOptions.ofEntries g))
    <*> field es "forms" absent.forms (readRecord g FormOptions.ofEntries)
    <*> field es "mock" absent.mock (readRecord g MockOptions.ofEntries)

end EngineConfig

/-- The type options as data. -/
def TypeOptions.value (o : TypeOptions) : Value :=
  .record [("int64_type", .string o.int64Type), ("binary_type", .string o.binaryType)]

/-- The validation options as data. -/
def ValidationOptions.value (o : ValidationOptions) : Value :=
  .record [("strict", .bool o.strict), ("coerce", .bool o.coerce),
    ("include_descriptions", .bool o.includeDescriptions),
    ("int64_as_bigint", .bool o.int64AsBigint),
    ("custom_validators", .record (o.customValidators.map fun v => (v.1, .string v.2))),
    ("import_path", .string o.importPath)]

/-- The form options as data. -/
def FormOptions.value (o : FormOptions) : Value :=
  .record [("ui_extension", .string o.uiExtension),
    ("multiline_threshold", .int o.multilineThreshold),
    ("radio_max_options", .int o.radioMaxOptions),
    ("include_read_only", .bool o.includeReadOnly)]

/-- The mock options as data. -/
def MockOptions.value (o : MockOptions) : Value :=
  .record [("seed", match o.seed with
      | some n => .int n
      | none => .null),
    ("use_examples", .bool o.useExamples), ("max_depth", .int o.maxDepth),
    ("include_optional", .bool o.includeOptional)]

/-- The configuration as entries. -/
def EngineConfig.entries (c : EngineConfig) : Entries :=
  [(.string "strict_references", .bool c.strictReferences), (.string "types", c.types.value),
    (.string "validation", c.validation.value), (.string "forms", c.forms.value),
    (.string "mock", c.mock.value)] ++ c.more

/-- The other settings are kept as they are. -/
theorem EngineConfig.othersOf_entries (c : EngineConfig)
    (h : EngineConfig.othersOf c.more = c.more) :
    EngineConfig.othersOf c.entries = c.more := by
  rw [EngineConfig.entries, EngineConfig.othersOf, List.filter_append]
  change _ ++ EngineConfig.othersOf c.more = _
  rw [h]
  simp [EngineConfig.ownKeys]

end SchemaCodegen
