import SchemaCodegen.Json.Reader

/-!
# Failures

What can end an operation without a result, by cause.  Three families belong to the
domain and have messages and exit codes: a document that cannot be read, a configuration
that is not valid, and a reference that does not resolve where that is asked for.  The
others say that some data did not have the form an operation needs.

* `Failure.family` — the family of a domain failure, with its `exitCode`.
* `Failure.message` — the words of a domain failure.
* `RecordFault` — one field of a record or of an options record that has a wrong value;
  a `Failure.record` lists all of them, in the order of the fields.
-/

namespace SchemaCodegen

/-! ### Records and options -/

/-- A step to a field: a key of a record or a place in a list. -/
inductive FieldStep where
  | key (name : String)
  | index (n : Nat)
deriving DecidableEq, Repr

/-- What is wrong with a value given for a field. -/
inductive FieldProblem where
  | notString
  | notUnicode
  | notBool
  | unreadableBool
  | notInteger
  | unreadableInteger
  | fractionalInteger
  | infinite
  | belowLeast
  | notMapping
  | notRecord
  | notList
  | missing
deriving DecidableEq, Repr

/-- The name of a problem. -/
def FieldProblem.name : FieldProblem → String
  | .notString => "string_type"
  | .notUnicode => "string_unicode"
  | .notBool => "bool_type"
  | .unreadableBool => "bool_parsing"
  | .notInteger => "int_type"
  | .unreadableInteger => "int_parsing"
  | .fractionalInteger => "int_from_float"
  | .infinite => "finite_number"
  | .belowLeast => "greater_than_equal"
  | .notMapping => "dict_type"
  | .notRecord => "model_type"
  | .notList => "list_type"
  | .missing => "missing"

/-- A field with a wrong value. -/
structure RecordFault where
  path : List FieldStep
  problem : FieldProblem
deriving DecidableEq, Repr

/-- The fault seen from outside a field of an enclosing record. -/
def RecordFault.under (step : FieldStep) (f : RecordFault) : RecordFault :=
  ⟨step :: f.path, f.problem⟩

/-- One line that names a field and its problem. -/
def RecordFault.text (f : RecordFault) : String :=
  ".".intercalate (f.path.map fun
    | .key k => k
    | .index n => toString n) ++ ": " ++ f.problem.name

/-! ### Documents -/

/-- Why a text is no document, or a document none that is supported. -/
inductive DocumentFault where
  | empty
  | badJson (text : String) (fault : Json.Fault)
  | unreadable (text : String) (json : Option Json.Fault) (yaml : String)
  | notObject (kind : String)
  | noVersion
  | swaggerVersion (version : String)
  | openApiVersion (version : String)
deriving DecidableEq, Repr

/-- The words for a document fault. -/
def DocumentFault.message : DocumentFault → String
  | .empty => "Document is empty"
  | .badJson text fault => "Invalid JSON: " ++ fault.message text
  | .unreadable text json yaml =>
    "Failed to parse document as JSON or YAML"
      ++ (match json with
        | some fault => "\n  JSON error: " ++ fault.message text
        | none => "")
      ++ "\n  YAML error: " ++ yaml
  | .notObject kind => "Document must be a JSON/YAML object (got " ++ kind ++ ")"
  | .noVersion => "Missing 'openapi' or 'swagger' field. Is this an OpenAPI document?"
  | .swaggerVersion version => "Unsupported Swagger version: " ++ version
  | .openApiVersion version =>
    "Unsupported OpenAPI version: " ++ version ++ ". Only 2.0 and 3.x are supported."

/-! ### Configuration -/

/-- Why a configuration is refused. -/
inductive ConfigFault where
  | badFile (label path text : String) (fault : Json.Fault)
  | fileNotObject (label path : String)
  | fileRecord (label path : String) (faults : List RecordFault)
  | record (faults : List RecordFault)
  | variable (name reason : String)
deriving DecidableEq, Repr

/-- The words for a configuration fault, with the given words for the fields at fault. -/
def ConfigFault.message (details : List RecordFault → String) : ConfigFault → String
  | .badFile label path text fault =>
    "Invalid " ++ label ++ " at " ++ path ++ ": " ++ fault.message text
  | .fileNotObject label path =>
    "Invalid " ++ label ++ " at " ++ path ++ ": expected a JSON object"
  | .fileRecord label path faults =>
    "Invalid " ++ label ++ " at " ++ path ++ ": " ++ details faults
  | .record faults => "Invalid configuration: " ++ details faults
  | .variable name reason => "Invalid value for " ++ name ++ ": " ++ reason

/-- The fields at fault, if the configuration was refused for them. -/
def ConfigFault.faults? : ConfigFault → Option (List RecordFault)
  | .fileRecord _ _ faults => some faults
  | .record faults => some faults
  | _ => none

/-! ### All failures -/

/-- What ends an operation without a result.

* `reference` — a reference does not resolve, and that was asked to count.
* `notObject` — entries were asked of data that is no object.
* `wrongKind` — data of a kind that the operation cannot use at all.
* `unreadable` — a text or a number without the value it is read for.
* `overflow` — a number too great for the arithmetic.
* `unknownWord` — a word outside a fixed table.
* `nothingThere` — a character of an empty text.
* `unmatchedTag` — a tag that closes a style which is not open.
* `tooDeep` — a descent that goes deeper than any finite answer. -/
inductive Failure where
  | document (fault : DocumentFault)
  | config (fault : ConfigFault)
  | reference (ref : String)
  | record (faults : List RecordFault)
  | notObject
  | wrongKind
  | unreadable
  | overflow
  | unknownWord
  | nothingThere
  | unmatchedTag
  | tooDeep
deriving DecidableEq, Repr

/-- The families of failures that a caller turns into a process exit status. -/
inductive Family where
  | general
  | config
  | document
  | conversion
  | reference
deriving DecidableEq, Repr

/-- The exit code of a family. -/
def Family.exitCode : Family → Nat
  | .general => 1
  | .config => 2
  | .document => 7
  | .conversion => 8
  | .reference => 8

/-- The family that a family is a part of. -/
def Family.parent? : Family → Option Family
  | .general => none
  | .config => some .general
  | .document => some .general
  | .conversion => some .general
  | .reference => some .conversion

/-- A family with those it is a part of, the narrowest first. -/
def Family.lineage : Family → List Family
  | .general => [.general]
  | .config => [.config, .general]
  | .document => [.document, .general]
  | .conversion => [.conversion, .general]
  | .reference => [.reference, .conversion, .general]

/-- The lineage follows the parents. -/
theorem Family.lineage_eq (f : Family) :
    f.lineage = f :: (match f.parent? with | some p => p.lineage | none => []) := by
  cases f <;> rfl

/-- The words for an unresolved reference. -/
def unresolvedText (ref : String) : String := "Unresolved reference: " ++ ref

/-- The message of an error of a family that is made with a text: for a reference the text
is the reference itself. -/
def Family.message : Family → String → String
  | .reference, ref => unresolvedText ref
  | _, text => text

/-- The family of a failure of the domain. -/
def Failure.family? : Failure → Option Family
  | .document _ => some .document
  | .config _ => some .config
  | .reference _ => some .reference
  | _ => none

/-- The message of a failure of the domain, with the given words for fields at fault. -/
def Failure.message? (details : List RecordFault → String) : Failure → Option String
  | .document fault => some fault.message
  | .config fault => some (fault.message details)
  | .reference ref => some (unresolvedText ref)
  | _ => none

/-- A failure of the domain has a message exactly when it has a family. -/
theorem Failure.message?_isSome (details : List RecordFault → String) (f : Failure) :
    (f.message? details).isSome = f.family?.isSome := by
  cases f <;> rfl

end SchemaCodegen
