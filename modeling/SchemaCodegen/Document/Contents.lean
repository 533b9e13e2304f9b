import SchemaCodegen.Data.Shown
import SchemaCodegen.Reference.Place
import SchemaCodegen.Text.Search
import SchemaCodegen.Traced

/-!
# What a document holds

* `specVersion` — the family and the version of the specification it follows.
* `namedSchemas` — its schema dictionary: the schemas under `components`, or else those
  under `definitions`, in the order in which they stand.
-/

namespace SchemaCodegen

/-! ### Version -/

/-- The families of specifications. -/
inductive SpecFamily where
  | swagger
  | openApi
deriving DecidableEq, Repr

/-- The name of a family, which is also the key that gives its version. -/
def SpecFamily.name : SpecFamily → String
  | .swagger => "swagger"
  | .openApi => "openapi"

/-- What the versions of a family that are supported start with. -/
def SpecFamily.lead : SpecFamily → String
  | .swagger => "2."
  | .openApi => "3."

/-- The fault of a version that is not supported. -/
def SpecFamily.fault : SpecFamily → String → DocumentFault
  | .swagger => .swaggerVersion
  | .openApi => .openApiVersion

/-- A version of a family, if it is supported. -/
def SpecFamily.accept (family : SpecFamily) (version : String) :
    Except Failure (SpecFamily × String) :=
  if family.lead.toList.isPrefixOf version.toList then .ok (family, version)
  else .error (.document (family.fault version))

/-- The version of a document with the given entries.  The older family is asked first. -/
def versionOfEntries (g : Anchors) (es : Entries) : Except Failure (SpecFamily × String) :=
  match Entries.get? es SpecFamily.swagger.name with
  | some v => SpecFamily.swagger.accept (v.shown g)
  | none =>
    match (Entries.get? es SpecFamily.openApi.name).filter fun v => !v.isNull with
    | some v => SpecFamily.openApi.accept (v.shown g)
    | none => .error (.document .noVersion)

/-- The version of a document. -/
def specVersion (g : Anchors) (document : Value) : Except Failure (SpecFamily × String) :=
  match g.look document with
  | .object es => versionOfEntries g es
  | .list xs =>
    .error (if xs.any fun v => v.string? == some SpecFamily.swagger.name then .wrongKind
      else .notObject)
  | .string s => .error (if Text.contains s SpecFamily.swagger.name then .wrongKind else .notObject)
  | _ => .error .wrongKind

/-! ### Schemas -/

/-- The object under a key of a located object. -/
def Located.objectUnder? (g : Anchors) (l : Located) (key : String) : Option Located := do
  let es ← g.entries? l.value
  (l.under? 0 es key).filter fun found => g.isObject found.value

/-- The object that holds the schemas of a document. -/
def schemaHolder? (g : Anchors) (document : Located) : Option Located :=
  match (document.objectUnder? g "components").bind fun c => c.objectUnder? g "schemas" with
  | some holder => some holder
  | none => document.objectUnder? g "definitions"

/-- The schemas of a document, each at its place. -/
def locatedSchemas (g : Anchors) (document : Located) : List (Scalar × Located) :=
  match schemaHolder? g document with
  | some holder =>
    ((g.entries? holder.value).getD []).zipIdx.map fun e => (e.1.1, holder.part e.2 e.1.2)
  | none => []

/-- The dictionary of a document's schemas, with a notice when it declares none. -/
def namedSchemas (g : Anchors) (document : Value) : Traced Entries :=
  if g.isObject document then
    match schemaHolder? g ⟨.document, [], document⟩ with
    | some holder => pure ((g.entries? holder.value).getD [])
    | none => do
      Traced.note .noNamedSchemas
      pure []
  else Traced.fail .notObject

/-- The dictionary holds the located schemas. -/
theorem namedSchemas_result {g : Anchors} {document : Value} (h : g.isObject document = true) :
    (namedSchemas g document).result
      = .ok ((locatedSchemas g ⟨.document, [], document⟩).map fun e => (e.1, e.2.value)) := by
  unfold namedSchemas locatedSchemas
  rw [if_pos h]
  cases schemaHolder? g ⟨.document, [], document⟩ with
  | none => rfl
  | some holder =>
    generalize (g.entries? holder.value).getD [] = es
    simp only [Traced.result_pure, List.map_map, Except.ok.injEq]
    have : ((fun e : Scalar × Located => (e.1, e.2.value))
        ∘ fun e : (Scalar × Value) × Nat => (e.1.1, holder.part e.2 e.1.2)) = Prod.fst := by
      funext e
      rfl
    rw [this, List.zipIdx_map_fst]

end SchemaCodegen
