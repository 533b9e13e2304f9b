import SchemaCodegen.Document.Contents
import SchemaCodegen.Proofs.Data.Tree
import SchemaCodegen.Proofs.Traced
import SchemaCodegen.Reference.Occurrences
import SchemaCodegen.Zod.SchemaValidator

/-!
# Names and pointers

A canonical reference is read in two ways.  The translations take the name out of it and ask the
dictionary for that, while a reference is resolved by walking it through the document as a
pointer, one segment at a time.

Both agree for the root that the dictionary is taken from (`resolve_of_schemas?`): the walk goes
down to the schemas of that root and then looks up the name.  A reference of the other root is
walked into what the document has there, although its name is asked of the same dictionary.
-/

namespace SchemaCodegen

variable {g : Anchors} {document : Value} {d es : Entries} {l : Located} {root : SchemaRoot}
  {ref name : String} {k : Scalar}

/-! ### Roots of a document -/

/-- The object that a path of keys leads to. -/
def Anchors.objectAlong? (g : Anchors) (v : Value) : List String → Option Entries
  | [] => g.entries? v
  | key :: path => do
    let es ← g.entries? v
    let below ← Entries.get? es key
    g.objectAlong? below path

/-- The keys that lead to the schemas of a root. -/
def SchemaRoot.path : SchemaRoot → List String
  | .components => ["components", "schemas"]
  | .definitions => ["definitions"]

/-- The schemas that a document has under a root. -/
def SchemaRoot.schemas? (g : Anchors) (document : Value) (root : SchemaRoot) : Option Entries :=
  g.objectAlong? document root.path

/-- The root that the dictionary of a document is taken from. -/
def homeRoot? (g : Anchors) (document : Value) : Option SchemaRoot :=
  SchemaRoot.all.find? fun root => (root.schemas? g document).isSome

/-! ### Pointers along keys -/

/-- In an object, a step of a pointer looks up a key. -/
theorem step?_of_entries? (entries : g.entries? l.value = some es) (segment : String) :
    l.step? g segment = .ok (l.under? 0 es segment) := by
  unfold Anchors.entries? at entries
  unfold Located.step?
  cases seen : g.look l.value with
  | object fs =>
      rw [seen] at entries
      cases entries
      rfl
  | _ =>
      rw [seen] at entries
      cases entries

/-- A pointer that leads to an object, and on to a name, finds what the object has there. -/
theorem follow?_of_objectAlong? {path : List String}
    (along : g.objectAlong? l.value path = some es) (name : String) :
    ∃ found, l.follow? g (path ++ [name]) = .ok found
      ∧ found.map Located.value = Entries.get? es name := by
  induction path generalizing l with
  | nil =>
      refine ⟨l.under? 0 es name, ?_, Located.map_value_under? l 0 es name⟩
      rw [List.nil_append, Located.follow?, step?_of_entries? along]
      cases l.under? 0 es name <;> rfl
  | cons key path ih =>
      obtain ⟨fs, entries, along⟩ := Option.bind_eq_some_iff.1 along
      obtain ⟨below, at_key, along⟩ := Option.bind_eq_some_iff.1 along
      rw [← Located.map_value_under? l 0] at at_key
      obtain ⟨next, under, rfl⟩ := Option.map_eq_some_iff.1 at_key
      obtain ⟨found, follows, value⟩ := ih along
      refine ⟨found, ?_, value⟩
      rw [List.cons_append, Located.follow?, step?_of_entries? entries, under]
      exact follows

/-! ### Canonical references -/

/-- The text behind the lead of a root. -/
theorem after?_eq_some {segment : List Char} :
    root.after? ref = some segment ↔ ref.toList = root.lead.toList ++ segment := by
  unfold SchemaRoot.after?
  rw [Option.ite_none_right_eq_some, List.isPrefixOf_iff_prefix]
  constructor
  · rintro ⟨⟨rest, same⟩, cut⟩
    rw [← same, ← String.length_toList, List.drop_left] at cut
    cases cut
    exact same.symm
  · intro same
    rw [same, ← String.length_toList, List.drop_left]
    exact ⟨⟨segment, rfl⟩, rfl⟩

/-- A reference is of one root at most. -/
theorem eq_of_after? {other : SchemaRoot} (this : (root.after? ref).isSome = true)
    (that : (other.after? ref).isSome = true) : other = root := by
  obtain ⟨this_segment, this⟩ := Option.isSome_iff_exists.1 this
  obtain ⟨that_segment, that⟩ := Option.isSome_iff_exists.1 that
  have same := (after?_eq_some.1 that).symm.trans (after?_eq_some.1 this)
  -- The leads differ in the first letter behind the slash.
  have third := congrArg (fun cs : List Char => cs[2]?) same
  cases root <;> cases other <;> first | rfl | (revert third; simp [SchemaRoot.lead])

/-- A canonical reference of a root is its lead with a segment that stands for the name. -/
theorem exists_segment (canonical : schemaName? ref = some name)
    (of_root : (root.after? ref).isSome = true) :
    ∃ segment, ref.toList = root.lead.toList ++ segment ∧ '/' ∉ segment
      ∧ String.ofList (decodeSegment segment) = name := by
  obtain ⟨other, -, named⟩ := List.exists_of_findSome?_eq_some canonical
  cases behind : other.after? ref with
  | none =>
      rw [behind] at named
      cases named
  | some segment =>
      rw [behind] at named
      cases eq_of_after? of_root (by rw [behind]; rfl)
      dsimp only at named
      split at named
      · cases named
      · next one =>
          refine ⟨segment, after?_eq_some.1 behind, ?_, Option.some.inj named⟩
          simp only [Bool.or_eq_true, not_or, List.contains_iff_mem] at one
          exact one.2

/-- The pointer that a canonical reference is. -/
theorem parse_of_schemaName? (canonical : schemaName? ref = some name)
    (of_root : (root.after? ref).isSome = true) :
    Reference.parse ref = .pointer (root.path ++ [name]) := by
  obtain ⟨segment, text, whole, rfl⟩ := exists_segment canonical of_root
  rw [Reference.parse, text]
  cases root with
  | components =>
      show Reference.pointer (pointerSegments
        ("components".toList ++ '/' :: ("schemas".toList ++ '/' :: segment))) = _
      rw [pointerSegments, Text.partsAt_append (by decide), Text.partsAt_append (by decide),
        Text.partsAt_of_not_mem whole]
      rfl
  | definitions =>
      show Reference.pointer (pointerSegments ("definitions".toList ++ '/' :: segment)) = _
      rw [pointerSegments, Text.partsAt_append (by decide), Text.partsAt_of_not_mem whole]
      rfl

/-! ### Resolving canonical references -/

/-- A document with schemas under a root has the key of the root, so nothing is looked up by
name for a reference of that root. -/
theorem lookupName?_of_schemas? (document : Located)
    (holder : root.schemas? g document.value = some es)
    (of_root : (root.after? ref).isSome = true) : lookupName? g ref document = none := by
  unfold lookupName?
  cases entries : g.entries? document.value with
  | none => rfl
  | some fs =>
      refine List.findSome?_eq_none_iff.2 fun other _ => ?_
      cases other_root : (other.after? ref).isSome with
      | false => rfl
      | true =>
          cases eq_of_after? of_root other_root
          have has_key : Entries.has fs root.key = true := by
            cases root <;>
              (obtain ⟨gs, same, below⟩ := Option.bind_eq_some_iff.1 holder
               obtain ⟨v, at_key, -⟩ := Option.bind_eq_some_iff.1 below
               cases entries.symm.trans same
               exact Option.isSome_iff_exists.2 ⟨v, at_key⟩)
          rw [has_key]
          rfl

/-- **Pointers agree with names.**  A canonical reference resolves to what its name has among the
schemas of its own root. -/
theorem resolve_of_schemas? (holder : root.schemas? g document = some es)
    (canonical : schemaName? ref = some name) (of_root : (root.after? ref).isSome = true) :
    (resolve g ref document).result
      = .ok ((Entries.get? es name).filter fun v => !v.isNull) := by
  obtain ⟨found, follows, value⟩ :=
    follow?_of_objectAlong? (l := ⟨.document, [], document⟩) holder name
  rw [← value]
  refine Traced.result_bind_eq_ok.2 ⟨found.bind Located.present, ?_, ?_⟩
  · rw [locate, parse_of_schemaName? canonical of_root]
    refine Traced.result_bind_eq_ok.2 ⟨found, follows, ?_⟩
    cases found with
    | some l => rfl
    | none =>
        rw [lookupName?_of_schemas? ⟨.document, [], document⟩ holder of_root]
        rfl
  · cases found with
    | none => rfl
    | some l =>
        cases null : l.value.isNull <;> simp [Located.present, Option.filter_some, null]

/-! ### The dictionary of a document -/

/-- What an object under a key leads to, found with its place. -/
theorem objectAlong?_of_objectUnder? (l : Located) (key : String) (path : List String) :
    ((l.objectUnder? g key).bind fun below => g.objectAlong? below.value path)
      = g.objectAlong? l.value (key :: path) := by
  rw [Located.objectUnder?, Anchors.objectAlong?]
  cases g.entries? l.value with
  | none => rfl
  | some es =>
      show ((l.under? 0 es key).filter _).bind _
        = (Entries.get? es key).bind fun below => g.objectAlong? below path
      rw [← Located.map_value_under? l 0]
      cases l.under? 0 es key with
      | none => rfl
      | some below =>
          rw [Option.filter_some, Option.map_some, Option.bind_some]
          cases object : g.isObject below.value with
          | true => rfl
          | false =>
              -- Nothing goes on from a value that is no object.
              have no_entries : g.entries? below.value = none := by
                unfold Anchors.isObject at object
                exact Option.not_isSome_iff_eq_none.1 (by rw [object]; exact Bool.false_ne_true)
              cases path <;> simp [Anchors.objectAlong?, no_entries]

/-- The object that is found under a key has entries. -/
theorem exists_entries_of_objectUnder? {below : Located} {key : String}
    (found : l.objectUnder? g key = some below) : ∃ es, g.entries? below.value = some es := by
  obtain ⟨es, -, kept⟩ := Option.bind_eq_some_iff.1 found
  exact Option.isSome_iff_exists.1 (Option.filter_eq_some_iff.1 kept).2

/-- The entries of the holder of the schemas are the dictionary. -/
theorem namedSchemas_of_holder {holder : Located}
    (holds : schemaHolder? g ⟨.document, [], document⟩ = some holder)
    (entries : g.entries? holder.value = some es)
    (dictionary : (namedSchemas g document).result = .ok d) : es = d := by
  unfold namedSchemas at dictionary
  rw [holds] at dictionary
  split at dictionary
  · dsimp only at dictionary
    rw [entries] at dictionary
    exact Except.ok.inj dictionary
  · cases dictionary

/-- The dictionary of a document holds the schemas of its home root. -/
theorem schemas?_of_homeRoot? (home : homeRoot? g document = some root)
    (dictionary : (namedSchemas g document).result = .ok d) :
    root.schemas? g document = some d := by
  have found := List.find?_some home
  obtain ⟨es, schemas⟩ := Option.isSome_iff_exists.1 found
  rw [schemas]
  have in_components : (((Located.mk .document [] document).objectUnder? g "components").bind
      fun c => c.objectUnder? g "schemas").bind (fun holder => g.entries? holder.value)
      = SchemaRoot.components.schemas? g document := by
    have below (c : Located) := objectAlong?_of_objectUnder? (g := g) c "schemas" []
    simp only [Anchors.objectAlong?] at below
    simp only [Option.bind_assoc, below]
    exact objectAlong?_of_objectUnder? ⟨.document, [], document⟩ "components" ["schemas"]
  cases root with
  | components =>
      obtain ⟨holder, holds, entries⟩ := Option.bind_eq_some_iff.1 (in_components.trans schemas)
      rw [namedSchemas_of_holder (by rw [schemaHolder?, holds]) entries dictionary]
  | definitions =>
      have in_definitions :=
        objectAlong?_of_objectUnder? (g := g) ⟨.document, [], document⟩ "definitions" []
      obtain ⟨holder, holds, entries⟩ :=
        Option.bind_eq_some_iff.1 (in_definitions.trans schemas)
      have no_components : SchemaRoot.components.schemas? g document = none := by
        cases has : SchemaRoot.components.schemas? g document with
        | none => rfl
        | some fs => simp [homeRoot?, SchemaRoot.all, has] at home
      rw [no_components] at in_components
      cases joined : ((Located.mk .document [] document).objectUnder? g "components").bind
          fun c => c.objectUnder? g "schemas" with
      | none =>
          rw [namedSchemas_of_holder (by rw [schemaHolder?, joined, holds]) entries dictionary]
      | some below =>
          obtain ⟨c, -, under⟩ := Option.bind_eq_some_iff.1 joined
          obtain ⟨fs, below_entries⟩ := exists_entries_of_objectUnder? under
          rw [joined, Option.bind_some, below_entries] at in_components
          cases in_components

/-! ### Unresolved references -/

/-- What is reported of a reference that occurs under a name. -/
def reportOf (g : Anchors) (document : Value) (k : Scalar) (ref : String) :
    Traced (Option (Scalar × String)) := do
  match ← resolve g ref document with
  | some _ => pure none
  | none => pure (some (k, ref))

theorem unresolvedReferences_eq : unresolvedReferences g d document = (do
    let found ← d.mapM fun e => (g.references e.2).filterMapM (reportOf g document e.1)
    pure found.flatten) := rfl

theorem result_reportOf {o : Option (Scalar × String)} :
    (reportOf g document k ref).result = .ok o
      ↔ ∃ t, (resolve g ref document).result = .ok t
        ∧ o = if t.isNone then some (k, ref) else none := by
  rw [reportOf, Traced.result_bind_eq_ok]
  refine exists_congr fun t => and_congr_right fun _ => ?_
  cases t <;> simp [eq_comm]

/-- The references that are reported are those in the dictionary that resolve to nothing. -/
theorem mem_unresolvedReferences {found : List (Scalar × String)}
    (h : (unresolvedReferences g d document).result = .ok found) :
    (k, ref) ∈ found ↔ (∃ v, (k, v) ∈ d ∧ ref ∈ g.references v)
      ∧ (resolve g ref document).result = .ok none := by
  rw [unresolvedReferences_eq] at h
  obtain ⟨parts, each, same⟩ := Traced.result_bind_eq_ok.1 h
  cases same
  rw [List.mem_flatten]
  constructor
  · rintro ⟨part, at_part, mem⟩
    obtain ⟨e, at_e, kept⟩ := Traced.exists_of_mem_mapM each at_part
    obtain ⟨r, at_r, here⟩ := (Traced.mem_of_result_filterMapM kept).1 mem
    obtain ⟨t, resolved, same⟩ := result_reportOf.1 here
    cases t with
    | some t => cases same
    | none =>
        cases same
        exact ⟨⟨e.2, at_e, at_r⟩, resolved⟩
  · rintro ⟨⟨v, at_v, at_ref⟩, resolved⟩
    obtain ⟨part, at_part, kept⟩ := exists_of_mem_left (Traced.result_mapM_eq_ok.1 each) at_v
    refine ⟨part, at_part, (Traced.mem_of_result_filterMapM kept).2 ⟨ref, at_ref, ?_⟩⟩
    exact result_reportOf.2 ⟨none, resolved, rfl⟩

/-- The search for unresolved references ends well where each reference is answered. -/
theorem exists_unresolvedReferences
    (answers : ∀ e ∈ d, ∀ ref ∈ g.references e.2, ∃ t, (resolve g ref document).result = .ok t) :
    ∃ found, (unresolvedReferences g d document).result = .ok found := by
  have each : ∀ e ∈ d,
      ((g.references e.2).filterMapM (reportOf g document e.1)).Gives fun _ => True := by
    intro e at_e
    rw [Traced.filterMapM_eq_mapM]
    refine (Traced.gives_mapM (Q := fun _ => True) fun ref at_ref => ?_).map fun _ _ => trivial
    obtain ⟨t, resolved⟩ := answers e at_e ref at_ref
    exact ⟨_, result_reportOf.2 ⟨t, resolved, rfl⟩, trivial⟩
  obtain ⟨found, result, -⟩ := (Traced.gives_mapM each).bind (Q := fun _ => True)
    fun parts _ => Traced.gives_pure (a := parts.flatten) trivial
  exact ⟨found, result⟩

/-! ### What translations miss -/

/-- The type of a reference falls back to anything, or to a failure when references are
strict. -/
def TypeScript.Context.Misses (c : TypeScript.Context) (ref : String) : Prop :=
  (c.reference ref).result = if c.strict then .error (.reference ref) else .ok .any

/-- The validator of a reference has no name to use, or is a failure when references are
strict. -/
def Zod.Context.Misses (c : Zod.Context) (ref : String) : Prop :=
  (c.name? ref).result = if c.strictReferences then .error (.reference ref) else .ok none

theorem TypeScript.misses_iff {c : TypeScript.Context} :
    c.Misses ref ↔ knownName? c.dictionary ref = none := by
  unfold Context.Misses Context.reference
  cases knownName? c.dictionary ref with
  | none => cases c.strict <;> simp
  | some name => cases c.strict <;> simp

theorem Zod.misses_iff {c : Zod.Context} :
    c.Misses ref ↔ TypeScript.knownName? c.dictionary ref = none := by
  unfold Context.Misses Context.name?
  cases TypeScript.knownName? c.dictionary ref with
  | none => cases c.strictReferences <;> simp
  | some name => cases c.strictReferences <;> simp

/-- The name of a canonical reference is known where the dictionary has it. -/
theorem knownName?_eq_none_iff (canonical : schemaName? ref = some name) :
    TypeScript.knownName? (some d) ref = none ↔ Entries.get? d name = none := by
  unfold TypeScript.knownName? Entries.has
  simp [canonical]

/-! ### Agreement -/

/-- **Names and pointers agree** on the root that the dictionary `d` of a document is taken from,
when no schema in `d` is `null`.  A canonical reference of that root resolves to what `d` has
under its name; so it is reported as unresolved exactly when the types and the validators miss it
in `d`.  A canonical reference of the other root resolves to what the document has there. -/
theorem resolve_agrees_with_names (g : Anchors) (home : homeRoot? g document = some root)
    (dictionary : (namedSchemas g document).result = .ok d)
    (stated : ∀ e ∈ d, e.2.isNull = false) :
    (∀ ref name, schemaName? ref = some name → (root.after? ref).isSome = true →
        (resolve g ref document).result = .ok (Entries.get? d name))
      ∧ ((∀ e ∈ d, ∀ ref ∈ g.references e.2, ∃ t, (resolve g ref document).result = .ok t) →
          ∃ found, (unresolvedReferences g d document).result = .ok found)
      ∧ (∀ found, (unresolvedReferences g d document).result = .ok found →
          ∀ k ref name, schemaName? ref = some name → (root.after? ref).isSome = true →
            (∀ c : TypeScript.Context, c.dictionary = some d → ((k, ref) ∈ found
                ↔ (∃ v, (k, v) ∈ d ∧ ref ∈ g.references v) ∧ c.Misses ref))
            ∧ ∀ c : Zod.Context, c.dictionary = some d → ((k, ref) ∈ found
                ↔ (∃ v, (k, v) ∈ d ∧ ref ∈ g.references v) ∧ c.Misses ref))
      ∧ ∀ other es, SchemaRoot.schemas? g document other = some es →
          ∀ ref name, schemaName? ref = some name → (other.after? ref).isSome = true →
            (resolve g ref document).result
              = .ok ((Entries.get? es name).filter fun v => !v.isNull) := by
  have resolves (ref name : String) (canonical : schemaName? ref = some name)
      (of_root : (root.after? ref).isSome = true) :
      (resolve g ref document).result = .ok (Entries.get? d name) := by
    rw [resolve_of_schemas? (schemas?_of_homeRoot? home dictionary) canonical of_root]
    cases found : Entries.get? d name with
    | none => rfl
    | some v => rw [Option.filter_some, stated _ (Entries.mem_of_get? found)]; rfl
  have reported {k : Scalar} {ref name : String} {found : List (Scalar × String)}
      (h : (unresolvedReferences g d document).result = .ok found)
      (canonical : schemaName? ref = some name) (of_root : (root.after? ref).isSome = true) :
      (k, ref) ∈ found ↔ (∃ v, (k, v) ∈ d ∧ ref ∈ g.references v)
        ∧ TypeScript.knownName? (some d) ref = none := by
    rw [mem_unresolvedReferences h, resolves ref name canonical of_root,
      knownName?_eq_none_iff canonical, Except.ok.injEq]
  refine ⟨resolves, exists_unresolvedReferences, ?_, ?_⟩
  · intro found h k ref name canonical of_root
    refine ⟨fun c same => ?_, fun c same => ?_⟩
    · rw [TypeScript.misses_iff, same]
      exact reported h canonical of_root
    · rw [Zod.misses_iff, same]
      exact reported h canonical of_root
  · intro other es schemas ref name canonical of_root
    exact resolve_of_schemas? schemas canonical of_root

/-- A document of a clinic.  The owner refers to pets by the other root. -/
def clinicDocument : Value := .object
  [(.string "openapi", .string "3.0.0"),
   (.string "components", .object [(.string "schemas", .object
    [(.string "Pet", .object [(.string "type", .string "object")]),
     (.string "Owner", .object [(.string "items",
       .object [(.string "$ref", .string "#/definitions/Pet")])])])])]

/-- The dictionary of the clinic. -/
def clinicSchemas : Entries :=
  [(.string "Pet", .object [(.string "type", .string "object")]),
   (.string "Owner", .object [(.string "items",
     .object [(.string "$ref", .string "#/definitions/Pet")])])]

theorem clinicDocument_disagrees :
    (namedSchemas {} clinicDocument).result = .ok clinicSchemas
      ∧ (∀ e ∈ clinicSchemas, e.2.isNull = false)
      ∧ schemaName? "#/definitions/Pet" = some "Pet"
      ∧ Entries.get? clinicSchemas "Pet" = some (.object [(.string "type", .string "object")])
      ∧ (resolve {} "#/definitions/Pet" clinicDocument).result = .ok none
      ∧ (unresolvedReferences {} clinicSchemas clinicDocument).result
          = .ok [(.string "Owner", "#/definitions/Pet")]
      ∧ ¬ TypeScript.Context.Misses ⟨{}, some clinicSchemas, {}, true⟩ "#/definitions/Pet"
      ∧ ¬ Zod.Context.Misses ⟨{}, some clinicSchemas, {}, true⟩ "#/definitions/Pet" := by
  refine ⟨rfl, by decide, by decide +kernel, rfl, rfl, ?_, ?_, ?_⟩
  · rw [unresolvedReferences_eq, clinicSchemas]
    simp (disch := decide) only [List.mapM_cons, List.mapM_nil, Anchors.references,
      unshare_of_isTree]
    rfl
  · rw [TypeScript.misses_iff]
    decide +kernel
  · rw [Zod.misses_iff]
    decide +kernel

theorem resolve_agrees_with_names_clinic :
    homeRoot? {} clinicDocument = some .components
      ∧ (namedSchemas {} clinicDocument).result = .ok clinicSchemas
      ∧ (∀ e ∈ clinicSchemas, e.2.isNull = false)
      ∧ (resolve {} "#/components/schemas/Owner" clinicDocument).result
          = .ok (Entries.get? clinicSchemas "Owner")
      ∧ (resolve {} "#/components/schemas/Vet" clinicDocument).result
          = .ok (Entries.get? clinicSchemas "Vet")
      ∧ ∀ found, (unresolvedReferences {} clinicSchemas clinicDocument).result = .ok found →
          ((.string "Owner", "#/components/schemas/Vet") ∈ found
            ↔ (∃ v, (.string "Owner", v) ∈ clinicSchemas
                ∧ "#/components/schemas/Vet" ∈ Anchors.references {} v)
              ∧ TypeScript.Context.Misses ⟨{}, some clinicSchemas, {}, true⟩
                  "#/components/schemas/Vet") := by
  have home : homeRoot? {} clinicDocument = some .components := rfl
  obtain ⟨resolves, -, reports, -⟩ :=
    resolve_agrees_with_names {} home (d := clinicSchemas) rfl (by decide)
  refine ⟨home, rfl, by decide, ?_, ?_, fun found h => ?_⟩
  · exact resolves _ _ (by decide +kernel) (by decide +kernel)
  · exact resolves _ _ (by decide +kernel) (by decide +kernel)
  · exact (reports found h _ _ "Vet" (by decide +kernel) (by decide +kernel)).1 _ rfl

end SchemaCodegen
