import SchemaCodegen.Proofs.Cycle.Circular
import SchemaCodegen.Proofs.Cycle.Emission
import SchemaCodegen.Proofs.Zod.Written

/-!
# Declarations before their use

The validators of a module are declared in the order of emission, and those of circular names
lazily.  Both are computed from the references of the schemas; what a declaration uses is
decided by the validator it prints.  This module ties the three together.

A declaration that is not lazy uses **by reference** only what is declared before it.  Used
**by a mapping** it may be anything that the dictionary has: the values of a mapping are no
references, and neither the order nor the report sees them.  So a module declares everything
before its use exactly when the order of emission happens to agree with the mappings
(`MappedBefore`), for which it suffices that a schema refers to the schemas it maps.

What a validator uses stands in the lines of its declaration (`Declaration.Written`).
-/

namespace SchemaCodegen.Zod

open Relation

variable {c : Context} {d : Entries} {ds : List Declaration}

/-! ### The declarations of a dictionary -/

/-- The identifier that the validator of a key is declared as, if the key gives a name. -/
def identifierOf? (key : Scalar) : Option String :=
  (TypeScript.nameOfKey key).toOption.map validatorName

/-- The validators of a dictionary have pairwise distinct identifiers. -/
def DistinctIdentifiers (d : Entries) : Prop := ((Entries.keys d).map identifierOf?).Nodup

theorem identifierOf?_eq_some {key : Scalar} {name : String}
    (h : TypeScript.nameOfKey key = .ok name) : identifierOf? key = some (validatorName name) := by
  rw [identifierOf?, h]
  rfl

/-- Keys with one identifier are one key. -/
theorem DistinctIdentifiers.eq (distinct : DistinctIdentifiers d) {a b : Scalar}
    (ha : a ∈ Entries.keys d) (hb : b ∈ Entries.keys d) (same : identifierOf? a = identifierOf? b) :
    a = b := List.inj_on_of_nodup_map distinct ha hb same

theorem DistinctIdentifiers.nodup (distinct : DistinctIdentifiers d) :
    (Entries.keys d).Nodup := List.Nodup.of_map _ distinct

/-- `Declares c d key x`: the declaration `x` is that of the schema under a key. -/
structure Declares (c : Context) (d : Entries) (key : Scalar) (x : Declaration) : Prop where
  name : TypeScript.nameOfKey key = .ok x.name
  validator : (validatorOf c ((schemaAt? d key).getD .null)).result = .ok x.validator
  strict : x.isLazy = false ↔ key ∉ circularVertices c.anchors d

/-- A report has the circular names. -/
theorem any_report {report : List String} {key : Scalar}
    (reported : (circularNames c.anchors d).result = .ok report) :
    report.any (Scalar.string · == key) = false ↔ key ∉ circularVertices c.anchors d := by
  rw [← Bool.not_eq_true, not_iff_not, List.any_eq_true]
  constructor
  · rintro ⟨name, mem, same⟩
    rw [← eq_of_beq same]
    exact (mem_report reported).1 mem
  · intro circular
    rw [circularNames_result] at reported
    cases found : allStrings? (circularVertices c.anchors d) with
    | none =>
        rw [found] at reported
        cases reported
    | some names =>
        rw [allStrings?_eq_some.1 found] at circular
        obtain ⟨name, mem, rfl⟩ := List.mem_map.1 circular
        refine ⟨name, ?_, beq_self_eq_true _⟩
        rw [found] at reported
        cases reported
        exact List.mem_mergeSort.2 mem

/-- The declarations stand beside the keys in the order of emission. -/
theorem forall₂_declares (h : (declarationsOf c d).result = .ok ds) :
    List.Forall₂ (Declares c d) (emissionOrder c.anchors d) ds := by
  unfold declarationsOf at h
  obtain ⟨report, reported, h⟩ := Traced.result_bind_eq_ok.1 h
  refine List.Forall₂.imp ?_ (Traced.result_mapM_eq_ok.1 h)
  intro key x declared
  unfold declarationOf at declared
  obtain ⟨v, validator, declared⟩ := Traced.result_bind_eq_ok.1 declared
  obtain ⟨name, named, declared⟩ := Traced.result_bind_eq_ok.1 declared
  cases declared
  exact ⟨named, validator, any_report reported⟩

/-! ### What a declaration uses -/

/-- A known name is a key of the dictionary. -/
theorem mem_keys_of_knownName? {ref name : String}
    (known : TypeScript.knownName? (some d) ref = some name) :
    schemaName? ref = some name ∧ .string name ∈ Entries.keys d := by
  obtain ⟨found, has⟩ := Option.filter_eq_some_iff.1 known
  exact ⟨found, Entries.has_iff.1 has⟩

/-- What the validator of a schema uses is in the dictionary. -/
theorem use_mem_keys {schema : Value} {v : Validator} (knows : c.dictionary = some d)
    (h : (validatorOf c schema).result = .ok v) {use : Use} (mem : use ∈ v.uses) :
    .string use.schema ∈ Entries.keys d := by
  obtain ⟨node, -, made⟩ := Traced.result_bind_eq_ok.1 h
  have grounded := grounded_ofNode node made use mem
  cases use with
  | reference name =>
      obtain ⟨-, ref, -, known⟩ := grounded
      rw [knows] at known
      exact (mem_keys_of_knownName? known).2
  | mapping name =>
      obtain ⟨ref, known⟩ := grounded
      rw [knows] at known
      exact (mem_keys_of_knownName? known).2

/-- What the validator of a schema uses by reference, the schema depends on. -/
theorem mem_dependencies_of_reference {schema : Value} {v : Validator}
    (knows : c.dictionary = some d) (h : (validatorOf c schema).result = .ok v) {name : String}
    (mem : .reference name ∈ v.uses) : name ∈ dependencies c.anchors schema d := by
  obtain ⟨node, recognised, made⟩ := Traced.result_bind_eq_ok.1 h
  obtain ⟨f, ref, leaf, known⟩ := grounded_ofNode node made _ mem
  rw [knows] at known
  obtain ⟨found, key⟩ := mem_keys_of_knownName? known
  exact mem_dependencies.2 ⟨key, ref, mem_references_of_mem_preorder recognised leaf, found⟩

/-- A name that refers to another one and is not circular is emitted behind it. -/
theorem emitted_before {g : Anchors} {a b : Scalar} (nodup : (Entries.keys d).Nodup)
    (refers : RefersTo g d a b) (strict : a ∉ circularVertices g d) :
    [b, a].Sublist (emissionOrder g d) := by
  refine emissionOrder_before nodup refers fun back => strict ?_
  exact mem_circularVertices (TransGen.head' refers back)

/-! ### Before the use -/

/-- Each declaration that is not lazy uses only identifiers declared before it. -/
def UsesEarlier (ds : List Declaration) : Prop :=
  ∀ earlier x later, ds = earlier ++ x :: later → x.isLazy = false →
    ∀ use ∈ x.validator.uses,
      validatorName use.schema ∈ earlier.map fun y => validatorName y.name

/-- Each name that is not circular is emitted behind the names that its mappings use. -/
def MappedBefore (c : Context) (d : Entries) : Prop :=
  ∀ key schema v name, schemaAt? d key = some schema → key ∉ circularVertices c.anchors d →
    (validatorOf c schema).result = .ok v → .mapping name ∈ v.uses →
      [.string name, key].Sublist (emissionOrder c.anchors d)

/-- The mappings of a schema name only schemas that it refers to. -/
def MapsReferences (c : Context) (d : Entries) : Prop :=
  ∀ key schema v name, schemaAt? d key = some schema →
    (validatorOf c schema).result = .ok v → .mapping name ∈ v.uses →
      name ∈ dependencies c.anchors schema d

/-- An identifier is declared where its key is emitted. -/
theorem declared_iff (distinct : DistinctIdentifiers d) {front : List Scalar}
    {earlier : List Declaration} (aligned : List.Forall₂ (Declares c d) front earlier)
    (subset : front ⊆ Entries.keys d) {name : String} (known : .string name ∈ Entries.keys d) :
    validatorName name ∈ (earlier.map fun y => validatorName y.name)
      ↔ .string name ∈ front := by
  constructor
  · intro declared
    obtain ⟨y, mem, same⟩ := List.mem_map.1 declared
    obtain ⟨key, at_key, declares⟩ := exists_of_mem_left aligned.flip mem
    have identified : identifierOf? key = identifierOf? (.string name) := by
      rw [identifierOf?_eq_some declares.name, same]
      rfl
    rw [← distinct.eq (subset at_key) known identified]
    exact at_key
  · intro mem
    obtain ⟨y, at_y, declares⟩ := exists_of_mem_left aligned mem
    cases declares.name
    exact List.mem_map.2 ⟨y, at_y, rfl⟩

/-- A module declares everything before its use exactly when the order of emission agrees with
the mappings. -/
theorem usesEarlier_iff (knows : c.dictionary = some d) (distinct : DistinctIdentifiers d)
    (h : (declarationsOf c d).result = .ok ds) : UsesEarlier ds ↔ MappedBefore c d := by
  have aligned := forall₂_declares h
  have perm : (emissionOrder c.anchors d).Perm (Entries.keys d) :=
    emissionOrder_perm distinct.nodup
  have nodup : (emissionOrder c.anchors d).Nodup := perm.nodup_iff.2 distinct.nodup
  constructor
  · intro earlier_used key schema v name found strict made mem
    -- Cut both lists at the key: what is declared in front of it was emitted in front of it.
    have known := use_mem_keys knows made mem
    obtain ⟨front, back, cut⟩ := List.append_of_mem (perm.mem_iff.2 (mem_keys_of_schemaAt? found))
    rw [cut] at aligned nodup perm ⊢
    obtain ⟨earlier, x, later, rfl, before, declares⟩ := exists_cut_right aligned
    have same : x.validator = v := by
      have made' := declares.validator
      rw [found, Option.getD_some, made] at made'
      cases made'
      rfl
    have declared := earlier_used earlier x later rfl (declares.strict.2 strict) _ (same ▸ mem)
    rw [pair_sublist_iff nodup]
    refine (declared_iff distinct before ?_ known).1 declared
    exact fun a at_a => perm.subset (List.mem_append_left _ at_a)
  · rintro mapped earlier x later rfl strict use mem
    obtain ⟨front, key, back, cut, before, declares⟩ := exists_cut_left aligned
    rw [cut] at nodup perm
    have at_key : key ∈ Entries.keys d :=
      perm.subset (List.mem_append_right _ List.mem_cons_self)
    obtain ⟨schema, found⟩ := exists_schemaAt? at_key
    have made := declares.validator
    rw [found, Option.getD_some] at made
    have known := use_mem_keys knows made mem
    -- A use by reference is an edge, and the order of emission respects edges; a use by a
    -- mapping is no edge, and needs the hypothesis.
    have emitted : [.string use.schema, key].Sublist (emissionOrder c.anchors d) := by
      cases use with
      | reference name =>
          refine emitted_before distinct.nodup ?_ (declares.strict.1 strict)
          exact ⟨schema, found, name, mem_dependencies_of_reference knows made mem, rfl⟩
      | mapping name => exact mapped key schema _ name found (declares.strict.1 strict) made mem
    rw [cut, pair_sublist_iff nodup] at emitted
    refine (declared_iff distinct before ?_ known).2 emitted
    exact fun a at_a => perm.subset (List.mem_append_left _ at_a)

/-- Mappings to schemas that are referred to anyway agree with the order of emission. -/
theorem mappedBefore_of_mapsReferences (nodup : (Entries.keys d).Nodup)
    (references : MapsReferences c d) : MappedBefore c d := by
  intro key schema v name found strict made mem
  refine emitted_before nodup ?_ strict
  exact ⟨schema, found, name, references key schema v name found made mem, rfl⟩

/-- **Declarations before their use.**  In the module of a dictionary whose validators have
distinct identifiers, each declaration that is not lazy uses only identifiers declared before
it, exactly when the order of emission agrees with the mappings of discriminators; and it does
when schemas map only schemas that they refer to.  The identifiers that a declaration declares and
uses are written in its lines. -/
theorem declarationsOf_usesEarlier (g : Anchors) (d : Entries) (options : ValidationOptions)
    (strictReferences : Bool) (ds : List Declaration) (distinct : DistinctIdentifiers d)
    (h : (declarationsOf ⟨g, some d, options, strictReferences⟩ d).result = .ok ds) :
    (UsesEarlier ds ↔ MappedBefore ⟨g, some d, options, strictReferences⟩ d)
      ∧ (MapsReferences ⟨g, some d, options, strictReferences⟩ d → UsesEarlier ds)
      ∧ ∀ x ∈ ds, x.Written := by
  have exactly := usesEarlier_iff rfl distinct h
  refine ⟨exactly, fun references => ?_, fun x _ => x.written⟩
  exact exactly.2 (mappedBefore_of_mapsReferences distinct.nodup references)

/-- A schema of objects with a property that tells their kind. -/
def kindSchema : Value :=
  .record [("type", .string "object"),
    ("properties", .record [("kind", .record [("type", .string "string")])])]

/-- Animals refer to cats, and map to cats and dogs. -/
def animals : Entries :=
  [(.string "Animal", .record
      [("oneOf", .list [.record [("$ref", .string "#/components/schemas/Cat")]]),
       ("discriminator", .record [("propertyName", .string "kind"),
         ("mapping", .record [("cat", .string "Cat"), ("dog", .string "Dog")])])]),
   (.string "Cat", kindSchema),
   (.string "Dog", kindSchema)]

/-- The declarations of cats, animals and dogs, in this order. -/
def animalDeclarations : List Declaration :=
  let kind : Validator := .object [.mk "kind" true (.base "z.string()")]
  let animal : Validator := .discriminated "kind"
    [.tagged "Cat" "kind" "'cat'", .tagged "Dog" "kind" "'dog'"]
  [⟨"Cat", false, kind⟩, ⟨"Animal", false, animal⟩, ⟨"Dog", false, kind⟩]

theorem distinctIdentifiers_animals : DistinctIdentifiers animals := by
  unfold DistinctIdentifiers
  decide

theorem declarationsOf_animals :
    (declarationsOf ⟨{}, some animals, {}, false⟩ animals).result = .ok animalDeclarations := by
  cbv

/-- The premises hold of the animals. -/
theorem animalDeclarations_usesEarlier_iff :
    DistinctIdentifiers animals
      ∧ (declarationsOf ⟨{}, some animals, {}, false⟩ animals).result = .ok animalDeclarations
      ∧ (UsesEarlier animalDeclarations ↔ MappedBefore ⟨{}, some animals, {}, false⟩ animals)
      ∧ (MapsReferences ⟨{}, some animals, {}, false⟩ animals → UsesEarlier animalDeclarations)
      ∧ ∀ x ∈ animalDeclarations, x.Written :=
  ⟨distinctIdentifiers_animals, declarationsOf_animals,
    declarationsOf_usesEarlier {} animals {} false animalDeclarations
      distinctIdentifiers_animals declarationsOf_animals⟩

/-- Dogs are declared after animals, which use them and are not lazy. -/
theorem animalDeclarations_not_usesEarlier :
    DistinctIdentifiers animals
      ∧ (declarationsOf ⟨{}, some animals, {}, false⟩ animals).result = .ok animalDeclarations
      ∧ ¬ UsesEarlier animalDeclarations := by
  refine ⟨distinctIdentifiers_animals, declarationsOf_animals, fun earlier_used => ?_⟩
  have declared := earlier_used [animalDeclarations[0]] animalDeclarations[1]
    [animalDeclarations[2]] rfl rfl (.mapping "Dog") (by decide)
  revert declared
  decide

end SchemaCodegen.Zod
