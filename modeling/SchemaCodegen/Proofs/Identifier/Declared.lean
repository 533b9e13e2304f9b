import SchemaCodegen.Proofs.Identifier.Spelling
import SchemaCodegen.Proofs.TypeScript.Named
import SchemaCodegen.Proofs.Zod.Module

/-!
# The identifiers that are declared

Both generators declare one identifier for each schema of a dictionary, the types in document
order and the validators in the order of emission.  Identifiers are made from names by Pascal
case, which is many to one.  So they tell the schemas apart exactly when no two names are
`Alike`, and then an identifier that is used is declared once, by the schema it stands for
(`declarations_identified`).
-/

namespace SchemaCodegen

variable {d : Entries} {names : List String}

/-- No two of the names are alike. -/
def NoneAlike (names : List String) : Prop := ∀ a ∈ names, ∀ b ∈ names, Alike a b → a = b

/-- `Identified name identifier uses names ds`: the declarations `ds` declare one identifier for
each of the names.  They are pairwise distinct exactly when no two names are alike, and then an
identifier that a declaration uses is declared by the schema it stands for, and by no other. -/
structure Identified {α : Type} (name : α → String) (identifier : String → String)
    (uses : α → String → Prop) (names : List String) (ds : List α) : Prop where
  one_each : (ds.map name).Perm names
  distinct : (ds.map fun x => identifier (name x)).Nodup ↔ NoneAlike names
  own : NoneAlike names → ∀ x ∈ ds, ∀ n, uses x n →
    ∃ y ∈ ds, name y = n ∧ ∀ other ∈ ds, identifier (name other) = identifier n → other = y

/-- Declarations of distinct names are identified as soon as they use what is declared. -/
theorem Identified.of_perm {α : Type} {name : α → String} {identifier : String → String}
    {uses : α → String → Prop} {ds : List α} (nodup : names.Nodup)
    (one_each : (ds.map name).Perm names)
    (same_iff : ∀ a b, identifier a = identifier b ↔ Alike a b)
    (known : ∀ x ∈ ds, ∀ n, uses x n → n ∈ names) :
    Identified name identifier uses names ds := by
  have named : (ds.map name).Nodup := one_each.nodup_iff.2 nodup
  refine ⟨one_each, ?_, fun unlike x mem n used => ?_⟩
  · have twice : ds.map (fun x => identifier (name x)) = (ds.map name).map identifier := by
      rw [List.map_map]
      rfl
    rw [twice, List.nodup_map_iff_inj_on named]
    simp only [one_each.mem_iff, same_iff]
    rfl
  · have declared := known x mem n used
    obtain ⟨y, at_y, rfl⟩ := List.mem_map.1 (one_each.mem_iff.2 declared)
    refine ⟨y, at_y, rfl, fun other at_other same => ?_⟩
    have other_named := one_each.mem_iff.1 (List.mem_map_of_mem at_other)
    have one_name := unlike _ other_named _ declared ((same_iff _ _).1 same)
    exact List.inj_on_of_nodup_map named at_other at_y one_name

/-! ### The names of declarations -/

/-- Declarations beside texts have these for names. -/
theorem map_string_of_forall₂ {α : Type} {name : α → String} {keys : List Scalar} {ds : List α}
    (texts : ∀ key ∈ keys, ∃ text, key = .string text)
    (aligned : List.Forall₂ (fun key x => TypeScript.nameOfKey key = .ok (name x)) keys ds) :
    (ds.map name).map Scalar.string = keys := by
  rw [List.map_map]
  refine map_eq_of_forall₂ (((List.forall₂_and_left _ _).2 ⟨texts, aligned⟩).imp ?_)
  rintro key x ⟨⟨text, rfl⟩, named⟩
  cases named
  rfl

section Names

variable (keys : Entries.keys d = names.map Scalar.string)

include keys

theorem exists_text_of_mem_keys : ∀ key ∈ Entries.keys d, ∃ text, key = .string text := by
  intro key mem
  rw [keys] at mem
  obtain ⟨text, -, rfl⟩ := List.mem_map.1 mem
  exact ⟨text, rfl⟩

theorem mem_names_iff {n : String} : .string n ∈ Entries.keys d ↔ n ∈ names := by
  rw [keys]
  simp

/-- There is one declaration of a type for each name, in the same order. -/
theorem map_name_of_types {c : TypeScript.Context} {ds : List TypeScript.Declaration}
    (h : (TypeScript.declarationsOf c d).result = .ok ds) :
    ds.map TypeScript.Declaration.name = names := by
  have aligned := Traced.result_mapM_eq_ok.1 h
  refine List.map_injective_iff.2 (fun _ _ => Scalar.string.inj) ?_
  rw [← keys]
  refine map_string_of_forall₂ (exists_text_of_mem_keys keys) ?_
  rw [Entries.keys, List.forall₂_map_left_iff]
  exact aligned.imp fun e x declared => (TypeScript.declarationOf_eq_ok declared).1

/-- There is one declaration of a validator for each name. -/
theorem perm_names_of_validators {c : Zod.Context} {ds : List Zod.Declaration}
    (nodup : names.Nodup) (h : (Zod.declarationsOf c d).result = .ok ds) :
    (ds.map Zod.Declaration.name).Perm names := by
  have keys_nodup : (Entries.keys d).Nodup := by
    rw [keys]
    exact nodup.map fun _ _ => Scalar.string.inj
  have perm := emissionOrder_perm (g := c.anchors) keys_nodup
  have named : (ds.map Zod.Declaration.name).map Scalar.string = emissionOrder c.anchors d :=
    map_string_of_forall₂
      (fun key mem => exists_text_of_mem_keys keys key (perm.mem_iff.1 mem))
      ((Zod.forall₂_declares h).imp fun key x declares => declares.name)
  refine (List.map_perm_map_iff fun _ _ => Scalar.string.inj).1 ?_
  rw [named, ← keys]
  exact perm

end Names

/-- **Generated identifiers** of types and of validators: one for each name of the dictionary,
pairwise distinct exactly when no two names are alike, and then those that are used are the
schemas' own.  Each declaration writes the identifier that it declares, and those that it uses. -/
theorem declarations_identified (g : Anchors) (d : Entries) (names : List String)
    (keys : Entries.keys d = names.map Scalar.string) (nodup : names.Nodup) :
    (∀ options strict ds,
      (TypeScript.declarationsOf ⟨g, some d, options, strict⟩ d).result = .ok ds →
        Identified TypeScript.Declaration.name typeName
          (fun x n => (TypeScript.Placed.mk 0 x.type).Names n) names ds
          ∧ ∀ x ∈ ds, x.Written) ∧
    (∀ options strict ds, (Zod.declarationsOf ⟨g, some d, options, strict⟩ d).result = .ok ds →
        Identified Zod.Declaration.name validatorName
          (fun x n => ∃ use ∈ x.validator.uses, use.schema = n) names ds
          ∧ ∀ x ∈ ds, x.Written) := by
  constructor
  · intro options strict ds h
    refine ⟨.of_perm nodup (.of_eq (map_name_of_types keys h)) (fun _ _ => typeName_eq_iff) ?_,
      fun x _ => x.written⟩
    intro x mem n used
    obtain ⟨e, -, declared⟩ := Traced.exists_of_mem_mapM h mem
    obtain ⟨-, shape, -, rendered⟩ := TypeScript.declarationOf_eq_ok declared
    obtain ⟨-, ref, -, known⟩ := (TypeScript.names_ofNode shape rendered 0).1 used
    exact (mem_names_iff keys).1 (Zod.mem_keys_of_knownName? known).2
  · intro options strict ds h
    refine ⟨.of_perm nodup (perm_names_of_validators keys nodup h)
      (fun _ _ => validatorName_eq_iff) ?_, fun x _ => x.written⟩
    rintro x mem n ⟨use, at_use, rfl⟩
    obtain ⟨key, -, declares⟩ := exists_of_mem_left (Zod.forall₂_declares h).flip mem
    exact (mem_names_iff keys).1 (Zod.use_mem_keys rfl declares.validator at_use)

/-- The schemas of user ids, under two names that are alike. -/
def userIdSchemas : Entries :=
  [(.string "user-id", .record [("type", .string "string")]),
   (.string "user_id", .record [("type", .string "integer")])]

/-- Two names, and one identifier that is declared twice. -/
theorem declarations_userIdSchemas_not_distinct :
    (Entries.keys userIdSchemas).Nodup ∧
      (∃ ds, (TypeScript.declarationsOf ⟨{}, some userIdSchemas, {}, false⟩ userIdSchemas).result
          = .ok ds ∧
        TypeScript.moduleText ds = "export type UserId = string;\n\nexport type UserId = number;" ∧
        ¬ (ds.map fun x => typeName x.name).Nodup) ∧
      ∃ ds, (Zod.declarationsOf ⟨{}, some userIdSchemas, {}, false⟩ userIdSchemas).result = .ok ds ∧
        ¬ (ds.map fun x => validatorName x.name).Nodup := by
  have types : (TypeScript.declarationsOf ⟨{}, some userIdSchemas, {}, false⟩ userIdSchemas).result
      = .ok [⟨"user-id", none, .builtin "string"⟩, ⟨"user_id", none, .builtin "number"⟩] := by
    cbv
  have validators : (Zod.declarationsOf ⟨{}, some userIdSchemas, {}, false⟩ userIdSchemas).result
      = .ok [⟨"user-id", false, .base "z.string()"⟩,
        ⟨"user_id", false, .base "z.number().int()"⟩] := by
    cbv
  exact ⟨by decide, ⟨_, types, by decide, by decide⟩, ⟨_, validators, by decide⟩⟩

/-- An account refers to a user id. -/
def accountSchemas : Entries :=
  [(.string "account", .record [("$ref", .string "#/components/schemas/user-id")]),
   (.string "user-id", .record [("type", .string "string")])]

/-- The identifiers of accounts and user ids are told apart. -/
theorem declarations_accountSchemas_identified :
    Entries.keys accountSchemas = ["account", "user-id"].map Scalar.string ∧
      ["account", "user-id"].Nodup ∧ NoneAlike ["account", "user-id"] ∧
      (∃ ds, (TypeScript.declarationsOf ⟨{}, some accountSchemas, {}, false⟩ accountSchemas).result
          = .ok ds ∧ (ds.map fun x => typeName x.name).Nodup) ∧
      ∃ ds, (Zod.declarationsOf ⟨{}, some accountSchemas, {}, false⟩ accountSchemas).result = .ok ds ∧
        (ds.map fun x => validatorName x.name).Nodup := by
  have keys : Entries.keys accountSchemas = ["account", "user-id"].map Scalar.string := by decide
  have nodup : ["account", "user-id"].Nodup := by decide
  have unlike : NoneAlike ["account", "user-id"] := by
    unfold NoneAlike
    decide
  have types : (TypeScript.declarationsOf ⟨{}, some accountSchemas, {}, false⟩ accountSchemas).result
      = .ok [⟨"account", none, .named "user-id"⟩, ⟨"user-id", none, .builtin "string"⟩] := by
    cbv
  have validators : (Zod.declarationsOf ⟨{}, some accountSchemas, {}, false⟩ accountSchemas).result
      = .ok [⟨"user-id", false, .base "z.string()"⟩, ⟨"account", false, .named "user-id"⟩] := by
    cbv
  obtain ⟨of_types, of_validators⟩ := declarations_identified {} accountSchemas _ keys nodup
  exact ⟨keys, nodup, unlike, ⟨_, types, (of_types {} false _ types).1.distinct.2 unlike⟩,
    ⟨_, validators, (of_validators {} false _ validators).1.distinct.2 unlike⟩⟩

end SchemaCodegen
