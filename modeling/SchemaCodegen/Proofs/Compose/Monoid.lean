import SchemaCodegen.Proofs.Compose.Members
import SchemaCodegen.Proofs.Data.Labels
import SchemaCodegen.Proofs.Json.Data

/-!
# Merging as an algebra

Merging schemas is associative, the order of keys, of properties and of required names included.
Up to the normal form of required names, the empty schema is a unit on both sides, and a schema
merged with itself is unchanged (`merging_monoid`).

### What is load-bearing

A merged schema is known from its keys and from what stands under each of them
(`Entries.Labelled.ext`).  Its keys are those of the first schema and then the new ones of the
second (`keys_mergeSchemas`).  For what stands under a key there are three rules, and each of them
is associative by itself:

* under `required`, names are united (`get?_required_mergeSchemas`);
* under `properties`, two objects are put together, and an object wins over what is none
  (`get?_properties_mergeSchemas`);
* under any other key, the first value stays (`get?_mergeSchemas`).
-/

namespace SchemaCodegen

open Entries

variable {g : Anchors} {a b c es fs : Entries} {key : String} {v : Value} {x y z : Option Value}
  {names more rest : List String} {e : Scalar × Value} {roots : List Value}

/-! ### Uniting names -/

theorem unite_nil : unite names [] = names := List.append_nil names

theorem nil_unite : unite [] names = names := by
  simp [unite]

theorem unite_self : unite names names = names := by
  unfold unite
  rw [List.filter_eq_nil_iff.2, List.append_nil]
  simp

theorem unite_assoc : unite (unite names more) rest = unite names (unite more rest) := by
  unfold unite
  rw [List.append_assoc, List.filter_append, List.filter_filter]
  congr 2
  refine List.filter_congr fun name _ => ?_
  by_cases first : name ∈ names
  · simp [first]
  · simp [first]

theorem nodup_unite (first : names.Nodup) (second : more.Nodup) : (unite names more).Nodup := by
  refine List.Nodup.append first (second.filter _) fun name old new => ?_
  have fresh := (List.mem_filter.1 new).2
  simp [old] at fresh

/-! ### Required names -/

theorem nodup_keepFirst {xs : List String} : (keepFirst xs).Nodup := by
  suffices grown : ∀ kept : List String, kept.Nodup →
      (xs.foldl (fun kept x => if x ∈ kept then kept else kept ++ [x]) kept).Nodup from
    grown [] List.nodup_nil
  induction xs with
  | nil => exact fun _ once => once
  | cons x xs ih =>
      intro kept once
      rw [List.foldl_cons]
      split
      · exact ih kept once
      · next new =>
          refine ih _ (once.append (List.nodup_singleton x) ?_)
          exact List.disjoint_singleton.2 new

theorem keepFirst_of_nodup {xs : List String} (once : xs.Nodup) : keepFirst xs = xs := by
  suffices grown : ∀ kept : List String, (kept ++ xs).Nodup →
      xs.foldl (fun kept x => if x ∈ kept then kept else kept ++ [x]) kept = kept ++ xs from
    grown [] once
  clear once
  induction xs with
  | nil => simp
  | cons x xs ih =>
      intro kept once
      have new : x ∉ kept := fun mem =>
        (List.nodup_append.1 once).2.2 x mem x List.mem_cons_self rfl
      rw [List.append_cons] at once ⊢
      rw [List.foldl_cons, if_neg new, ih _ once]

theorem nodup_requiredNames : (requiredNames g es).Nodup := by
  unfold requiredNames
  cases g.listAt? es "required" with
  | none => exact List.nodup_nil
  | some xs => exact nodup_keepFirst

/-- Different names that stand under `required` are the required names. -/
theorem requiredNames_of_strings (found : get? es "required" = some (.strings names))
    (once : names.Nodup) : requiredNames g es = names := by
  have texts : (names.map Value.string).filterMap Value.string? = names := by
    rw [List.filterMap_map]
    exact List.filterMap_some
  unfold requiredNames Anchors.listAt?
  rw [found]
  show keepFirst ((names.map Value.string).filterMap Value.string?) = names
  rw [texts, keepFirst_of_nodup once]

theorem requiredNames_of_none (absent : get? es "required" = none) : requiredNames g es = [] := by
  unfold requiredNames Anchors.listAt?
  rw [absent]
  rfl

/-! ### The keys of a merged schema -/

theorem keys_mergeEntry : keys (mergeEntry g names es e) = addKey (keys es) e.1 := by
  unfold mergeEntry
  split
  · exact keys_put
  · split
    · exact keys_put
    · split
      · next named =>
          refine (addKey_of_any ?_).symm
          rw [keys, List.any_map]
          exact named
      · exact keys_put

theorem keys_normalized : keys (normalized g es) = keys es := by
  unfold normalized
  split
  · next has =>
      rw [keys_put]
      exact addKey_of_any (List.any_eq_true.2 ⟨_, has_iff.1 has, sameKey_self _⟩)
  · rfl

/-- The keys of a merged schema are those of the first and then the new ones of the second. -/
theorem keys_mergeSchemas : keys (mergeSchemas g es fs) = addKeys (keys es) (keys fs) := by
  unfold mergeSchemas
  rw [← @keys_normalized g es]
  generalize requiredNames g fs = names
  generalize normalized g es = merged
  induction fs generalizing merged with
  | nil => rfl
  | cons e fs ih =>
      rw [List.foldl_cons, ih, keys_mergeEntry]
      rfl

theorem Entries.Labelled.mergeSchemas (first : Labelled es) (second : Labelled fs) :
    Labelled (mergeSchemas g es fs) where
  once := nodup_keys_mergeSchemas first.once
  texts := by
    intro k mem
    rw [keys_mergeSchemas] at mem
    rcases mem_of_mem_addKeys mem with old | new
    · exact first.texts k old
    · exact second.texts k new

/-! ### What stands under a key -/

theorem get?_normalized (other : key ≠ "required") : get? (normalized g es) key = get? es key := by
  unfold normalized
  split
  · rw [get?_put, if_neg fun same => other (Scalar.string.inj same).symm]
  · rfl

theorem get?_required_normalized : get? (normalized g es) "required"
    = if has es "required" then some (.strings (requiredNames g es)) else none := by
  unfold normalized
  split
  · rw [get?_put, if_pos rfl]
  · next absent => simpa [has] using absent

theorem requiredNames_normalized : requiredNames g (normalized g es) = requiredNames g es := by
  unfold normalized
  split
  · refine requiredNames_of_strings ?_ nodup_requiredNames
    rw [get?_put, if_pos rfl]
  · rfl

theorem mergeEntry_required : mergeEntry g names es (.string "required", v)
    = put es (.string "required") (.strings (unite (requiredNames g es) names)) := rfl

theorem mergeEntry_properties {ps : Entries} (entries : g.entries? v = some ps) :
    mergeEntry g names es (.string "properties", v)
      = put es (.string "properties") (.object (putAll (propertiesIn g es) ps)) := by
  unfold mergeEntry propertiesIn
  rw [if_pos rfl, entries]

/-- What is no object is put under `properties` only if nothing stands there. -/
theorem mergeEntry_properties_of_none (entries : g.entries? v = none) :
    mergeEntry g names es (.string "properties", v)
      = if (get? es "properties").isSome then es else put es (.string "properties") v := by
  unfold mergeEntry
  rw [if_pos rfl, entries, ← hasKey_string]
  rfl

/-- Merging in an entry changes nothing under other keys. -/
theorem get?_mergeEntry_of_ne (other : e.1 ≠ .string key) :
    get? (mergeEntry g names es e) key = get? es key := by
  unfold mergeEntry
  split
  · rw [get?_put, if_neg other]
  · split
    · rw [get?_put, if_neg other]
    · split
      · rfl
      · rw [get?_put, if_neg other]

/-- What an entry puts under its key depends on what stood there only. -/
theorem get?_mergeEntry_congr (same : get? es key = get? fs key) :
    get? (mergeEntry g names es (.string key, v)) key
      = get? (mergeEntry g names fs (.string key, v)) key := by
  unfold mergeEntry
  split
  · next properties found =>
      split at found
      · next at_properties =>
          obtain rfl : key = "properties" := Scalar.string.inj at_properties
          unfold Anchors.objectAt?
          rw [get?_put, get?_put, same]
      · cases found
  · split
    · next at_required =>
        obtain rfl : key = "required" := Scalar.string.inj at_required
        rw [get?_put, get?_put, requiredNames_congr same, if_pos rfl, if_pos rfl]
    · rw [hasKey_string, hasKey_string, same]
      split
      · exact same
      · rw [get?_put, get?_put, same]

/-- Where keys differ, only the entry under a key decides what is merged in there. -/
theorem get?_foldl_mergeEntry (once : (keys fs).Nodup) :
    get? (fs.foldl (mergeEntry g names) es) key = match get? fs key with
      | some v => get? (mergeEntry g names es (.string key, v)) key
      | none => get? es key := by
  induction fs generalizing es with
  | nil => rfl
  | cons e fs ih =>
      obtain ⟨k, w⟩ := e
      have new : k ∉ keys fs ∧ (keys fs).Nodup := List.nodup_cons.1 once
      rw [List.foldl_cons, ih new.2, get?_cons]
      by_cases at_key : k = .string key
      · subst at_key
        rw [get?_eq_none new.1, if_pos rfl]
      · have kept : get? (mergeEntry g names es (k, w)) key = get? es key :=
          get?_mergeEntry_of_ne at_key
        rw [if_neg at_key]
        cases get? fs key with
        | none => exact kept
        | some v => exact get?_mergeEntry_congr kept

/-- **Required names are united**, if one of the schemas has any entry for them. -/
theorem get?_required_mergeSchemas (once : (keys fs).Nodup) :
    get? (mergeSchemas g es fs) "required" = if has es "required" || has fs "required"
      then some (.strings (unite (requiredNames g es) (requiredNames g fs))) else none := by
  rw [mergeSchemas, get?_foldl_mergeEntry once]
  cases found : get? fs "required" with
  | none =>
      have absent : has fs "required" = false := by simp [has, found]
      rw [requiredNames_of_none found, unite_nil, absent, Bool.or_false]
      exact get?_required_normalized
  | some v =>
      have present : has fs "required" = true := by simp [has, found]
      rw [present, Bool.or_true, if_pos rfl]
      dsimp only
      rw [mergeEntry_required, get?_put, if_pos rfl, requiredNames_normalized]

theorem has_required_mergeSchemas (once : (keys fs).Nodup) :
    has (mergeSchemas g es fs) "required" = (has es "required" || has fs "required") := by
  rw [has, get?_required_mergeSchemas once]
  split
  · next either => simp [either]
  · next neither => simpa using neither

theorem requiredNames_mergeSchemas (once : (keys fs).Nodup) :
    requiredNames g (mergeSchemas g es fs) = unite (requiredNames g es) (requiredNames g fs) := by
  by_cases either : (has es "required" || has fs "required") = true
  · refine requiredNames_of_strings ?_ (nodup_unite nodup_requiredNames nodup_requiredNames)
    rw [get?_required_mergeSchemas once, if_pos either]
  · have absent : get? es "required" = none ∧ get? fs "required" = none := by
      simpa [has] using either
    have merged := @get?_required_mergeSchemas g es _ once
    rw [if_neg either] at merged
    rw [requiredNames_of_none merged, requiredNames_of_none absent.1,
      requiredNames_of_none absent.2, unite_nil]

/-- The entries of the object that stands under a key; none if there is no object. -/
def entriesOf (g : Anchors) (x : Option Value) : Entries := (x.bind g.entries?).getD []

theorem propertiesIn_eq : propertiesIn g es = entriesOf g (get? es "properties") := rfl

/-- What merging leaves under `properties`: the properties of both schemas if the second one has an
object there, otherwise what the first one has. -/
def joinProperties (g : Anchors) (first second : Option Value) : Option Value :=
  match second.bind g.entries? with
  | some properties => some (.object (putAll (entriesOf g first) properties))
  | none => first.or second

theorem joinProperties_of_some {ps : Entries} (object : y.bind g.entries? = some ps) :
    joinProperties g x y = some (.object (putAll (entriesOf g x) ps)) := by
  rw [joinProperties, object]

theorem joinProperties_of_none (other : y.bind g.entries? = none) :
    joinProperties g x y = x.or y := by
  rw [joinProperties, other]

/-- **Properties are put together**, those of the second schema winning. -/
theorem get?_properties_mergeSchemas (once : (keys fs).Nodup) :
    get? (mergeSchemas g es fs) "properties"
      = joinProperties g (get? es "properties") (get? fs "properties") := by
  have start : get? (normalized g es) "properties" = get? es "properties" :=
    get?_normalized (by decide)
  rw [mergeSchemas, get?_foldl_mergeEntry once, ← start]
  generalize requiredNames g fs = names
  generalize normalized g es = merged
  cases get? fs "properties" with
  | none => exact Option.or_none.symm
  | some v =>
      dsimp only
      cases entries : (some v).bind g.entries? with
      | some ps =>
          rw [mergeEntry_properties entries, get?_put, if_pos rfl, joinProperties_of_some entries]
          rfl
      | none =>
          rw [mergeEntry_properties_of_none entries, joinProperties_of_none entries]
          cases found : get? merged "properties" with
          | some w => exact found
          | none => exact get?_put

theorem entriesOf_joinProperties :
    entriesOf g (joinProperties g x y) = putAll (entriesOf g x) (entriesOf g y) := by
  cases second : y.bind g.entries? with
  | some ps =>
      rw [joinProperties_of_some second, entriesOf, entriesOf, entriesOf, second]
      rfl
  | none =>
      have no_more : entriesOf g y = [] := by rw [entriesOf, second, Option.getD_none]
      rw [joinProperties_of_none second, no_more]
      cases x with
      | none => exact no_more
      | some v => rfl

/-- The properties of a merged schema are those of the first and the second put together. -/
theorem propertiesIn_mergeSchemas (once : (keys fs).Nodup) :
    propertiesIn g (mergeSchemas g es fs) = putAll (propertiesIn g es) (propertiesIn g fs) := by
  rw [propertiesIn_eq, get?_properties_mergeSchemas once, entriesOf_joinProperties]
  rfl

/-- Properties are put together in either order of merging, if they are labelled. -/
theorem joinProperties_assoc (first : Labelled (entriesOf g x)) (second : Labelled (entriesOf g y))
    (third : Labelled (entriesOf g z)) :
    joinProperties g (joinProperties g x y) z = joinProperties g x (joinProperties g y z) := by
  cases last : z.bind g.entries? with
  | some ps =>
      have third : Labelled ps := by simpa [entriesOf, last] using third
      have both : (joinProperties g y z).bind g.entries? = some (putAll (entriesOf g y) ps) := by
        rw [joinProperties_of_some last]
        rfl
      rw [joinProperties_of_some last, joinProperties_of_some both, entriesOf_joinProperties,
        putAll_assoc first second third]
  | none =>
      rw [joinProperties_of_none last, joinProperties_of_none last]
      cases middle : y.bind g.entries? with
      | some ps =>
          obtain ⟨v, rfl, -⟩ := Option.bind_eq_some_iff.1 middle
          rw [joinProperties_of_some middle, Option.some_or, Option.some_or,
            joinProperties_of_some middle]
      | none =>
          have neither : (y.or z).bind g.entries? = none := by
            cases y with
            | none => exact last
            | some v => exact middle
          rw [joinProperties_of_none middle, joinProperties_of_none neither, Option.or_assoc]

/-! ### Schemas of JSON data -/

/-- The keys of a schema are different texts, and so are the names of its properties. -/
structure Regular (g : Anchors) (es : Entries) : Prop where
  labelled : Labelled es
  properties : Labelled (propertiesIn g es)

theorem Regular.mergeSchemas (first : Regular g es) (second : Regular g fs) :
    Regular g (mergeSchemas g es fs) where
  labelled := first.labelled.mergeSchemas second.labelled
  properties := by
    rw [propertiesIn_mergeSchemas second.labelled.once]
    exact first.properties.putAll second.properties

theorem exists_text {k : Scalar} (text : (Value.scalar k).string?.isSome = true) :
    ∃ name, k = .string name := by
  revert text
  cases k <;> simp [Value.string?]

/-- An object of JSON data whose keys all differ is labelled. -/
theorem labelled_of_isJson (json : (Value.object es).isJson = true)
    (once : (keys es).Nodup) : Labelled es := by
  refine ⟨once, fun k mem => ?_⟩
  obtain ⟨e, at_e, rfl⟩ := List.mem_map.1 mem
  exact exists_text (haveJson_iff.1 json e at_e).1

/-- A schema of JSON data is regular. -/
theorem regular_of_isJson (json : (Value.object es).isJson = true)
    (keyed : KeyedOnce g [.object es]) : Regular g es := by
  have within : Within g [.object es] (.object es) := .of_mem List.mem_cons_self
  refine ⟨labelled_of_isJson json (keyed _ within es rfl), ?_⟩
  unfold propertiesIn
  cases found : g.objectAt? es "properties" with
  | none => exact labelled_nil
  | some ps =>
      obtain ⟨v, at_key, entries⟩ := Option.bind_eq_some_iff.1 found
      have part : PartOf g (.object es) v := .inr ⟨es, _, rfl, mem_of_get? at_key⟩
      have own_json := part.isJson json
      have once := keyed v (within.part part) ps entries
      rw [eq_object_of_entries? (isTree_of_isJson v own_json) entries] at own_json
      exact labelled_of_isJson own_json once

/-! ### The laws -/

/-- Schemas are equal when they have the same keys, in order, and the same under each of them. -/
theorem Entries.Labelled.ext_keywords (labelled : Labelled es) (same_keys : keys es = keys fs)
    (required : get? es "required" = get? fs "required")
    (properties : get? es "properties" = get? fs "properties")
    (plain : ∀ key, key ∉ ["required", "properties"] → get? es key = get? fs key) : es = fs := by
  refine labelled.ext same_keys fun key => ?_
  by_cases special : key ∈ ["required", "properties"]
  · simp only [List.mem_cons, List.not_mem_nil, or_false] at special
    obtain rfl | rfl := special
    · exact required
    · exact properties
  · exact plain key special

/-- **Merging is associative.** -/
theorem mergeSchemas_assoc (first : Regular g a) (second : Regular g b) (third : Regular g c) :
    mergeSchemas g (mergeSchemas g a b) c = mergeSchemas g a (mergeSchemas g b c) := by
  have once_b := second.labelled.once
  have once_c := third.labelled.once
  have once_bc : (keys (mergeSchemas g b c)).Nodup := nodup_keys_mergeSchemas once_b
  refine ((first.mergeSchemas second).mergeSchemas third).labelled.ext_keywords ?_ ?_ ?_ ?_
  · simp only [keys_mergeSchemas, addKeys_assoc]
  · rw [get?_required_mergeSchemas once_c, get?_required_mergeSchemas once_bc,
      has_required_mergeSchemas once_b, has_required_mergeSchemas once_c,
      requiredNames_mergeSchemas once_b, requiredNames_mergeSchemas once_c, unite_assoc,
      Bool.or_assoc]
  · rw [get?_properties_mergeSchemas once_c, get?_properties_mergeSchemas once_b,
      get?_properties_mergeSchemas once_bc, get?_properties_mergeSchemas once_c]
    exact joinProperties_assoc first.properties second.properties third.properties
  · intro key plain
    simp only [get?_mergeSchemas plain, Option.or_assoc]

/-- What stands under `properties` in a tree stays when it is put together with itself or with
nothing. -/
theorem joinProperties_own (regular : Regular g es) (tree : (Value.object es).isTree = true)
    (start : x = none ∨ x = get? es "properties") :
    joinProperties g x (get? es "properties") = get? es "properties" := by
  cases object : (get? es "properties").bind g.entries? with
  | none =>
      rw [joinProperties_of_none object]
      rcases start with rfl | rfl
      · exact Option.none_or
      · exact Option.or_self
  | some ps =>
      obtain ⟨v, found, entries⟩ := Option.bind_eq_some_iff.1 object
      have part : PartOf g (.object es) v := .inr ⟨es, _, rfl, mem_of_get? found⟩
      have labelled : Labelled ps := by
        have properties := regular.properties
        rwa [propertiesIn_eq, entriesOf, object] at properties
      have unchanged : putAll (entriesOf g x) ps = ps := by
        rcases start with rfl | rfl
        · exact nil_putAll labelled
        · rw [entriesOf, object]
          exact putAll_self labelled
      rw [joinProperties_of_some object, unchanged, found,
        ← eq_object_of_entries? (part.isTree tree) entries]

/-- **Merging a schema into nothing or into itself** gives the schema with its required names in
normal form. -/
theorem mergeSchemas_own (regular : Regular g b) (tree : (Value.object b).isTree = true)
    (start : a = [] ∨ a = b) : mergeSchemas g a b = normalized g b := by
  have labelled := regular.labelled
  have once := labelled.once
  have first : Labelled a := by
    rcases start with rfl | rfl
    · exact labelled_nil
    · exact labelled
  refine (first.mergeSchemas labelled).ext_keywords ?_ ?_ ?_ ?_
  · rw [keys_mergeSchemas, keys_normalized]
    rcases start with rfl | rfl
    · exact nil_addKeys labelled.distinct
    · exact addKeys_self
  · rw [get?_required_mergeSchemas once, get?_required_normalized]
    rcases start with rfl | rfl
    · have no_names : requiredNames g [] = [] := requiredNames_of_none rfl
      rw [no_names, nil_unite]
      rfl
    · rw [unite_self, Bool.or_self]
  · rw [get?_properties_mergeSchemas once, get?_normalized (by decide)]
    refine joinProperties_own regular tree ?_
    rcases start with rfl | rfl
    · exact .inl rfl
    · exact .inr rfl
  · intro key plain
    have other : key ≠ "required" := fun same => plain (same ▸ List.mem_cons_self)
    rw [get?_mergeSchemas plain, get?_normalized other]
    rcases start with rfl | rfl
    · exact Option.none_or
    · exact Option.or_self

/-- **Merging schemas is a monoid** on JSON data, up to the normal form of required names.  It is
associative, with the order of keys, properties and required names; the empty schema is a unit on
both sides; and a schema is merged with itself to itself. -/
theorem merging_monoid (json : ∀ es ∈ [a, b, c], (Value.object es).isJson = true)
    (keyed : ∀ es ∈ [a, b, c], KeyedOnce g [.object es]) :
    mergeSchemas g (mergeSchemas g a b) c = mergeSchemas g a (mergeSchemas g b c)
      ∧ mergeSchemas g [] a = normalized g a
      ∧ mergeSchemas g a [] = normalized g a
      ∧ mergeSchemas g a a = normalized g a := by
  have regular : ∀ es ∈ [a, b, c], Regular g es :=
    fun es mem => regular_of_isJson (json es mem) (keyed es mem)
  simp only [List.forall_mem_cons] at regular
  obtain ⟨first, second, third, -⟩ := regular
  have tree : (Value.object a).isTree = true := isTree_of_isJson _ (json a List.mem_cons_self)
  exact ⟨mergeSchemas_assoc first second third, mergeSchemas_own first tree (.inl rfl), rfl,
    mergeSchemas_own first tree (.inr rfl)⟩

/-- A schema with a name required twice. -/
def tagSchema : Entries :=
  [(.string "required", .list [.string "id", .string "id"]),
    (.string "properties", .object [(.string "id", .object [])])]

/-- A schema whose properties and required names are none. -/
def brokenSchema : Entries :=
  [(.string "properties", .null), (.string "type", .string "object"),
    (.string "required", .bool true)]

/-- A schema with a property that another schema has too. -/
def labelSchema : Entries :=
  [(.string "properties", .object [(.string "text", .object []),
      (.string "id", .object [(.string "type", .string "integer")])]),
    (.string "required", .list [.string "text", .int 1])]

/-- The premises hold of schemas that say different things under the same keys. -/
theorem merging_monoid_labels :
    (∀ es ∈ [tagSchema, brokenSchema, labelSchema], (Value.object es).isJson = true)
      ∧ (∀ es ∈ [tagSchema, brokenSchema, labelSchema], KeyedOnce {} [.object es])
      ∧ mergeSchemas {} (mergeSchemas {} tagSchema brokenSchema) labelSchema
          = mergeSchemas {} tagSchema (mergeSchemas {} brokenSchema labelSchema)
      ∧ mergeSchemas {} tagSchema (mergeSchemas {} brokenSchema labelSchema)
          = [(.string "required", .strings ["id", "text"]),
              (.string "properties", .object
                [(.string "id", .object [(.string "type", .string "integer")]),
                  (.string "text", .object [])]),
              (.string "type", .string "object")]
      ∧ mergeSchemas {} tagSchema tagSchema
          = [(.string "required", .strings ["id"]),
              (.string "properties", .object [(.string "id", .object [])])] := by
  have json : ∀ es ∈ [tagSchema, brokenSchema, labelSchema], (Value.object es).isJson = true := by
    decide +kernel
  have keyed : ∀ es ∈ [tagSchema, brokenSchema, labelSchema], KeyedOnce {} [.object es] := by
    simp only [List.forall_mem_cons, List.not_mem_nil, false_imp_iff, implies_true, and_true]
    exact ⟨forall_within (by decide +kernel) (by decide +kernel),
      forall_within (by decide +kernel) (by decide +kernel),
      forall_within (by decide +kernel) (by decide +kernel)⟩
  obtain ⟨assoc, -, -, with_itself⟩ := merging_monoid json keyed
  exact ⟨json, keyed, assoc, by rfl, with_itself⟩

end SchemaCodegen
