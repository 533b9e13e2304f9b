import SchemaCodegen.Proofs.Compose.Flattening
import SchemaCodegen.Proofs.Compose.Monoid

/-!
# The places of leaves

The leaves of a flattened schema are told apart by their segments, and even by any beginning of them
that is as long as those of another leaf: no leaf has segments that begin with those of another one
(`leaves_prefix_free`).  This holds of graphs too, with references that come back, whenever flattening
gives a result.

### What is load-bearing

A schema is a leaf itself, or its leaves are all behind longer paths, of which there is one for each
property (`Separate`).  For properties that come from several schemas this needs that merging keeps
their names distinct texts: what a schema is expanded to is *tidy* (`tidy_of_expandSchema`), also
where `allOf` has been collapsed on the way (`tidy_of_collapse`).
-/

namespace SchemaCodegen

open Relation Traced Entries

variable {g : Anchors} {d : Option Entries} {roots : List Value} {schema v m t : Value}
  {es fs ps own members : Entries} {seen seen' segments : List String} {required : Bool}
  {leaves : List FlatField} {fresh : List String} {active inner : List Nat} {limit : Nat}

/-! ### Tidy schemas -/

/-- Within the roots, the names of properties are texts. -/
def NamedByTexts (g : Anchors) (roots : List Value) : Prop :=
  ∀ u, Within g roots u → ∀ es ∈ g.entries? u, ∀ ps ∈ g.objectAt? es "properties",
    ∀ k ∈ keys ps, ∃ text, k = .string text

/-- The names of properties in trees are texts when those on the list of their parts are. -/
theorem namedByTexts_of_trees (trees : ∀ root ∈ roots, root.isTree = true)
    (checked : ∀ u ∈ roots.flatMap Value.parts, ∀ es ∈ g.entries? u,
      ∀ ps ∈ g.objectAt? es "properties", ∀ k ∈ keys ps, (Value.scalar k).string?.isSome = true) :
    NamedByTexts g roots := by
  intro u within es entries ps properties k mem
  exact exists_text (forall_within (P := fun u => ∀ es ∈ g.entries? u,
    ∀ ps ∈ g.objectAt? es "properties", ∀ k ∈ keys ps, (Value.scalar k).string?.isSome = true)
    trees checked u within es entries ps properties k mem)

/-- A schema is tidy: its keys differ, its values are from within the roots, if merging has not made
them, and the names of its properties are different texts. -/
structure Tidy (g : Anchors) (roots : List Value) (es : Entries) : Prop where
  once : (keys es).Nodup
  composed : Composed (Within g roots) es
  properties : Labelled (propertiesIn g es)

theorem Tidy.labelled (tidy : Tidy g roots es) (properties : g.objectAt? es "properties" = some ps) :
    Labelled ps := by
  have own := tidy.properties
  rwa [propertiesIn, properties] at own

theorem tidy_nil : Tidy g roots [] := ⟨List.nodup_nil, composed_nil, labelled_nil⟩

theorem Tidy.mergeSchemas (first : Tidy g roots es) (second : Tidy g roots fs) :
    Tidy g roots (mergeSchemas g es fs) where
  once := nodup_keys_mergeSchemas first.once
  composed := (keptByMerging_admits passesOn_within).mergeSchemas first.composed second.composed
  properties := by
    rw [propertiesIn_mergeSchemas second.once]
    exact first.properties.putAll second.properties

theorem tidy_foldl {parts : List Entries} (start : Tidy g roots es)
    (each : ∀ part ∈ parts, Tidy g roots part) :
    Tidy g roots (parts.foldl (SchemaCodegen.mergeSchemas g) es) := by
  induction parts generalizing es with
  | nil => exact start
  | cons part parts ih =>
      obtain ⟨here, later⟩ := List.forall_mem_cons.1 each
      rw [List.foldl_cons]
      exact ih (start.mergeSchemas here) later

/-- The properties of joined schemas are put together as if they were merged. -/
theorem propertiesIn_joinOwn (once : (keys own).Nodup) :
    propertiesIn g (joinOwn g members own)
      = putAll (propertiesIn g members) (propertiesIn g own) := by
  have others : ∀ e ∈ (erase own "allOf").filter
      fun e => e.1 != .string "properties" && e.1 != .string "required",
      e.1 ≠ .string "properties" := by
    intro e mem same
    have kept := (List.mem_filter.1 mem).2
    simp [same] at kept
  have merged : propertiesIn g (joinOwn g members own)
      = propertiesIn g (mergeSchemas g members (erase own "allOf")) := by
    refine propertiesIn_congr ?_
    unfold joinOwn
    dsimp only
    split
    · rw [get?_put, if_neg (by simp), get?_putAll_of_forall_ne others]
    · exact get?_putAll_of_forall_ne others
  have rest : propertiesIn g (erase own "allOf") = propertiesIn g own :=
    propertiesIn_congr (get?_erase_of_ne (by decide))
  rw [merged, propertiesIn_mergeSchemas (nodup_keys_erase once), rest]

/-! ### Collapsing and expanding -/

section Expanding

variable (keyed : KeyedOnce g (rootsOf schema d)) (texts : NamedByTexts g (rootsOf schema d))

include keyed texts

/-- A schema within the roots is tidy. -/
theorem tidy_of_within (within : Within g (rootsOf schema d) v) (entries : g.entries? v = some es) :
    Tidy g (rootsOf schema d) es where
  once := keyed v within es entries
  composed := within.composed entries
  properties := by
    unfold propertiesIn
    cases found : g.objectAt? es "properties" with
    | none => exact labelled_nil
    | some ps =>
        obtain ⟨u, at_key, at_u⟩ := Option.bind_eq_some_iff.1 found
        have part : PartOf g v u := .inr ⟨es, _, entries, mem_of_get? at_key⟩
        exact ⟨keyed u (within.part part) ps at_u, texts v within es entries ps found⟩

/-- Tidy members and a schema within the roots join to a tidy schema. -/
theorem tidy_join {parts : List (Option Entries)} (within : Within g (rootsOf schema d) v)
    (entries : g.entries? v = some own)
    (tidy : ∀ part ∈ parts, ∀ fs ∈ part, Tidy g (rootsOf schema d) fs) :
    Tidy g (rootsOf schema d)
      (joinOwn g ((parts.filterMap id).foldl (mergeSchemas g) []) own) := by
  have own_tidy := tidy_of_within keyed texts within entries
  have merged : Tidy g (rootsOf schema d) ((parts.filterMap id).foldl (mergeSchemas g) []) := by
    refine tidy_foldl tidy_nil fun fs mem => ?_
    obtain ⟨part, at_part, same⟩ := List.mem_filterMap.1 mem
    exact tidy part at_part fs same
  refine ⟨nodup_keys_joinOwn merged.once, ?_, ?_⟩
  · have passes : PassesOn g (Within g (rootsOf schema d)) := passesOn_within
    exact (keptByMerging_admits passes).joinOwn merged.composed (within.composed entries)
  · rw [propertiesIn_joinOwn own_tidy.once]
    exact merged.properties.putAll own_tidy.properties

/-- **Collapsing keeps schemas tidy**, in whatever way it comes to a result. -/
theorem tidy_of_collapse (within : Within g (rootsOf schema d) v)
    (found : (collapse g d fresh active v).result = .ok es) : Tidy g (rootsOf schema d) es :=
  of_collapse (fun _ _ within entries _ => tidy_of_within keyed texts within entries)
    (fun _ _ _ => tidy_join keyed texts) within found

theorem tidy_of_opened (within : Within g (rootsOf schema d) v) {expanded : Option Entries}
    (found : (opened g d v).result = .ok expanded) : ∀ es ∈ expanded, Tidy g (rootsOf schema d) es := by
  unfold opened at found
  cases entries : g.entries? v with
  | none =>
      rw [entries] at found
      cases found
      exact nofun
  | some own =>
      rw [entries] at found
      dsimp only at found
      split at found
      · obtain ⟨es, collapsed, rfl⟩ := result_map_eq_ok.1 found
        rintro _ ⟨⟩
        exact tidy_of_collapse keyed texts within collapsed
      · cases found
        rintro _ ⟨⟩
        exact tidy_of_within keyed texts within entries

/-- **What a schema is expanded to is tidy.** -/
theorem tidy_of_expandSchema (within : Within g (rootsOf schema d) v) {expanded : Option Entries}
    (found : (expandSchema g d seen v).result = .ok (expanded, seen')) :
    ∀ es ∈ expanded, Tidy g (rootsOf schema d) es := by
  cases refers : reference? g v with
  | none =>
      rw [expandSchema_of_plain refers] at found
      obtain ⟨_, opens, same⟩ := result_bind_eq_ok.1 found
      cases same
      exact tidy_of_opened keyed texts within opens
  | some ref =>
      by_cases taken : ref ∈ seen
      · rw [expandSchema_of_mem refers taken] at found
        cases found
        exact nofun
      · cases d with
        | none =>
            unfold expandSchema at found
            rw [refers] at found
            cases found
            exact nofun
        | some ps =>
            rw [expandSchema_of_not_mem refers taken] at found
            obtain ⟨target, leads, found⟩ := result_bind_eq_ok.1 found
            cases target with
            | none =>
                cases found
                exact nofun
            | some t =>
                obtain ⟨_, opens, same⟩ := result_bind_eq_ok.1 found
                cases same
                exact tidy_of_opened keyed texts (of_followInto refers leads).1 opens

end Expanding

/-! ### Segments that do not begin with each other -/

/-- Neither list of segments begins with the other. -/
def Incomparable (s t : List String) : Prop := ¬ s <+: t ∧ ¬ t <+: s

/-- Segments behind different ones do not begin with each other. -/
theorem incomparable_of_ne {s t : List String} {a b : String} (ne : a ≠ b)
    (first : segments ++ [a] <+: s) (second : segments ++ [b] <+: t) : Incomparable s t := by
  have differ {s t : List String} {a b : String} (ne : a ≠ b) (first : segments ++ [a] <+: s)
      (second : segments ++ [b] <+: t) : ¬ s <+: t := by
    intro begins
    have both := List.prefix_of_prefix_length_le (first.trans begins) second (by simp)
    have same := both.eq_of_length (by simp)
    exact ne (List.singleton_inj.1 (List.append_cancel_left same))
  exact ⟨differ ne first second, differ ne.symm second first⟩

/-- The segments of no leaf begin with those of another one, and each path is its segments joined. -/
structure PrefixFree (leaves : List FlatField) : Prop where
  apart : (leaves.map FlatField.segments).Pairwise Incomparable
  paths : ∀ leaf ∈ leaves, leaf.path = joinPath leaf.segments

/-- Such leaves at a place or behind it. -/
structure Separate (segments : List String) (leaves : List FlatField) : Prop
    extends PrefixFree leaves where
  behind : ∀ leaf ∈ leaves, segments <+: leaf.segments

theorem separate_leafAt : Separate segments (leafAt segments required es) := by
  unfold leafAt
  split
  · exact ⟨⟨.nil, nofun⟩, nofun⟩
  · exact ⟨⟨List.pairwise_singleton _ _, by simp⟩, by simp⟩

theorem Separate.of_longer {segment : String} (separate : Separate (segments ++ [segment]) leaves) :
    Separate segments leaves where
  toPrefixFree := separate.toPrefixFree
  behind := fun leaf mem => (List.prefix_append _ _).trans (separate.behind leaf mem)

/-- Leaves behind different segments are separate together. -/
theorem separate_flatten {names : List String} {parts : List (List FlatField)}
    (aligned : List.Forall₂ (fun name part => Separate (segments ++ [name]) part) names parts)
    (once : names.Nodup) : Separate segments parts.flatten := by
  induction aligned with
  | nil => exact ⟨⟨.nil, nofun⟩, nofun⟩
  | @cons name part names parts here later ih =>
      obtain ⟨new, once⟩ := List.nodup_cons.1 once
      have rest := ih once
      have apart : ∀ s ∈ part.map FlatField.segments, ∀ t ∈ parts.flatten.map FlatField.segments,
          Incomparable s t := by
        intro s at_s t at_t
        obtain ⟨leaf, at_leaf, rfl⟩ := List.mem_map.1 at_s
        obtain ⟨other, at_other, rfl⟩ := List.mem_map.1 at_t
        obtain ⟨part', at_part', mem⟩ := List.mem_flatten.1 at_other
        obtain ⟨name', at_name', there⟩ := exists_of_mem_left later.flip at_part'
        have ne : name ≠ name' := fun same => new (same ▸ at_name')
        exact incomparable_of_ne ne (here.behind leaf at_leaf) (there.behind other mem)
      refine ⟨⟨?_, ?_⟩, ?_⟩
      · rw [List.flatten_cons, List.map_append, List.pairwise_append]
        exact ⟨here.apart, rest.apart, apart⟩
      · exact List.forall_mem_append.2 ⟨here.paths, rest.paths⟩
      · exact List.forall_mem_append.2 ⟨here.of_longer.behind, rest.behind⟩

/-! ### Flattening -/

/-- The segments of labelled properties differ. -/
theorem Entries.Labelled.nodup_shown (labelled : Labelled ps) :
    (ps.map fun p => p.1.shown).Nodup := by
  have by_keys : (keys ps).map Scalar.shown = ps.map fun p => p.1.shown := List.map_map
  rw [← by_keys]
  refine List.Nodup.map_on (fun k at_k l at_l same => ?_) labelled.once
  obtain ⟨text, rfl⟩ := labelled.texts k at_k
  obtain ⟨other, rfl⟩ := labelled.texts l at_l
  exact congrArg Scalar.string same

section Places

variable (keyed : KeyedOnce g (rootsOf schema d)) (texts : NamedByTexts g (rootsOf schema d))

include keyed texts

/-- **Flattening separates leaves**, at any place and any limit. -/
theorem separate_of_flattenWithin (within : Within g (rootsOf schema d) v)
    (found : (flattenWithin g d limit segments required seen v).result = .ok leaves) :
    Separate segments leaves := by
  induction limit generalizing segments required seen v leaves with
  | zero => cases found
  | succ limit ih =>
      cases flattensTo_of_flattenWithin found with
      | leaf => exact separate_leafAt
      | properties expanded properties each =>
          have tidy := tidy_of_expandSchema keyed texts within expanded _ rfl
          have labelled := tidy.labelled properties
          have below := tidy.composed.of_properties passesOn_within properties
          have aligned := (List.forall₂_and_left _ _).2 ⟨below, each⟩
          refine separate_flatten (List.forall₂_map_left_iff.2 ?_) labelled.nodup_shown
          exact aligned.imp fun p part here => ih here.1 here.2
      | items expanded _ _ at_items _ _ below =>
          have tidy := tidy_of_expandSchema keyed texts within expanded _ rfl
          exact (ih (tidy.composed.of_get? at_items (by simp)) below).of_longer

end Places

/-- **The leaves of a flattened schema** are told apart: wherever flattening gives a result, at any
limit, the segments of no leaf begin with those of another one, and each path is its segments
joined.  The names of properties have to be texts; the schema and its dictionary may be any graphs,
and the first segment is any text. -/
theorem leaves_prefix_free (keyed : KeyedOnce g (rootsOf schema d))
    (texts : NamedByTexts g (rootsOf schema d)) (start : String) :
    (∀ limit leaves, (flattenWithin g d limit (if start.isEmpty then [] else [start]) false []
        schema).result = .ok leaves → PrefixFree leaves)
      ∧ ∀ leaves, (flattenSchema g schema d start).result = .ok leaves → PrefixFree leaves := by
  have within : Within g (rootsOf schema d) schema := .of_mem List.mem_cons_self
  have flattened (limit : Nat) (leaves : List FlatField)
      (found : (flattenWithin g d limit (if start.isEmpty then [] else [start]) false []
        schema).result = .ok leaves) : PrefixFree leaves :=
    (separate_of_flattenWithin keyed texts within found).toPrefixFree
  exact ⟨flattened, flattened descentLimit⟩

/-- An order has what a document has, and lines; one of its properties is called as items are. -/
def orderSchema : Value := .object
  [(.string "allOf", .list [.object [(.string "$ref", .string "#/Document")]]),
    (.string "properties", .object
      [(.string "[]", .object []),
        (.string "lines", .object [(.string "type", .string "array"),
          (.string "items", .object [(.string "$ref", .string "#/Line")])])])]

/-- The schemas of documents and lines. -/
def ledger : Entries :=
  [(.string "Document", .object
      [(.string "properties", .object [(.string "lines", .object []), (.string "id", .object [])])]),
    (.string "Line", .object [(.string "properties", .object [(.string "sku", .object [])])])]

/-- The premises hold of orders, whose properties come from two schemas. -/
theorem leaves_prefix_free_orders :
    KeyedOnce {} (rootsOf orderSchema (some ledger))
      ∧ NamedByTexts {} (rootsOf orderSchema (some ledger))
      ∧ ∃ leaves, (flattenSchema {} orderSchema (some ledger) "order").result = .ok leaves
        ∧ leaves.map FlatField.path = ["order.lines[].sku", "order.id", "order[]"]
        ∧ PrefixFree leaves := by
  have trees : ∀ root ∈ rootsOf orderSchema (some ledger), root.isTree = true := by decide +kernel
  have keyed : KeyedOnce {} (rootsOf orderSchema (some ledger)) :=
    forall_within trees (by decide +kernel)
  have texts : NamedByTexts {} (rootsOf orderSchema (some ledger)) := by
    have checked := forall_within (g := {}) (P := fun u => ∀ es ∈ Anchors.entries? {} u,
      ∀ ps ∈ Anchors.objectAt? {} es "properties", ∀ k ∈ keys ps,
        (Value.scalar k).string?.isSome = true) trees (by decide +kernel)
    intro u within es entries ps properties k mem
    exact exists_text (checked u within es entries ps properties k mem)
  have paths : (flattenSchema {} orderSchema (some ledger) "order").result.map
      (List.map FlatField.path) = .ok ["order.lines[].sku", "order.id", "order[]"] := by cbv
  refine ⟨keyed, texts, ?_⟩
  cases flattened : (flattenSchema {} orderSchema (some ledger) "order").result with
  | error e =>
      rw [flattened] at paths
      cases paths
  | ok leaves =>
      rw [flattened] at paths
      exact ⟨leaves, rfl, Except.ok.inj paths, (leaves_prefix_free keyed texts _).2 leaves flattened⟩

end SchemaCodegen
