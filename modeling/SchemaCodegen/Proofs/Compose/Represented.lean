import SchemaCodegen.Proofs.Compose.Leaves

/-!
# Which properties have leaves

Flattening enters the properties of a schema and the items of its arrays, with one segment more for
each of them (`Enters`).  The leaves of a place that is entered are the leaves of the whole schema
behind its segments (`exists_leaves_of_entered`).

So a property is dropped exactly when nothing below it is a leaf, and there is one way to come to that:
an object without any property is entered, but it has nothing to go on to and is no leaf either.  A
property is represented if and only if some way down from it ends elsewhere than in such an object
(`properties_represented_iff`).
-/

namespace SchemaCodegen

open Relation Traced Entries

variable {g : Anchors} {d : Option Entries} {schema v : Value} {seen segments : List String}
  {required : Bool} {leaves : List FlatField} {limit : Nat}
  {s t : List String × List String × Value}

/-! ### Places -/

/-- `Enters g d s t`: from a place, which is its segments, the references seen and the schema there,
flattening enters a property or the items of an array. -/
inductive Enters (g : Anchors) (d : Option Entries) :
    List String × List String × Value → List String × List String × Value → Prop
  | property {segments seen seen' : List String} {v : Value} {es ps : Entries} {p : Scalar × Value}
      (expanded : (expandSchema g d seen v).result = .ok (some es, seen'))
      (properties : g.objectAt? es "properties" = some ps) (mem : p ∈ ps) :
      Enters g d (segments, seen, v) (segments ++ [p.1.shown], seen', p.2)
  | items {segments seen seen' seen'' : List String} {v items : Value} {es fs ps : Entries}
      (expanded : (expandSchema g d seen v).result = .ok (some es, seen'))
      (no_properties : g.objectAt? es "properties" = none) (array : hasType es "array" = true)
      (at_items : Entries.get? es "items" = some items)
      (inner : (expandSchema g d seen' items).result = .ok (some fs, seen''))
      (properties : g.objectAt? fs "properties" = some ps) :
      Enters g d (segments, seen, v) (segments ++ ["[]"], seen', items)

theorem Enters.descends (enters : Enters g d s t) : Descends g d s.2 t.2 := by
  cases enters with
  | property expanded properties mem => exact .property expanded properties mem
  | items expanded no_properties array at_items inner properties =>
      exact .items expanded no_properties array at_items inner properties

/-- A place that is entered has one segment more. -/
theorem Enters.exists_segment (enters : Enters g d s t) : ∃ segment, t.1 = s.1 ++ [segment] := by
  cases enters with
  | property => exact ⟨_, rfl⟩
  | items => exact ⟨_, rfl⟩

/-- Each step of the descent enters a place. -/
theorem Descends.exists_enters {a b : List String × Value} (step : Descends g d a b)
    (segments : List String) :
    ∃ segment, Enters g d (segments, a) (segments ++ [segment], b) := by
  cases step with
  | property expanded properties mem => exact ⟨_, .property expanded properties mem⟩
  | items expanded no_properties array at_items inner properties =>
      exact ⟨_, .items expanded no_properties array at_items inner properties⟩

/-- A leaf stands for the segments: its own begin with them. -/
def Represented (leaves : List FlatField) (segments : List String) : Prop :=
  ∃ leaf ∈ leaves, segments <+: leaf.segments

/-- Some way down ends elsewhere than in an object without any property. -/
def BearsLeaf (g : Anchors) (d : Option Entries) (a : List String × Value) : Prop :=
  ∃ b, ReflTransGen (Descends g d) a b ∧ (∀ c, ¬ Descends g d b c) ∧ ¬ IsHollow g d b

theorem BearsLeaf.of_descends {a b : List String × Value} (bears : BearsLeaf g d b)
    (step : Descends g d a b) : BearsLeaf g d a := by
  obtain ⟨c, way, bottom⟩ := bears
  exact ⟨c, .head step way, bottom⟩

/-! ### The leaves of a place -/

section Places

variable (keyed : KeyedOnce g (rootsOf schema d)) (texts : NamedByTexts g (rootsOf schema d))

include keyed texts

theorem Enters.within (within : Within g (rootsOf schema d) s.2.2) (enters : Enters g d s t) :
    Within g (rootsOf schema d) t.2.2 := by
  cases enters with
  | property expanded properties mem =>
      have tidy := tidy_of_expandSchema keyed texts within expanded _ rfl
      exact tidy.composed.of_properties passesOn_within properties _ mem
  | items expanded _ _ at_items =>
      have tidy := tidy_of_expandSchema keyed texts within expanded _ rfl
      exact tidy.composed.of_get? at_items (by simp)

/-- **One step**: the leaves of a place that is entered are those behind its segments. -/
theorem exists_leaves_of_enters (within : Within g (rootsOf schema d) s.2.2)
    (found : (flattenWithin g d limit s.1 required s.2.1 s.2.2).result = .ok leaves)
    (enters : Enters g d s t) :
    ∃ lower required' below, (flattenWithin g d lower t.1 required' t.2.1 t.2.2).result = .ok below
      ∧ ∀ leaf, leaf ∈ below ↔ leaf ∈ leaves ∧ t.1 <+: leaf.segments := by
  have t_within := enters.within keyed texts within
  cases limit with
  | zero => cases found
  | succ lower =>
      cases flattensTo_of_flattenWithin found with
      | leaf es ends => exact absurd enters.descends (ends _)
      | properties expanded properties each =>
          cases enters with
          | items expanded' no_properties =>
              cases expanded.symm.trans expanded'
              cases properties.symm.trans no_properties
          | @property segments _ _ _ _ _ p expanded' properties' mem =>
              cases expanded.symm.trans expanded'
              cases properties.symm.trans properties'
              have tidy := tidy_of_expandSchema keyed texts within expanded _ rfl
              obtain ⟨below, at_below, from_p⟩ := exists_of_mem_left each mem
              refine ⟨lower, _, below, from_p, fun leaf => ⟨fun at_leaf => ?_, ?_⟩⟩
              · have behind := (separate_of_flattenWithin keyed texts t_within from_p).behind
                exact ⟨List.mem_flatten.2 ⟨below, at_below, at_leaf⟩, behind leaf at_leaf⟩
              · rintro ⟨at_leaf, behind_p⟩
                obtain ⟨part, at_part, at_leaf⟩ := List.mem_flatten.1 at_leaf
                obtain ⟨q, at_q, from_q⟩ := exists_of_mem_left each.flip at_part
                have q_within := tidy.composed.of_properties passesOn_within properties q at_q
                have behind_q :=
                  (separate_of_flattenWithin keyed texts q_within from_q).behind leaf at_leaf
                -- A leaf behind the segments of both properties makes them one.
                have one_name : p.1.shown = q.1.shown := by
                  by_contra differ
                  exact (incomparable_of_ne differ behind_p behind_q).1 List.prefix_rfl
                have labelled := tidy.labelled properties
                obtain rfl := List.inj_on_of_nodup_map labelled.nodup_shown mem at_q one_name
                cases from_p.symm.trans from_q
                exact at_leaf
      | items expanded no_properties array at_items inner properties below =>
          cases enters with
          | property expanded' properties' =>
              cases expanded.symm.trans expanded'
              cases no_properties.symm.trans properties'
          | items expanded' _ _ at_items' =>
              cases expanded.symm.trans expanded'
              cases at_items.symm.trans at_items'
              have behind := (separate_of_flattenWithin keyed texts t_within below).behind
              exact ⟨lower, required, leaves, below, fun leaf =>
                ⟨fun at_leaf => ⟨at_leaf, behind leaf at_leaf⟩, And.left⟩⟩

/-- **Any number of steps**: the leaves of each place on the way are those behind its segments. -/
theorem exists_leaves_of_entered (within : Within g (rootsOf schema d) s.2.2)
    (found : (flattenWithin g d limit s.1 required s.2.1 s.2.2).result = .ok leaves)
    (way : ReflTransGen (Enters g d) s t) :
    Within g (rootsOf schema d) t.2.2 ∧
      ∃ lower required' below, (flattenWithin g d lower t.1 required' t.2.1 t.2.2).result = .ok below
        ∧ ∀ leaf, leaf ∈ below ↔ leaf ∈ leaves ∧ t.1 <+: leaf.segments := by
  induction way with
  | refl =>
      have behind := (separate_of_flattenWithin keyed texts within found).behind
      exact ⟨within, limit, required, leaves, found, fun leaf =>
        ⟨fun at_leaf => ⟨at_leaf, behind leaf at_leaf⟩, And.left⟩⟩
  | @tail t u _ enters ih =>
      obtain ⟨t_within, lower, required', below, found_t, mem_below⟩ := ih
      obtain ⟨lowest, required'', rest, found_u, mem_rest⟩ :=
        exists_leaves_of_enters keyed texts t_within found_t enters
      refine ⟨enters.within keyed texts t_within, lowest, required'', rest, found_u, fun leaf => ?_⟩
      obtain ⟨segment, longer⟩ := enters.exists_segment
      have shorter : t.1 <+: u.1 := longer ▸ List.prefix_append _ _
      rw [mem_rest, mem_below]
      exact ⟨fun ⟨⟨at_leaf, _⟩, behind⟩ => ⟨at_leaf, behind⟩,
        fun ⟨at_leaf, behind⟩ => ⟨⟨at_leaf, shorter.trans behind⟩, behind⟩⟩

/-! ### Where there are leaves -/

/-- A place with segments that bears a leaf has one. -/
theorem exists_leaf_of_bearsLeaf (within : Within g (rootsOf schema d) v) (inside : segments ≠ [])
    (found : (flattenWithin g d limit segments required seen v).result = .ok leaves)
    (bears : BearsLeaf g d (seen, v)) : ∃ leaf, leaf ∈ leaves := by
  obtain ⟨b, way, ends, solid⟩ := bears
  generalize start : (seen, v) = a at way
  induction way using ReflTransGen.head_induction_on
    generalizing limit segments required seen v leaves with
  | refl =>
      subst start
      cases limit with
      | zero => cases found
      | succ limit =>
          cases flattensTo_of_flattenWithin found with
          | leaf es => simp [leafAt, inside]
          | @properties es ps seen' parts expanded properties =>
              cases ps with
              | nil => exact absurd ⟨es, seen', expanded, properties⟩ solid
              | cons p ps => exact absurd (.property expanded properties List.mem_cons_self) (ends _)
          | items expanded no_properties array at_items inner properties =>
              exact absurd (.items expanded no_properties array at_items inner properties) (ends _)
  | head step _ ih =>
      subst start
      obtain ⟨segment, enters⟩ := step.exists_enters segments
      obtain ⟨lower, required', below, found_below, mem_below⟩ :=
        exists_leaves_of_enters keyed texts within found enters
      obtain ⟨leaf, at_leaf⟩ := ih (enters.within keyed texts within) (by simp) found_below rfl
      exact ⟨leaf, ((mem_below leaf).1 at_leaf).1⟩

omit keyed texts in
/-- Where there is a leaf, the place bears one. -/
theorem bearsLeaf_of_mem {leaf : FlatField}
    (found : (flattenWithin g d limit segments required seen v).result = .ok leaves)
    (mem : leaf ∈ leaves) : BearsLeaf g d (seen, v) := by
  induction limit generalizing segments required seen v leaves with
  | zero => cases found
  | succ limit ih =>
      cases flattensTo_of_flattenWithin found with
      | leaf es ends solid => exact ⟨_, .refl, ends, solid⟩
      | properties expanded properties each =>
          obtain ⟨part, at_part, at_leaf⟩ := List.mem_flatten.1 mem
          obtain ⟨p, at_p, from_p⟩ := exists_of_mem_left each.flip at_part
          exact (ih from_p at_leaf).of_descends (.property expanded properties at_p)
      | items expanded no_properties array at_items inner properties below =>
          exact (ih below mem).of_descends (.items expanded no_properties array at_items inner properties)

omit keyed texts in
/-- What flattening comes to without any leaf is an object without any property. -/
theorem bearsLeaf_or_hollow
    (found : (flattenWithin g d limit segments required seen v).result = .ok leaves) :
    BearsLeaf g d (seen, v)
      ∨ ∃ b, ReflTransGen (Descends g d) (seen, v) b ∧ IsHollow g d b := by
  induction limit generalizing segments required seen v leaves with
  | zero => cases found
  | succ limit ih =>
      have after {b : List String × Value} (step : Descends g d (seen, v) b)
          (there : BearsLeaf g d b ∨ ∃ c, ReflTransGen (Descends g d) b c ∧ IsHollow g d c) :
          BearsLeaf g d (seen, v)
            ∨ ∃ c, ReflTransGen (Descends g d) (seen, v) c ∧ IsHollow g d c :=
        there.imp (·.of_descends step) fun ⟨c, way, hollow⟩ => ⟨c, .head step way, hollow⟩
      cases flattensTo_of_flattenWithin found with
      | leaf es ends solid => exact .inl ⟨_, .refl, ends, solid⟩
      | @properties es ps seen' parts expanded properties each =>
          cases each with
          | nil => exact .inr ⟨_, .refl, es, seen', expanded, properties⟩
          | cons from_p _ =>
              exact after (.property expanded properties List.mem_cons_self) (ih from_p)
      | items expanded no_properties array at_items inner properties below =>
          exact after (.items expanded no_properties array at_items inner properties) (ih below)

/-- A place that is entered is represented exactly when it bears a leaf, and when it bears none there
is an object without any property below it. -/
theorem represented_iff (within : Within g (rootsOf schema d) s.2.2)
    (found : (flattenWithin g d limit s.1 required s.2.1 s.2.2).result = .ok leaves)
    (entered : TransGen (Enters g d) s t) :
    (Represented leaves t.1 ↔ BearsLeaf g d t.2)
      ∧ (BearsLeaf g d t.2 ∨ ∃ b, ReflTransGen (Descends g d) t.2 b ∧ IsHollow g d b) := by
  obtain ⟨t_within, lower, required', below, found_t, mem_below⟩ :=
    exists_leaves_of_entered keyed texts within found entered.to_reflTransGen
  have inside : t.1 ≠ [] := by
    obtain ⟨u, -, last⟩ := TransGen.tail'_iff.1 entered
    obtain ⟨segment, longer⟩ := last.exists_segment
    simp [longer]
  refine ⟨⟨?_, fun bears => ?_⟩, bearsLeaf_or_hollow found_t⟩
  · rintro ⟨leaf, at_leaf, behind⟩
    exact bearsLeaf_of_mem found_t ((mem_below leaf).2 ⟨at_leaf, behind⟩)
  · obtain ⟨leaf, at_leaf⟩ := exists_leaf_of_bearsLeaf keyed texts t_within inside found_t bears
    exact ⟨leaf, (mem_below leaf).1 at_leaf⟩

end Places

/-- **Which properties are represented.**  Let the names of properties be texts.  Wherever flattening
gives a result, at any limit, a property that it enters (or the items of an array) has a leaf whose
segments begin with its own if and only if some way down from it ends elsewhere than in an object
without any property; and if none does, there is such an object below it. -/
theorem properties_represented_iff (keyed : KeyedOnce g (rootsOf schema d))
    (texts : NamedByTexts g (rootsOf schema d)) (start : String)
    (entered : TransGen (Enters g d) (if start.isEmpty then [] else [start], [], schema) t) :
    (∀ limit leaves, (flattenWithin g d limit (if start.isEmpty then [] else [start]) false []
        schema).result = .ok leaves →
      (Represented leaves t.1 ↔ BearsLeaf g d t.2)
        ∧ (BearsLeaf g d t.2 ∨ ∃ b, ReflTransGen (Descends g d) t.2 b ∧ IsHollow g d b))
      ∧ ∀ leaves, (flattenSchema g schema d start).result = .ok leaves →
        (Represented leaves t.1 ↔ BearsLeaf g d t.2) := by
  have within : Within g (rootsOf schema d) schema := .of_mem List.mem_cons_self
  have represented (limit : Nat) (leaves : List FlatField)
      (found : (flattenWithin g d limit (if start.isEmpty then [] else [start]) false []
        schema).result = .ok leaves) :
      (Represented leaves t.1 ↔ BearsLeaf g d t.2)
        ∧ (BearsLeaf g d t.2 ∨ ∃ b, ReflTransGen (Descends g d) t.2 b ∧ IsHollow g d b) :=
    represented_iff keyed texts within found entered
  exact ⟨represented, fun leaves found => (represented descentLimit leaves found).1⟩

/-! ### A team -/

/-- Settings without any property. -/
def settingsSchema : Value :=
  .object [(.string "type", .string "object"), (.string "properties", .object [])]

/-- A list of members, who are in another schema. -/
def membersSchema : Value := .object
  [(.string "type", .string "array"),
    (.string "items", .object [(.string "$ref", .string "#/Member")])]

/-- A team has members and settings. -/
def teamSchema : Value := .object
  [(.string "properties", .object
    [(.string "members", membersSchema), (.string "settings", settingsSchema)])]

/-- A member has a name. -/
def memberSchema : Entries := [(.string "properties", .object [(.string "name", .object [])])]

/-- The schema of members. -/
def roster : Entries := [(.string "Member", .object memberSchema)]

theorem expandSchema_teamSchema : (expandSchema {} (some roster) [] teamSchema).result
    = .ok (some [(.string "properties", .object
      [(.string "members", membersSchema), (.string "settings", settingsSchema)])], []) := by cbv

/-- Flattening enters the names of the members of a team. -/
theorem enters_memberName : TransGen (Enters {} (some roster)) ([], [], teamSchema)
    (["members", "[]", "name"], ["#/Member"], .object []) := by
  have members : (expandSchema {} (some roster) [] membersSchema).result
      = .ok (Anchors.entries? {} membersSchema, []) := by cbv
  have member : (expandSchema {} (some roster) []
      (.object [(.string "$ref", .string "#/Member")])).result
      = .ok (some memberSchema, ["#/Member"]) := by cbv
  have to_members : Enters {} (some roster) ([], [], teamSchema) (["members"], [], membersSchema) :=
    .property expandSchema_teamSchema rfl List.mem_cons_self
  have to_items : Enters {} (some roster) (["members"], [], membersSchema)
      (["members", "[]"], [], .object [(.string "$ref", .string "#/Member")]) :=
    .items members rfl rfl rfl member rfl
  have to_name : Enters {} (some roster)
      (["members", "[]"], [], .object [(.string "$ref", .string "#/Member")])
      (["members", "[]", "name"], ["#/Member"], .object []) :=
    .property member rfl List.mem_cons_self
  exact ((TransGen.single to_members).tail to_items).tail to_name

theorem flattenSchema_teamSchema :
    (flattenSchema {} teamSchema (some roster) "").result
      = .ok [⟨"members[].name", ["members", "[]", "name"], false, []⟩] := by cbv

/-- The premises hold of the names of members, which are represented. -/
theorem properties_represented_iff_memberName :
    KeyedOnce {} (rootsOf teamSchema (some roster))
      ∧ NamedByTexts {} (rootsOf teamSchema (some roster))
      ∧ TransGen (Enters {} (some roster)) ([], [], teamSchema)
        (["members", "[]", "name"], ["#/Member"], .object [])
      ∧ ∃ leaves, (flattenSchema {} teamSchema (some roster) "").result = .ok leaves
        ∧ Represented leaves ["members", "[]", "name"]
        ∧ (Represented leaves ["members", "[]", "name"]
          ↔ BearsLeaf {} (some roster) (["#/Member"], .object [])) := by
  have trees : ∀ root ∈ rootsOf teamSchema (some roster), root.isTree = true := by decide +kernel
  have keyed : KeyedOnce {} (rootsOf teamSchema (some roster)) :=
    forall_within trees (by decide +kernel)
  have texts : NamedByTexts {} (rootsOf teamSchema (some roster)) :=
    namedByTexts_of_trees trees (by decide +kernel)
  have named : Represented [⟨"members[].name", ["members", "[]", "name"], false, []⟩]
      ["members", "[]", "name"] := ⟨_, List.mem_cons_self, List.prefix_rfl⟩
  exact ⟨keyed, texts, enters_memberName, _, flattenSchema_teamSchema, named,
    (properties_represented_iff keyed texts "" enters_memberName).2 _ flattenSchema_teamSchema⟩

/-- The settings of a team are entered, and no leaf stands for them. -/
theorem team_settings_not_represented :
    TransGen (Enters {} (some roster)) ([], [], teamSchema) (["settings"], [], settingsSchema)
      ∧ ∃ leaves, (flattenSchema {} teamSchema (some roster) "").result = .ok leaves
        ∧ ¬ Represented leaves ["settings"] := by
  have to_settings : Enters {} (some roster) ([], [], teamSchema)
      (["settings"], [], settingsSchema) :=
    .property expandSchema_teamSchema rfl (List.mem_cons_of_mem _ List.mem_cons_self)
  refine ⟨.single to_settings, _, flattenSchema_teamSchema, ?_⟩
  rintro ⟨leaf, mem, behind⟩
  rw [List.mem_singleton.1 mem] at behind
  exact absurd behind (by decide)

end SchemaCodegen
